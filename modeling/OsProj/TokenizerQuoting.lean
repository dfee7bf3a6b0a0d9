import OsProj.Tokenizer

/-! Quoting words for the shell: the tokenizer reads every quoted form of a list of words back. -/
namespace OsProj.Tokenizer

open OsProj.ByteList
open OsProj.Faulting
open OsProj.MaximalRuns

inductive Inside (quote : UInt8) : Bytes → Bytes → Prop
  | nil : Inside quote [] []
  | plain : c ≠ quote → c ≠ BACKSLASH → Inside quote chars text → Inside quote (c :: chars) (c :: text)
  | escaped : Inside quote chars text → Inside quote (c :: chars) (BACKSLASH :: c :: text)

inductive Glued : Bytes → Bytes → Prop
  | nil : Glued [] []
  | ordinary : c ≠ SQUOTE → c ≠ DQUOTE → c ≠ BACKSLASH → isspace c = false → Glued word text → Glued (c :: word) (c :: text)
  | escaped : Glued word text → Glued (c :: word) (BACKSLASH :: c :: text)
  | squoted : Inside SQUOTE chars within → Glued word text → Glued (chars ++ word) (SQUOTE :: (within ++ SQUOTE :: text))
  | dquoted : Inside DQUOTE chars within → Glued word text → Glued (chars ++ word) (DQUOTE :: (within ++ DQUOTE :: text))

/-- Words with whitespace between them, and possibly before and behind them. -/
inductive Rendering : List Bytes → Bytes → Prop
  | blank : (∀ c ∈ gap, isspace c = true) → Rendering [] gap
  | word : (∀ c ∈ gap, isspace c = true) → Glued word text → (∀ c, rest.head? = some c → isspace c = true) →
      Rendering words rest → Rendering (word :: words) (gap ++ (text ++ rest))

/-! What the quoted forms say. -/

section
variable {c quote : UInt8} {chars word text rest gap : Bytes} {words : List Bytes}

theorem Inside.lex_squote (inside : Inside SQUOTE chars text) (rest : Bytes) :
    lex .squote (text ++ SQUOTE :: rest) = chars.map some ++ lex .normal rest := by
  induction inside with
  | nil => exact (Tokenizer.lex_squote (by decide) rest).trans (if_pos rfl)
  | plain other unescaped _ ih =>
    rw [List.cons_append,Tokenizer.lex_squote unescaped,if_neg other,ih]
    rfl
  | escaped _ ih =>
    rw [List.cons_append,List.cons_append,lex_escape,ih]
    rfl

theorem Inside.lex_dquote (inside : Inside DQUOTE chars text) (rest : Bytes) :
    lex .dquote (text ++ DQUOTE :: rest) = chars.map some ++ lex .normal rest := by
  induction inside with
  | nil => exact (Tokenizer.lex_dquote (by decide) rest).trans (if_pos rfl)
  | plain other unescaped _ ih =>
    rw [List.cons_append,Tokenizer.lex_dquote unescaped,if_neg other,ih]
    rfl
  | escaped _ ih =>
    rw [List.cons_append,List.cons_append,lex_escape,ih]
    rfl

/-- A glued word has the events of its characters. -/
theorem Glued.lex_normal (glued : Glued word text) (rest : Bytes) :
    lex .normal (text ++ rest) = word.map some ++ lex .normal rest := by
  induction glued with
  | nil => rfl
  | ordinary single double unescaped solid _ ih =>
    rw [List.cons_append,Tokenizer.lex_normal unescaped,if_neg single,if_neg double,if_neg (by simp [solid]),ih]
    rfl
  | escaped _ ih =>
    rw [List.cons_append,List.cons_append,lex_escape,ih]
    rfl
  | squoted inside _ ih =>
    rw [List.cons_append,Tokenizer.lex_normal (by decide),if_pos rfl,List.append_assoc,List.cons_append,inside.lex_squote,ih,
      List.map_append,List.append_assoc]
  | dquoted inside _ ih =>
    rw [List.cons_append,Tokenizer.lex_normal (by decide),if_neg (by decide),if_pos rfl,List.append_assoc,List.cons_append,
      inside.lex_dquote,ih,List.map_append,List.append_assoc]

theorem lex_space (space : isspace c = true) (rest : Bytes) : lex .normal (c :: rest) = none :: lex .normal rest := by
  have other : ∀ d, isspace d = false → c ≠ d := by
    rintro d solid rfl
    rw [space] at solid
    cases solid
  rw [Tokenizer.lex_normal (other BACKSLASH (by decide)),if_neg (other SQUOTE (by decide)),if_neg (other DQUOTE (by decide)),
    if_pos space]

/-- Whitespace before a word says nothing. -/
theorem spelled_gap (spaces : ∀ c ∈ gap, isspace c = true) (rest : Bytes) : spelled (gap ++ rest) = spelled rest := by
  induction gap with
  | nil => rfl
  | cons c gap ih =>
    have later := ih fun d inside => spaces d (List.mem_cons_of_mem c inside)
    rw [List.cons_append,spelled,lex_space (spaces c (List.mem_cons_self ..)),spelledFrom_gap,finished,if_pos rfl]
    exact later

theorem spelledFrom_word (chars word : Bytes) (events : List (Option UInt8)) :
    spelledFrom chars (word.map some ++ events) = spelledFrom (chars ++ word) events := by
  induction word generalizing chars with
  | nil => rw [List.append_nil]; rfl
  | cons c word ih => rw [List.map_cons,List.cons_append,spelledFrom_char,ih,List.append_assoc]; rfl

/-- A word ends where whitespace or the end of the line follows. -/
theorem spelledFrom_ended (some_ : word ≠ []) (separated : ∀ c, rest.head? = some c → isspace c = true) :
    spelledFrom word (lex .normal rest) = word :: spelled rest := by
  cases rest with
  | nil =>
    rw [lex_nil,spelledFrom_nil,finished,if_neg some_,spelled,lex_nil,spelledFrom_nil]
    rfl
  | cons c rest =>
    rw [lex_space (separated c rfl),spelledFrom_gap,finished,if_neg some_,spelled,lex_space (separated c rfl),spelledFrom_gap]
    rfl

/-- Every rendering of a list of nonempty words spells them. -/
theorem Rendering.spelled (rendering : Rendering words line) (some_ : ∀ word ∈ words, word ≠ []) : spelled line = words := by
  induction rendering with
  | blank spaces =>
    rename_i gap
    rw [← List.append_nil gap,spelled_gap spaces]
    rfl
  | word spaces glued separated _ ih =>
    rw [spelled_gap spaces,Tokenizer.spelled,glued.lex_normal,spelledFrom_word,List.nil_append,
      spelledFrom_ended (some_ _ (List.mem_cons_self ..)) separated,ih fun w inside => some_ w (List.mem_cons_of_mem _ inside)]

/-- The tokenizer gives a list of words back from each of its renderings. -/
theorem tokenize_inverts (token : Nat → UInt8) (line : CString) (rendering : Rendering words line.val)
    (short : ∀ word ∈ words, word ≠ [] ∧ word.length < 4095) (fits : line.val.length < 2 ^ 32) :
    tokenize token (line.val.length + 1) (some line) = .ok (some (words.map (· ++ [0]))) := by
  have same := rendering.spelled fun word inside => (short word inside).1
  rcases tokenize_spec token line fits (Nat.lt_succ_self _) with ⟨⟨word,inside,long⟩,-⟩ | ⟨-,ran⟩
  · rw [same] at inside
    exact absurd (short word inside).2 (Nat.not_lt.mpr long)
  · rw [ran,same]

theorem tokenize_inverts_one :
    tokenize (fun _ => 0) 8 (some ⟨[97,SQUOTE,98,32,SQUOTE,BACKSLASH,99],by decide⟩) = .ok (some ([[97,98,32,99]].map (· ++ [0]))) := by
  have glued : Glued [97,98,32,99] [97,SQUOTE,98,32,SQUOTE,BACKSLASH,99] :=
    .ordinary (by decide) (by decide) (by decide) (by decide)
      (.squoted (.plain (by decide) (by decide) (.plain (by decide) (by decide) .nil)) (.escaped .nil))
  have rendering : Rendering [[97,98,32,99]] ([] ++ ([97,SQUOTE,98,32,SQUOTE,BACKSLASH,99] ++ [])) :=
    .word (List.forall_mem_nil _) glued nofun (.blank (List.forall_mem_nil _))
  exact tokenize_inverts (fun _ => 0) ⟨[97,SQUOTE,98,32,SQUOTE,BACKSLASH,99],by decide⟩ rendering (by decide) (by decide)

end

end OsProj.Tokenizer
