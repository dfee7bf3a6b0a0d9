import Mathlib.Data.List.ReduceOption
import Mathlib.Logic.Function.Basic
import OsProj.ByteList
import OsProj.Faulting
import OsProj.MaximalRuns

/-! The tokenizer of hw-shell. All words are built in one static buffer of 4096 bytes. A `size_t`
has 64 bits and an `unsigned int` has 32, so the index of the loop wraps before a line may end. -/
namespace OsProj.Tokenizer

open OsProj.ByteList
open OsProj.Faulting
open OsProj.MaximalRuns

inductive Fault
  /-- A character outside of the line is read, or a byte outside of the token buffer written. -/
  | outside
  | aborted
  /-- The given number of rounds did not suffice. -/
  | running
  deriving DecidableEq, Repr

abbrev CString := {chars : Bytes // 0 ∉ chars}

def CString.charAt (line : CString) (i : Nat) : Except Fault UInt8 :=
  if i ≤ line.val.length then .ok (line.val.getD i 0) else .error .outside

inductive Mode
  | normal
  | squote
  | dquote
  deriving DecidableEq, Repr

def SQUOTE : UInt8 := 39
def DQUOTE : UInt8 := 34
def BACKSLASH : UInt8 := 92

def N_MAX : Nat := 4096

def isspace (c : UInt8) : Bool := c = 32 || 9 ≤ c && c ≤ 13

structure State where
  token : Nat → UInt8
  n : Nat
  tokens : List Bytes
  mode : Mode

def push (s : State) (c : UInt8) : Except Fault State :=
  if s.n < N_MAX then .ok { s with token := Function.update s.token s.n c, n := s.n + 1 } else .error .outside

/-- The characters up to a zero, and zeros up to the given count. -/
def strncpy (source : Nat → UInt8) (count : Nat) : Bytes :=
  let text := ((List.range count).map source).takeWhile (· != 0)
  text ++ List.replicate (count - text.length) 0

/-- The source with its new terminator, and the block of the word. -/
def copy_word (source : Nat → UInt8) (n : Nat) : Except Fault ((Nat → UInt8) × Bytes) :=
  if n < N_MAX then .ok (Function.update source n 0,strncpy (Function.update source n 0) (n + 1)) else .error .outside

/-- `void* word = copy_word(token, n); vector_push(&tokens->tokens, &tokens->tokens_length, word); n = 0;` -/
def pushWord (s : State) : Except Fault State := do
  let (token,word) ← copy_word s.token s.n
  return { s with token := token, tokens := s.tokens ++ [word], n := 0 }

/-- `if (i + 1 < line_length) token[n++] = line[++i];` -/
def escape (line : CString) (i : Nat) (s : State) : Except Fault (Nat × State) := do
  if (i + 1) % 2 ^ 32 < line.val.length then
    let s ← push s (← line.charAt ((i + 1) % 2 ^ 32))
    return ((i + 1) % 2 ^ 32,s)
  else return (i,s)

def quoted (quote : UInt8) (line : CString) (i : Nat) (c : UInt8) (s : State) : Except Fault (Nat × State) := do
  if c = quote then return (i,{ s with mode := .normal })
  else if c = BACKSLASH then escape line i s
  else
    let s ← push s c
    return (i,s)

/-- The loop body up to its check, with the index that it leaves. -/
def body (line : CString) (i : Nat) (s : State) : Except Fault (Nat × State) := do
  let c ← line.charAt i
  match s.mode with
  | .normal =>
    if c = SQUOTE then return (i,{ s with mode := .squote })
    else if c = DQUOTE then return (i,{ s with mode := .dquote })
    else if c = BACKSLASH then escape line i s
    else if isspace c then
      if s.n > 0 then
        let s ← pushWord s
        return (i,s)
      else return (i,s)
    else
      let s ← push s c
      return (i,s)
  | .squote => quoted SQUOTE line i c s
  | .dquote => quoted DQUOTE line i c s

def tokenizeLoop (line : CString) : Nat → Nat → State → Except Fault State
  | 0,_,_ => .error .running
  | fuel + 1,i,s => do
    if i < line.val.length then
      let (i,s) ← body line i s
      if s.n + 1 ≥ N_MAX then throw .aborted
      tokenizeLoop line fuel ((i + 1) % 2 ^ 32) s
    else return s

/-- The blocks of the words. `token` is what an earlier call left in the buffer. -/
def tokenize (token : Nat → UInt8) (fuel : Nat) : Option CString → Except Fault (Option (List Bytes))
  | none => .ok none
  | some line => do
    let s ← tokenizeLoop line fuel 0 ⟨token,0,[],.normal⟩
    let s ← if s.n > 0 then pushWord s else pure s
    return some s.tokens

/-! What a line says, without a buffer. -/

/-- The characters of words, and `none` for a gap between words. -/
def lex : Mode → Bytes → List (Option UInt8)
  | _,[] => []
  | mode,c :: rest =>
    if c = BACKSLASH then
      match rest with
      | [] => []
      | d :: rest => some d :: lex mode rest
    else
      match mode with
      | .normal =>
        if c = SQUOTE then lex .squote rest
        else if c = DQUOTE then lex .dquote rest
        else if isspace c then none :: lex .normal rest
        else some c :: lex .normal rest
      | .squote => if c = SQUOTE then lex .normal rest else some c :: lex .squote rest
      | .dquote => if c = DQUOTE then lex .normal rest else some c :: lex .dquote rest

def spelledFrom (word : Bytes) (events : List (Option UInt8)) : List Bytes :=
  (pieces Option.isSome 1 (word.map some ++ events)).map List.reduceOption

def spelled (line : Bytes) : List Bytes := spelledFrom [] (lex .normal line)

def finished (word : Bytes) : List Bytes := if word = [] then [] else [word]

section
variable {word : Bytes} {events : List (Option UInt8)}

theorem pieces_word (word : Bytes) : (pieces Option.isSome 1 (word.map some)).map List.reduceOption = finished word := by
  rw [pieces_run (by simp),finished]
  cases word with
  | nil => rfl
  | cons c word => simp [List.reduceOption]

@[simp] theorem spelledFrom_nil (word : Bytes) : spelledFrom word [] = finished word := by
  rw [spelledFrom,List.append_nil,pieces_word]

@[simp] theorem spelledFrom_char (word : Bytes) (c : UInt8) (events : List (Option UInt8)) :
    spelledFrom word (some c :: events) = spelledFrom (word ++ [c]) events := by
  simp [spelledFrom]

@[simp] theorem spelledFrom_gap (word : Bytes) (events : List (Option UInt8)) :
    spelledFrom word (none :: events) = finished word ++ spelledFrom [] events := by
  rw [spelledFrom,pieces_separated rfl,List.map_append,pieces_word]
  rfl

/-- The word in progress is part of a word of the line. -/
theorem spelledFrom_long (some_ : word ≠ []) (events : List (Option UInt8)) :
    ∃ whole ∈ spelledFrom word events, word.length ≤ whole.length := by
  induction events generalizing word with
  | nil => exact ⟨word,by simp [finished,some_],Nat.le_refl _⟩
  | cons event events ih =>
    cases event with
    | none => exact ⟨word,by simp [finished,some_],Nat.le_refl _⟩
    | some c =>
      obtain ⟨whole,inside,long⟩ := ih (show word ++ [c] ≠ [] by simp)
      rw [List.length_append] at long
      rw [spelledFrom_char]
      exact ⟨whole,inside,by omega⟩

/-- No character is lost: the words together are the characters. -/
theorem spelledFrom_flatten (word : Bytes) (events : List (Option UInt8)) :
    (spelledFrom word events).flatten = word ++ events.reduceOption := by
  induction events generalizing word with
  | nil =>
    rw [spelledFrom_nil,finished]
    split <;> simp [*]
  | cons event events ih =>
    cases event with
    | none =>
      rw [spelledFrom_gap,List.flatten_append,ih,finished]
      split <;> simp [*]
    | some c => simp [ih]

theorem spelledFrom_nonempty (inside : whole ∈ spelledFrom word events) : whole ≠ [] := by
  induction events generalizing word with
  | nil =>
    rw [spelledFrom_nil,finished] at inside
    split at inside
    · cases inside
    · rwa [List.mem_singleton.mp inside]
  | cons event events ih =>
    cases event with
    | some c => exact ih (by rwa [spelledFrom_char] at inside)
    | none =>
      rw [spelledFrom_gap,List.mem_append,finished] at inside
      rcases inside with now | later
      · split at now
        · cases now
        · rwa [List.mem_singleton.mp now]
      · exact ih later

end

/-! Reading a line character by character. -/

section
variable {c d : UInt8} {rest : Bytes}

@[simp] theorem lex_nil (mode : Mode) : lex mode [] = [] := by rw [lex.eq_def]

theorem lex_escape (mode : Mode) (d : UInt8) (rest : Bytes) : lex mode (BACKSLASH :: d :: rest) = some d :: lex mode rest := by
  rw [lex.eq_def]
  exact if_pos rfl

theorem lex_last (mode : Mode) : lex mode [BACKSLASH] = [] := by
  rw [lex.eq_def]
  exact if_pos rfl

theorem lex_normal (plain : c ≠ BACKSLASH) (rest : Bytes) :
    lex .normal (c :: rest) =
      if c = SQUOTE then lex .squote rest
      else if c = DQUOTE then lex .dquote rest
      else if isspace c then none :: lex .normal rest
      else some c :: lex .normal rest := by
  rw [lex.eq_def]
  exact if_neg plain

theorem lex_squote (plain : c ≠ BACKSLASH) (rest : Bytes) :
    lex .squote (c :: rest) = if c = SQUOTE then lex .normal rest else some c :: lex .squote rest := by
  rw [lex.eq_def]
  exact if_neg plain

theorem lex_dquote (plain : c ≠ BACKSLASH) (rest : Bytes) :
    lex .dquote (c :: rest) = if c = DQUOTE then lex .normal rest else some c :: lex .dquote rest := by
  rw [lex.eq_def]
  exact if_neg plain

end

structure Built (s : State) (word : Bytes) (words : List Bytes) : Prop where
  n : s.n = word.length
  token : ∀ i < word.length, word[i]? = some (s.token i)
  clean : 0 ∉ word
  tokens : s.tokens = words.map (· ++ [0])

inductive Event : List (Option UInt8) → Bytes → List Bytes → Bytes → List Bytes → Prop
  | silent : Event [] word words word words
  | char : Event [some d] word words (word ++ [d]) words
  | gap : Event [none] word words [] (words ++ finished word)

/-- A round reads on by one or two characters and does what they mean. -/
structure Round (line : CString) (i : Nat) (s : State) (word : Bytes) (words : List Bytes) (i' : Nat) (s' : State) : Prop where
  forward : i ≤ i'
  within : i' < line.val.length
  moves : ∃ word' words' events, Built s' word' words' ∧ Event events word words word' words' ∧
    lex s.mode (line.val.drop i) = events ++ lex s'.mode (line.val.drop (i' + 1))

section
variable {s : State} {word : Bytes} {words : List Bytes} {line : CString} {c : UInt8} {rest : Bytes} {i : Nat}

theorem Built.mode (built : Built s word words) (mode : Mode) : Built { s with mode := mode } word words :=
  ⟨built.n,built.token,built.clean,built.tokens⟩

theorem Built.start (token : Nat → UInt8) (mode : Mode) : Built ⟨token,0,[],mode⟩ [] [] :=
  ⟨rfl,fun _ early => absurd early (Nat.not_lt_zero _),List.not_mem_nil,rfl⟩

/-- A character fits as long as the word has fewer than 4095. -/
theorem Built.push (built : Built s word words) (short : word.length < 4095) (some_ : c ≠ 0) :
    ∃ s', push s c = .ok s' ∧ Built s' (word ++ [c]) words ∧ s'.mode = s.mode := by
  have room : s.n < N_MAX := by
    rw [built.n]
    exact Nat.lt_trans short (by decide)
  refine ⟨_,if_pos room,⟨?_,?_,?_,built.tokens⟩,rfl⟩
  · simp [built.n]
  · intro i early
    change _ = some (Function.update s.token s.n c i)
    rw [List.length_append,List.length_singleton] at early
    rcases Nat.lt_succ_iff_lt_or_eq.mp early with old | rfl
    · rw [List.getElem?_append_left old,built.token i old,Function.update_of_ne (by rw [built.n]; omega)]
    · rw [List.getElem?_concat_length,← built.n,Function.update_self]
  · rintro inside
    rcases List.mem_append.mp inside with old | new
    · exact built.clean old
    · exact some_ (List.mem_singleton.mp new).symm

/-- The block of a word is the word and a terminator. -/
theorem strncpy_word (built : Built s word words) : strncpy (Function.update s.token s.n 0) (s.n + 1) = word ++ [0] := by
  have copied : (List.range (s.n + 1)).map (Function.update s.token s.n 0) = word ++ [0] := by
    apply List.ext_getElem?
    intro i
    rw [List.getElem?_map]
    rcases Nat.lt_trichotomy i word.length with early | rfl | late
    · rw [List.getElem?_range (by rw [built.n]; omega),List.getElem?_append_left early,built.token i early,Option.map_some,
        Function.update_of_ne (by rw [built.n]; omega)]
    · rw [← built.n,List.getElem?_range (Nat.lt_succ_self _),Option.map_some,Function.update_self,built.n,List.getElem?_concat_length]
    · rw [List.getElem?_eq_none (by rw [List.length_range,built.n]; exact late),List.getElem?_eq_none (by rw [List.length_append]; exact late)]
      rfl
  have text : (word ++ [0]).takeWhile (· != 0) = word := by
    rw [List.takeWhile_append_of_pos (fun d inside => by simpa using ne_of_mem_of_not_mem inside built.clean)]
    simp
  rw [strncpy,copied,text,built.n,Nat.add_sub_cancel_left]
  rfl

theorem Built.pushWord (built : Built s word words) (short : word.length < 4095) :
    ∃ s', pushWord s = .ok s' ∧ Built s' [] (words ++ [word]) ∧ s'.mode = s.mode := by
  have room : s.n < N_MAX := by
    rw [built.n]
    exact Nat.lt_trans short (by decide)
  have copied : copy_word s.token s.n = .ok (Function.update s.token s.n 0,word ++ [0]) := by
    rw [copy_word,if_pos room,strncpy_word built]
  refine ⟨⟨Function.update s.token s.n 0,0,s.tokens ++ [word ++ [0]],s.mode⟩,?_,⟨rfl,?_,List.not_mem_nil,?_⟩,rfl⟩
  · rw [Tokenizer.pushWord,go copied]
    rfl
  · exact fun _ early => absurd early (Nat.not_lt_zero _)
  · rw [built.tokens,List.map_append]
    rfl

theorem charAt_of_drop (at_ : line.val.drop i = c :: rest) : line.charAt i = .ok c ∧ i < line.val.length ∧ c ≠ 0 := by
  have here : line.val[i]? = some c := by
    have first := congrArg (fun l => l[0]?) at_
    simpa using first
  obtain ⟨less,same⟩ := List.getElem?_eq_some_iff.mp here
  refine ⟨?_,less,?_⟩
  · rw [CString.charAt,if_pos (Nat.le_of_lt less),List.getD_eq_getElem?_getD,here]
    rfl
  · rintro rfl
    exact line.property (List.mem_of_getElem? here)

theorem drop_succ_of_drop (at_ : line.val.drop i = c :: rest) : line.val.drop (i + 1) = rest := by
  rw [← List.drop_drop,at_]
  rfl

/-- A character that only changes the mode. -/
theorem Round.change (built : Built s word words) (at_ : line.val.drop i = c :: rest)
    (meaning : lex s.mode (c :: rest) = lex mode rest) : Round line i s word words i { s with mode := mode } := by
  refine ⟨Nat.le_refl i,(charAt_of_drop at_).2.1,word,words,[],built.mode mode,.silent,?_⟩
  rw [at_,drop_succ_of_drop at_,meaning]
  rfl

/-- A character that stands for itself. -/
theorem Round.plain (built : Built s word words) (short : word.length < 4095) (at_ : line.val.drop i = c :: rest)
    (meaning : lex s.mode (c :: rest) = some c :: lex s.mode rest) :
    ∃ s', push s c = .ok s' ∧ Round line i s word words i s' := by
  obtain ⟨-,less,some_⟩ := charAt_of_drop at_
  obtain ⟨s',pushed,built',mode⟩ := built.push short some_
  refine ⟨s',pushed,Nat.le_refl i,less,_,_,_,built',.char,?_⟩
  rw [at_,drop_succ_of_drop at_,meaning,mode]
  rfl

/-- A space behind a word ends it. -/
theorem Round.gap (built : Built s word words) (short : word.length < 4095) (at_ : line.val.drop i = c :: rest)
    (meaning : lex s.mode (c :: rest) = none :: lex s.mode rest) :
    ∃ s', (if s.n > 0 then (do let s ← pushWord s; return (i,s)) else return (i,s)) = Except.ok (i,s') ∧
      Round line i s word words i s' := by
  have less := (charAt_of_drop at_).2.1
  have next := drop_succ_of_drop at_
  by_cases empty : word = []
  · subst empty
    refine ⟨s,if_neg (by rw [built.n]; exact Nat.lt_irrefl 0),Nat.le_refl i,less,[],_,[none],?_,.gap,?_⟩
    · rw [finished,if_pos rfl,List.append_nil]
      exact built
    · rw [at_,next,meaning]
      rfl
  · obtain ⟨s',pushed,built',mode⟩ := built.pushWord short
    refine ⟨s',?_,Nat.le_refl i,less,[],_,[none],?_,.gap,?_⟩
    · rw [if_pos (by rw [built.n]; exact List.length_pos_iff.mpr empty),go pushed]
      rfl
    · rwa [finished,if_neg empty]
    · rw [at_,next,meaning,mode]
      rfl

/-- A backslash stands for the character behind it, or for nothing at the end of the line. -/
theorem escape_round (built : Built s word words) (short : word.length < 4095) (fits : line.val.length < 2 ^ 32)
    (at_ : line.val.drop i = BACKSLASH :: rest) : ∃ i' s', escape line i s = .ok (i',s') ∧ Round line i s word words i' s' := by
  have less := (charAt_of_drop at_).2.1
  have next := drop_succ_of_drop at_
  unfold escape
  rw [Nat.mod_eq_of_lt (show i + 1 < 2 ^ 32 by omega)]
  cases rest with
  | nil =>
    have last : ¬i + 1 < line.val.length := by
      have := List.drop_eq_nil_iff.mp next
      omega
    refine ⟨i,s,if_neg last,Round.change built at_ ?_⟩
    rw [lex_last,lex_nil]
  | cons d rest =>
    obtain ⟨char,less',some_⟩ := charAt_of_drop next
    obtain ⟨s',pushed,built',mode⟩ := built.push short some_
    refine ⟨i + 1,s',?_,Nat.le_succ i,less',_,_,_,built',.char,?_⟩
    · rw [if_pos less',go char,go pushed]
      rfl
    · rw [at_,drop_succ_of_drop next,lex_escape,mode]
      rfl

theorem quoted_round (built : Built s word words) (short : word.length < 4095) (fits : line.val.length < 2 ^ 32)
    (at_ : line.val.drop i = c :: rest)
    (meaning : c ≠ BACKSLASH → lex s.mode (c :: rest) = if c = quote then lex .normal rest else some c :: lex s.mode rest) 
    (other : quote ≠ BACKSLASH) :
    ∃ i' s', quoted quote line i c s = .ok (i',s') ∧ Round line i s word words i' s' := by
  unfold quoted
  by_cases closing : c = quote
  · refine ⟨i,_,if_pos closing,Round.change built at_ ?_⟩
    rw [meaning (closing ▸ other),if_pos closing]
  rw [if_neg closing]
  by_cases escaped : c = BACKSLASH
  · subst escaped
    rw [if_pos rfl]
    exact escape_round built short fits at_
  have itself := meaning escaped
  rw [if_neg closing] at itself
  obtain ⟨s',pushed,round⟩ := Round.plain built short at_ itself
  refine ⟨i,s',?_,round⟩
  rw [if_neg escaped,go pushed]
  rfl

theorem body_round (built : Built s word words) (short : word.length < 4095) (fits : line.val.length < 2 ^ 32)
    (less : i < line.val.length) : ∃ i' s', body line i s = .ok (i',s') ∧ Round line i s word words i' s' := by
  obtain ⟨c,rest,at_⟩ : ∃ c rest, line.val.drop i = c :: rest := ⟨_,_,List.drop_eq_getElem_cons less⟩
  unfold body
  rw [go (charAt_of_drop at_).1]
  cases mode : s.mode with
  | squote => exact quoted_round built short fits at_ (fun plain => by rw [mode,lex_squote plain]) (by decide)
  | dquote => exact quoted_round built short fits at_ (fun plain => by rw [mode,lex_dquote plain]) (by decide)
  | normal =>
    simp only
    by_cases single : c = SQUOTE
    · refine ⟨i,_,if_pos single,Round.change built at_ ?_⟩
      rw [mode,lex_normal (by rw [single]; decide),if_pos single]
    rw [if_neg single]
    by_cases double : c = DQUOTE
    · refine ⟨i,_,if_pos double,Round.change built at_ ?_⟩
      rw [mode,lex_normal (by rw [double]; decide),if_neg single,if_pos double]
    rw [if_neg double]
    by_cases escaped : c = BACKSLASH
    · subst escaped
      rw [if_pos rfl]
      exact escape_round built short fits at_
    rw [if_neg escaped]
    have meaning := lex_normal escaped rest
    rw [if_neg single,if_neg double,← mode] at meaning
    by_cases space : isspace c = true
    · rw [if_pos space]
      rw [if_pos space] at meaning
      obtain ⟨s',ended,round⟩ := Round.gap built short at_ meaning
      exact ⟨i,s',ended,round⟩
    · rw [if_neg space]
      rw [if_neg space] at meaning
      obtain ⟨s',pushed,round⟩ := Round.plain built short at_ meaning
      refine ⟨i,s',?_,round⟩
      rw [go pushed]
      rfl

theorem Event.spelled (event : Event events word words word' words') (later : List (Option UInt8)) :
    words' ++ spelledFrom word' later = words ++ spelledFrom word (events ++ later) := by
  cases event with
  | silent => rfl
  | char => rw [List.singleton_append,spelledFrom_char]
  | gap => rw [List.singleton_append,spelledFrom_gap,List.append_assoc]

theorem mem_finished (inside : whole ∈ finished word) : whole = word := by
  unfold finished at inside
  split at inside
  · cases inside
  · exact List.mem_singleton.mp inside

/-- A round makes the word in progress longer by at most one character, and finishes no other. -/
theorem Event.short (event : Event events word words word' words') (short : word.length < 4095) (all : ∀ w ∈ words, w.length < 4095) :
    word'.length ≤ 4095 ∧ ∀ w ∈ words', w.length < 4095 := by
  cases event with
  | silent => exact ⟨Nat.le_of_lt short,all⟩
  | char =>
    rw [List.length_append]
    exact ⟨short,all⟩
  | gap =>
    refine ⟨Nat.zero_le _,fun w inside => ?_⟩
    rcases List.mem_append.mp inside with old | new
    · exact all w old
    · rwa [mem_finished new]

/-- The loop ends at the end of the line with all words but the one in progress finished, or it
aborts because the line has a word of at least 4095 characters. -/
theorem tokenizeLoop_spec (built : Built s word words) (short : word.length < 4095) (all : ∀ w ∈ words, w.length < 4095)
    (fits : line.val.length < 2 ^ 32) (within : i ≤ line.val.length) (enough : line.val.length < fuel + i)
    (whole : words ++ spelledFrom word (lex s.mode (line.val.drop i)) = all_) :
    ((∃ w ∈ all_, 4095 ≤ w.length) ∧ tokenizeLoop line fuel i s = .error .aborted) ∨
    (∀ w ∈ all_, w.length < 4095) ∧ ∃ s' word' words', tokenizeLoop line fuel i s = .ok s' ∧ Built s' word' words' ∧
      word'.length < 4095 ∧ words' ++ finished word' = all_ := by
  induction fuel generalizing i s word words with
  | zero => omega
  | succ fuel ih =>
    rw [tokenizeLoop]
    by_cases less : i < line.val.length
    · obtain ⟨i',s',ran,forward,within',word',words',events,built',event,meaning⟩ := body_round built short fits less
      obtain ⟨short',all'⟩ := event.short short all
      rw [meaning,← event.spelled] at whole
      rw [if_pos less,go ran]
      by_cases long : s'.n + 1 ≥ N_MAX
      · have full : 4095 ≤ word'.length := by
          rw [built'.n] at long
          exact Nat.le_of_succ_le_succ long
        have some_ : word' ≠ [] := List.length_pos_iff.mp (Nat.lt_of_lt_of_le (by decide) full)
        obtain ⟨w,inside,longer⟩ := spelledFrom_long some_ (lex s'.mode (line.val.drop (i' + 1)))
        refine .inl ⟨⟨w,?_,Nat.le_trans full longer⟩,?_⟩
        · rw [← whole]
          exact List.mem_append_right _ inside
        · simp only
          rw [if_pos long]
          rfl
      · have short'' : word'.length < 4095 := by
          rw [built'.n] at long
          exact Nat.lt_of_succ_lt_succ (Nat.not_le.mp long)
        simp only
        rw [if_neg long,Nat.mod_eq_of_lt (show i' + 1 < 2 ^ 32 by omega)]
        exact ih built' short'' all' within' (by omega) whole
    · have ended : line.val.drop i = [] := List.drop_eq_nil_of_le (Nat.not_lt.mp less)
      rw [ended,lex_nil,spelledFrom_nil] at whole
      refine .inr ⟨fun w inside => ?_,s,word,words,if_neg less,built,short,whole⟩
      rw [← whole] at inside
      rcases List.mem_append.mp inside with old | new
      · exact all w old
      · rwa [mem_finished new]

/-- The blocks of the words of a line, unless one of them has 4095 characters or more. -/
theorem tokenize_spec (token : Nat → UInt8) (line : CString) (fits : line.val.length < 2 ^ 32) (enough : line.val.length < fuel) :
    ((∃ w ∈ spelled line.val, 4095 ≤ w.length) ∧ tokenize token fuel (some line) = .error .aborted) ∨
    (∀ w ∈ spelled line.val, w.length < 4095) ∧
      tokenize token fuel (some line) = .ok (some ((spelled line.val).map (· ++ [0]))) := by
  have looped := tokenizeLoop_spec (Built.start token .normal) (by decide) (fun w none_ => absurd none_ List.not_mem_nil) fits
    (Nat.zero_le _) enough (show [] ++ spelledFrom [] (lex .normal (line.val.drop 0)) = spelled line.val from rfl)
  rcases looped with ⟨long,ran⟩ | ⟨all,s,word,words,ran,built,short,whole⟩
  · refine .inl ⟨long,?_⟩
    rw [tokenize,ran]
    rfl
  · refine .inr ⟨all,?_⟩
    rw [tokenize,go ran,← whole]
    by_cases empty : word = []
    · have rest : ¬s.n > 0 := by
        rw [built.n,empty]
        exact Nat.lt_irrefl 0
      rw [if_neg rest,finished,if_pos empty,List.append_nil,← built.tokens]
      rfl
    · have more : s.n > 0 := by
        rw [built.n]
        exact List.length_pos_iff.mpr empty
      obtain ⟨s',pushed,built',-⟩ := built.pushWord short
      rw [if_pos more,go pushed,finished,if_neg empty,← built'.tokens]
      rfl

theorem lex_mem (inside : some c ∈ lex mode rest) : c ∈ rest := by
  fun_induction lex mode rest <;> simp_all <;> tauto

theorem spelled_clean (line : CString) (inside : word ∈ spelled line.val) : 0 ∉ word := by
  intro zero
  have together : 0 ∈ (spelled line.val).flatten := List.mem_flatten.mpr ⟨word,inside,zero⟩
  rw [spelled,spelledFrom_flatten,List.nil_append,List.reduceOption_mem_iff] at together
  exact line.property (lex_mem together)

/-- Nothing outside of the buffer is written. The program aborts exactly on a word of 4095 characters
or more, and otherwise each block is a word with its terminator and the words have all characters. -/
theorem tokenize_stays_inside (token : Nat → UInt8) (line : CString) (fits : line.val.length < 2 ^ 32)
    (enough : line.val.length < fuel) :
    tokenize token fuel (some line) ≠ .error .outside ∧
    (tokenize token fuel (some line) = .error .aborted ↔ ∃ word ∈ spelled line.val, 4095 ≤ word.length) ∧
    (tokenize token fuel (some line) ≠ .error .aborted → ∃ words,
      tokenize token fuel (some line) = .ok (some (words.map (· ++ [0]))) ∧ (∀ word ∈ words, word ≠ [] ∧ 0 ∉ word) ∧
      words = spelled line.val ∧ words.flatten = (lex .normal line.val).reduceOption) := by
  rcases tokenize_spec token line fits enough with ⟨long,ran⟩ | ⟨short,ran⟩
  · rw [ran]
    exact ⟨nofun,iff_of_true rfl long,fun other => absurd rfl other⟩
  · rw [ran]
    refine ⟨nofun,iff_of_false nofun ?_,fun _ => ⟨_,rfl,?_,rfl,?_⟩⟩
    · rintro ⟨word,inside,long⟩
      exact Nat.not_lt.mpr long (short word inside)
    · exact fun word inside => ⟨spelledFrom_nonempty inside,spelled_clean line inside⟩
    · rw [spelled,spelledFrom_flatten,List.nil_append]

theorem tokenize_stays_inside_two :
    tokenize (fun _ => 0) 4 (some ⟨[97,32,98],by decide⟩) ≠ .error .outside ∧
    (tokenize (fun _ => 0) 4 (some ⟨[97,32,98],by decide⟩) = .error .aborted ↔ ∃ word ∈ spelled [97,32,98], 4095 ≤ word.length) ∧
    (tokenize (fun _ => 0) 4 (some ⟨[97,32,98],by decide⟩) ≠ .error .aborted → ∃ words,
      tokenize (fun _ => 0) 4 (some ⟨[97,32,98],by decide⟩) = .ok (some (words.map (· ++ [0]))) ∧
      (∀ word ∈ words, word ≠ [] ∧ 0 ∉ word) ∧ words = spelled [97,32,98] ∧ words.flatten = (lex .normal [97,32,98]).reduceOption) :=
  tokenize_stays_inside (fun _ => 0) ⟨[97,32,98],by decide⟩ (by decide) (by decide)

example : tokenize (fun _ => 0) 8 (some ⟨[97,SQUOTE,32,SQUOTE,98,32,99],by decide⟩) = .ok (some [[97,32,98,0],[99,0]]) := by rfl

end

end OsProj.Tokenizer
