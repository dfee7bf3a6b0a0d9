import OsProj.ByteList
import OsProj.Faulting
import OsProj.MaximalRuns

/-! `strtok_r` of lib/string.c. A string is a block of memory that ends with its terminator, and a
pointer into it is an index. An access outside of a block fails. -/
namespace OsProj.LibStringTokens

open OsProj.ByteList
open OsProj.Faulting
open OsProj.MaximalRuns

inductive Fault
  /-- An `ASSERT` fails. -/
  | assertion
  | outside
  deriving DecidableEq, Repr

abbrev CString := {chars : Bytes // 0 ∉ chars}

def CString.block (s : CString) : Bytes := s.val ++ [0]

/-- The string that is cut up, and the variable `*save_ptr`. -/
structure Tokenizing where
  string : Bytes
  save_ptr : Option Nat
  deriving DecidableEq, Repr

def charAt (string : Bytes) (s : Nat) : Except Fault UInt8 :=
  match string[s]? with
  | some c => .ok c
  | none => .error .outside

/-- The loop of `strchr` that has reached the given rest of the string. -/
def strchrFrom (c : UInt8) : Bytes → Nat → Except Fault (Option Nat)
  | [],_ => .error .outside
  | b :: rest,i => if b = c then .ok (some i) else if b = 0 then .ok none else strchrFrom c rest (i + 1)

def strchr (string : Bytes) (c : UInt8) : Except Fault (Option Nat) := strchrFrom c string 0

/-- Where the first loop ends: at the terminator, or where a token begins. -/
inductive Skipped
  | terminator (s : Nat)
  | token (s : Nat)
  deriving DecidableEq, Repr

/-- `while (strchr(delimiters, *s) != NULL)` -/
def skipDelimiters (delimiters : Bytes) : Bytes → Nat → Except Fault Skipped
  | [],_ => .error .outside
  | c :: rest,s => do
    if (← strchr delimiters c) ≠ none then
      if c = 0 then return .terminator s
      else skipDelimiters delimiters rest (s + 1)
    else return .token s

/-- `while (strchr(delimiters, *s) == NULL) s++;` -/
def skipToken (delimiters : Bytes) : Bytes → Nat → Except Fault Nat
  | [],_ => .error .outside
  | c :: rest,s => do
    if (← strchr delimiters c) = none then skipToken delimiters rest (s + 1)
    else return s

def strtok_r (s : Option Nat) (delimiters : Bytes) (t : Tokenizing) : Except Fault (Option Nat × Tokenizing) :=
  -- If S is null, start from saved position.
  match s.or t.save_ptr with
  | none => .error .assertion
  | some s => do
    match ← skipDelimiters delimiters (t.string.drop s) s with
    | .terminator s => return (none,{ t with save_ptr := some s })
    | .token token =>
      let s ← skipToken delimiters (t.string.drop token) token
      if (← charAt t.string s) ≠ 0 then return (some token,⟨t.string.set s 0,some (s + 1)⟩)
      else return (some token,{ t with save_ptr := some s })

/-- That many calls `strtok_r(NULL, delimiters, &save_ptr)`. -/
def nextTokens (delimiters : Bytes) : Nat → Tokenizing → Except Fault (List (Option Nat) × Tokenizing)
  | 0,t => return ([],t)
  | calls + 1,t => do
    let (token,t) ← strtok_r none delimiters t
    let (tokens,t) ← nextTokens delimiters calls t
    return (token :: tokens,t)

/-- A call with the string, and then calls with a null pointer. -/
def tokenize (delimiters : Bytes) (calls : Nat) (t : Tokenizing) : Except Fault (List (Option Nat) × Tokenizing) := do
  let (token,t) ← strtok_r (some 0) delimiters t
  let (tokens,t) ← nextTokens delimiters calls t
  return (token :: tokens,t)

/-! One call. -/

def isToken (delims : CString) (c : UInt8) : Bool := !delims.val.contains c

def StringAt (block : Bytes) (s : Nat) (chars : Bytes) : Prop := 0 ∉ chars ∧ ∃ rest, block.drop s = chars ++ 0 :: rest

def pending (text delims : CString) (k : Nat) : List (Nat × Nat) := spansFrom (isToken delims) 1 k k (text.val.drop k)

section
variable {delims text : CString} {c : UInt8} {chars rest skipped run : Bytes}

theorem strchrFrom_eq (chars : CString) (c : UInt8) (i : Nat) :
    strchrFrom c chars.block i = .ok ((chars.block.idxOf? c).map (i + ·)) := by
  obtain ⟨chars,ended⟩ := chars
  induction chars generalizing i with
  | nil =>
    change (if (0 : UInt8) = c then _ else _) = Except.ok (([0].idxOf? c).map _)
    rw [List.idxOf?_singleton]
    by_cases here : (0 : UInt8) = c
    · rw [if_pos here,if_pos (beq_iff_eq.mpr here)]
      rfl
    · rw [if_neg here,if_pos rfl,if_neg (by simpa using here)]
      rfl
  | cons b chars ih =>
    have some_ : b ≠ 0 := fun zero => ended (zero ▸ List.mem_cons_self)
    have next := ih (i + 1) (fun inside => ended (List.mem_cons_of_mem b inside))
    change (if b = c then _ else if b = 0 then _ else strchrFrom c (chars ++ [0]) (i + 1)) =
      Except.ok (((b :: (chars ++ [0])).idxOf? c).map _)
    rw [List.idxOf?_cons]
    by_cases here : b = c
    · rw [if_pos here,if_pos (beq_iff_eq.mpr here)]
      rfl
    · rw [if_neg here,if_neg some_,if_neg (by simpa using here)]
      have shift : (i + ·) ∘ (· + 1) = (i + 1 + ·) := by
        funext j
        exact Nat.add_right_comm i j 1
      rw [Option.map_map,shift]
      exact next

/-- `strchr` finds the terminator too. -/
theorem strchr_eq (delims : CString) (c : UInt8) : strchr delims.block c = .ok (delims.block.idxOf? c) := by
  rw [strchr,strchrFrom_eq]
  simp

theorem not_found_iff (delims : CString) (c : UInt8) : delims.block.idxOf? c = none ↔ isToken delims c = true ∧ c ≠ 0 := by
  rw [List.idxOf?_eq_none_iff,CString.block,isToken]
  simp

theorem skipDelimiters_append (others : ∀ c ∈ skipped, isToken delims c = false) (rest : Bytes) (ended : 0 ∉ skipped) (s : Nat) :
    skipDelimiters delims.block (skipped ++ rest) s = skipDelimiters delims.block rest (s + skipped.length) := by
  induction skipped generalizing s with
  | nil => rfl
  | cons c skipped ih =>
    have found : delims.block.idxOf? c ≠ none := by
      rw [Ne,not_found_iff,others c List.mem_cons_self]
      simp
    have some_ : c ≠ 0 := fun zero => ended (zero ▸ List.mem_cons_self)
    rw [List.cons_append,skipDelimiters,go (strchr_eq delims c),if_pos found,if_neg some_,
      ih (fun b inside => others b (List.mem_cons_of_mem c inside)) (fun inside => ended (List.mem_cons_of_mem c inside)),
      List.length_cons,Nat.add_assoc,Nat.add_comm 1]

theorem skipDelimiters_terminator (rest : Bytes) (s : Nat) :
    skipDelimiters delims.block (0 :: rest) s = .ok (.terminator s) := by
  have found : delims.block.idxOf? 0 ≠ none := by
    rw [Ne,not_found_iff]
    simp
  rw [skipDelimiters,go (strchr_eq delims 0),if_pos found,if_pos rfl]
  rfl

theorem skipDelimiters_token (all : ∀ c ∈ run, isToken delims c = true) (ended : 0 ∉ run) (some_ : run ≠ [])
    (rest : Bytes) (s : Nat) : skipDelimiters delims.block (run ++ rest) s = .ok (.token s) := by
  obtain ⟨c,run,rfl⟩ := List.exists_cons_of_ne_nil some_
  have c_some : c ≠ 0 := fun zero => ended (zero ▸ List.mem_cons_self)
  have missing := (not_found_iff delims c).mpr ⟨all c List.mem_cons_self,c_some⟩
  rw [List.cons_append,skipDelimiters,go (strchr_eq delims c),if_neg (not_not_intro missing)]
  rfl

theorem skipToken_append (all : ∀ c ∈ run, isToken delims c = true) (ended : 0 ∉ run) (rest : Bytes) (s : Nat) :
    skipToken delims.block (run ++ rest) s = skipToken delims.block rest (s + run.length) := by
  induction run generalizing s with
  | nil => rfl
  | cons c run ih =>
    have some_ : c ≠ 0 := fun zero => ended (zero ▸ List.mem_cons_self)
    have missing := (not_found_iff delims c).mpr ⟨all c List.mem_cons_self,some_⟩
    rw [List.cons_append,skipToken,go (strchr_eq delims c),if_pos missing,
      ih (fun b inside => all b (List.mem_cons_of_mem c inside)) (fun inside => ended (List.mem_cons_of_mem c inside)),
      List.length_cons,Nat.add_assoc,Nat.add_comm 1]

/-- A delimiter or the terminator ends a token. -/
theorem skipToken_stop (stops : isToken delims c = false ∨ c = 0) (rest : Bytes) (s : Nat) :
    skipToken delims.block (c :: rest) s = .ok s := by
  have found : delims.block.idxOf? c ≠ none := by
    rw [Ne,not_found_iff]
    rcases stops with other | zero
    · simp [other]
    · simp [zero]
  rw [skipToken,go (strchr_eq delims c),if_neg found]
  rfl

end

section
variable {delims text : CString} {s : Option Nat} {t t' : Tokenizing} {c : UInt8} {block chars rest done skipped run : Bytes}

theorem drop_behind (at_ : block.drop k = done ++ rest) : block.drop (k + done.length) = rest := by
  rw [← List.drop_drop,at_,List.drop_left]

theorem charAt_at (at_ : block.drop k = c :: rest) : charAt block k = .ok c := by
  have here := congrArg (fun l => l[0]?) at_
  simp only [List.getElem?_drop,Nat.add_zero,List.getElem?_cons_zero] at here
  rw [charAt,here]

theorem slice_at (at_ : chars.drop k = done ++ rest) : slice chars (k,k + done.length) = done := by
  rw [slice,at_,Nat.add_sub_cancel_left,List.take_left]

/-- A terminator behind a string does not change it. -/
theorem StringAt.set (string : StringAt block k chars) (behind : k + chars.length ≤ i) : StringAt (block.set i 0) k chars := by
  obtain ⟨ended,rest,at_⟩ := string
  refine ⟨ended,?_⟩
  rw [List.drop_set,if_neg (by omega),at_,List.set_append_right _ _ (by omega)]
  cases i - k - chars.length with
  | zero => exact ⟨rest,rfl⟩
  | succ j => exact ⟨rest.set j 0,rfl⟩

structure Whole (text : CString) (t : Tokenizing) (k : Nat) : Prop where
  within : k ≤ text.val.length
  tail : t.string.drop k = text.val.drop k ++ [0]

/-- A call that starts at `k` returns the first token from there on and leaves the others to a call
that starts at `k'`. -/
structure Called (text delims : CString) (t : Tokenizing) (k : Nat) (token : Option Nat) (t' : Tokenizing) (k' : Nat) : Prop where
  token_ : token = (pending text delims k).head?.map Prod.fst
  later : pending text delims k' = (pending text delims k).tail
  saved : t'.save_ptr = some k'
  whole : Whole text t' k'
  order : k ≤ k'
  string : ∀ span ∈ (pending text delims k).head?,
    span.1 + (slice text.val span).length ≤ k' ∧ StringAt t'.string span.1 (slice text.val span)
  kept : ∀ a chars, a + chars.length ≤ k → StringAt t.string a chars → StringAt t'.string a chars

/-- Only delimiters are left. -/
theorem strtok_r_none (start : s.or t.save_ptr = some k) (tail : t.string.drop k = skipped ++ [0])
    (others : ∀ c ∈ skipped, isToken delims c = false) (ended : 0 ∉ skipped) :
    strtok_r s delims.block t = .ok (none,{ t with save_ptr := some (k + skipped.length) }) := by
  simp only [strtok_r,start,tail,skipDelimiters_append others [0] ended,skipDelimiters_terminator]
  rfl

/-- A token that `c` ends. -/
theorem strtok_r_some (start : s.or t.save_ptr = some k) (tail : t.string.drop k = skipped ++ (run ++ c :: rest))
    (others : ∀ c ∈ skipped, isToken delims c = false) (skipped_ended : 0 ∉ skipped)
    (all : ∀ c ∈ run, isToken delims c = true) (run_ended : 0 ∉ run) (some_ : run ≠ [])
    (stops : isToken delims c = false ∨ c = 0) :
    strtok_r s delims.block t = .ok (some (k + skipped.length),
      if c ≠ 0 then ⟨t.string.set (k + skipped.length + run.length) 0,some (k + skipped.length + run.length + 1)⟩
      else { t with save_ptr := some (k + skipped.length + run.length) }) := by
  have token := drop_behind tail
  have stop := drop_behind token
  simp only [strtok_r,start,tail,skipDelimiters_append others _ skipped_ended,skipDelimiters_token all run_ended some_,
    go rfl,token,skipToken_append all run_ended,skipToken_stop stops,charAt_at stop]
  split
  · rfl
  · rfl

theorem pending_others (at_ : text.val.drop k = skipped) (others : ∀ c ∈ skipped, isToken delims c = false) :
    pending text delims k = [] := by
  have found := spansFrom_others Nat.one_pos others k []
  rw [List.append_nil] at found
  rw [pending,at_,found]
  exact if_neg (by omega)

theorem pending_last (at_ : text.val.drop k = skipped ++ run) (others : ∀ c ∈ skipped, isToken delims c = false)
    (all : ∀ c ∈ run, isToken delims c = true) (some_ : run ≠ []) :
    pending text delims k = [(k + skipped.length,k + skipped.length + run.length)] := by
  have alone := spansFrom_run (n := 1) all (k + skipped.length) (k + skipped.length) []
  rw [List.append_nil] at alone
  rw [pending,at_,spansFrom_others Nat.one_pos others,alone]
  exact close_run some_ _

theorem pending_run (at_ : text.val.drop k = skipped ++ (run ++ c :: rest)) (others : ∀ c ∈ skipped, isToken delims c = false)
    (all : ∀ c ∈ run, isToken delims c = true) (some_ : run ≠ []) (other : isToken delims c = false) :
    pending text delims k =
      (k + skipped.length,k + skipped.length + run.length) :: pending text delims (k + skipped.length + run.length + 1) := by
  have more : text.val.drop (k + skipped.length + run.length + 1) = rest := by
    rw [← List.drop_drop,drop_behind (drop_behind at_)]
    rfl
  rw [pending,at_,spansFrom_others Nat.one_pos others,spansFrom_run all,spansFrom,other,if_neg Bool.false_ne_true,
    close_run some_,pending,more]
  rfl

/-- The three ways in which the rest of the text may begin. -/
theorem called_none (whole : Whole text t k) (at_ : text.val.drop k = skipped)
    (others : ∀ c ∈ skipped, isToken delims c = false) :
    Called text delims t k none { t with save_ptr := some (k + skipped.length) } (k + skipped.length) := by
  have size := congrArg List.length at_
  have tail := whole.tail
  have none_ := pending_others at_ others
  have last : text.val.drop (k + skipped.length) = [] := drop_behind (by rw [at_,List.append_nil])
  rw [List.length_drop] at size
  rw [at_] at tail
  constructor
  · rw [none_]
    rfl
  · rw [none_]
    exact pending_others last (List.forall_mem_nil _)
  · rfl
  · have within := whole.within
    exact ⟨by omega,by rw [last]; exact drop_behind tail⟩
  · exact Nat.le_add_right ..
  · rw [none_]
    rintro span ⟨⟩
  · exact fun a chars _ string => string

theorem called_last (whole : Whole text t k) (at_ : text.val.drop k = skipped ++ run)
    (others : ∀ c ∈ skipped, isToken delims c = false) (all : ∀ c ∈ run, isToken delims c = true)
    (run_ended : 0 ∉ run) (some_ : run ≠ []) :
    Called text delims t k (some (k + skipped.length)) { t with save_ptr := some (k + skipped.length + run.length) }
      (k + skipped.length + run.length) := by
  have size := congrArg List.length at_
  have tail := whole.tail
  have found := pending_last at_ others all some_
  have token := drop_behind at_
  have last : text.val.drop (k + skipped.length + run.length) = [] := drop_behind (by rw [token,List.append_nil])
  have piece : slice text.val (k + skipped.length,k + skipped.length + run.length) = run :=
    slice_at (by rw [token,List.append_nil])
  rw [List.length_drop,List.length_append] at size
  rw [at_,List.append_assoc] at tail
  have string := drop_behind tail
  constructor
  · rw [found]
    rfl
  · rw [found]
    exact pending_others last (List.forall_mem_nil _)
  · rfl
  · have within := whole.within
    exact ⟨by omega,by rw [last]; exact drop_behind string⟩
  · omega
  · rw [found]
    rintro span ⟨⟩
    rw [piece]
    exact ⟨Nat.le_refl _,run_ended,[],string⟩
  · exact fun a chars _ string => string

theorem called_run (whole : Whole text t k) (at_ : text.val.drop k = skipped ++ (run ++ c :: rest))
    (others : ∀ c ∈ skipped, isToken delims c = false) (all : ∀ c ∈ run, isToken delims c = true)
    (run_ended : 0 ∉ run) (some_ : run ≠ []) (other : isToken delims c = false) :
    Called text delims t k (some (k + skipped.length))
      ⟨t.string.set (k + skipped.length + run.length) 0,some (k + skipped.length + run.length + 1)⟩
      (k + skipped.length + run.length + 1) := by
  have size := congrArg List.length at_
  have tail := whole.tail
  have found := pending_run at_ others all some_ other
  have token := drop_behind at_
  have piece := slice_at token
  rw [List.length_drop,List.length_append,List.length_append,List.length_cons] at size
  rw [at_,List.append_assoc,List.append_assoc,List.cons_append] at tail
  have string := drop_behind tail
  constructor
  · rw [found]
    rfl
  · rw [found]
    rfl
  · rfl
  · have within := whole.within
    refine ⟨by omega,?_⟩
    rw [List.drop_set,if_pos (Nat.lt_succ_self _),← List.drop_drop,drop_behind string,← List.drop_drop,drop_behind token]
    rfl
  · omega
  · rw [found]
    rintro span ⟨⟩
    rw [piece]
    refine ⟨Nat.le_succ _,run_ended,rest ++ [0],?_⟩
    rw [List.drop_set,if_neg (by omega),string,Nat.add_sub_cancel_left,List.set_append_right _ _ (Nat.le_refl _),Nat.sub_self]
    rfl
  · exact fun a chars before string => string.set (by omega)

theorem strtok_r_called (delims : CString) (start : s.or t.save_ptr = some k) (whole : Whole text t k) :
    ∃ token t' k', strtok_r s delims.block t = .ok (token,t') ∧ Called text delims t k token t' k' := by
  obtain ⟨rest,at_⟩ : ∃ rest, text.val.drop k = rest := ⟨_,rfl⟩
  have ended : 0 ∉ rest := fun inside => text.property (List.mem_of_mem_drop (at_ ▸ inside))
  have tail := whole.tail
  rw [at_] at tail
  cases begins (isToken delims) rest with
  | others others => exact ⟨none,_,_,strtok_r_none start tail others ended,called_none whole at_ others⟩
  | last others all some_ =>
    obtain ⟨skipped_ended,run_ended⟩ := not_or.mp (List.mem_append.not.mp ended)
    rw [List.append_assoc] at tail
    exact ⟨_,_,_,strtok_r_some start tail others skipped_ended all run_ended some_ (.inr rfl),
      called_last whole at_ others all run_ended some_⟩
  | @run skipped run c rest others all some_ other =>
    obtain ⟨skipped_ended,behind_ended⟩ := not_or.mp (List.mem_append.not.mp ended)
    obtain ⟨run_ended,more_ended⟩ := not_or.mp (List.mem_append.not.mp behind_ended)
    have c_some : c ≠ 0 := fun zero => more_ended (zero ▸ List.mem_cons_self)
    rw [List.append_assoc,List.append_assoc,List.cons_append] at tail
    have call := strtok_r_some start tail others skipped_ended all run_ended some_ (.inl other)
    rw [if_pos c_some] at call
    exact ⟨_,_,_,call,called_run whole at_ others all run_ended some_ other⟩

/-! All calls. -/

/-- What calls from a place on have returned, and the strings that the pointers now point to. -/
structure Found (text delims : CString) (t : Tokenizing) (k calls : Nat) (tokens : List (Option Nat)) (t' : Tokenizing) : Prop where
  tokens_ : tokens = (List.range calls).map fun i => (pending text delims k)[i]?.map Prod.fst
  strings : ∀ span ∈ (pending text delims k).take calls, StringAt t'.string span.1 (slice text.val span)
  kept : ∀ a chars, a + chars.length ≤ k → StringAt t.string a chars → StringAt t'.string a chars

/-- A call, and the calls behind it. -/
theorem Called.found (called : Called text delims t k token t' k') (found : Found text delims t' k' calls tokens t'') :
    Found text delims t k (calls + 1) (token :: tokens) t'' := by
  obtain ⟨tokens_,strings,kept⟩ := found
  rw [called.later] at tokens_ strings
  have string := called.string
  have token_ := called.token_
  refine ⟨?_,?_,fun a chars before old => kept a chars (Nat.le_trans before called.order) (called.kept a chars before old)⟩
  · rw [List.range_succ_eq_map,List.map_cons,List.map_map,token_,tokens_,List.head?_eq_getElem?]
    congr 1
    apply List.map_congr_left
    intro i _
    simp only [Function.comp,List.getElem?_tail]
  · cases all : pending text delims k with
    | nil => simp
    | cons first others =>
      rw [all] at strings string
      intro span inside
      rcases List.mem_cons.mp inside with rfl | later
      · obtain ⟨before,now⟩ := string span rfl
        exact kept _ _ before now
      · exact strings span later

theorem nextTokens_found (delims : CString) (calls : Nat) (saved : t.save_ptr = some k) (whole : Whole text t k) :
    ∃ tokens t', nextTokens delims.block calls t = .ok (tokens,t') ∧ Found text delims t k calls tokens t' := by
  induction calls generalizing t k with
  | zero => exact ⟨[],t,rfl,rfl,by simp,fun a chars _ string => string⟩
  | succ calls ih =>
    obtain ⟨token,next,k',called,result⟩ := strtok_r_called (s := none) delims saved whole
    obtain ⟨tokens,last,others,found⟩ := ih result.saved result.whole
    refine ⟨token :: tokens,last,?_,result.found found⟩
    rw [nextTokens,go called]
    change (nextTokens delims.block calls next >>= _) = _
    rw [go others]
    rfl

/-- The calls return the maximal runs of characters that are no delimiters, from left to right, and
null pointers from then on; each pointer still points to its run in the end. -/
theorem tokenize_runs (text delims : CString) (save_ptr : Option Nat) :
    ∃ runs : List (Nat × Nat),
      (∀ a b, (a,b) ∈ runs ↔ MaximalRun (isToken delims) text.val a b) ∧ (runs.Pairwise fun r r' => r.2 < r'.1) ∧
      ∀ calls, ∃ tokens t, tokenize delims.block calls ⟨text.block,save_ptr⟩ = .ok (tokens,t) ∧
        tokens = (List.range (calls + 1)).map (fun i => runs[i]?.map Prod.fst) ∧
        ∀ r ∈ runs.take (calls + 1), StringAt t.string r.1 (slice text.val r) := by
  refine ⟨spans (isToken delims) 1 text.val,?_,spans_ordered ..,?_⟩
  · intro a b
    rw [mem_spans Nat.one_pos]
    exact and_iff_left_of_imp fun maximal => maximal.nonempty
  · intro calls
    have whole : Whole text ⟨text.block,save_ptr⟩ 0 := ⟨Nat.zero_le _,rfl⟩
    obtain ⟨token,next,k,called,result⟩ := strtok_r_called (s := some 0) delims rfl whole
    obtain ⟨tokens,last,others,found⟩ := nextTokens_found delims calls result.saved result.whole
    obtain ⟨tokens_,strings,-⟩ := result.found found
    refine ⟨token :: tokens,last,?_,tokens_,strings⟩
    rw [tokenize,go called]
    change (nextTokens delims.block calls next >>= _) = _
    rw [go others]
    rfl

/-- A string with two words, cut up at blanks. -/
example : tokenize [32,0] 2 ⟨[97,32,32,98,0],none⟩ = .ok ([some 0,some 3,none],⟨[97,0,32,98,0],some 4⟩) := rfl

end

end OsProj.LibStringTokens
