import Mathlib.Data.List.Induction
import Mathlib.Data.List.Perm.Basic
import Mathlib.Logic.Function.Basic
import OsProj.ListSort

/-! The parallel word count of hw-list: one thread for each file, all adding words to one list
under its lock. A thread takes the lock, looks its word up, counts it or puts it at the end,
and gives the lock back; these are separate steps that other threads may come between. -/
namespace OsProj.PWords

/-- A word without its terminating zero, so that `strcmp` is zero for equal words only. -/
abbrev Word := List UInt8

structure WordCount where
  word : Word
  count : Nat
  deriving DecidableEq, Repr

def intLimit : Nat := 2147483648

def findWord : List WordCount → Word → Option Nat
  | [],_ => none
  | wc :: rest,word => if wc.word = word then some 0 else (findWord rest word).map (· + 1)

def increment (wc : WordCount) : WordCount := { wc with count := wc.count + 1 }

/-- What a whole call of `add_word` does to the list. -/
def addWord (list : List WordCount) (word : Word) : List WordCount :=
  match findWord list word with
  | some i => list.modify i increment
  | none => list ++ [⟨word,1⟩]

/-- The comparison `less_list` calls the given function on the entries. -/
def wordcountSort (less : WordCount → WordCount → Bool) (list : List WordCount) : Except ListSort.Fault (List WordCount) :=
  ListSort.listSort less list

/-! Threads. -/

/-- The files of the command line, `none` for one that cannot be opened. `count_words` calls
`add_word` for the words of a file in their order. -/
structure Input (φ : Type) where
  countWords : φ → List Word
  args : List (Option φ)
  stdin : φ

def Input.argc (input : Input φ) : Nat := input.args.length + 1

def Input.room (input : Input φ) : Nat := input.argc - 1

/-- The words of the thread for `argv[i]`; main itself, as thread 0, reads the standard input
when there are no files. -/
def Input.words (input : Input φ) : Nat → List Word
  | 0 => if input.args = [] then input.countWords input.stdin else []
  | i + 1 =>
    match input.args[i]? with
    | some (some file) => input.countWords file
    | _ => []

inductive Pc where
  | start
  | searching
  | found (place : Option Nat)
  | leaving
  deriving DecidableEq, Repr

/-- `todo` begins with the word of the current call. -/
structure Thread where
  todo : List Word
  pc : Pc
  deriving DecidableEq, Repr

def Thread.Finished (thread : Thread) : Prop := thread.todo = [] ∧ thread.pc = .start

instance (thread : Thread) : Decidable thread.Finished := inferInstanceAs (Decidable (_ ∧ _))

inductive Main where
  | creating (i : Nat)
  | joining (i : Nat)
  | counting
  | joined
  deriving DecidableEq, Repr

/-- `crashed` is the use of a null pointer after a failed `malloc`, `exited` the return of main
when it cannot make a thread, `outside` an access behind the end of the array of handles. -/
inductive Outcome where
  | running
  | overflow
  | crashed
  | exited
  | outside
  deriving DecidableEq, Repr

structure State where
  list : List WordCount
  lock : Option Nat
  threads : Nat → Option Thread
  handles : Nat → Option Nat
  main : Main
  outcome : Outcome

/-- A step of main or of a thread; the flags are the results of `malloc` and `pthread_create`. -/
inductive Action where
  | main (memory created : Bool)
  | thread (t : Nat) (memory : Bool)
  deriving DecidableEq, Repr

section
variable (input : Input φ)

def init : State where
  list := []
  lock := none
  threads t := if input.args = [] ∧ t = 0 then some ⟨input.words 0,.start⟩ else none
  handles _ := none
  main := if input.args = [] then .counting else .creating 1
  outcome := .running

/-- `pthread_join` returns when the thread has finished. -/
def State.ended (s : State) (t : Nat) : Bool := (s.threads t).any fun thread => decide thread.Finished

/-- The array `threads` has `room` entries. `pthread_create` stores the handle once there is a thread. -/
def mainStep (room : Nat) (memory created : Bool) (s : State) : Option State :=
  match s.main with
  | .creating i =>
    if i < input.argc then
      if !memory then some { s with outcome := .exited }
      else if !created then some { s with outcome := .exited }
      else if room ≤ i then some { s with outcome := .outside }
      else some { s with
        threads := Function.update s.threads i (some ⟨input.words i,.start⟩)
        handles := Function.update s.handles i (some i)
        main := .creating (i + 1) }
    else some { s with main := .joining 1 }
  | .joining i =>
    if i < input.argc then
      if room ≤ i then some { s with outcome := .outside }
      else if (s.handles i).any s.ended then some { s with main := .joining (i + 1) } else none
    else some { s with main := .joined }
  | .counting => if s.ended 0 then some { s with main := .joined } else none
  | .joined => none

end

def callStep (t : Nat) (memory : Bool) (s : State) (word : Word) (rest : List Word) : Pc → Option State
  | .start =>
    if s.lock = none then some { s with
      lock := some t
      threads := Function.update s.threads t (some ⟨word :: rest,.searching⟩) }
    else none
  | .searching => some { s with threads := Function.update s.threads t (some ⟨word :: rest,.found (findWord s.list word)⟩) }
  | .found (some i) =>
    match s.list[i]? with
    | none => none
    | some wc =>
      if wc.count + 1 < intLimit then some { s with
        list := s.list.modify i increment
        threads := Function.update s.threads t (some ⟨word :: rest,.leaving⟩) }
      else some { s with outcome := .overflow }
  | .found none =>
    if memory then some { s with
      list := s.list ++ [⟨word,1⟩]
      threads := Function.update s.threads t (some ⟨word :: rest,.leaving⟩) }
    else some { s with outcome := .crashed }
  | .leaving => some { s with
      lock := none
      threads := Function.update s.threads t (some ⟨rest,.start⟩) }

def threadStep (t : Nat) (memory : Bool) (s : State) : Option State :=
  match s.threads t with
  | some ⟨word :: rest,pc⟩ => callStep t memory s word rest pc
  | _ => none

def step (input : Input φ) (room : Nat) (action : Action) (s : State) : Option State :=
  if s.outcome = .running then
    match action with
    | .main memory created => mainStep input room memory created s
    | .thread t memory => threadStep t memory s
  else none

inductive Reached (input : Input φ) (room : Nat) : State → Prop where
  | init : Reached input room (init input)
  | step (before : Reached input room s) (moved : step input room action s = some s') : Reached input room s'

/-! The list after some calls of `add_word`. -/

/-- Every word of `words` once, with the number of its occurrences, and no other word. -/
structure Counts (words : List Word) (list : List WordCount) : Prop where
  once : (list.map WordCount.word).Nodup
  entries : ∀ wc, wc ∈ list ↔ wc.word ∈ words ∧ wc.count = words.count wc.word

/-- The list around the entry that `find_word` returns. -/
theorem findWord_some (found : findWord list word = some i) :
    ∃ before wc after, list = before ++ wc :: after ∧ wc.word = word ∧ list[i]? = some wc ∧
      ∀ f, list.modify i f = before ++ f wc :: after := by
  induction list generalizing i with
  | nil => cases found
  | cons wc list ih =>
    rw [findWord] at found
    split at found
    · rename_i same
      obtain rfl := Option.some.inj found
      exact ⟨[],wc,list,rfl,same,rfl,fun f => rfl⟩
    · obtain ⟨j,later,rfl⟩ := Option.map_eq_some_iff.mp found
      obtain ⟨before,wc',after,rfl,same,place,modified⟩ := ih later
      refine ⟨wc :: before,wc',after,rfl,same,by simpa using place,fun f => ?_⟩
      rw [List.modify_succ_cons,modified,List.cons_append]

theorem findWord_none : findWord list word = none ↔ ∀ wc ∈ list, wc.word ≠ word := by
  induction list with
  | nil => simp [findWord]
  | cons wc list ih =>
    rw [findWord]
    split
    · rename_i same
      simp [same]
    · rename_i other
      rw [Option.map_eq_none_iff,ih]
      simp [other]

def entry (words : List Word) (word : Word) : WordCount := ⟨word,words.count word⟩

theorem counts_nil : Counts [] [] := ⟨List.nodup_nil,by simp⟩

theorem counts_snoc_other (counts : Counts words list) (absent : ∀ wc ∈ list, wc.word ≠ word) :
    Counts (words ++ [word]) (list ++ [⟨word,1⟩]) := by
  have fresh : word ∉ words := by
    intro known
    exact absent (entry words word) ((counts.entries _).mpr ⟨known,rfl⟩) rfl
  constructor
  · rw [List.map_append,List.map_singleton,List.nodup_append]
    refine ⟨counts.once,List.nodup_singleton _,?_⟩
    intro a inside b single same
    obtain ⟨wc,member,rfl⟩ := List.mem_map.mp inside
    exact absent wc member (same.trans (List.mem_singleton.mp single))
  · intro wc
    rw [List.mem_append,List.mem_singleton,counts.entries,List.mem_append,List.mem_singleton,List.count_append,List.count_singleton]
    constructor
    · rintro (⟨known,count⟩ | rfl)
      · have other : wc.word ≠ word := fun same => fresh (same ▸ known)
        exact ⟨.inl known,by simp [count,other.symm]⟩
      · exact ⟨.inr rfl,by simp [List.count_eq_zero_of_not_mem fresh]⟩
    · rintro ⟨known | same,count⟩
      · have other : wc.word ≠ word := fun same => fresh (same ▸ known)
        exact .inl ⟨known,by simpa [other.symm] using count⟩
      · right
        obtain ⟨w,c⟩ := wc
        dsimp only at same count
        subst same
        simp [List.count_eq_zero_of_not_mem fresh] at count
        rw [count]

theorem counts_snoc_found (counts : Counts words (before ++ wc :: after)) (same : wc.word = word) :
    Counts (words ++ [word]) (before ++ increment wc :: after) := by
  subst same
  obtain ⟨once,entries⟩ := counts
  have apart : (∀ x ∈ before, x.word ≠ wc.word) ∧ ∀ x ∈ after, x.word ≠ wc.word := by
    rw [List.map_append,List.map_cons,List.nodup_append] at once
    obtain ⟨_,later,different⟩ := once
    refine ⟨fun x inside same => ?_,fun x inside same => ?_⟩
    · exact different x.word (List.mem_map_of_mem inside) wc.word (by simp) same
    · exact (List.nodup_cons.mp later).1 (same ▸ List.mem_map_of_mem inside)
  have here := (entries wc).mp (by simp)
  refine ⟨by simpa [increment] using once,fun x => ?_⟩
  have counted : (words ++ [wc.word]).count x.word = words.count x.word + if x.word = wc.word then 1 else 0 := by
    rw [List.count_append,List.count_singleton,beq_eq_decide]
    congr 1
    by_cases same : x.word = wc.word
    · simp [same]
    · simp [same,Ne.symm same]
  have known : x.word ∈ words ++ [wc.word] ↔ x.word ∈ words ∨ x.word = wc.word := by simp
  rw [counted,known]
  by_cases same : x.word = wc.word
  · have outside : x ∈ before ++ increment wc :: after ↔ x = increment wc := by
      rw [List.mem_append,List.mem_cons]
      constructor
      · rintro (inside | equal | inside)
        · exact absurd same (apart.1 x inside)
        · exact equal
        · exact absurd same (apart.2 x inside)
      · exact fun equal => .inr (.inl equal)
    rw [outside,if_pos same,same,← here.2]
    constructor
    · rintro rfl
      exact ⟨.inr rfl,rfl⟩
    · rintro ⟨_,count⟩
      cases x
      simp_all [increment]
  · have unchanged : x ∈ before ++ increment wc :: after ↔ x ∈ before ++ wc :: after := by
      simp only [List.mem_append,List.mem_cons]
      have first : x ≠ increment wc := fun equal => same (equal ▸ rfl)
      have second : x ≠ wc := fun equal => same (equal ▸ rfl)
      simp [first,second]
    rw [unchanged,entries,if_neg same,Nat.add_zero]
    simp [same]

/-- A call of `add_word` counts one more word. -/
theorem counts_addWord (counts : Counts words list) (word : Word) : Counts (words ++ [word]) (addWord list word) := by
  rw [addWord]
  split
  · rename_i i found
    obtain ⟨before,wc,after,rfl,same,_,modified⟩ := findWord_some found
    rw [modified]
    exact counts_snoc_found counts same
  · rename_i absent
    exact counts_snoc_other counts (findWord_none.mp absent)

theorem counts_addWords (words : List Word) : Counts words (words.foldl addWord []) := by
  induction words using List.reverseRecOn with
  | nil => exact counts_nil
  | append_singleton words word ih =>
    rw [List.foldl_append]
    exact counts_addWord ih word

/-- The order of the entries does not matter. -/
theorem Counts.rearranged (counts : Counts words list) (same : list.Perm list') : Counts words list' :=
  ⟨(same.map _).nodup_iff.mp counts.once,fun wc => same.mem_iff.symm.trans (counts.entries wc)⟩

/-- Lists that count the same words hold the same entries. -/
theorem Counts.perm (counts : Counts words list) (counts' : Counts words' list') (same : words.Perm words') : list.Perm list' := by
  have nodup := List.Nodup.of_map WordCount.word counts.once
  have nodup' := List.Nodup.of_map WordCount.word counts'.once
  rw [List.perm_ext_iff_of_nodup nodup nodup']
  intro wc
  rw [counts.entries,counts'.entries,same.mem_iff,same.count_eq]

end OsProj.PWords
