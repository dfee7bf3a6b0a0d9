import OsProj.PWords
import OsProj.Total

/-! Every interleaving of the threads of pwords. The log of the words in the order in which
they were counted explains the list; at the end it is a shuffle of the words of all files, so
the list holds the same entries whatever the order, and sorting leaves one sequence. -/
namespace OsProj.PWords

open OsProj.Total

def Input.allWords (input : Input φ) : List Word :=
  if input.args = [] then input.countWords input.stdin
  else input.args.flatMap fun arg => (arg.map input.countWords).getD []

theorem words_all (input : Input φ) : (List.range input.argc).flatMap input.words = input.allWords := by
  have files : (List.range input.args.length).map (fun i => input.words (i + 1)) =
      input.args.map fun arg => (arg.map input.countWords).getD [] := by
    refine List.ext_getElem (by simp) fun i inside _ => ?_
    rw [List.length_map,List.length_range] at inside
    rw [List.getElem_map,List.getElem_range,List.getElem_map,Input.words,List.getElem?_eq_getElem inside]
    cases input.args[i] <;> rfl
  rw [Input.argc,List.range_succ_eq_map,List.flatMap_cons,List.flatMap_map,List.flatMap_def,files,← List.flatMap_def,Input.allWords,
    Input.words]
  split
  · rename_i none
    rw [none,List.flatMap_nil,List.append_nil]
  · rw [List.nil_append]

/-! Logs of words, each with the thread that counted it. -/

def wordsOf (log : List (Nat × Word)) (t : Nat) : List Word := (log.filter fun e => e.1 = t).map Prod.snd

theorem wordsOf_snoc (log : List (Nat × Word)) (t : Nat) (word : Word) (u : Nat) :
    wordsOf (log ++ [(t,word)]) u = if t = u then wordsOf log u ++ [word] else wordsOf log u := by
  rw [wordsOf,List.filter_append,List.map_append]
  by_cases same : t = u
  · simp [wordsOf,same]
  · simp [wordsOf,same]

/-- A log is a shuffle of the words of its threads. -/
theorem log_perm (log : List (Nat × Word)) (tags : ∀ e ∈ log, e.1 < n) :
    (log.map Prod.snd).Perm ((List.range n).flatMap (wordsOf log)) := by
  have below : ∀ n, ((log.filter fun e => e.1 < n).map Prod.snd).Perm ((List.range n).flatMap (wordsOf log)) := by
    intro n
    induction n with
    | zero => simp
    | succ n ih =>
      have old : (log.filter fun e => e.1 < n + 1).filter (fun e => decide (e.1 < n)) = log.filter fun e => e.1 < n := by
        rw [List.filter_filter]
        refine List.filter_congr fun e _ => ?_
        by_cases less : e.1 < n
        · simp [less,Nat.lt_succ_of_lt less]
        · simp [less]
      have new : (log.filter fun e => e.1 < n + 1).filter (fun e => !decide (e.1 < n)) = log.filter fun e => e.1 = n := by
        rw [List.filter_filter]
        refine List.filter_congr fun e _ => ?_
        rw [Bool.eq_iff_iff]
        simp
        omega
      have parts := List.filter_append_perm (fun e => decide (e.1 < n)) (log.filter fun e => e.1 < n + 1)
      rw [old,new] at parts
      rw [List.range_succ,List.flatMap_append,List.flatMap_singleton]
      have joined := (parts.map Prod.snd).symm
      rw [List.map_append] at joined
      exact joined.trans (ih.append_right _)
  have all : log.filter (fun e => e.1 < n) = log := List.filter_eq_self.mpr fun e inside => decide_eq_true (tags e inside)
  have whole := below n
  rwa [all] at whole

theorem flatMap_sublist {f g : Nat → List Word} (l : List Nat) (sub : ∀ t ∈ l, List.Sublist (f t) (g t)) :
    List.Sublist (l.flatMap f) (l.flatMap g) := by
  induction l with
  | nil => exact List.Sublist.refl _
  | cons t l ih =>
    rw [List.flatMap_cons,List.flatMap_cons]
    exact (sub t (by simp)).append (ih fun u inside => sub u (by simp [inside]))

/-- Words that were counted are no more than there are. -/
theorem log_count (input : Input φ) (log : List (Nat × Word)) (tags : ∀ e ∈ log, e.1 < input.argc)
    (sub : ∀ t, List.Sublist (wordsOf log t) (input.words t)) (word : Word) :
    (log.map Prod.snd).count word ≤ input.allWords.count word := by
  rw [(log_perm log tags).count_eq,← words_all]
  exact (flatMap_sublist _ fun t _ => sub t).count_le word

/-! The invariant. -/

def Thread.pending (thread : Thread) : List Word := if thread.pc = .leaving then thread.todo.tail else thread.todo

def Created (input : Input φ) : Main → Nat → Prop
  | .creating i,t => 1 ≤ t ∧ t < i
  | .joining _,t => 1 ≤ t ∧ t < input.argc
  | .counting,t => t = 0
  | .joined,t => if input.args = [] then t = 0 else 1 ≤ t ∧ t < input.argc

/-- The threads that main knows to have finished. -/
def Awaited (input : Input φ) : Main → Nat → Prop
  | .creating _,_ => False
  | .joining i,t => 1 ≤ t ∧ t < i
  | .counting,_ => False
  | .joined,t => if input.args = [] then t = 0 else 1 ≤ t ∧ t < input.argc

/-- The array has an entry for every handle, from 1 on. -/
def Input.Fits (input : Input φ) (room : Nat) : Prop := input.args = [] ∨ input.argc ≤ room

def InPlace (input : Input φ) (room : Nat) : Main → Prop
  | .creating i => (input.args ≠ [] ∧ 1 ≤ i ∧ i ≤ input.argc) ∧ (i = 1 ∨ i ≤ room)
  | .joining i => (input.args ≠ [] ∧ 1 ≤ i ∧ i ≤ input.argc) ∧ input.argc ≤ room
  | .counting => input.args = []
  | .joined => input.Fits room

structure ThreadInv (words : List Word) (list : List WordCount) (lock : Option Nat) (log : List (Nat × Word)) (t : Nat) (thread : Thread) :
    Prop where
  split : wordsOf log t ++ thread.pending = words
  held : lock = some t ↔ thread.pc ≠ .start
  busy : thread.pc ≠ .start → thread.todo ≠ []
  looked : ∀ word rest place, thread.todo = word :: rest → thread.pc = .found place → place = findWord list word

structure Inv (input : Input φ) (room : Nat) (s : State) (log : List (Nat × Word)) : Prop where
  list : s.list = (log.map Prod.snd).foldl addWord []
  small : ∀ wc ∈ s.list, wc.count < intLimit
  place : InPlace input room s.main
  created : ∀ t, s.threads t ≠ none ↔ Created input s.main t
  awaited : ∀ t, Awaited input s.main t → ∃ thread, s.threads t = some thread ∧ thread.Finished
  handles : ∀ t, 1 ≤ t → s.threads t ≠ none → s.handles t = some t
  logged : ∀ e ∈ log, s.threads e.1 ≠ none
  holder : ∀ t, s.lock = some t → s.threads t ≠ none
  threads : ∀ t thread, s.threads t = some thread → ThreadInv (input.words t) s.list s.lock log t thread

section
variable {input : Input φ} {room : Nat} {s : State} {log : List (Nat × Word)}

theorem inv_init (input : Input φ) (room : Nat) : Inv input room (init input) [] := by
  by_cases none : input.args = []
  · refine ⟨rfl,by simp [init],?_,?_,?_,?_,by simp,by simp [init],?_⟩
    · simp [init,none,InPlace]
    · intro t
      simp [init,none,Created]
    · intro t awaited
      simp [init,none,Awaited] at awaited
    · intro t positive present
      simp [init,none] at present
      omega
    · intro t thread here
      simp only [init,none,true_and] at here
      split at here
      · rename_i zero
        obtain rfl := Option.some.inj here
        subst zero
        exact ⟨by simp [wordsOf,Thread.pending],by simp [init],by simp,by simp⟩
      · cases here
  · refine ⟨rfl,by simp [init],?_,?_,?_,?_,by simp,by simp [init],?_⟩
    · simp [init,none,InPlace,Input.argc]
    · intro t
      simp [init,none,Created]
      omega
    · intro t awaited
      simp [init,none,Awaited] at awaited
    · intro t positive present
      simp [init,none] at present
    · intro t thread here
      simp [init,none] at here

/-- A thread of the program has an index below `argc`. -/
theorem Inv.index (inv : Inv input room s log) (here : s.threads t = some thread) : t < input.argc := by
  have created := (inv.created t).mp (by simp [here])
  have place := inv.place
  have positive : 0 < input.argc := Nat.succ_pos _
  cases main : s.main with
  | creating i =>
    rw [main] at created place
    exact Nat.lt_of_lt_of_le created.2 place.1.2.2
  | joining i =>
    rw [main] at created
    exact created.2
  | counting =>
    rw [main] at created
    obtain rfl : t = 0 := created
    exact positive
  | joined =>
    rw [main,Created] at created
    split at created
    · omega
    · exact created.2

theorem Inv.tags (inv : Inv input room s log) : ∀ e ∈ log, e.1 < input.argc := by
  intro e inside
  obtain ⟨thread,here⟩ := Option.ne_none_iff_exists'.mp (inv.logged e inside)
  exact inv.index here

/-- A thread that does not exist yet has counted nothing. -/
theorem Inv.unlogged (inv : Inv input room s log) (absent : s.threads t = none) : wordsOf log t = [] := by
  rw [wordsOf,List.map_eq_nil_iff,List.filter_eq_nil_iff]
  intro e inside same
  exact inv.logged e inside (by rw [of_decide_eq_true same]; exact absent)

/-- The words a log holds of each thread are the first words of the thread. -/
theorem Inv.sub (inv : Inv input room s log) (t : Nat) : List.Sublist (wordsOf log t) (input.words t) := by
  cases here : s.threads t with
  | none =>
    rw [inv.unlogged here]
    exact List.nil_sublist _
  | some thread =>
    rw [← (inv.threads t thread here).split]
    exact List.sublist_append_left ..

theorem Inv.counts (inv : Inv input room s log) : Counts (log.map Prod.snd) s.list := by
  rw [inv.list]
  exact counts_addWords _

/-- A step of one thread: the others are not affected, since only the holder of the lock
changes the list. -/
theorem Inv.advance (inv : Inv input room s log) (here : s.threads t = some old) (unfinished : ¬old.Finished)
    (list : list' = (log'.map Prod.snd).foldl addWord []) (small : ∀ wc ∈ list', wc.count < intLimit)
    (grown : log' = log ∨ ∃ word, log' = log ++ [(t,word)]) (lock : ∀ u, u ≠ t → (lock' = some u ↔ s.lock = some u))
    (quiet : list' = s.list ∨ s.lock = some t) (self : ThreadInv (input.words t) list' lock' log' t new) :
    Inv input room { s with list := list', lock := lock', threads := Function.update s.threads t (some new) } log' := by
  have present : ∀ u, Function.update s.threads t (some new) u ≠ none ↔ s.threads u ≠ none := by
    intro u
    by_cases same : u = t
    · subst same
      simp [here]
    · rw [Function.update_of_ne same]
  refine ⟨list,small,inv.place,fun u => (present u).trans (inv.created u),?_,?_,?_,?_,?_⟩
  · intro u awaited
    obtain ⟨thread,there,finished⟩ := inv.awaited u awaited
    have other : u ≠ t := by
      rintro rfl
      obtain rfl := Option.some.inj (here.symm.trans there)
      exact unfinished finished
    exact ⟨thread,(Function.update_of_ne other ..).trans there,finished⟩
  · intro u positive there
    exact inv.handles u positive ((present u).mp there)
  · intro e inside
    refine (present e.1).mpr ?_
    rcases grown with rfl | ⟨word,rfl⟩
    · exact inv.logged e inside
    · rcases List.mem_append.mp inside with known | single
      · exact inv.logged e known
      · obtain rfl := List.mem_singleton.mp single
        simp [here]
  · intro u holds
    refine (present u).mpr ?_
    by_cases same : u = t
    · subst same
      simp [here]
    · exact inv.holder u ((lock u same).mp holds)
  · intro u thread there
    by_cases same : u = t
    · subst same
      change Function.update s.threads u (some new) u = some thread at there
      rw [Function.update_self] at there
      obtain rfl := Option.some.inj there
      exact self
    · replace there : s.threads u = some thread := (Function.update_of_ne same ..).symm.trans there
      obtain ⟨split,held,busy,looked⟩ := inv.threads u thread there
      refine ⟨?_,(lock u same).trans held,busy,?_⟩
      · rcases grown with rfl | ⟨word,rfl⟩
        · exact split
        · rw [wordsOf_snoc,if_neg (Ne.symm same)]
          exact split
      · intro word rest place todo found
        have holds : s.lock = some u := held.mpr (by rw [found]; simp)
        have unchanged : list' = s.list := by
          rcases quiet with unchanged | mine
          · exact unchanged
          · exact absurd (Option.some.inj (holds.symm.trans mine)) same
        rw [unchanged]
        exact looked word rest place todo found

theorem ThreadInv.counted (self : ThreadInv words list lock log t ⟨word :: rest,.found place⟩) :
    wordsOf (log ++ [(t,word)]) t ++ rest = words := by
  rw [wordsOf_snoc,if_pos rfl,List.append_assoc]
  exact self.split

/-- A thread counts the word that it has looked up. -/
theorem Inv.count (inv : Inv input room s log) (here : s.threads t = some ⟨word :: rest,.found found⟩)
    (added : addWord s.list word = list') (small : ∀ wc ∈ list', wc.count < intLimit) :
    Inv input room { s with list := list', threads := Function.update s.threads t (some ⟨word :: rest,.leaving⟩) } (log ++ [(t,word)]) := by
  have self := inv.threads t _ here
  have mine : s.lock = some t := self.held.mpr (by simp)
  have logged : list' = ((log ++ [(t,word)]).map Prod.snd).foldl addWord [] := by
    rw [List.map_append,List.foldl_append,← inv.list]
    exact added.symm
  exact inv.advance here (fun finished => List.cons_ne_nil _ _ finished.1) logged small (.inr ⟨word,rfl⟩) (fun _ _ => Iff.rfl)
    (.inr mine) ⟨self.counted,by simp [mine],by simp,by simp⟩

/-- Where a count would overflow: the words counted so far and the next one are among all words. -/
theorem Inv.overflows (inv : Inv input room s log) (here : s.threads t = some ⟨word :: rest,.found found⟩) (member : wc ∈ s.list)
    (same : wc.word = word) (full : ¬ wc.count + 1 < intLimit) : intLimit ≤ input.allWords.count word := by
  have entry := (inv.counts.entries wc).mp member
  have sub : ∀ u, List.Sublist (wordsOf (log ++ [(t,word)]) u) (input.words u) := by
    intro u
    by_cases this : u = t
    · subst this
      rw [← (inv.threads u _ here).counted]
      exact List.sublist_append_left ..
    · rw [wordsOf_snoc,if_neg (Ne.symm this)]
      exact inv.sub u
  have tags : ∀ e ∈ log ++ [(t,word)], e.1 < input.argc := by
    intro e inside
    rcases List.mem_append.mp inside with known | single
    · exact inv.tags e known
    · obtain rfl := List.mem_singleton.mp single
      exact inv.index here
  have bound := log_count input (log ++ [(t,word)]) tags sub word
  rw [List.map_append,List.count_append,← same,← entry.2] at bound
  rw [same] at bound
  simp at bound
  omega

/-- What a step of a thread leads to. -/
theorem callStep_inv (inv : Inv input room s log) (here : s.threads t = some ⟨word :: rest,pc⟩)
    (moved : callStep t memory s word rest pc = some s') :
    (s'.outcome = s.outcome ∧ ∃ log', Inv input room s' log') ∨ (s'.outcome = .overflow ∧ intLimit ≤ input.allWords.count word) ∨
      s'.outcome = .crashed := by
  obtain ⟨split,held,busy,looked⟩ := inv.threads t _ here
  have unfinished : ¬Thread.Finished ⟨word :: rest,pc⟩ := fun finished => List.cons_ne_nil _ _ finished.1
  cases pc with
  | start =>
    rw [callStep] at moved
    split at moved
    · rename_i unlocked
      obtain rfl := Option.some.inj moved
      refine .inl ⟨rfl,log,inv.advance here unfinished inv.list inv.small (.inl rfl) ?_ (.inl rfl) ?_⟩
      · intro u other
        simp [unlocked,Ne.symm other]
      · exact ⟨split,by simp,by simp,by simp⟩
    · cases moved
  | searching =>
    obtain rfl := Option.some.inj moved
    refine .inl ⟨rfl,log,inv.advance here unfinished inv.list inv.small (.inl rfl) (fun _ _ => Iff.rfl) (.inl rfl) ?_⟩
    refine ⟨split,by simpa using held,by simp,?_⟩
    intro word' rest' place todo found
    obtain ⟨rfl,rfl⟩ := List.cons.inj todo
    exact (Pc.found.inj found).symm
  | found place =>
    have place := looked word rest place rfl rfl
    subst place
    cases found : findWord s.list word with
    | none =>
      rw [found,callStep] at moved
      split at moved
      · obtain rfl := Option.some.inj moved
        refine .inl ⟨rfl,_,inv.count here (by rw [addWord,found]) ?_⟩
        intro wc inside
        rcases List.mem_append.mp inside with known | single
        · exact inv.small wc known
        · obtain rfl := List.mem_singleton.mp single
          exact (by decide : 1 < intLimit)
      · obtain rfl := Option.some.inj moved
        exact .inr (.inr rfl)
    | some i =>
      obtain ⟨before,wc,after,shape,same,at',modified⟩ := findWord_some found
      rw [found,callStep,at'] at moved
      dsimp only at moved
      split at moved
      · rename_i fits
        obtain rfl := Option.some.inj moved
        refine .inl ⟨rfl,_,inv.count here (by rw [addWord,found]) ?_⟩
        intro x inside
        rw [modified increment] at inside
        have old : x ∈ s.list ∨ x = increment wc := by
          rw [shape]
          rcases List.mem_append.mp inside with earlier | inside
          · exact .inl (List.mem_append_left _ earlier)
          · rcases List.mem_cons.mp inside with now | later
            · exact .inr now
            · exact .inl (List.mem_append_right _ (List.mem_cons_of_mem _ later))
        rcases old with known | rfl
        · exact inv.small x known
        · exact fits
      · rename_i full
        obtain rfl := Option.some.inj moved
        exact .inr (.inl ⟨rfl,inv.overflows here (by rw [shape]; simp) same full⟩)
  | leaving =>
    obtain rfl := Option.some.inj moved
    have mine : s.lock = some t := held.mpr (by simp)
    refine .inl ⟨rfl,log,inv.advance here unfinished inv.list inv.small (.inl rfl) ?_ (.inl rfl) ?_⟩
    · intro u other
      simp [mine,Ne.symm other]
    · exact ⟨by simpa [Thread.pending] using split,by simp,by simp,by simp⟩

theorem ended_iff : s.ended t = true ↔ ∃ thread, s.threads t = some thread ∧ thread.Finished := by
  rw [State.ended,Option.any_eq_true]
  simp

/-- Main goes on without touching the threads. -/
theorem Inv.main (inv : Inv input room s log) (place : InPlace input room main') (created : ∀ t, Created input main' t ↔ Created input s.main t)
    (awaited : ∀ t, Awaited input main' t → ∃ thread, s.threads t = some thread ∧ thread.Finished) :
    Inv input room { s with main := main' } log :=
  ⟨inv.list,inv.small,place,fun t => (inv.created t).trans (created t).symm,awaited,inv.handles,inv.logged,inv.holder,inv.threads⟩

theorem Inv.create (inv : Inv input room s log) (main : s.main = .creating i) (more : i < input.argc) (fits : ¬room ≤ i) :
    Inv input room { s with
      threads := Function.update s.threads i (some ⟨input.words i,.start⟩)
      handles := Function.update s.handles i (some i)
      main := .creating (i + 1) } log := by
  have place := inv.place
  rw [main] at place
  obtain ⟨⟨files,positive,_⟩,_⟩ := place
  have created : ∀ t, s.threads t ≠ none ↔ 1 ≤ t ∧ t < i := by
    intro t
    have := inv.created t
    rwa [main] at this
  have fresh : s.threads i = none := by
    by_contra there
    exact Nat.lt_irrefl i ((created i).mp there).2
  refine ⟨inv.list,inv.small,⟨⟨files,by omega,more⟩,.inr (by omega)⟩,?_,fun t awaited => awaited.elim,?_,?_,?_,?_⟩
  · intro t
    change Function.update s.threads i _ t ≠ none ↔ 1 ≤ t ∧ t < i + 1
    by_cases same : t = i
    · subst same
      simp [positive]
    · rw [Function.update_of_ne same,created]
      omega
  · intro t positive there
    change Function.update s.handles i (some i) t = some t
    by_cases same : t = i
    · subst same
      exact Function.update_self ..
    · rw [Function.update_of_ne same]
      exact inv.handles t positive (by rwa [← Function.update_of_ne same (some (⟨input.words i,.start⟩ : Thread)) s.threads])
  · intro e inside
    have there := inv.logged e inside
    have other : e.1 ≠ i := fun same => there (same ▸ fresh)
    change Function.update s.threads i _ e.1 ≠ none
    rwa [Function.update_of_ne other]
  · intro t holds
    have there := inv.holder t holds
    have other : t ≠ i := fun same => there (same ▸ fresh)
    change Function.update s.threads i _ t ≠ none
    rwa [Function.update_of_ne other]
  · intro t thread there
    change Function.update s.threads i _ t = some thread at there
    by_cases same : t = i
    · subst same
      rw [Function.update_self] at there
      obtain rfl := Option.some.inj there
      refine ⟨by rw [inv.unlogged fresh]; rfl,?_,by simp,by simp⟩
      constructor
      · intro holds
        exact absurd fresh (inv.holder t holds)
      · intro other
        exact absurd rfl other
    · rw [Function.update_of_ne same] at there
      exact inv.threads t thread there

/-- What the next step of main can be. -/
theorem mainStep_cases (moved : mainStep input room memory created s = some s') :
    s' = { s with outcome := .exited } ∨
    (∃ i, (s.main = .creating i ∨ s.main = .joining i) ∧ i < input.argc ∧ room ≤ i ∧ s' = { s with outcome := .outside }) ∨
    (∃ i, s.main = .creating i ∧ i < input.argc ∧ ¬room ≤ i ∧ s' = { s with
      threads := Function.update s.threads i (some ⟨input.words i,.start⟩)
      handles := Function.update s.handles i (some i)
      main := .creating (i + 1) }) ∨
    (∃ i, s.main = .creating i ∧ ¬ i < input.argc ∧ s' = { s with main := .joining 1 }) ∨
    (∃ i, s.main = .joining i ∧ i < input.argc ∧ (s.handles i).any s.ended = true ∧ s' = { s with main := .joining (i + 1) }) ∨
    (∃ i, s.main = .joining i ∧ ¬ i < input.argc ∧ s' = { s with main := .joined }) ∨
    s.main = .counting ∧ s.ended 0 = true ∧ s' = { s with main := .joined } := by
  rw [mainStep] at moved
  cases main : s.main with
  | creating i =>
    rw [main] at moved
    dsimp only at moved
    split at moved
    · rename_i more
      split at moved
      · exact .inl (Option.some.inj moved).symm
      · split at moved
        · exact .inl (Option.some.inj moved).symm
        · split at moved
          · rename_i behind
            exact .inr (.inl ⟨i,.inl rfl,more,behind,(Option.some.inj moved).symm⟩)
          · rename_i fits
            exact .inr (.inr (.inl ⟨i,rfl,more,fits,(Option.some.inj moved).symm⟩))
    · rename_i last
      exact .inr (.inr (.inr (.inl ⟨i,rfl,last,(Option.some.inj moved).symm⟩)))
  | joining i =>
    rw [main] at moved
    dsimp only at moved
    split at moved
    · rename_i more
      split at moved
      · rename_i behind
        exact .inr (.inl ⟨i,.inr rfl,more,behind,(Option.some.inj moved).symm⟩)
      · split at moved
        · rename_i joins
          exact .inr (.inr (.inr (.inr (.inl ⟨i,rfl,more,joins,(Option.some.inj moved).symm⟩))))
        · cases moved
    · rename_i last
      exact .inr (.inr (.inr (.inr (.inr (.inl ⟨i,rfl,last,(Option.some.inj moved).symm⟩)))))
  | counting =>
    rw [main] at moved
    dsimp only at moved
    split at moved
    · rename_i ended
      exact .inr (.inr (.inr (.inr (.inr (.inr ⟨rfl,ended,(Option.some.inj moved).symm⟩)))))
    · cases moved
  | joined =>
    rw [main] at moved
    cases moved

theorem mainStep_inv (inv : Inv input room s log) (moved : mainStep input room memory created s = some s') :
    (s'.outcome = s.outcome ∧ ∃ log', Inv input room s' log') ∨ s'.outcome = .exited ∨
      s'.outcome = .outside ∧ ¬input.Fits room := by
  have place := inv.place
  obtain rfl | ⟨i,main,more,behind,rfl⟩ | ⟨i,main,more,fits,rfl⟩ | ⟨i,main,last,rfl⟩ | ⟨i,main,more,joins,rfl⟩ | ⟨i,main,last,rfl⟩ |
    ⟨main,ended,rfl⟩ := mainStep_cases moved
  · exact .inr (.inl rfl)
  · have files : input.args ≠ [] := by
      rcases main with main | main
      · rw [main] at place
        exact place.1.1
      · rw [main] at place
        exact place.1.1
    refine .inr (.inr ⟨rfl,?_⟩)
    rintro (none | enough)
    · exact files none
    · omega
  · exact .inl ⟨rfl,log,inv.create main more fits⟩
  · rw [main] at place
    obtain ⟨⟨files,positive,within⟩,room'⟩ := place
    have several : input.argc ≠ 1 := fun one => files (List.length_eq_zero_iff.mp (Nat.succ.inj one))
    refine .inl ⟨rfl,log,inv.main ⟨⟨files,Nat.le_refl 1,by omega⟩,by omega⟩ ?_ ?_⟩
    · intro t
      rw [main,Created,Created]
      have : i = input.argc := by omega
      rw [this]
    · rintro t ⟨positive,none⟩
      omega
  · rw [main] at place
    obtain ⟨⟨files,positive,within⟩,enough⟩ := place
    have there : s.threads i ≠ none := (inv.created i).mpr (by rw [main]; exact ⟨positive,more⟩)
    rw [inv.handles i positive there,Option.any_some,ended_iff] at joins
    refine .inl ⟨rfl,log,inv.main ⟨⟨files,by omega,more⟩,enough⟩ ?_ ?_⟩
    · intro t
      rw [main]
      rfl
    · rintro t ⟨positive,before⟩
      by_cases same : t = i
      · rw [same]
        exact joins
      · exact inv.awaited t (by rw [main]; exact ⟨positive,by omega⟩)
  · rw [main] at place
    obtain ⟨⟨files,positive,within⟩,enough⟩ := place
    refine .inl ⟨rfl,log,inv.main (.inr enough) ?_ ?_⟩
    · intro t
      rw [main,Created,Created,if_neg files]
    · intro t awaited
      rw [Awaited,if_neg files] at awaited
      exact inv.awaited t (by rw [main]; exact ⟨awaited.1,by omega⟩)
  · rw [main] at place
    refine .inl ⟨rfl,log,inv.main (.inl place) ?_ ?_⟩
    · intro t
      rw [main,Created,Created,if_pos (show input.args = [] from place)]
    · intro t awaited
      rw [Awaited,if_pos (show input.args = [] from place)] at awaited
      rw [awaited]
      exact ended_iff.mp ended

inductive Failed (input : Input φ) (room : Nat) : Outcome → Prop where
  | overflow : intLimit ≤ input.allWords.count word → Failed input room .overflow
  | crashed : Failed input room .crashed
  | exited : Failed input room .exited
  | outside : ¬input.Fits room → Failed input room .outside

theorem Failed.not_running (failed : Failed input room outcome) : outcome ≠ .running := by
  rintro rfl
  cases failed

theorem step_inv (inv : Inv input room s log) (moved : step input room action s = some s') :
    (s'.outcome = .running ∧ ∃ log', Inv input room s' log') ∨ Failed input room s'.outcome := by
  unfold step at moved
  split at moved
  · rename_i running
    cases action with
    | main memory created =>
      rcases mainStep_inv inv moved with ⟨same,kept⟩ | exited | ⟨outside,short⟩
      · exact .inl ⟨same.trans running,kept⟩
      · exact .inr (exited ▸ .exited)
      · exact .inr (outside ▸ .outside short)
    | thread t memory =>
      dsimp only at moved
      rw [threadStep] at moved
      split at moved
      · rcases callStep_inv inv (by assumption) moved with ⟨same,kept⟩ | ⟨full,many⟩ | crashed
        · exact .inl ⟨same.trans running,kept⟩
        · exact .inr (full ▸ .overflow many)
        · exact .inr (crashed ▸ .crashed)
      · cases moved
  · cases moved

/-- Every reached state is explained by a log, unless the program has failed. -/
theorem reached_inv (reached : Reached input room s) :
    (s.outcome = .running ∧ ∃ log, Inv input room s log) ∨ Failed input room s.outcome := by
  induction reached with
  | init => exact .inl ⟨rfl,[],inv_init input room⟩
  | step before moved ih =>
    rename_i s action s'
    have running : s.outcome = .running := by
      unfold step at moved
      split at moved
      · assumption
      · cases moved
    rcases ih with ⟨_,log,inv⟩ | failed
    · exact step_inv inv moved
    · exact absurd running failed.not_running

theorem running_inv (reached : Reached input room s) (running : s.outcome = .running) : ∃ log, Inv input room s log := by
  rcases reached_inv reached with ⟨_,explained⟩ | failed
  · exact explained
  · exact absurd running failed.not_running

/-- When all threads have been joined, the log has all words. -/
theorem Inv.joined (inv : Inv input room s log) (joined : s.main = .joined) : (log.map Prod.snd).Perm input.allWords := by
  have all : ∀ t, wordsOf log t = input.words t := by
    intro t
    by_cases there : Created input .joined t
    · obtain ⟨thread,here,none,start⟩ := inv.awaited t (by rw [joined]; exact there)
      have split := (inv.threads t thread here).split
      rwa [Thread.pending,start,if_neg (by simp),none,List.append_nil] at split
    · have absent : s.threads t = none := by
        by_contra present
        have created := (inv.created t).mp present
        rw [joined] at created
        exact there created
      have sub := inv.sub t
      have nothing : input.words t = [] := by
        rw [Created] at there
        cases t with
        | zero =>
          rw [Input.words]
          split at there
          · exact absurd rfl there
          · rename_i files
            exact if_neg files
        | succ t =>
          rw [Input.words]
          have outside : input.args[t]? = none := by
            rw [List.getElem?_eq_none_iff]
            split at there
            · rename_i none
              rw [none]
              exact Nat.zero_le _
            · rw [Input.argc] at there
              omega
          rw [outside]
      rw [nothing] at sub ⊢
      exact List.sublist_nil.mp sub
  have perm := log_perm log inv.tags
  rw [show wordsOf log = input.words from funext all,words_all] at perm
  exact perm

/-! Every run ends. -/

/-- How many steps a thread has still before it. -/
def weight (input : Input φ) (t : Nat) : Option Thread → Nat
  | none => 4 * (input.words t).length
  | some thread => 4 * thread.todo.length - match thread.pc with
    | .start => 0
    | .searching => 1
    | .found _ => 2
    | .leaving => 3

def mainWeight (input : Input φ) : Main → Nat
  | .creating i => 2 * input.argc + 3 - i
  | .joining i => input.argc + 1 - i
  | .counting => 1
  | .joined => 0

def measure (input : Input φ) (s : State) : Nat :=
  total id (fun t : Fin input.argc => weight input t (s.threads t)) + mainWeight input s.main

/-- The sum over the threads when one of them changes. -/
theorem total_threads (input : Input φ) (threads : Nat → Option Thread) (small : t < input.argc) (new : Option Thread) :
    total id (fun u : Fin input.argc => weight input u (Function.update threads t new u)) + weight input t (threads t) =
      total id (fun u : Fin input.argc => weight input u (threads u)) + weight input t new := by
  have changed : (fun u : Fin input.argc => weight input u (Function.update threads t new u)) =
      Function.update (fun u : Fin input.argc => weight input u (threads u)) ⟨t,small⟩ (weight input t new) := by
    funext u
    by_cases same : u = ⟨t,small⟩
    · subst same
      simp
    · have other : u.val ≠ t := fun equal => same (Fin.ext equal)
      rw [Function.update_of_ne same,Function.update_of_ne other]
  rw [changed]
  exact total_update id (fun u : Fin input.argc => weight input u (threads u)) ⟨t,small⟩ (weight input t new)

theorem callStep_measure (inv : Inv input room s log) (here : s.threads t = some ⟨word :: rest,pc⟩)
    (moved : callStep t memory s word rest pc = some s') (running : s'.outcome = .running) : measure input s' < measure input s := by
  have small := inv.index here
  have lighter : ∀ new, weight input t (some new) < weight input t (some ⟨word :: rest,pc⟩) →
      total id (fun u : Fin input.argc => weight input u (Function.update s.threads t (some new) u)) + mainWeight input s.main <
        measure input s := by
    intro new less
    have sum := total_threads input s.threads small (some new)
    rw [here] at sum
    rw [measure]
    omega
  cases pc with
  | start =>
    rw [callStep] at moved
    split at moved
    · obtain rfl := Option.some.inj moved
      exact lighter _ (by simp only [weight,List.length_cons]; omega)
    · cases moved
  | searching =>
    obtain rfl := Option.some.inj moved
    exact lighter _ (by simp only [weight,List.length_cons]; omega)
  | found place =>
    cases place with
    | none =>
      rw [callStep] at moved
      split at moved
      · obtain rfl := Option.some.inj moved
        exact lighter _ (by simp only [weight,List.length_cons]; omega)
      · obtain rfl := Option.some.inj moved
        cases running
    | some i =>
      rw [callStep] at moved
      split at moved
      · cases moved
      · split at moved
        · obtain rfl := Option.some.inj moved
          exact lighter _ (by simp only [weight,List.length_cons]; omega)
        · obtain rfl := Option.some.inj moved
          cases running
  | leaving =>
    obtain rfl := Option.some.inj moved
    exact lighter _ (by simp only [weight,List.length_cons]; omega)

theorem mainStep_measure (inv : Inv input room s log) (moved : mainStep input room memory created s = some s') (running : s'.outcome = .running) :
    measure input s' < measure input s := by
  have place := inv.place
  obtain rfl | ⟨_,_,_,_,rfl⟩ | ⟨i,main,more,_,rfl⟩ | ⟨i,main,last,rfl⟩ | ⟨i,main,more,_,rfl⟩ | ⟨i,main,last,rfl⟩ | ⟨main,_,rfl⟩ :=
    mainStep_cases moved
  · cases running
  · cases running
  · have fresh : s.threads i = none := by
      by_contra there
      have created := (inv.created i).mp there
      rw [main] at created
      exact Nat.lt_irrefl i created.2
    have sum := total_threads input s.threads more (some ⟨input.words i,.start⟩)
    rw [fresh] at sum
    have same : weight input i (some ⟨input.words i,.start⟩) = weight input i none := rfl
    simp only [measure,main,mainWeight]
    omega
  · rw [main] at place
    obtain ⟨⟨_,_,within⟩,_⟩ := place
    simp only [measure,main,mainWeight]
    omega
  · simp only [measure,main,mainWeight]
    omega
  · rw [main] at place
    obtain ⟨⟨_,_,within⟩,_⟩ := place
    simp only [measure,main,mainWeight]
    omega
  · simp only [measure,main,mainWeight]
    omega

/-- The thread with the lock can go on. -/
theorem Inv.holder_step (inv : Inv input room s log) (holder : s.lock = some t) :
    ∃ word rest pc s', s.threads t = some ⟨word :: rest,pc⟩ ∧ callStep t true s word rest pc = some s' ∧
      (s'.outcome = s.outcome ∨ s'.outcome = .overflow) := by
  obtain ⟨⟨todo,pc⟩,here⟩ := Option.ne_none_iff_exists'.mp (inv.holder t holder)
  obtain ⟨_,held,busy,looked⟩ := inv.threads t _ here
  have inside := held.mp holder
  obtain ⟨word,rest,rfl⟩ := List.exists_cons_of_ne_nil (busy inside)
  refine ⟨word,rest,pc,?_⟩
  cases pc with
  | start => exact absurd rfl inside
  | searching => exact ⟨_,here,rfl,.inl rfl⟩
  | found place =>
    have place := looked word rest place rfl rfl
    subst place
    cases found : findWord s.list word with
    | none => exact ⟨_,found ▸ here,rfl,.inl rfl⟩
    | some i =>
      obtain ⟨_,wc,_,_,_,entry,_⟩ := findWord_some found
      rw [callStep,entry]
      dsimp only
      split
      · exact ⟨_,found ▸ here,rfl,.inl rfl⟩
      · exact ⟨_,found ▸ here,rfl,.inr rfl⟩
  | leaving => exact ⟨_,here,rfl,.inl rfl⟩

/-- When all threads have finished, main can go on. -/
theorem Inv.main_step (inv : Inv input room s log) (enough : input.Fits room) (unjoined : s.main ≠ .joined)
    (finished : ∀ t, s.threads t ≠ none → s.ended t = true) :
    ∃ s', mainStep input room true true s = some s' ∧ s'.outcome = s.outcome := by
  have place := inv.place
  rw [mainStep]
  cases at' : s.main with
  | creating i =>
    rw [at'] at place
    dsimp only
    split
    · rename_i more
      have inside : ¬room ≤ i := by
        have room' := enough.resolve_left place.1.1
        omega
      rw [if_neg (by simp),if_neg (by simp),if_neg inside]
      exact ⟨_,rfl,rfl⟩
    · exact ⟨_,rfl,rfl⟩
  | joining i =>
    rw [at'] at place
    obtain ⟨⟨_,positive,_⟩,room'⟩ := place
    dsimp only
    split
    · rename_i more
      have there : s.threads i ≠ none := (inv.created i).mpr (by rw [at']; exact ⟨positive,more⟩)
      rw [if_neg (by omega),inv.handles i positive there,Option.any_some,if_pos (finished i there)]
      exact ⟨_,rfl,rfl⟩
    · exact ⟨_,rfl,rfl⟩
  | counting =>
    have there : s.threads 0 ≠ none := (inv.created 0).mpr (by rw [at']; rfl)
    dsimp only
    rw [if_pos (finished 0 there)]
    exact ⟨_,rfl,rfl⟩
  | joined => exact absurd at' unjoined

/-- There is always a next step before all threads have been joined. -/
theorem Inv.progress (inv : Inv input room s log) (enough : input.Fits room) (running : s.outcome = .running) (unjoined : s.main ≠ .joined) :
    ∃ action s', step input room action s = some s' ∧ (s'.outcome = .running ∨ s'.outcome = .overflow) ∧
      (s'.outcome = .running → measure input s' < measure input s) := by
  have call : ∀ t word rest pc s', s.threads t = some ⟨word :: rest,pc⟩ → callStep t true s word rest pc = some s' →
      (s'.outcome = s.outcome ∨ s'.outcome = .overflow) →
      ∃ action s', step input room action s = some s' ∧ (s'.outcome = .running ∨ s'.outcome = .overflow) ∧
        (s'.outcome = .running → measure input s' < measure input s) := by
    intro t word rest pc s' here moved outcome
    refine ⟨.thread t true,s',?_,by rwa [running] at outcome,callStep_measure inv here moved⟩
    unfold step
    rw [if_pos running]
    dsimp only
    rw [threadStep,here]
    exact moved
  cases holder : s.lock with
  | some t =>
    obtain ⟨word,rest,pc,s',here,moved,outcome⟩ := inv.holder_step holder
    exact call t word rest pc s' here moved outcome
  | none =>
    have start : ∀ t thread, s.threads t = some thread → thread.pc = .start := by
      intro t thread here
      by_contra other
      have := (inv.threads t thread here).held.mpr other
      cases holder.symm.trans this
    by_cases waiting : ∃ t word rest pc, s.threads t = some ⟨word :: rest,pc⟩
    · obtain ⟨t,word,rest,pc,here⟩ := waiting
      obtain rfl : pc = .start := start t _ here
      exact call t word rest _ _ here (if_pos holder) (.inl rfl)
    · have finished : ∀ t, s.threads t ≠ none → s.ended t = true := by
        intro t there
        obtain ⟨⟨todo,pc⟩,here⟩ := Option.ne_none_iff_exists'.mp there
        refine ended_iff.mpr ⟨_,here,?_,start t _ here⟩
        cases todo with
        | nil => rfl
        | cons word rest => exact absurd ⟨t,word,rest,pc,here⟩ waiting
      obtain ⟨s',moved,outcome⟩ := inv.main_step enough unjoined finished
      refine ⟨.main true true,s',?_,.inl (outcome.trans running),mainStep_measure inv moved⟩
      unfold step
      rw [if_pos running]
      exact moved

/-- Every run can be continued until all threads have been joined or a count has overflowed. -/
theorem reached_end (enough : input.Fits room) (reached : Reached input room s) (running : s.outcome = .running) :
    ∃ s', Reached input room s' ∧ (s'.outcome = .running ∧ s'.main = .joined ∨ s'.outcome = .overflow) := by
  induction size : measure input s using Nat.strongRecOn generalizing s with
  | ind n ih =>
    obtain ⟨log,inv⟩ := running_inv reached running
    by_cases joined : s.main = .joined
    · exact ⟨s,reached,.inl ⟨running,joined⟩⟩
    · obtain ⟨action,s',moved,running' | full,less⟩ := inv.progress enough running joined
      · exact ih _ (size ▸ less running') (reached.step moved) running' rfl
      · exact ⟨s',reached.step moved,.inr full⟩

/-- What the parallel word count is for, over all its runs with an array of `room` handles. -/
structure ParallelCount (input : Input φ) (room : Nat) : Prop where
  safe : ∀ s, Reached input room s → s.outcome ≠ .overflow ∧ s.outcome ≠ .outside
  ends : ∃ s, Reached input room s ∧ s.outcome = .running ∧ s.main = .joined
  counted : ∀ s, Reached input room s → s.outcome = .running → s.main = .joined → Counts input.allWords s.list
  sorted : ∀ less, ListSort.StrictTotal less → ∃ sorted, ∀ s, Reached input room s → s.outcome = .running → s.main = .joined →
    wordcountSort less s.list = .ok sorted

theorem Counts.reorder (counts : Counts words list) (same : words.Perm words') : Counts words' list :=
  ⟨counts.once,fun wc => by rw [counts.entries,same.mem_iff,same.count_eq]⟩

/-- The list when all threads have been joined, and the array of their handles. -/
theorem reached_joined (reached : Reached input room s) (running : s.outcome = .running) (joined : s.main = .joined) :
    Counts input.allWords s.list ∧ (∀ wc ∈ s.list, wc.count < intLimit) ∧ input.Fits room := by
  obtain ⟨log,inv⟩ := running_inv reached running
  have place := inv.place
  rw [joined] at place
  exact ⟨inv.counts.reorder (inv.joined joined),inv.small,place⟩

/-- A count that fits an `int` is the price of the promise. -/
theorem totals_of_ends (reached : Reached input room s) (running : s.outcome = .running) (joined : s.main = .joined) (word : Word) :
    input.allWords.count word < intLimit := by
  obtain ⟨counts,small,_⟩ := reached_joined reached running joined
  by_cases known : word ∈ input.allWords
  · exact small (entry input.allWords word) ((counts.entries _).mpr ⟨known,rfl⟩)
  · rw [List.count_eq_zero_of_not_mem known]
    decide

/-- With an array that has an entry for every handle, all interleavings lead to the same sequence, which counts
the words of all files, exactly when no word occurs too often for an `int`. -/
theorem roomy_count_iff (input : Input φ) (room : Nat) :
    ParallelCount input room ↔ input.Fits room ∧ ∀ word, input.allWords.count word < intLimit := by
  constructor
  · intro promise
    obtain ⟨s,reached,running,joined⟩ := promise.ends
    exact ⟨(reached_joined reached running joined).2.2,totals_of_ends reached running joined⟩
  · rintro ⟨enough,totals⟩
    have safe : ∀ s, Reached input room s → s.outcome ≠ .overflow ∧ s.outcome ≠ .outside := by
      intro s reached
      rcases reached_inv reached with ⟨running,_⟩ | failed
      · simp [running]
      · constructor
        · intro overflow
          rw [overflow] at failed
          cases failed with
          | overflow many => exact absurd (totals _) (Nat.not_lt.mpr many)
        · intro outside
          rw [outside] at failed
          cases failed with
          | outside short => exact short enough
    refine ⟨safe,?_,fun s reached running joined => (reached_joined reached running joined).1,?_⟩
    · obtain ⟨s,reached,⟨running,joined⟩ | full⟩ := reached_end enough (Reached.init : Reached input room _) rfl
      · exact ⟨s,reached,running,joined⟩
      · exact absurd full (safe s reached).1
    · intro less order
      obtain ⟨sorted,ran,_⟩ := ListSort.listSort_spec order.weak (input.allWords.foldl addWord [])
      refine ⟨sorted,fun s reached running joined => ?_⟩
      have counts := (reached_joined reached running joined).1
      rw [wordcountSort,ListSort.listSort_perm order (counts.perm (counts_addWords input.allWords) (List.Perm.refl _)),ran]

/-- The array of main is too short as soon as there is a file: what it promises it keeps only for the standard
input, as long as no word occurs too often for an `int`. -/
theorem parallel_count_iff (input : Input φ) :
    ParallelCount input input.room ↔ input.args = [] ∧ ∀ word, input.allWords.count word < intLimit := by
  have short : input.Fits input.room ↔ input.args = [] := by
    unfold Input.Fits Input.room Input.argc
    constructor
    · rintro (none | enough)
      · exact none
      · omega
    · exact .inl
  rw [roomy_count_iff,short]

end

/-- One file: the handle of its thread is stored behind the array. -/
theorem last_handle_outside (file : φ) (countWords : φ → List Word) :
    ∃ s, Reached ⟨countWords,[some file],file⟩ 1 s ∧ s.outcome = .outside := by
  have created : step ⟨countWords,[some file],file⟩ 1 (.main true true) (init ⟨countWords,[some file],file⟩) = some _ := rfl
  exact ⟨_,.step .init created,rfl⟩

/-- One file with one word is counted by a run that leaves the array of handles. -/
theorem one_file_outside : ¬∀ (φ : Type) (input : Input φ), ParallelCount input input.room := by
  intro all
  obtain ⟨s,reached,outside⟩ := last_handle_outside () fun _ => [[97,97]]
  exact ((all Unit ⟨fun _ => [[97,97]],[some ()],()⟩).safe s reached).2 outside

/-- A standard input with 2^31 times the same word makes a count overflow. -/
theorem word_overflow : ∃ input : Input Unit, input.args = [] ∧ ¬ParallelCount input input.room := by
  refine ⟨⟨fun _ => List.replicate intLimit [97,97],[],()⟩,rfl,fun promise => ?_⟩
  obtain ⟨s,reached,running,joined⟩ := promise.ends
  have few := totals_of_ends reached running joined [97,97]
  have many : (List.replicate intLimit [97,97]).count ([97,97] : Word) = intLimit := List.count_replicate_self
  exact absurd few (by rw [Input.allWords,if_pos rfl,many]; exact Nat.lt_irrefl _)

end OsProj.PWords
