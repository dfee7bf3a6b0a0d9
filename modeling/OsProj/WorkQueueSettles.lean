import Mathlib.Algebra.BigOperators.Group.Finset.Basic
import Mathlib.Algebra.Order.BigOperators.Group.Finset
import Mathlib.Data.Fintype.BigOperators
import OsProj.WorkQueueRuns

/-! The calls of the work queue that are in progress come to an end. -/
namespace OsProj.WorkQueue

open OsProj.Faulting
open OsProj.History

/-- How many operations a call still makes if it does not go to sleep. -/
def Pc.rank : Pc → Nat
  | .idle | .popAsleep => 0
  | .pushUnlock | .popFree _ _ => 1
  | .pushBroadcast | .popUnlock _ _ => 2
  | .pushAppend _ | .popTake => 3
  | .pushLock _ | .popTest => 4
  | .popLock | .popRelock => 5

def Pc.broadcasts : Pc → Nat
  | .pushLock _ | .pushAppend _ | .pushBroadcast => 1
  | _ => 0

section
variable {Tid : Type} [DecidableEq Tid] {s s' : State Tid} {t : Tid} {k : Pc} {e : Event Tid}

theorem lock_pc (moves : pthreadMutexLock t s k = some (.ok (e,s'))) : s'.pc = Function.update s.pc t k := by
  unfold pthreadMutexLock at moves
  split at moves
  · obtain ⟨-,rfl⟩ := Prod.mk.inj (Except.ok.inj (Option.some.inj moves))
    rfl
  · cases moves

theorem release_pc {r : Event Tid}
    (moves : (do let s ← release t s; return (r,s.goto t k) : Except Fault (Event Tid × State Tid)) = .ok (e,s')) :
    s'.pc = Function.update s.pc t k := by
  unfold release at moves
  split at moves
  · obtain ⟨-,rfl⟩ := Prod.mk.inj (Except.ok.inj moves)
    rfl
  · cases moves

theorem queue_pc {x : Except Fault (α × Queue)} {r : α → Event Tid} {k : α → Pc}
    (moves : (do let (a,queue) ← x; return (r a,{ s with queue := queue }.goto t (k a)) : Except Fault (Event Tid × State Tid)) =
      .ok (e,s')) : ∃ a, s'.pc = Function.update s.pc t (k a) := by
  cases x with
  | error fault => cases moves
  | ok out =>
    obtain ⟨-,rfl⟩ := Prod.mk.inj (Except.ok.inj moves)
    exact ⟨_,rfl⟩

/-- An operation either is the broadcast or takes one thread one place further. -/
theorem advance_rank (moves : advance t wqItem s = some (.ok (e,s'))) :
    s.pc t = .pushBroadcast ∧ s' = (pthreadCondBroadcast s).goto t .pushUnlock ∨
    ∃ k, s'.pc = Function.update s.pc t k ∧ k.rank < (s.pc t).rank ∧ k.broadcasts = (s.pc t).broadcasts := by
  unfold advance at moves
  cases here : s.pc t with
  | idle => simp only [here] at moves; cases moves
  | popAsleep => simp only [here] at moves; cases moves
  | pushBroadcast =>
    simp only [here,Option.some.injEq,Except.ok.injEq,Prod.mk.injEq] at moves
    exact .inl ⟨rfl,moves.2.symm⟩
  | pushLock fd => rw [here] at moves; exact .inr ⟨_,lock_pc moves,Nat.lt_succ_self 3,rfl⟩
  | popLock => rw [here] at moves; exact .inr ⟨_,lock_pc moves,by decide,rfl⟩
  | popRelock => rw [here] at moves; exact .inr ⟨_,lock_pc moves,by decide,rfl⟩
  | pushUnlock => rw [here] at moves; exact .inr ⟨_,release_pc (Option.some.inj moves),by decide,rfl⟩
  | popUnlock p fd => rw [here] at moves; exact .inr ⟨_,release_pc (Option.some.inj moves),Nat.lt_succ_self 1,rfl⟩
  | pushAppend fd =>
    rw [here] at moves
    obtain ⟨a,after⟩ := queue_pc (r := fun _ => .pushed t fd) (k := fun _ => .pushBroadcast) (Option.some.inj moves)
    exact .inr ⟨_,after,Nat.lt_succ_self 2,rfl⟩
  | popTake =>
    rw [here] at moves
    obtain ⟨c,after⟩ := queue_pc (r := fun c : Nat × Int => .taken t c.2) (k := fun c => .popUnlock c.1 c.2) (Option.some.inj moves)
    exact .inr ⟨_,after,Nat.lt_succ_self 2,rfl⟩
  | popFree p fd =>
    rw [here] at moves
    obtain ⟨a,after⟩ := queue_pc (r := fun _ => .returned t (some fd)) (k := fun _ => .idle) (Option.some.inj moves)
    exact .inr ⟨_,after,Nat.lt_succ_self 0,rfl⟩
  | popTest =>
    simp only [here] at moves
    split at moves
    · exact .inr ⟨_,release_pc (Option.some.inj moves),by decide,rfl⟩
    · obtain ⟨-,rfl⟩ := Prod.mk.inj (Except.ok.inj (Option.some.inj moves))
      exact .inr ⟨_,rfl,by decide,rfl⟩

variable [Fintype Tid]

/-- A bound on the operations of the calls in progress. A broadcast wakes every thread at most. -/
def work (s : State Tid) : Nat :=
  (∑ t, (s.pc t).broadcasts) * (5 * Fintype.card Tid) + ∑ t, (s.pc t).rank

theorem Pc.rank_le (pc : Pc) : pc.rank ≤ 5 := by
  cases pc <;> simp [rank]

theorem advance_work (moves : advance t wqItem s = some (.ok (e,s'))) : work s' < work s := by
  rcases advance_rank moves with ⟨here,rfl⟩ | ⟨k,after,less,same⟩
  · have fewer : ∑ u, (((pthreadCondBroadcast s).goto t .pushUnlock).pc u).broadcasts < ∑ u, (s.pc u).broadcasts := by
      refine Finset.sum_lt_sum (fun u _ => ?_) ⟨t,Finset.mem_univ t,?_⟩
      · by_cases mine : u = t
        · subst mine
          exact (congrArg Pc.broadcasts (Function.update_self ..)).le.trans (Nat.zero_le _)
        · refine (congrArg Pc.broadcasts (Function.update_of_ne mine ..)).le.trans ?_
          simp only [pthreadCondBroadcast]
          split
          · exact Nat.zero_le _
          · exact le_rfl
      · rw [here]
        refine lt_of_eq_of_lt (congrArg Pc.broadcasts (Function.update_self ..)) ?_
        exact Nat.zero_lt_one
    have some_ : 0 < ∑ u, (s.pc u).rank :=
      Finset.sum_pos' (fun _ _ => Nat.zero_le _) ⟨t,Finset.mem_univ t,by rw [here]; exact Nat.zero_lt_two⟩
    have most : ∑ u, (((pthreadCondBroadcast s).goto t .pushUnlock).pc u).rank ≤ 5 * Fintype.card Tid := by
      exact (Finset.sum_le_card_nsmul _ _ 5 fun u _ => Pc.rank_le _).trans_eq (Nat.mul_comm ..)
    have scaled := Nat.mul_le_mul_right (5 * Fintype.card Tid) (Nat.succ_le_of_lt fewer)
    rw [Nat.succ_mul] at scaled
    unfold work
    omega
  · have lower : ∑ u, (s'.pc u).rank < ∑ u, (s.pc u).rank := by
      refine Finset.sum_lt_sum (fun u _ => ?_) ⟨t,Finset.mem_univ t,?_⟩
      · by_cases mine : u = t
        · subst mine
          rw [after,Function.update_self]
          exact less.le
        · rw [after,Function.update_of_ne mine]
      · rw [after,Function.update_self]
        exact less
    have pending : ∑ u, (s'.pc u).broadcasts = ∑ u, (s.pc u).broadcasts := by
      refine Finset.sum_congr rfl fun u _ => ?_
      rw [after]
      exact update_kept same u
    unfold work
    rw [pending]
    omega

theorem Runs.work_le (runs : Runs n s s') : n + work s' ≤ work s := by
  induction runs with
  | refl => exact (Nat.zero_add _).le
  | snoc front unused moves ih =>
    have less := advance_work moves
    omega

/-- No wakeup is lost: however the threads take turns, the calls in progress go on for a bounded number of
operations, and when none can go on every call has returned except calls of `wq_pop` that sleep beside an empty list. -/
theorem calls_settle {h : List (Event Tid)} (path : Reaches h s) (runs : Runs n s s') :
    n ≤ work s ∧ (Halted s' → ∀ t, s'.pc t = .idle ∨ s'.pc t = .popAsleep ∧ contents s'.queue = []) := by
  obtain ⟨cells,inv⟩ := reaches_inv path
  refine ⟨(Nat.le_add_right _ _).trans runs.work_le,?_⟩
  intro halted t
  obtain ⟨cells',inv'⟩ := runs.inv inv
  rw [inv'.shape.contents]
  exact inv'.woken (inv'.halted halted) t

end

/-- Operations of the calls in progress, the last one first, each with what `calloc` would give. -/
def goOn {Tid : Type} [DecidableEq Tid] (s : State Tid) : List (Tid × Nat) → Option (State Tid)
  | [] => some s
  | (t,wqItem) :: earlier => (goOn s earlier).bind fun s => (perform (.advance t wqItem) s).map Prod.snd

theorem goOn_runs {Tid : Type} [DecidableEq Tid] {s s' : State Tid} {ops : List (Tid × Nat)} (ran : goOn s ops = some s') : Runs ops.length s s' := by
  induction ops generalizing s' with
  | nil =>
    obtain rfl := Option.some.inj ran
    exact .refl
  | cons op earlier ih =>
    obtain ⟨t,wqItem⟩ := op
    obtain ⟨middle,before,last⟩ := Option.bind_eq_some_iff.mp ran
    obtain ⟨⟨e,_⟩,moved,rfl⟩ := Option.map_eq_some_iff.mp last
    simp only [perform] at moved
    split at moved
    · rename_i unused
      split at moved
      · rename_i moves
        exact .snoc (ih before) unused (moves.trans (congrArg some (congrArg Except.ok (Option.some.inj moved))))
      · cases moved
    · cases moved

/-- Two threads pop and a third pushes. -/
def calling : List (Event (Option Bool)) × State (Option Bool) :=
  arrive perform (fun _ _ _ => True) start [.pop (some false),.pop (some true),.push none 5]

theorem calling_path : Reaches calling.1 calling.2 :=
  arrive_path (fun _ _ _ _ _ ran _ => perform_step ran) (by decide)

/-- Both find the list empty, the broadcast wakes both, the first takes the value and the second sleeps again. -/
def inTurn : List (Option Bool × Nat) :=
  [(some true,16),(some true,16)] ++ List.replicate 5 (some false,16) ++
    [(none,16),(none,16),(none,8),(none,8),(some true,8),(some true,8),(some false,8),(some false,8)]

theorem calls_settle_handedOver : ∃ s', Runs 15 calling.2 s' ∧ 15 ≤ work calling.2 ∧ Halted s' ∧
    s'.pc (some false) = .idle ∧ s'.pc (some true) = .popAsleep ∧ s'.pc none = .idle ∧ contents s'.queue = [] := by
  have ran : (goOn calling.2 inTurn).isSome = true := by decide
  obtain ⟨s',out⟩ := Option.isSome_iff_exists.mp ran
  have places : (goOn calling.2 inTurn).map (fun s => (s.pc (some false),s.pc (some true),s.pc none)) =
      some (.idle,.popAsleep,.idle) := by decide
  rw [out] at places
  obtain ⟨first,rest⟩ := Prod.mk.inj (Option.some.inj places)
  obtain ⟨second,third⟩ := Prod.mk.inj rest
  have halted : Halted s' := by
    intro t wqItem e s'' _ moves
    have quiet : s'.pc t = .idle ∨ s'.pc t = .popAsleep := by
      have every : ∀ t : Option Bool, t = some false ∨ t = some true ∨ t = none := by decide
      rcases every t with rfl | rfl | rfl
      · exact .inl first
      · exact .inr second
      · exact .inl third
    unfold advance at moves
    rcases quiet with here | here
    · rw [here] at moves
      cases moves
    · rw [here] at moves
      cases moves
  have runs : Runs 15 calling.2 s' := goOn_runs out
  obtain ⟨bound,settled⟩ := calls_settle calling_path runs
  refine ⟨s',runs,bound,halted,first,second,third,?_⟩
  rcases settled halted (some true) with idle | ⟨_,empty⟩
  · rw [second] at idle
    cases idle
  · exact empty

end OsProj.WorkQueue
