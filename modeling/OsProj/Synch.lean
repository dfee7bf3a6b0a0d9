import Mathlib.Data.List.Nodup
import Mathlib.Logic.Function.Basic

/-! Counting semaphores. With interrupts off the code of a thread runs alone until it blocks,
so each operation here is one step; a blocked thread is one in `thread_block`, and every other
thread may run next. -/
namespace OsProj.Synch

inductive Status where
  | ready
  | blocked
  deriving DecidableEq, Repr

structure Semaphore (Tid : Type) where
  value : Nat
  waiters : List Tid
  deriving DecidableEq, Repr

def unsignedValues : Nat := 4294967296

section
variable {Tid : Type} [DecidableEq Tid]

def semaInit (value : Nat) : Semaphore Tid := ⟨value,[]⟩

/-- The loop of `sema_down` from one test of the value to the next: the thread either takes a
unit and leaves the loop, or queues and blocks, to make the test again when it runs next. -/
def semaDown (t : Tid) (sema : Semaphore Tid) (status : Tid → Status) : Bool × Semaphore Tid × (Tid → Status) :=
  if sema.value = 0 then
    (false,{ sema with waiters := sema.waiters ++ [t] },Function.update status t .blocked)
  else (true,{ sema with value := sema.value - 1 },status)

theorem semaDown_zero {t : Tid} {sema : Semaphore Tid} (zero : sema.value = 0) (status : Tid → Status) :
    semaDown t sema status =
      (false,{ sema with waiters := sema.waiters ++ [t] },Function.update status t .blocked) := if_pos zero

theorem semaDown_pos {t : Tid} {sema : Semaphore Tid} (positive : sema.value ≠ 0) (status : Tid → Status) :
    semaDown t sema status = (true,{ sema with value := sema.value - 1 },status) := if_neg positive

def semaTryDown (sema : Semaphore Tid) : Bool × Semaphore Tid :=
  if 0 < sema.value then (true,{ sema with value := sema.value - 1 }) else (false,sema)

/-- A thread that is not blocked fails the assertion. -/
def threadUnblock (t : Tid) (status : Tid → Status) : Option (Tid → Status) :=
  if status t = .blocked then some (Function.update status t .ready) else none

def semaUp (sema : Semaphore Tid) (status : Tid → Status) : Option (Semaphore Tid × (Tid → Status)) :=
  match sema.waiters with
  | [] => some ({ sema with value := (sema.value + 1) % unsignedValues },status)
  | t :: rest => (threadUnblock t status).map fun status =>
    (⟨(sema.value + 1) % unsignedValues,rest⟩,status)

end

/-! The queue of a semaphore holds the threads that block in its loop. -/

section
variable {Tid : Type} {sema : Semaphore Tid} {status status' : Tid → Status} {inside inside' : Tid → Prop}

/-- The threads in the queue are the blocked ones of those in the loop. -/
structure Queued (sema : Semaphore Tid) (status : Tid → Status) (inside : Tid → Prop) : Prop where
  nodup : sema.waiters.Nodup
  waiting : ∀ t, t ∈ sema.waiters ↔ inside t ∧ status t = .blocked

theorem queued_init (none : ∀ t, inside t → status t = .ready) : Queued (semaInit v) status inside := by
  refine ⟨List.nodup_nil,fun t => ?_⟩
  simp only [semaInit,List.not_mem_nil,false_iff,not_and]
  intro here blocked
  rw [none t here] at blocked
  contradiction

/-- Nothing that concerns the queue has changed. -/
theorem Queued.congr (queued : Queued sema status inside)
    (same : ∀ t, (inside' t ∧ status' t = .blocked) ↔ (inside t ∧ status t = .blocked)) :
    Queued { sema with value := v } status' inside' :=
  ⟨queued.nodup,fun t => (queued.waiting t).trans (same t).symm⟩

variable [DecidableEq Tid]

/-- A thread that blocks in the loop. -/
theorem Queued.push (queued : Queued sema status inside) (ready : status t = .ready) (here : inside' t)
    (others : ∀ u, u ≠ t → (inside' u ↔ inside u)) :
    Queued { sema with waiters := sema.waiters ++ [t] } (Function.update status t .blocked) inside' := by
  have absent : t ∉ sema.waiters := by
    rw [queued.waiting,ready]
    simp
  refine ⟨List.nodup_append.mpr ⟨queued.nodup,List.nodup_singleton t,?_⟩,fun u => ?_⟩
  · intro u member v same
    rw [List.mem_singleton.mp same]
    rintro rfl
    exact absent member
  · by_cases same : u = t
    · subst same
      simp [here]
    · simp [queued.waiting,same,others u same]

/-- An up on a semaphore whose queue is right. -/
theorem Queued.up (queued : Queued sema status inside) :
    (sema.waiters = [] ∧ semaUp sema status = some ({ sema with value := (sema.value + 1) % unsignedValues },status)) ∨
    ∃ t rest, sema.waiters = t :: rest ∧ inside t ∧ status t = .blocked ∧
      semaUp sema status = some (⟨(sema.value + 1) % unsignedValues,rest⟩,Function.update status t .ready) ∧
      Queued ⟨(sema.value + 1) % unsignedValues,rest⟩ (Function.update status t .ready) inside := by
  cases waiters : sema.waiters with
  | nil => exact Or.inl ⟨rfl,by simp [semaUp,waiters]⟩
  | cons t rest =>
    have first : t ∈ sema.waiters := by simp [waiters]
    obtain ⟨here,blocked⟩ := (queued.waiting t).mp first
    have nodup := queued.nodup
    rw [waiters,List.nodup_cons] at nodup
    refine Or.inr ⟨t,rest,rfl,here,blocked,by simp [semaUp,waiters,threadUnblock,blocked],nodup.2,fun u => ?_⟩
    by_cases same : u = t
    · subst same
      simp [nodup.1]
    · have member : u ∈ rest ↔ u ∈ sema.waiters := by simp [waiters,same]
      rw [member,queued.waiting,Function.update_of_ne same]

/-- The one thread of a semaphore is ready once its unit is there. -/
theorem Queued.up_only (queued : Queued sema status (· = u)) (zero : sema.value = 0) :
    ∃ sema' status', semaUp sema status = some (sema',status') ∧ sema'.value = 1 ∧ status' u = .ready ∧
      ∀ v, v ≠ u → status' v = status v := by
  have one : (sema.value + 1) % unsignedValues = 1 := by rw [zero]; rfl
  rcases queued.up with ⟨empty,ran⟩ | ⟨v,rest,waiters,rfl,blocked,ran,-⟩
  · refine ⟨_,_,ran,one,?_,fun _ _ => rfl⟩
    cases asleep : status u with
    | ready => rfl
    | blocked =>
      have member := (queued.waiting u).mpr ⟨rfl,asleep⟩
      simp [empty] at member
  · exact ⟨_,_,ran,one,Function.update_self _ _ _,fun w away => Function.update_of_ne away _ _⟩

end

end OsProj.Synch
