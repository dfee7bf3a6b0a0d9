import OsProj.History
import OsProj.Synch
import OsProj.Total

/-! Runs of the operations on one semaphore by any number of threads and interrupt handlers.
Between two steps any thread that is not blocked may run, and a handler may come in. -/
namespace OsProj.Synch.Accounting

open OsProj.Total

variable {Tid : Type} [DecidableEq Tid]

/-- The semaphore with the status of the threads and whether they are in the loop of `sema_down`. -/
structure State (Tid : Type) where
  sema : Semaphore Tid
  status : Tid → Status
  inside : Tid → Bool

/-- A test in `sema_down` by a thread, with whether it took a unit; a call of `sema_try_down`
with its result; a call of `sema_up`. The last two come from threads and handlers alike. -/
inductive Event (Tid : Type) where
  | down (t : Tid) (done : Bool)
  | tryDown (success : Bool)
  | up
  deriving DecidableEq, Repr

def State.init (value : Nat) : State Tid := ⟨semaInit value,fun _ => .ready,fun _ => false⟩

inductive Step : List (Event Tid) → State Tid → Event Tid → State Tid → Prop
  | down (ready : s.status t = .ready) (ran : semaDown t s.sema s.status = (done,sema,status)) :
      Step h s (.down t done) ⟨sema,status,Function.update s.inside t (!done)⟩
  | tryDown (ran : semaTryDown s.sema = (success,sema)) : Step h s (.tryDown success) { s with sema := sema }
  | up (ran : semaUp s.sema s.status = some (sema,status)) : Step h s .up { s with sema := sema, status := status }

def Event.isDown : Event Tid → Bool
  | .down _ done => done
  | .tryDown success => success
  | .up => false

def Event.isUp : Event Tid → Bool
  | .up => true
  | _ => false

def downs (h : List (Event Tid)) : Nat := h.countP Event.isDown

def ups (h : List (Event Tid)) : Nat := h.countP Event.isUp

/-- One for a thread that was unblocked and has not made its test again. -/
def weight (thread : Bool × Status) : Nat := if thread.1 ∧ thread.2 = .ready then 1 else 0

def State.threads (s : State Tid) (t : Tid) : Bool × Status := (s.inside t,s.status t)

def State.woken [Fintype Tid] (s : State Tid) : Nat := total weight s.threads

theorem threads_update (sema : Semaphore Tid) (s : State Tid) (t : Tid) (b : Bool) (st : Status) :
    State.threads ⟨sema,Function.update s.status t st,Function.update s.inside t b⟩ =
      Function.update s.threads t (b,st) := by
  funext u
  by_cases same : u = t
  · subst same
    simp [State.threads]
  · simp [State.threads,same]

variable [Fintype Tid] {s : State Tid} {h : List (Event Tid)}

structure Inv (v : Nat) (h : List (Event Tid)) (s : State Tid) : Prop where
  queued : Queued s.sema s.status (s.inside · = true)
  outside : ∀ t, s.inside t = false → s.status t = .ready
  counted : s.sema.value + downs h = v + ups h
  woken : s.sema.waiters ≠ [] → s.sema.value ≤ s.woken

omit [DecidableEq Tid] in
theorem init_inv (v : Nat) : Inv v [] (State.init v : State Tid) := by
  refine ⟨queued_init fun _ _ => rfl,fun _ _ => rfl,rfl,?_⟩
  simp [State.init,semaInit]

theorem woken_status (sema : Semaphore Tid) (s : State Tid) (t : Tid) (st : Status) :
    State.woken ⟨sema,Function.update s.status t st,s.inside⟩ + weight (s.threads t) =
      s.woken + weight (s.inside t,st) := by
  have same := threads_update sema s t (s.inside t) st
  rw [Function.update_eq_self] at same
  rw [State.woken,same]
  exact total_update weight s.threads t _

theorem woken_inside (sema : Semaphore Tid) (s : State Tid) (t : Tid) (b : Bool) :
    State.woken ⟨sema,s.status,Function.update s.inside t b⟩ + weight (s.threads t) =
      s.woken + weight (b,s.status t) := by
  have same := threads_update sema s t b (s.status t)
  rw [Function.update_eq_self] at same
  rw [State.woken,same]
  exact total_update weight s.threads t _

/-- The thread finds the value zero, queues and blocks. -/
theorem Inv.blocked (inv : Inv v h s) (ready : s.status t = .ready) (zero : s.sema.value = 0) :
    Inv v (.down t false :: h) ⟨{ s.sema with waiters := s.sema.waiters ++ [t] },
      Function.update s.status t .blocked,Function.update s.inside t true⟩ := by
  refine ⟨?_,?_,?_,?_⟩
  · apply inv.queued.push ready
    · simp
    · intro u other
      simp [other]
  · intro u out
    by_cases same : u = t
    · subst same
      simp at out
    · simp only [Function.update_of_ne same] at out ⊢
      exact inv.outside u out
  · simpa [downs,ups,Event.isDown,Event.isUp] using inv.counted
  · intro _
    simp [zero]

/-- The thread takes a unit. If it was woken for it, one woken thread is left less. -/
theorem Inv.taken (inv : Inv v h s) (ready : s.status t = .ready) (positive : s.sema.value ≠ 0) :
    Inv v (.down t true :: h) ⟨⟨s.sema.value - 1,s.sema.waiters⟩,s.status,Function.update s.inside t false⟩ := by
  refine ⟨?_,?_,?_,?_⟩
  · apply inv.queued.congr
    intro u
    by_cases same : u = t
    · subst same
      simp [ready]
    · simp [same]
  · intro u out
    by_cases same : u = t
    · rwa [same]
    · simp only [Function.update_of_ne same] at out
      exact inv.outside u out
  · have counted := inv.counted
    simp only [downs,ups,Event.isDown,Event.isUp,List.countP_cons,Bool.false_eq_true,↓reduceIte] at counted ⊢
    omega
  · intro waiting
    have before := inv.woken waiting
    have changed := woken_inside ⟨s.sema.value - 1,s.sema.waiters⟩ s t false
    have left : weight (false,s.status t) = 0 := by simp [weight]
    have was : weight (s.threads t) ≤ 1 := by
      rw [weight]
      split <;> omega
    simp only
    omega

theorem Inv.up (inv : Inv v h s) (bound : v + ups h + 1 < unsignedValues) :
    ∃ sema status, semaUp s.sema s.status = some (sema,status) ∧
      Inv v (.up :: h) { s with sema := sema, status := status } := by
  have counted := inv.counted
  have whole : (s.sema.value + 1) % unsignedValues = s.sema.value + 1 := Nat.mod_eq_of_lt (by omega)
  have next : s.sema.value + 1 + downs (.up :: h) = v + ups (.up :: h) := by
    simp only [downs,ups,Event.isDown,Event.isUp,List.countP_cons,Bool.false_eq_true,↓reduceIte] at counted ⊢
    omega
  rcases inv.queued.up with ⟨empty,ran⟩ | ⟨t,rest,waiters,here,blocked,ran,queued⟩
  · rw [whole] at ran
    refine ⟨_,_,ran,inv.queued.congr fun _ => Iff.rfl,inv.outside,next,?_⟩
    exact fun waiting => absurd empty waiting
  · rw [whole] at ran queued
    refine ⟨_,_,ran,queued,?_,next,?_⟩
    · intro u out
      by_cases same : u = t
      · simp [same]
      · simp only [Function.update_of_ne same]
        exact inv.outside u out
    · intro _
      have before := inv.woken (by simp [waiters])
      have changed := woken_status ⟨s.sema.value + 1,rest⟩ s t .ready
      have was : weight (s.threads t) = 0 := by simp [weight,State.threads,blocked]
      have now : weight (s.inside t,.ready) = 1 := by simp [weight,here]
      simp only
      omega

omit [DecidableEq Tid] in
theorem Inv.tryDown (inv : Inv v h s) (ran : semaTryDown s.sema = (success,sema)) :
    Inv v (.tryDown success :: h) { s with sema := sema } := by
  have counted := inv.counted
  unfold semaTryDown at ran
  split at ran
  · obtain ⟨rfl,rfl⟩ := Prod.mk.inj ran
    refine ⟨inv.queued.congr fun _ => Iff.rfl,inv.outside,?_,?_⟩
    · simp only [downs,ups,Event.isDown,Event.isUp,List.countP_cons,Bool.false_eq_true,↓reduceIte] at counted ⊢
      omega
    · intro waiting
      exact Nat.le_trans (Nat.sub_le _ _) (inv.woken waiting)
  · obtain ⟨rfl,rfl⟩ := Prod.mk.inj ran
    refine ⟨inv.queued,inv.outside,?_,inv.woken⟩
    simpa [downs,ups,Event.isDown,Event.isUp] using counted

omit [DecidableEq Tid] [Fintype Tid] in
theorem ups_cons (e : Event Tid) (h : List (Event Tid)) : ups (e :: h) = ups h + if e.isUp then 1 else 0 :=
  List.countP_cons

theorem Inv.step (inv : Inv v h s) (bound : v + ups (e :: h) < unsignedValues) (step : Step h s e s') :
    Inv v (e :: h) s' := by
  cases step with
  | down ready ran =>
    unfold semaDown at ran
    split at ran
    · obtain ⟨rfl,rest⟩ := Prod.mk.inj ran
      obtain ⟨rfl,rfl⟩ := Prod.mk.inj rest
      exact inv.blocked ready (by assumption)
    · obtain ⟨rfl,rest⟩ := Prod.mk.inj ran
      obtain ⟨rfl,rfl⟩ := Prod.mk.inj rest
      exact inv.taken ready (by assumption)
  | tryDown ran => exact inv.tryDown ran
  | up ran =>
    rw [ups_cons] at bound
    obtain ⟨sema,status,done,inv'⟩ := inv.up bound
    rw [ran] at done
    obtain ⟨rfl,rfl⟩ := Prod.mk.inj (Option.some.inj done)
    exact inv'

theorem run_inv (run : History.Path Step [] (State.init v) h s) (bound : v + ups h < unsignedValues) : Inv v h s := by
  refine run.invariant (fun h s => v + ups h < unsignedValues → Inv v h s) ?_ (fun _ => init_inv v) bound
  intro h s e s' before step bound
  have smaller : v + ups h < unsignedValues := by
    rw [ups_cons] at bound
    omega
  exact (before smaller).step bound step

/-- No unit is lost or made up, and while a thread waits there are no more units than threads
on the way to take one. -/
theorem semaphore_accounted (run : History.Path Step [] (State.init v) h s) (bound : v + ups h < unsignedValues) :
    s.sema.value + downs h = v + ups h ∧ downs h ≤ v + ups h ∧
      (s.sema.waiters ≠ [] → s.sema.value ≤ s.woken) ∧ semaUp s.sema s.status ≠ none := by
  have inv := run_inv run bound
  refine ⟨inv.counted,by have := inv.counted; omega,inv.woken,?_⟩
  rcases inv.queued.up with ⟨-,ran⟩ | ⟨t,rest,-,-,-,ran,-⟩ <;> simp [ran]

/-- A thread blocks, is unblocked, and another takes the unit before it. -/
theorem semaphore_accounted_overtaken : ∃ s : State (Fin 2),
    History.Path Step [] (State.init 0) [.down 0 false,.down 1 true,.up,.down 0 false] s ∧
      s.sema.value + 1 = 0 + 1 ∧ 1 ≤ 0 + 1 ∧ (s.sema.waiters ≠ [] → s.sema.value ≤ s.woken) ∧
      semaUp s.sema s.status ≠ none := by
  have run : ∃ s : State (Fin 2),
      History.Path Step [] (State.init 0) [.down 0 false,.down 1 true,.up,.down 0 false] s := by
    have start : History.Path Step [] (State.init 0 : State (Fin 2)) [] (State.init 0) := .refl
    have first := start.snoc (.down (t := 0) rfl rfl)
    have second := first.snoc (.up rfl)
    have third := second.snoc (.down (t := 1) (by decide) rfl)
    exact ⟨_,third.snoc (.down (t := 0) (by decide) rfl)⟩
  obtain ⟨s,run⟩ := run
  exact ⟨s,run,semaphore_accounted run (by decide)⟩

end OsProj.Synch.Accounting
