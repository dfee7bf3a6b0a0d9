import OsProj.SynchMonitor

/-! Mutual exclusion: the one unit of a lock is in its semaphore, or it belongs to the one
thread that holds the lock, is about to enter itself as holder, or is about to return it. -/
namespace OsProj.Synch.Monitor

variable {Tid Lock Cond : Type}

/-- The lock whose unit the thread has without being entered as holder. -/
def Pc.unit : Pc Tid Lock Cond → Option Lock
  | .acquireOwn l _ | .releaseUp l _ => some l
  | _ => none

def Pc.down : Pc Tid Lock Cond → Option Lock
  | .acquireDown l _ => some l
  | _ => none

/-- The lock that the thread must hold there. -/
def Pc.holds (lockOf : Cond → Lock) : Pc Tid Lock Cond → Option Lock
  | .releaseCheck l _ | .releaseClear l _ => some l
  | .waitCheck c | .waitPush c | .signalCheck c _ | .signalPop c _ | .signalUp c _ _ | .broadcastTest c => some (lockOf c)
  | _ => none

def Pc.lacks (lockOf : Cond → Lock) : Pc Tid Lock Cond → Option Lock
  | .acquireCheck l _ | .tryCheck l => some l
  | .waitDown c => some (lockOf c)
  | _ => none

structure Owned (s : State Tid Lock Cond) (l : Lock) (o : Option Tid) : Prop where
  value : (s.sema l).value = if o.isSome then 0 else 1
  holder : ∀ t, s.holder l = some t ↔ o = some t ∧ (s.pc t).unit ≠ some l
  unit : ∀ t, (s.pc t).unit = some l → o = some t

variable [DecidableEq Tid] [DecidableEq Lock]
  {lockOf : Cond → Lock} {h : List (Event Tid Lock Cond)} {s s' : State Tid Lock Cond} {e : Event Tid Lock Cond}

structure Locks (lockOf : Cond → Lock) (h : List (Event Tid Lock Cond)) (s : State Tid Lock Cond) : Prop where
  holding : ∀ t l, s.holder l = some t ↔ holding t l h = true
  owned : ∀ l, ∃ o, Owned s l o
  queued : ∀ l, Queued (s.sema l) s.status fun t => (s.pc t).down = some l
  holds : ∀ t l, (s.pc t).holds lockOf = some l → s.holder l = some t
  lacks : ∀ t l, (s.pc t).lacks lockOf = some l → s.holder l ≠ some t

theorem init_locks : Locks lockOf [] (State.init : State Tid Lock Cond) where
  holding := by simp [State.init,Monitor.holding]
  owned := fun l => ⟨none,by simp [State.init,semaInit],by simp [State.init],by simp [State.init,Pc.unit]⟩
  queued := fun l => queued_init fun _ _ => rfl
  holds := by simp [State.init,Pc.holds]
  lacks := by simp [State.init]

omit [DecidableEq Tid] [DecidableEq Lock] in
/-- Two owners are one. -/
theorem Owned.unique (owned : Owned s l o) (one : s.holder l = some t ∨ (s.pc t).unit = some l) : o = some t := by
  rcases one with held | unit
  · exact ((owned.holder t).mp held).1
  · exact owned.unit t unit

/-- A step of the thread `t` that leaves the locks alone. Threads that wait for a lock stay
blocked or ready. -/
theorem Locks.quiet (locks : Locks lockOf h s) (t : Tid) (p : Pc Tid Lock Cond)
    (remembered : ∀ u l, Monitor.holding u l h' = Monitor.holding u l h)
    (holder : s'.holder = s.holder) (sema : s'.sema = s.sema) (pc : s'.pc = Function.update s.pc t p)
    (before : (s.pc t).unit = none) (after : p.unit = none)
    (asleep : ∀ u l, (s'.pc u).down = some l ∧ s'.status u = .blocked ↔ (s.pc u).down = some l ∧ s.status u = .blocked)
    (holds : ∀ l, p.holds lockOf = some l → s.holder l = some t)
    (lacks : ∀ l, p.lacks lockOf = some l → s.holder l ≠ some t) : Locks lockOf h' s' := by
  have unit : ∀ u, (s'.pc u).unit = (s.pc u).unit := by
    intro u
    by_cases same : u = t
    · subst same
      simp [pc,before,after]
    · simp [pc,same]
  refine ⟨?_,?_,?_,?_,?_⟩
  · intro u l
    rw [holder,remembered]
    exact locks.holding u l
  · intro l
    obtain ⟨o,owned⟩ := locks.owned l
    refine ⟨o,?_,?_,?_⟩
    · rw [sema]
      exact owned.value
    · intro u
      rw [holder,unit]
      exact owned.holder u
    · intro u
      rw [unit]
      exact owned.unit u
  · intro l
    rw [sema]
    exact (locks.queued l).congr fun u => asleep u l
  · intro u l
    by_cases same : u = t
    · subst same
      rw [pc,Function.update_self,holder]
      exact holds l
    · rw [pc,Function.update_of_ne same,holder]
      exact locks.holds u l
  · intro u l
    by_cases same : u = t
    · subst same
      rw [pc,Function.update_self,holder]
      exact lacks l
    · rw [pc,Function.update_of_ne same,holder]
      exact locks.lacks u l

/-- A step that changes one lock. -/
theorem Locks.change (locks : Locks lockOf h s) (l : Lock)
    (holder : ∀ k, k ≠ l → s'.holder k = s.holder k) (sema : ∀ k, k ≠ l → s'.sema k = s.sema k)
    (unit : ∀ u k, k ≠ l → ((s'.pc u).unit = some k ↔ (s.pc u).unit = some k))
    (asleep : ∀ u k, k ≠ l →
      ((s'.pc u).down = some k ∧ s'.status u = .blocked ↔ (s.pc u).down = some k ∧ s.status u = .blocked))
    (owned : Owned s' l o) (queued : Queued (s'.sema l) s'.status fun t => (s'.pc t).down = some l)
    (remembered : ∀ t k, s'.holder k = some t ↔ Monitor.holding t k h' = true)
    (holds : ∀ t k, (s'.pc t).holds lockOf = some k → s'.holder k = some t)
    (lacks : ∀ t k, (s'.pc t).lacks lockOf = some k → s'.holder k ≠ some t) : Locks lockOf h' s' := by
  refine ⟨remembered,?_,?_,holds,lacks⟩
  · intro k
    by_cases same : k = l
    · subst same
      exact ⟨o,owned⟩
    · obtain ⟨o,owned⟩ := locks.owned k
      refine ⟨o,?_,?_,?_⟩
      · rw [sema k same]
        exact owned.value
      · intro u
        rw [holder k same,owned.holder,Ne,Ne,unit u k same]
      · intro u at_unit
        exact owned.unit u ((unit u k same).mp at_unit)
  · intro k
    by_cases same : k = l
    · subst same
      exact queued
    · rw [sema k same]
      exact (locks.queued k).congr fun u => asleep u k same

/-- The thread finds the lock taken, queues and blocks. -/
theorem Locks.blocked (locks : Locks lockOf h s) (ready : s.status t = .ready) (here : s.pc t = .acquireDown l w) :
    Locks lockOf (.quiet t :: h) { s with
      sema := Function.update s.sema l { s.sema l with waiters := (s.sema l).waiters ++ [t] },
      status := Function.update s.status t .blocked } := by
  obtain ⟨o,owned⟩ := locks.owned l
  refine locks.change (o := o) l (fun _ _ => rfl) ?_ (fun _ _ _ => Iff.rfl) ?_ ?_ ?_ locks.holding locks.holds locks.lacks
  · intro k other
    simp [other]
  · intro u k other
    by_cases same : u = t
    · subst same
      simp [here,Pc.down,Ne.symm other]
    · simp [same]
  · refine ⟨?_,owned.holder,owned.unit⟩
    simpa using owned.value
  · simp only [Function.update_self]
    apply (locks.queued l).push ready
    · simp [here,Pc.down]
    · exact fun _ _ => Iff.rfl

/-- A step of the thread `t` that changes one lock, and does not leave the thread asleep on another. -/
theorem Locks.move (locks : Locks lockOf h s) (l : Lock) (t : Tid) (p : Pc Tid Lock Cond)
    (pc : s'.pc = Function.update s.pc t p) (holder : ∀ k, k ≠ l → s'.holder k = s.holder k)
    (sema : ∀ k, k ≠ l → s'.sema k = s.sema k) (unit : ∀ k, k ≠ l → (p.unit = some k ↔ (s.pc t).unit = some k))
    (down : p.down = none) (awake : s.status t = .ready ∨ (s.pc t).down = none)
    (status : ∀ u, (s.pc u).down ≠ some l → s'.status u = s.status u) (owned : Owned s' l o)
    (queued : Queued (s'.sema l) s'.status fun u => (s'.pc u).down = some l)
    (remembered : ∀ u k, s'.holder k = some u ↔ Monitor.holding u k h' = true)
    (holds : ∀ u k, u ≠ t → (s.pc u).holds lockOf = some k → s'.holder k = some u)
    (lacks : ∀ u k, u ≠ t → (s.pc u).lacks lockOf = some k → s'.holder k ≠ some u)
    (self : p.holds lockOf = none ∧ ∀ k, p.lacks lockOf = some k → s'.holder k ≠ some t) : Locks lockOf h' s' := by
  refine locks.change l holder sema ?_ ?_ owned queued remembered ?_ ?_
  · intro u k other
    by_cases same : u = t
    · subst same
      rw [pc,Function.update_self]
      exact unit k other
    · rw [pc,Function.update_of_ne same]
  · intro u k other
    by_cases same : u = t
    · subst same
      rw [pc,Function.update_self,down]
      rcases awake with ready | none
      · simp [ready]
      · simp [none]
    · rw [pc,Function.update_of_ne same]
      refine and_congr_right fun there => ?_
      rw [status u (by simp [there,other])]
  · intro u k
    by_cases same : u = t
    · subst same
      simp [pc,self.1]
    · rw [pc,Function.update_of_ne same]
      exact holds u k same
  · intro u k
    by_cases same : u = t
    · subst same
      rw [pc,Function.update_self]
      exact self.2 k
    · rw [pc,Function.update_of_ne same]
      exact lacks u k same

/-- The thread takes the unit of a lock. -/
theorem Locks.take (locks : Locks lockOf h s) (ready : s.status t = .ready) (none : (s.pc t).unit = none)
    (positive : (s.sema l).value ≠ 0) :
    Locks lockOf (.quiet t :: h) (State.goto { s with
      sema := Function.update s.sema l { s.sema l with value := (s.sema l).value - 1 } } t (.acquireOwn l w)) := by
  obtain ⟨o,owned⟩ := locks.owned l
  have free : o = Option.none := by
    have value := owned.value
    cases o with
    | none => rfl
    | some u => exact absurd value positive
  subst free
  have one : (s.sema l).value = 1 := owned.value
  refine locks.move (o := some t) l t (.acquireOwn l w) rfl (fun _ _ => rfl) ?_ ?_ rfl (.inl ready) (fun _ _ => rfl)
    ⟨?_,?_,?_⟩ ?_ locks.holding (fun u k _ => locks.holds u k) (fun u k _ => locks.lacks u k) (by simp [Pc.holds,Pc.lacks])
  · intro k other
    simp [State.goto,other]
  · intro k other
    rw [none]
    simp [Pc.unit,Ne.symm other]
  · simp [State.goto,one]
  · intro u
    have unheld : s.holder l ≠ some u := fun held => nomatch ((owned.holder u).mp held).1
    constructor
    · exact fun held => absurd held unheld
    · rintro ⟨same,away⟩
      obtain rfl := Option.some.inj same
      simp [State.goto,Pc.unit] at away
  · intro u unit
    by_cases same : u = t
    · rw [same]
    · simp only [State.goto,Function.update_of_ne same] at unit
      exact nomatch owned.unit u unit
  · simp only [State.goto,Function.update_self]
    apply (locks.queued l).congr
    intro u
    by_cases same : u = t
    · subst same
      simp [ready]
    · simp [same]

/-- The owner of a lock enters itself as holder or takes its entry back. -/
theorem Locks.rehold (locks : Locks lockOf h s) (owned : Owned s l (some t)) (y : Option Tid) (p : Pc Tid Lock Cond)
    (kept : y = some t ∧ p.unit = none ∨ y = none ∧ p.unit = some l)
    (unit : ∀ k, k ≠ l → (s.pc t).unit ≠ some k) (down : (s.pc t).down = none)
    (after : p.down = none ∧ p.holds lockOf = none ∧ p.lacks lockOf = none)
    (remembered : ∀ u k, Monitor.holding u k (e :: h) = if u = t ∧ k = l then y.isSome else Monitor.holding u k h)
    (waiter : Tid → Option (Semaphore Tid)) :
    Locks lockOf (e :: h) (State.goto { s with holder := Function.update s.holder l y, waiter := waiter } t p) := by
  have others : ∀ u, u ≠ t → s.holder l ≠ some u ∧ y ≠ some u := by
    intro u other
    constructor
    · intro held
      exact other (Option.some.inj ((owned.holder u).mp held).1).symm
    · rcases kept with ⟨rfl,-⟩ | ⟨rfl,-⟩
      · simp [Ne.symm other]
      · simp
  refine locks.move (o := some t) l t p rfl ?_ (fun _ _ => rfl) ?_ after.1 (.inr down) (fun _ _ => rfl) ⟨owned.value,?_,?_⟩
    ?_ ?_ ?_ ?_ (by simp [after.2])
  · intro k other
    simp [State.goto,other]
  · intro k other
    have before := unit k other
    rcases kept with ⟨-,kept⟩ | ⟨-,kept⟩ <;> simp [kept,before,Ne.symm other]
  · intro u
    by_cases same : u = t
    · subst same
      rcases kept with ⟨rfl,kept⟩ | ⟨rfl,kept⟩ <;> simp [State.goto,kept]
    · simp [State.goto,Ne.symm same,(others u same).2]
  · intro u at_unit
    by_cases same : u = t
    · rw [same]
    · simp only [State.goto,Function.update_of_ne same] at at_unit
      exact owned.unit u at_unit
  · apply (locks.queued l).congr
    intro u
    by_cases same : u = t
    · subst same
      simp [State.goto,down,after.1]
    · simp [State.goto,same]
  · intro u k
    have before := locks.holding u k
    rw [remembered]
    by_cases lock : k = l
    · subst lock
      by_cases same : u = t
      · subst same
        rcases kept with ⟨rfl,-⟩ | ⟨rfl,-⟩ <;> simp [State.goto]
      · have out : Monitor.holding u k h = false := by
          rw [← Bool.not_eq_true,← before]
          exact (others u same).1
        simp [State.goto,same,out,(others u same).2]
    · simp [State.goto,lock,before]
  · intro u k same needs
    have held := locks.holds u k needs
    have lock : k ≠ l := fun lock => (others u same).1 (lock ▸ held)
    exact (Function.update_of_ne lock ..).trans held
  · intro u k same lacks
    simp only [State.goto]
    by_cases lock : k = l
    · subst lock
      simpa using (others u same).2
    · rw [Function.update_of_ne lock]
      exact locks.lacks u k lacks

theorem Locks.own (locks : Locks lockOf h s) (here : s.pc t = .acquireOwn l w) (waiter : Tid → Option (Semaphore Tid)) :
    Locks lockOf (.acquired t l w :: h) (State.goto { s with
      holder := Function.update s.holder l (some t), waiter := waiter } t .outside) := by
  obtain ⟨o,owned⟩ := locks.owned l
  have mine : o = some t := owned.unit t (by rw [here]; rfl)
  subst mine
  apply locks.rehold owned (some t) .outside (Or.inl ⟨rfl,rfl⟩) ?_ (by rw [here]; rfl) ⟨rfl,rfl,rfl⟩
  · intro u k
    simp [Monitor.holding,eq_comm]
  · intro k other
    rw [here]
    simp [Pc.unit,Ne.symm other]

theorem Locks.clear (locks : Locks lockOf h s) (here : s.pc t = .releaseClear l w) :
    Locks lockOf (.cleared t l :: h) (State.goto { s with
      holder := Function.update s.holder l none } t (.releaseUp l w)) := by
  have held : s.holder l = some t := locks.holds t l (by rw [here]; rfl)
  obtain ⟨o,owned⟩ := locks.owned l
  obtain ⟨rfl,-⟩ := (owned.holder t).mp held
  apply locks.rehold owned none (.releaseUp l w) (Or.inr ⟨rfl,rfl⟩) ?_ (by rw [here]; rfl) ⟨rfl,rfl,rfl⟩
  · intro u k
    simp [Monitor.holding,eq_comm]
  · intro k other
    rw [here]
    simp [Pc.unit]

/-- The owner returns the unit; the first thread in the queue may go on. -/
theorem Locks.up (locks : Locks lockOf h s) (here : s.pc t = .releaseUp l w) (p : Pc Tid Lock Cond)
    (after : p.unit = none ∧ p.down = none ∧ p.holds lockOf = none ∧ ∀ k, p.lacks lockOf = some k → k = l)
    (remembered : ∀ u k, Monitor.holding u k (e :: h) = Monitor.holding u k h) :
    ∃ sema status, semaUp (s.sema l) s.status = some (sema,status) ∧
      (∀ u, (s.pc u).down = none → status u = s.status u) ∧
      Locks lockOf (e :: h) (State.goto { s with
        sema := Function.update s.sema l sema, status := status } t p) := by
  obtain ⟨o,owned⟩ := locks.owned l
  have mine : o = some t := owned.unit t (by rw [here]; rfl)
  subst mine
  have zero : (s.sema l).value = 0 := owned.value
  have unit : (s.pc t).unit = some l := by rw [here]; rfl
  have down : (s.pc t).down = none := by rw [here]; rfl
  have unheld : ∀ u, s.holder l ≠ some u := by
    intro u held
    obtain ⟨same,away⟩ := (owned.holder u).mp held
    rw [← Option.some.inj same] at away
    exact away unit
  have settled : ∀ (sema : Semaphore Tid) (status : Tid → Status), sema.value = 1 →
      Queued sema status (fun u => (s.pc u).down = some l) →
      (∀ u, (s.pc u).down ≠ some l → status u = s.status u) →
      Locks lockOf (e :: h) (State.goto { s with
        sema := Function.update s.sema l sema, status := status } t p) := by
    intro sema status one queued same_status
    refine locks.move (o := none) l t p rfl (fun _ _ => rfl) ?_ ?_ after.2.1 (.inr down) same_status ⟨?_,?_,?_⟩ ?_ ?_
      (fun u k _ => locks.holds u k) (fun u k _ => locks.lacks u k) ⟨after.2.2.1,?_⟩
    · intro k other
      simp [State.goto,other]
    · intro k other
      simp [after.1,unit,Ne.symm other]
    · simp [State.goto,one]
    · intro u
      simp [State.goto,unheld]
    · intro u unit
      by_cases same : u = t
      · subst same
        simp [State.goto,after.1] at unit
      · simp only [State.goto,Function.update_of_ne same] at unit
        exact absurd (Option.some.inj (owned.unit u unit)).symm same
    · simp only [State.goto,Function.update_self]
      apply queued.congr
      intro u
      by_cases same : u = t
      · subst same
        simp [after.2.1,down]
      · simp [same]
    · intro u k
      rw [remembered]
      exact locks.holding u k
    · intro k lacks
      rw [after.2.2.2 k lacks]
      exact unheld t
  have one : ((s.sema l).value + 1) % unsignedValues = 1 := by rw [zero]; rfl
  rcases (locks.queued l).up with ⟨empty,ran⟩ | ⟨u,rest,waiters,there,blocked,ran,queued⟩
  · rw [one] at ran
    refine ⟨_,_,ran,fun _ _ => rfl,settled _ _ rfl ?_ fun _ _ => rfl⟩
    exact (locks.queued l).congr fun _ => Iff.rfl
  · rw [one] at ran queued
    refine ⟨_,_,ran,?_,settled _ _ rfl queued ?_⟩
    · intro v none
      rw [Function.update_of_ne]
      rintro rfl
      rw [there] at none
      contradiction
    · intro v away
      rw [Function.update_of_ne]
      rintro rfl
      exact away there

end OsProj.Synch.Monitor
