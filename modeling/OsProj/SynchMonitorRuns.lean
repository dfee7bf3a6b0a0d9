import OsProj.SynchMonitorWaits

/-! Runs of locks and condition variables: no assertion fails, a wait ends because of a signal
that was issued after it released the lock, and a signal that finds a wait ends one. -/
namespace OsProj.Synch.Monitor

section
variable {Tid Lock Cond : Type}

def Pc.signals : Pc Tid Lock Cond → Option (Cond × Bool)
  | .signalCheck c b | .signalPop c b | .signalUp c b _ => some (c,b)
  | .broadcastTest c => some (c,true)
  | _ => none

def Pc.unpopped : Pc Tid Lock Cond → Bool
  | .signalCheck _ _ | .signalPop _ _ => true
  | _ => false

def signalOp (c : Cond) (b : Bool) : Op Lock Cond := if b then .broadcast c else .signal c

/-- The last call of the thread was this signal, between the events `before` and `after`. -/
def Issue (h : List (Event Tid Lock Cond)) (u : Tid) (c : Cond) (b : Bool)
    (before after : List (Event Tid Lock Cond)) : Prop :=
  h = after ++ .call u (signalOp c b) :: before ∧ ∀ op, .call u op ∉ after

theorem Issue.cons {h : List (Event Tid Lock Cond)} (issue : Issue h u c b before after) (other : ∀ op, e ≠ .call u op) :
    Issue (e :: h) u c b before (e :: after) := by
  obtain ⟨rfl,none⟩ := issue
  refine ⟨rfl,fun op member => ?_⟩
  rcases List.mem_cons.mp member with same | member
  · exact other op same.symm
  · exact none op member

variable [DecidableEq Tid] [DecidableEq Lock] [DecidableEq Cond]

/-- The wait of the thread had released the lock, and nothing has happened to it since the signal. -/
def Sleeps (c : Cond) (before after : List (Event Tid Lock Cond)) (t : Tid) : Prop :=
  lastWait t before = some (.released c) ∧ ∀ e ∈ after, e.phase t = none

/-- What an event means, given the events before it. A wait begins when the last one is over;
it is signalled by a call that was made after it released the lock; it returns after it was
signalled. A signal that finds no entry was issued when there was none. -/
def Ordered (h : List (Event Tid Lock Cond)) : Event Tid Lock Cond → Prop
  | .began t _ => Settled (lastWait t h)
  | .released t c => lastWait t h = some (.began c)
  | .signalled u c t => lastWait t h = some (.released c) ∧
      ∃ b before after, Issue h u c b before after ∧ Sleeps c before after t
  | .acquired t _ (some c) => lastWait t h = some (.signalled c)
  | .unheard u c false => ∃ before after, Issue h u c false before after ∧ waits c before = wakes c before
  | _ => True

/-- While a thread signals, the queue holds only waits that had released the lock when the
signal was issued; until it takes an entry, the queue is as it was then. -/
def Issued (h : List (Event Tid Lock Cond)) (s : State Tid Lock Cond) (u : Tid) (c : Cond) (b : Bool) : Prop :=
  ∃ before after, Issue h u c b before after ∧ (∀ t ∈ s.queue c, Sleeps c before after t) ∧
    (b = false → (s.pc u).unpopped → waits c before = waits c h ∧ wakes c before = wakes c h)

structure Inv (lockOf : Cond → Lock) (h : List (Event Tid Lock Cond)) (s : State Tid Lock Cond) : Prop where
  locks : Locks lockOf h s
  waits : Waits lockOf h s
  issued : ∀ u c b, (s.pc u).signals = some (c,b) → Issued h s u c b
  ordered : History.Always Ordered h

variable {lockOf : Cond → Lock} {h : List (Event Tid Lock Cond)} {s s' : State Tid Lock Cond} {e : Event Tid Lock Cond}

theorem init_inv : Inv lockOf [] (State.init : State Tid Lock Cond) where
  locks := init_locks
  waits := init_waits
  issued := fun _ _ _ signals => nomatch signals
  ordered := trivial

omit [DecidableEq Lock] in
theorem Issued.step (issued : Issued h s u c b) (other : ∀ op, e ≠ .call u op)
    (queue : ∀ x ∈ s'.queue c, x ∈ s.queue c ∧ e.phase x = none)
    (same : b = false → (s'.pc u).unpopped →
      (s.pc u).unpopped ∧ Monitor.waits c (e :: h) = Monitor.waits c h ∧ wakes c (e :: h) = wakes c h) :
    Issued (e :: h) s' u c b := by
  obtain ⟨before,after,issue,sleeps,unchanged⟩ := issued
  refine ⟨before,e :: after,issue.cons other,fun x member => ?_,fun signal unpopped => ?_⟩
  · obtain ⟨there,quiet⟩ := queue x member
    obtain ⟨released,none⟩ := sleeps x there
    refine ⟨released,fun e' later => ?_⟩
    rcases List.mem_cons.mp later with rfl | later
    · exact quiet
    · exact none e' later
  · obtain ⟨was,waits,wakes⟩ := same signal unpopped
    rw [waits,wakes]
    exact unchanged signal was

omit [DecidableEq Tid] [DecidableEq Lock] [DecidableEq Cond] in
theorem signals_holds {p : Pc Tid Lock Cond} (signals : p.signals = some (c,b)) : p.holds lockOf = some (lockOf c) := by
  unfold Pc.signals at signals
  split at signals <;> simp_all [Pc.holds]

omit [DecidableEq Tid] [DecidableEq Lock] [DecidableEq Cond] in
theorem signals_apart {p : Pc Tid Lock Cond} (signals : p.signals = some (c,b)) : p.stage = .apart := by
  unfold Pc.signals at signals
  split at signals <;> simp_all [Pc.stage]

/-- Nothing happens to the waits that stay in a queue while the condition is signalled. -/
theorem Inv.unmoved (inv : Inv lockOf h s) (signals : (s.pc u).signals = some (c,b)) (queues : Queues (e :: h) s'.queue)
    (ordered : Ordered h e) (there : x ∈ s.queue c) (stays : x ∈ s'.queue c) : e.phase x = none := by
  have held := inv.locks.holds u _ (signals_holds signals)
  have released := inv.waits.queue_released inv.locks held (signals_apart signals) there
  cases phase : e.phase x with
  | none => rfl
  | some p =>
    have now := (queues.queued x c).mp stays
    rw [lastWait_new phase] at now
    cases e with
    | began t d =>
      simp only [Event.phase] at phase
      split at phase
      · rename_i same
        subst same
        simp [Ordered,Settled,released] at ordered
      · contradiction
    | released t d =>
      simp only [Event.phase] at phase
      split at phase
      · rename_i same
        subst same
        simp [Ordered,released] at ordered
      · contradiction
    | signalled t d y =>
      simp only [Event.phase] at phase
      split at phase
      · obtain rfl := Option.some.inj phase
        simp at now
      · contradiction
    | acquired t l w =>
      cases w with
      | none => contradiction
      | some d =>
        simp only [Event.phase] at phase
        split at phase
        · obtain rfl := Option.some.inj phase
          simp at now
        · contradiction
    | _ => contradiction

/-- A step of a thread that leaves the queues alone, after which it signals as before or not. -/
theorem Inv.issued_same (inv : Inv lockOf h s) (queues : Queues (e :: h) s'.queue) (ordered : Ordered h e)
    (began : ∀ c, e.beganOn c = none) (signalled : ∀ c, e.signalledOn c = none) (other : ∀ u op, e ≠ .call u op)
    (pc : s'.pc = Function.update s.pc t p) (queue : s'.queue = s.queue)
    (own : ∀ c b, p.signals = some (c,b) → (s.pc t).signals = some (c,b) ∧ (b = false → p.unpopped → (s.pc t).unpopped)) :
    ∀ u c b, (s'.pc u).signals = some (c,b) → Issued (e :: h) s' u c b := by
  intro u c b signals
  have was : (s.pc u).signals = some (c,b) ∧ (b = false → (s'.pc u).unpopped → (s.pc u).unpopped) := by
    by_cases same : u = t
    · subst same
      rw [pc,Function.update_self] at signals ⊢
      exact own c b signals
    · rw [pc,Function.update_of_ne same] at signals ⊢
      exact ⟨signals,fun _ unpopped => unpopped⟩
  apply (inv.issued u c b was.1).step (other u)
  · intro x stays
    have there : x ∈ s.queue c := by rwa [queue] at stays
    exact ⟨there,inv.unmoved was.1 queues ordered there stays⟩
  · intro signal unpopped
    exact ⟨was.2 signal unpopped,waits_skip (began c),wakes_skip (signalled c)⟩

/-- A step that only moves the thread on. -/
theorem Inv.goto (inv : Inv lockOf h s) (ready : s.status t = .ready) (p : Pc Tid Lock Cond) (plain : e.plain)
    (other : ∀ u op, e ≠ .call u op) (remembered : ∀ u l, holding u l (e :: h) = holding u l h)
    (unit : (s.pc t).unit = none ∧ p.unit = none) (raises : (s.pc t).raises = none ∧ p.raises = none)
    (stage : p.stage = (s.pc t).stage) (away : ∀ c, (s.pc t).stage ≠ .waiting c)
    (holds : ∀ l, p.holds lockOf = some l → s.holder l = some t) (lacks : ∀ l, p.lacks lockOf = some l → s.holder l ≠ some t)
    (own : ∀ c b, p.signals = some (c,b) → (s.pc t).signals = some (c,b) ∧ (b = false → p.unpopped → (s.pc t).unpopped))
    (ordered : Ordered h e) : Inv lockOf (e :: h) (s.goto t p) where
  locks := by
    refine inv.locks.quiet t p remembered rfl rfl rfl unit.1 unit.2 ?_ holds lacks
    intro u l
    by_cases same : u = t
    · subst same
      simp [State.goto,ready]
    · simp [State.goto,same]
  waits := by
    refine inv.waits.stay t plain ?_ rfl rfl (fun _ _ _ => rfl) raises.1 ?_ ?_ away
    · exact fun u other => by simp [State.goto,other]
    · simpa [State.goto] using raises.2
    · simpa [State.goto] using stage
  issued := inv.issued_same (inv.waits.queues.plain plain) ordered (beganOn_plain plain) (signalledOn_plain plain) other rfl rfl own
  ordered := ⟨ordered,inv.ordered⟩

def Goes (lockOf : Cond → Lock) (h : List (Event Tid Lock Cond)) (s : State Tid Lock Cond) (t : Tid) : Prop :=
  ∃ e s', advance lockOf t s = some (e,s') ∧ Inv lockOf (e :: h) s'

theorem Inv.acquireCheck (inv : Inv lockOf h s) (ready : s.status t = .ready) (here : s.pc t = .acquireCheck l w) :
    Goes lockOf h s t := by
  have free : s.holder l ≠ some t := inv.locks.lacks t l (by rw [here]; rfl)
  refine ⟨.quiet t,s.goto t (.acquireDown l w),by simp [advance,here,free],?_⟩
  apply inv.goto ready <;> simp [here,Event.plain,holding,Pc.unit,Pc.raises,Pc.holds,Pc.lacks,Pc.signals,Ordered]
  · cases w <;> rfl
  · cases w <;> simp [Pc.stage]

theorem Inv.tryCheck (inv : Inv lockOf h s) (ready : s.status t = .ready) (here : s.pc t = .tryCheck l) :
    Goes lockOf h s t := by
  have free : s.holder l ≠ some t := inv.locks.lacks t l (by rw [here]; rfl)
  refine ⟨.quiet t,s.goto t (.tryDown l),by simp [advance,here,free],?_⟩
  apply inv.goto ready <;>
    simp [here,Event.plain,holding,Pc.unit,Pc.raises,Pc.stage,Pc.holds,Pc.lacks,Pc.signals,Ordered]

theorem Inv.releaseCheck (inv : Inv lockOf h s) (ready : s.status t = .ready) (here : s.pc t = .releaseCheck l w) :
    Goes lockOf h s t := by
  have held : s.holder l = some t := inv.locks.holds t l (by rw [here]; rfl)
  refine ⟨.quiet t,s.goto t (.releaseClear l w),by simp [advance,here,held],?_⟩
  apply inv.goto ready <;> simp [here,Event.plain,holding,Pc.unit,Pc.raises,Pc.holds,Pc.lacks,Pc.signals,Ordered,held]
  · cases w <;> rfl
  · cases w <;> simp [Pc.stage]

theorem Inv.signalCheck (inv : Inv lockOf h s) (ready : s.status t = .ready) (here : s.pc t = .signalCheck c b) :
    Goes lockOf h s t := by
  have held : s.holder (lockOf c) = some t := inv.locks.holds t _ (by rw [here]; rfl)
  refine ⟨.quiet t,s.goto t (.signalPop c b),by simp [advance,here,held],?_⟩
  apply inv.goto ready <;>
    simp [here,Event.plain,holding,Pc.unit,Pc.raises,Pc.stage,Pc.holds,Pc.lacks,Pc.signals,Pc.unpopped,Ordered,held]

theorem Inv.broadcastTest (inv : Inv lockOf h s) (ready : s.status t = .ready) (here : s.pc t = .broadcastTest c) :
    Goes lockOf h s t := by
  have held : s.holder (lockOf c) = some t := inv.locks.holds t _ (by rw [here]; rfl)
  refine ⟨.quiet t,s.goto t (if s.queue c = [] then .outside else .signalCheck c true),by simp [advance,here],?_⟩
  split <;> apply inv.goto ready <;>
    simp [here,Event.plain,holding,Pc.unit,Pc.raises,Pc.stage,Pc.holds,Pc.lacks,Pc.signals,Ordered,held]

/-- The thread takes the unit of a lock. -/
theorem Inv.take (inv : Inv lockOf h s) (ready : s.status t = .ready) (positive : (s.sema l).value ≠ 0)
    (here : (s.pc t).stage = (Pc.acquireOwn l w : Pc Tid Lock Cond).stage) (unit : (s.pc t).unit = none)
    (raises : (s.pc t).raises = none) :
    Inv lockOf (.quiet t :: h) (State.goto { s with
      sema := Function.update s.sema l { s.sema l with value := (s.sema l).value - 1 } } t (.acquireOwn l w)) where
  locks := inv.locks.take ready unit positive
  waits := by
    refine inv.waits.stay t rfl ?_ rfl rfl (fun _ _ _ => rfl) raises ?_ ?_ ?_
    · exact fun u other => by simp [State.goto,other]
    · simp [State.goto,Pc.raises]
    · simp [State.goto,here]
    · intro c
      rw [here]
      cases w <;> simp [Pc.stage]
  issued := inv.issued_same (inv.waits.queues.plain rfl) trivial (fun _ => rfl) (fun _ => rfl) (by simp) rfl rfl (by simp [Pc.signals])
  ordered := ⟨trivial,inv.ordered⟩

theorem Inv.acquireDown (inv : Inv lockOf h s) (ready : s.status t = .ready) (here : s.pc t = .acquireDown l w) :
    Goes lockOf h s t := by
  by_cases zero : (s.sema l).value = 0
  · refine ⟨.quiet t,_,by simp only [advance,here,semaDown_zero zero,Bool.false_eq_true,↓reduceIte]; rfl,?_⟩
    refine ⟨inv.locks.blocked ready here,?_,?_,trivial,inv.ordered⟩
    · refine inv.waits.stay t rfl (fun _ _ => rfl) rfl rfl ?_ (by rw [here]; rfl) (by rw [here]; rfl) rfl ?_
      · exact fun u other _ => by simp [other]
      · rw [here]
        cases w <;> simp [Pc.stage]
    · exact inv.issued_same (t := t) (e := .quiet t) (inv.waits.queues.plain rfl) trivial (fun _ => rfl) (fun _ => rfl)
        (by simp) (Function.update_eq_self _ _).symm rfl fun c b signals => ⟨signals,fun _ unpopped => unpopped⟩
  · refine ⟨.quiet t,_,by simp only [advance,here,semaDown_pos zero,↓reduceIte]; rfl,?_⟩
    exact inv.take ready zero (by rw [here]; cases w <;> rfl) (by rw [here]; rfl) (by rw [here]; rfl)

theorem Inv.tryDown (inv : Inv lockOf h s) (ready : s.status t = .ready) (here : s.pc t = .tryDown l) :
    Goes lockOf h s t := by
  by_cases zero : (s.sema l).value = 0
  · refine ⟨.quiet t,s.goto t .outside,by simp [advance,here,semaTryDown,zero,State.goto],?_⟩
    apply inv.goto ready <;>
      simp [here,Event.plain,holding,Pc.unit,Pc.raises,Pc.stage,Pc.holds,Pc.lacks,Pc.signals,Ordered]
  · refine ⟨.quiet t,_,by simp [advance,here,semaTryDown,Nat.pos_of_ne_zero zero]; rfl,?_⟩
    exact inv.take ready zero (by rw [here]; rfl) (by rw [here]; rfl) (by rw [here]; rfl)

theorem Inv.acquireOwn (inv : Inv lockOf h s) (here : s.pc t = .acquireOwn l w) : Goes lockOf h s t := by
  cases w with
  | none =>
    refine ⟨.acquired t l none,_,by simp only [advance,here]; rfl,inv.locks.own here s.waiter,?_,?_,trivial,inv.ordered⟩
    · refine inv.waits.stay t rfl ?_ rfl rfl (fun _ _ _ => rfl) (by rw [here]; rfl) ?_ ?_ ?_
      · exact fun u other => by simp [State.goto,other]
      · simp [State.goto,Pc.raises]
      · simp [State.goto,here,Pc.stage]
      · simp [here,Pc.stage]
    · exact inv.issued_same (inv.waits.queues.plain rfl) trivial (fun _ => rfl) (fun _ => rfl) (by simp) rfl rfl (by simp [Pc.signals])
  | some c =>
    obtain ⟨last,waits⟩ := inv.waits.resume here (Function.update s.holder l (some t))
    refine ⟨.acquired t l (some c),_,by simp only [advance,here]; rfl,inv.locks.own here _,waits,?_,last,inv.ordered⟩
    exact inv.issued_same waits.queues last (fun _ => rfl) (fun _ => rfl) (by simp) rfl rfl (by simp [Pc.signals])

theorem Inv.releaseClear (inv : Inv lockOf h s) (here : s.pc t = .releaseClear l w) : Goes lockOf h s t := by
  refine ⟨.cleared t l,_,by simp only [advance,here],inv.locks.clear here,?_,?_,trivial,inv.ordered⟩
  · refine inv.waits.stay t rfl ?_ rfl rfl (fun _ _ _ => rfl) (by rw [here]; rfl) ?_ ?_ ?_
    · exact fun u other => by simp [State.goto,other]
    · simp [State.goto,Pc.raises]
    · rw [here]
      cases w <;> simp [State.goto,Pc.stage]
    · rw [here]
      cases w <;> simp [Pc.stage]
  · exact inv.issued_same (inv.waits.queues.plain rfl) trivial (fun _ => rfl) (fun _ => rfl) (by simp) rfl rfl (by simp [Pc.signals])

theorem Inv.releaseUp (inv : Inv lockOf h s) (ready : s.status t = .ready) (here : s.pc t = .releaseUp l w) :
    Goes lockOf h s t := by
  cases w with
  | none =>
    obtain ⟨sema,status,ran,same,locks⟩ := inv.locks.up (e := .quiet t) here .outside ⟨rfl,rfl,rfl,by simp [Pc.lacks]⟩ fun _ _ => rfl
    refine ⟨.quiet t,_,by simp only [advance,here,ran]; rfl,locks,?_,?_,trivial,inv.ordered⟩
    · refine inv.waits.stay t rfl ?_ rfl rfl (fun u _ => same u) (by rw [here]; rfl) ?_ ?_ ?_
      · exact fun u other => by simp [State.goto,other]
      · simp [State.goto,Pc.raises]
      · simp [State.goto,here,Pc.stage]
      · simp [here,Pc.stage]
    · exact inv.issued_same (inv.waits.queues.plain rfl) trivial (fun _ => rfl) (fun _ => rfl) (by simp) rfl rfl (by simp [Pc.signals])
  | some c =>
    have place := inv.waits.threads t
    rw [here] at place
    obtain ⟨sema,status,ran,same,locks⟩ :=
      inv.locks.up (e := .released t c) here (.waitDown c) ⟨rfl,rfl,rfl,fun k lacks => by
        rw [place.1]
        exact (Option.some.inj lacks).symm⟩ fun _ _ => rfl
    obtain ⟨last,waits⟩ := inv.waits.release here ready same (Function.update s.sema l sema)
    refine ⟨.released t c,_,by simp only [advance,here,ran]; rfl,locks,waits,?_,last,inv.ordered⟩
    exact inv.issued_same waits.queues last (fun _ => rfl) (fun _ => rfl) (by simp) rfl rfl (by simp [Pc.signals])

theorem Inv.waitCheck (inv : Inv lockOf h s) (ready : s.status t = .ready) (here : s.pc t = .waitCheck c) :
    Goes lockOf h s t := by
  have held : s.holder (lockOf c) = some t := inv.locks.holds t _ (by rw [here]; rfl)
  refine ⟨.quiet t,_,by simp only [advance,here,held]; rfl,?_,inv.waits.enter here,?_,trivial,inv.ordered⟩
  · refine inv.locks.quiet t (.waitPush c) (fun _ _ => rfl) rfl rfl rfl (by rw [here]; rfl) rfl ?_ ?_ ?_
    · intro u l
      by_cases same : u = t
      · subst same
        simp [State.goto,ready]
      · simp [State.goto,same]
    · intro l holds
      exact inv.locks.holds t l (by rw [here]; exact holds)
    · simp [Pc.lacks]
  · exact inv.issued_same (inv.waits.queues.plain rfl) trivial (fun _ => rfl) (fun _ => rfl) (by simp) rfl rfl (by simp [Pc.signals])

theorem Inv.waitDown (inv : Inv lockOf h s) (ready : s.status t = .ready) (here : s.pc t = .waitDown c) :
    Goes lockOf h s t := by
  have away : (s.pc t).unit = none ∧ (s.pc t).down = none := by rw [here]; exact ⟨rfl,rfl⟩
  have kept : ∀ c b, (s.pc t).signals = some (c,b) →
      (s.pc t).signals = some (c,b) ∧ (b = false → (s.pc t).unpopped → (s.pc t).unpopped) :=
    fun c b signals => ⟨signals,fun _ unpopped => unpopped⟩
  obtain ⟨sema,there,⟨zero,waits⟩ | ⟨positive,waits⟩⟩ := inv.waits.test here ready
  · refine ⟨.quiet t,_,by simp only [advance,here,there,Option.map_some,semaDown_zero zero,Bool.false_eq_true,↓reduceIte],
      ?_,waits,?_,trivial,inv.ordered⟩
    · refine inv.locks.quiet t (s.pc t) (fun _ _ => rfl) rfl rfl (Function.update_eq_self _ _).symm away.1 away.1 ?_
        (inv.locks.holds t) (inv.locks.lacks t)
      intro u l
      by_cases same : u = t
      · subst same
        simp [away.2]
      · simp [same]
    · exact inv.issued_same (t := t) (inv.waits.queues.plain rfl) trivial (fun _ => rfl) (fun _ => rfl) (by simp) (Function.update_eq_self _ _).symm rfl kept
  · refine ⟨.quiet t,_,by simp only [advance,here,there,Option.map_some,semaDown_pos positive,↓reduceIte],?_,waits,?_,
      trivial,inv.ordered⟩
    · refine inv.locks.quiet t (.acquireCheck (lockOf c) (some c)) (fun _ _ => rfl) rfl rfl rfl away.1 rfl ?_ ?_ ?_
      · intro u l
        by_cases same : u = t
        · subst same
          simp [State.goto,ready]
        · simp [State.goto,same]
      · simp [Pc.holds]
      · intro l lacks held
        exact inv.locks.lacks t l (by rw [here]; exact lacks) held
    · exact inv.issued_same (inv.waits.queues.plain rfl) trivial (fun _ => rfl) (fun _ => rfl) (by simp) rfl rfl (by simp [Pc.signals])

/-- A thread that holds the lock of the condition is the only one that may signal it. -/
theorem Inv.signaller (inv : Inv lockOf h s) (held : s.holder (lockOf c) = some t) (signals : (s.pc u).signals = some (c,b)) :
    u = t :=
  inv.locks.owner (Or.inl (inv.locks.holds u _ (signals_holds signals))) (Or.inl held)

theorem Inv.waitPush (inv : Inv lockOf h s) (ready : s.status t = .ready) (here : s.pc t = .waitPush c) :
    Goes lockOf h s t := by
  have held : s.holder (lockOf c) = some t := inv.locks.holds t _ (by rw [here]; rfl)
  obtain ⟨settled,waits⟩ := inv.waits.push here
  refine ⟨.began t c,_,by simp only [advance,here],?_,waits,?_,settled,inv.ordered⟩
  · refine inv.locks.quiet t (.releaseCheck (lockOf c) (some c)) (fun _ _ => rfl) rfl rfl rfl (by rw [here]; rfl) rfl ?_ ?_ ?_
    · intro u l
      by_cases same : u = t
      · subst same
        simp [State.goto,ready]
      · simp [State.goto,same]
    · intro l holds
      exact inv.locks.holds t l (by rw [here]; exact holds)
    · simp [Pc.lacks]
  · intro u d b signals
    have other : u ≠ t := by
      rintro rfl
      simp [State.goto,Pc.signals] at signals
    simp only [State.goto,Function.update_of_ne other] at signals
    have away : d ≠ c := by
      rintro rfl
      exact other (inv.signaller held signals)
    refine (inv.issued u d b signals).step (by simp) ?_ ?_
    · intro x stays
      have there : x ∈ s.queue d := by simpa [State.goto,away] using stays
      exact ⟨there,inv.unmoved signals waits.queues settled there stays⟩
    · intro _ unpopped
      refine ⟨by simpa [State.goto,other] using unpopped,waits_skip ?_,wakes_skip rfl⟩
      simp [Event.beganOn,Ne.symm away]

theorem Inv.signalPop (inv : Inv lockOf h s) (ready : s.status t = .ready) (here : s.pc t = .signalPop c b) :
    Goes lockOf h s t := by
  have held : s.holder (lockOf c) = some t := inv.locks.holds t _ (by rw [here]; rfl)
  obtain ⟨before,after,issue,sleeps,unchanged⟩ := inv.issued t c b (by rw [here]; rfl)
  cases queue : s.queue c with
  | nil =>
    refine ⟨.unheard t c b,s.goto t (afterSignal c b),by simp only [advance,here,queue],?_⟩
    have unheard : Ordered h (.unheard t c b) := by
      cases b with
      | true => trivial
      | false =>
        obtain ⟨waits,wakes⟩ := unchanged rfl (by rw [here]; rfl)
        refine ⟨before,after,issue,?_⟩
        rw [waits,wakes,inv.waits.queues.fifo c,queue,List.append_nil]
    cases b <;> apply inv.goto ready <;> try assumption
    all_goals
      simp [here,afterSignal,Event.plain,holding,Pc.unit,Pc.raises,Pc.stage,Pc.holds,Pc.lacks,Pc.signals,Pc.unpopped,held]
  | cons u rest =>
    obtain ⟨last,waits⟩ := inv.waits.pop inv.locks here queue
    have ordered : Ordered h (.signalled t c u) := ⟨last,b,before,after,issue,sleeps u (by simp [queue])⟩
    refine ⟨.signalled t c u,_,by simp only [advance,here,queue],?_,waits,?_,ordered,inv.ordered⟩
    · refine inv.locks.quiet t (.signalUp c b u) (fun _ _ => rfl) rfl rfl rfl (by rw [here]; rfl) rfl ?_ ?_ ?_
      · intro u l
        by_cases same : u = t
        · subst same
          simp [State.goto,ready]
        · simp [State.goto,same]
      · intro l holds
        exact inv.locks.holds t l (by rw [here]; exact holds)
      · simp [Pc.lacks]
    · intro v d b' signals
      by_cases mine : v = t
      · subst mine
        simp only [State.goto,Function.update_self,Pc.signals,Option.some.injEq,Prod.mk.injEq] at signals
        obtain ⟨rfl,rfl⟩ := signals
        refine (inv.issued v c b (by rw [here]; rfl)).step (by simp) ?_ (by simp [State.goto,Pc.unpopped])
        intro x stays
        have there : x ∈ s.queue c := by
          simp only [State.goto,Function.update_self] at stays
          simp [queue,stays]
        exact ⟨there,inv.unmoved (u := v) (by rw [here]; rfl) waits.queues ordered there stays⟩
      · simp only [State.goto,Function.update_of_ne mine] at signals
        have away : d ≠ c := by
          rintro rfl
          exact mine (inv.signaller held signals)
        refine (inv.issued v d b' signals).step (by simp) ?_ ?_
        · intro x stays
          have there : x ∈ s.queue d := by simpa [State.goto,away] using stays
          exact ⟨there,inv.unmoved signals waits.queues ordered there stays⟩
        · intro _ unpopped
          refine ⟨by simpa [State.goto,mine] using unpopped,waits_skip rfl,wakes_skip ?_⟩
          simp [Event.signalledOn,Ne.symm away]

theorem Inv.signalUp (inv : Inv lockOf h s) (ready : s.status t = .ready) (here : s.pc t = .signalUp c b u) :
    Goes lockOf h s t := by
  have held : s.holder (lockOf c) = some t := inv.locks.holds t _ (by rw [here]; rfl)
  obtain ⟨sema,sema',status,there,ran,same,away,waits⟩ := inv.waits.raise inv.locks here
  refine ⟨.quiet t,_,by simp only [advance,here,there,ran,Option.bind_some,Option.map_some],?_,waits,?_,trivial,inv.ordered⟩
  · refine inv.locks.quiet t (afterSignal c b) (fun _ _ => rfl) rfl rfl rfl (by rw [here]; rfl) ?_ ?_ ?_ ?_
    · cases b <;> rfl
    · intro v l
      by_cases mine : v = t
      · subst mine
        have before : (s.pc v).down = none := by rw [here]; rfl
        have after : (afterSignal c b : Pc Tid Lock Cond).down = none := by cases b <;> rfl
        simp [State.goto,before,after]
      · by_cases his : v = u
        · subst his
          simp [State.goto,mine,away]
        · simp [State.goto,mine,same v his]
    · cases b <;> simp [afterSignal,Pc.holds,held]
    · cases b <;> simp [afterSignal,Pc.lacks]
  · refine inv.issued_same (p := afterSignal c b) (inv.waits.queues.plain rfl) trivial (fun _ => rfl) (fun _ => rfl) (by simp) rfl rfl ?_
    rw [here]
    cases b <;> simp [afterSignal,Pc.signals,Pc.unpopped]

/-- Every step of a thread in the code goes well. -/
theorem Inv.goes (inv : Inv lockOf h s) (ready : s.status t = .ready) (busy : s.pc t ≠ .outside) : Goes lockOf h s t := by
  cases here : s.pc t with
  | outside => exact absurd here busy
  | acquireCheck => exact inv.acquireCheck ready here
  | acquireDown => exact inv.acquireDown ready here
  | acquireOwn => exact inv.acquireOwn here
  | tryCheck => exact inv.tryCheck ready here
  | tryDown => exact inv.tryDown ready here
  | releaseCheck => exact inv.releaseCheck ready here
  | releaseClear => exact inv.releaseClear here
  | releaseUp => exact inv.releaseUp ready here
  | waitCheck => exact inv.waitCheck ready here
  | waitPush => exact inv.waitPush ready here
  | waitDown => exact inv.waitDown ready here
  | signalCheck => exact inv.signalCheck ready here
  | signalPop => exact inv.signalPop ready here
  | signalUp => exact inv.signalUp ready here
  | broadcastTest => exact inv.broadcastTest ready here

omit [DecidableEq Tid] [DecidableEq Lock] [DecidableEq Cond] in
theorem entry_stage (op : Op Lock Cond) :
    (op.entry : Pc Tid Lock Cond).stage = .apart ∧ (op.entry : Pc Tid Lock Cond).unit = none ∧
      (op.entry : Pc Tid Lock Cond).raises = none := by
  cases op <;> exact ⟨rfl,rfl,rfl⟩

omit [DecidableEq Tid] [DecidableEq Lock] [DecidableEq Cond] in
theorem entry_signals {op : Op Lock Cond} (signals : (op.entry : Pc Tid Lock Cond).signals = some (c,b)) :
    op = signalOp c b := by
  cases op with
  | signal d | broadcast d =>
    obtain ⟨rfl,rfl⟩ := Prod.mk.inj (Option.some.inj signals)
    rfl
  | _ => contradiction

/-- A call that meets its precondition. -/
theorem Inv.call (inv : Inv lockOf h s) (ready : s.status t = .ready) (idle : s.pc t = .outside)
    (allowed : Allowed lockOf h t op) : Inv lockOf (.call t op :: h) (s.goto t op.entry) := by
  obtain ⟨stage,unit,raises⟩ : (op.entry : Pc Tid Lock Cond).stage = .apart ∧ (op.entry : Pc Tid Lock Cond).unit = none ∧
    (op.entry : Pc Tid Lock Cond).raises = none := entry_stage op
  have holds : ∀ l, (op.entry : Pc Tid Lock Cond).holds lockOf = some l → s.holder l = some t := by
    intro l holds
    rw [inv.locks.holding]
    cases op with
    | release | wait | signal | broadcast =>
      obtain rfl := Option.some.inj holds
      exact allowed
    | _ => contradiction
  have lacks : ∀ l, (op.entry : Pc Tid Lock Cond).lacks lockOf = some l → s.holder l ≠ some t := by
    intro l lacks held
    rw [inv.locks.holding] at held
    cases op with
    | acquire | tryAcquire =>
      obtain rfl := Option.some.inj lacks
      simp [Allowed,held] at allowed
    | _ => contradiction
  refine ⟨?_,?_,?_,trivial,inv.ordered⟩
  · refine inv.locks.quiet t op.entry (fun _ _ => rfl) rfl rfl rfl (by rw [idle]; rfl) unit ?_ holds lacks
    intro u l
    by_cases same : u = t
    · subst same
      simp [State.goto,ready]
    · simp [State.goto,same]
  · refine inv.waits.stay t rfl ?_ rfl rfl (fun _ _ _ => rfl) (by rw [idle]; rfl) ?_ ?_ ?_
    · exact fun u other => by simp [State.goto,other]
    · simpa [State.goto] using raises
    · simp only [State.goto,Function.update_self]
      rw [idle]
      exact stage
    · simp [idle,Pc.stage]
  · intro u c b signals
    by_cases same : u = t
    · subst same
      simp only [State.goto,Function.update_self] at signals
      have held := holds _ (signals_holds signals)
      refine ⟨h,[],⟨by rw [entry_signals signals]; rfl,by simp⟩,?_,fun _ _ => ⟨(waits_skip rfl).symm,(wakes_skip rfl).symm⟩⟩
      intro x member
      exact ⟨inv.waits.queue_released inv.locks held (by rw [idle]; rfl) member,by simp⟩
    · simp only [State.goto,Function.update_of_ne same] at signals
      refine (inv.issued u c b signals).step (by simp [Ne.symm same]) (fun x member => ⟨member,rfl⟩) ?_
      intro _ unpopped
      exact ⟨by simpa [State.goto,same] using unpopped,waits_skip rfl,wakes_skip rfl⟩

theorem Inv.step (inv : Inv lockOf h s) (step : Step lockOf h s e s') : Inv lockOf (e :: h) s' := by
  cases step with
  | call ready idle allowed => exact inv.call ready idle allowed
  | go ready busy ran =>
    obtain ⟨e',s'',went,inv'⟩ := inv.goes ready busy
    rw [ran] at went
    obtain ⟨rfl,rfl⟩ := Prod.mk.inj (Option.some.inj went)
    exact inv'

theorem run_inv (run : History.Path (Step lockOf) [] State.init h s) : Inv lockOf h s :=
  run.invariant (Inv lockOf) (fun _ _ _ _ inv step => inv.step step) init_inv

/-- A wait that was signalled does not need another signal: its semaphore is about to be
raised, or it is raised and the thread is not blocked, or the thread is past it. -/
def OnTheWay (lockOf : Cond → Lock) (s : State Tid Lock Cond) (c : Cond) (t : Tid) : Prop :=
  (∃ u b, s.pc u = .signalUp c b t) ∨
    (s.pc t = .waitDown c ∧ s.status t = .ready ∧ ∃ sema, s.waiter t = some sema ∧ 0 < sema.value) ∨
    s.pc t = .acquireCheck (lockOf c) (some c) ∨ s.pc t = .acquireDown (lockOf c) (some c) ∨
    s.pc t = .acquireOwn (lockOf c) (some c)

omit [DecidableEq Tid] [DecidableEq Lock] [DecidableEq Cond] in
theorem stage_returning {p : Pc Tid Lock Cond} (place : p.stage = .returning l c) :
    p = .acquireCheck l (some c) ∨ p = .acquireDown l (some c) ∨ p = .acquireOwn l (some c) := by
  unfold Pc.stage at place
  split at place <;> simp_all

omit [DecidableEq Tid] [DecidableEq Lock] [DecidableEq Cond] in
theorem raises_signalUp {p : Pc Tid Lock Cond} (raises : p.raises = some (c,t)) : ∃ b, p = .signalUp c b t := by
  unfold Pc.raises at raises
  split at raises <;> simp_all

theorem Inv.onTheWay (inv : Inv lockOf h s) (last : lastWait t h = some (.signalled c)) : OnTheWay lockOf s c t := by
  have ok := inv.waits.threads t
  cases place : (s.pc t).stage with
  | waiting d =>
    rw [place] at ok
    obtain ⟨sema,there,ok⟩ := ok
    cases ok with
    | unsignalled last' => simp [last] at last'
    | popped last' _ _ raiser =>
      rw [last] at last'
      obtain rfl := Phase.signalled.inj (Option.some.inj last')
      obtain ⟨b,here⟩ := raises_signalUp raiser
      exact Or.inl ⟨_,b,here⟩
    | raised last' one ready =>
      rw [last] at last'
      obtain rfl := Phase.signalled.inj (Option.some.inj last')
      exact Or.inr (Or.inl ⟨stage_waiting.mp place,ready,sema,there,by omega⟩)
  | returning l d =>
    rw [place] at ok
    obtain ⟨rfl,last'⟩ := ok
    rw [last] at last'
    obtain rfl := Phase.signalled.inj (Option.some.inj last')
    exact Or.inr (Or.inr (stage_returning place))
  | _ =>
    rw [place] at ok
    simp [WaitOk,Settled,last] at ok

/-- Safety of locks and condition variables in every run: the holder is the one thread that
has acquired the lock; no assertion fails; a wait is signalled by a call made after it
released the lock and returns after that; waits are signalled in the order in which they
began; and a signal that meets a wait is not lost. -/
theorem monitor_safe (run : History.Path (Step lockOf) [] State.init h s) :
    (∀ t l, s.holder l = some t ↔ holding t l h = true) ∧
    (∀ t u l, holding t l h = true → holding u l h = true → t = u) ∧
    (∀ t, s.status t = .ready → s.pc t ≠ .outside → advance lockOf t s ≠ none) ∧
    History.Always Ordered h ∧ (∀ c, waits c h = wakes c h ++ s.queue c) ∧
    ∀ t c, lastWait t h = some (.signalled c) → OnTheWay lockOf s c t := by
  have inv := run_inv run
  refine ⟨inv.locks.holding,?_,?_,inv.ordered,inv.waits.queues.fifo,fun t c => inv.onTheWay⟩
  · intro t u l first second
    rw [← inv.locks.holding] at first second
    exact Option.some.inj (first.symm.trans second)
  · intro t ready busy
    obtain ⟨e,s',went,-⟩ := inv.goes ready busy
    simp [went]

instance decidableAllowed : (op : Op Lock Cond) → Decidable (Allowed lockOf h t op)
  | .acquire l | .tryAcquire l => inferInstanceAs (Decidable (holding t l h = false))
  | .release l => inferInstanceAs (Decidable (holding t l h = true))
  | .wait c | .signal c | .broadcast c => inferInstanceAs (Decidable (holding t (lockOf c) h = true))

def perform (lockOf : Cond → Lock) (q : Tid × Option (Op Lock Cond)) (s : State Tid Lock Cond) :
    Option (Event Tid Lock Cond × State Tid Lock Cond) :=
  if s.status q.1 = .ready then
    match q.2 with
    | some op => if s.pc q.1 = .outside then some (.call q.1 op,s.goto q.1 op.entry) else none
    | none => if s.pc q.1 = .outside then none else advance lockOf q.1 s
  else none

def Event.Allows (lockOf : Cond → Lock) (h : List (Event Tid Lock Cond)) : Event Tid Lock Cond → Prop
  | .call t op => Allowed lockOf h t op
  | _ => True

instance decidableAllows : (e : Event Tid Lock Cond) → Decidable (e.Allows lockOf h)
  | .call _ op => decidableAllowed op
  | .quiet _ | .acquired _ _ _ | .cleared _ _ | .began _ _ | .released _ _ | .signalled _ _ _ | .unheard _ _ _ =>
    .isTrue trivial

theorem perform_step (ran : perform lockOf q s = some (e,s')) (allowed : e.Allows lockOf h) : Step lockOf h s e s' := by
  obtain ⟨t,op⟩ := q
  unfold perform at ran
  split at ran
  · rename_i ready
    cases op with
    | some op =>
      simp only at ran
      split at ran
      · rename_i idle
        obtain ⟨rfl,rfl⟩ := Prod.mk.inj (Option.some.inj ran)
        exact .call ready idle allowed
      · contradiction
    | none =>
      simp only at ran
      split at ran
      · contradiction
      · rename_i busy
        exact .go ready busy ran
  · contradiction

end

def signalledWait : List (Bool × Option (Op Unit Unit)) :=
  [(false,some (.acquire ())),(false,none),(false,none),(false,none),
    (false,some (.wait ())),(false,none),(false,none),(false,none),(false,none),(false,none),(false,none),
    (true,some (.acquire ())),(true,none),(true,none),(true,none),
    (true,some (.signal ())),(true,none),(true,none),(true,none),
    (true,some (.release ())),(true,none),(true,none),(true,none),
    (false,none),(false,none),(false,none),(false,none)]

theorem monitor_safe_signalled : ∃ h s, History.Path (Step fun _ : Unit => ()) [] (State.init : State Bool Unit Unit) h s ∧
    h.head? = some (.acquired false () (some ())) ∧
    (∀ t l, s.holder l = some t ↔ holding t l h = true) ∧
    (∀ t u l, holding t l h = true → holding u l h = true → t = u) ∧
    (∀ t, s.status t = .ready → s.pc t ≠ .outside → advance (fun _ => ()) t s ≠ none) ∧
    History.Always Ordered h ∧ (∀ c, waits c h = wakes c h ++ s.queue c) ∧
    ∀ t c, lastWait t h = some (.signalled c) → OnTheWay (fun _ => ()) s c t := by
  have ran : ((History.replay (perform fun _ : Unit => ()) (fun h _ e => e.Allows (fun _ : Unit => ()) h) signalledWait
      ([],State.init)).bind fun reached => reached.1.head?) = some (.acquired false () (some ())) := by decide
  obtain ⟨⟨h,s⟩,replayed,last⟩ := Option.bind_eq_some_iff.mp ran
  have run := History.replay_path (fun _ _ _ _ _ => perform_step) replayed
  exact ⟨h,s,run,last,monitor_safe run⟩

end OsProj.Synch.Monitor
