import OsProj.SynchMonitorLocks

/-! What a thread has gone through in `cond_wait`: it enters the queue, releases the lock, is
removed from the queue by a signal, and returns with the lock. -/
namespace OsProj.Synch.Monitor

section
variable {Tid Lock Cond : Type}

inductive Phase (Cond : Type) where
  | began (c : Cond)
  | released (c : Cond)
  | signalled (c : Cond)
  | resumed (c : Cond)
  deriving DecidableEq, Repr

variable [DecidableEq Tid]

def Event.phase (t : Tid) : Event Tid Lock Cond → Option (Phase Cond)
  | .acquired u _ (some c) => if u = t then some (.resumed c) else none
  | .began u c => if u = t then some (.began c) else none
  | .released u c => if u = t then some (.released c) else none
  | .signalled _ c u => if u = t then some (.signalled c) else none
  | _ => none

def lastWait (t : Tid) (h : List (Event Tid Lock Cond)) : Option (Phase Cond) := h.findSome? (Event.phase t)

theorem lastWait_skip {h : List (Event Tid Lock Cond)} (skip : e.phase t = none) :
    lastWait t (e :: h) = lastWait t h := by
  simp [lastWait,skip]

theorem lastWait_new {h : List (Event Tid Lock Cond)} (new : e.phase t = some p) : lastWait t (e :: h) = some p := by
  simp [lastWait,new]

end

section
variable {Tid Lock Cond : Type} [DecidableEq Cond]

def Event.beganOn (c : Cond) : Event Tid Lock Cond → Option Tid
  | .began t d => if d = c then some t else none
  | _ => none

def Event.signalledOn (c : Cond) : Event Tid Lock Cond → Option Tid
  | .signalled _ d t => if d = c then some t else none
  | _ => none

/-- The threads whose waits for a condition began, in this order. -/
def waits (c : Cond) (h : List (Event Tid Lock Cond)) : List Tid := (h.filterMap (Event.beganOn c)).reverse

/-- The threads that signals of a condition woke, in this order. -/
def wakes (c : Cond) (h : List (Event Tid Lock Cond)) : List Tid := (h.filterMap (Event.signalledOn c)).reverse

theorem waits_skip {h : List (Event Tid Lock Cond)} (skip : e.beganOn c = none) : waits c (e :: h) = waits c h := by
  simp [waits,skip]

theorem waits_new {h : List (Event Tid Lock Cond)} (new : e.beganOn c = some t) :
    waits c (e :: h) = waits c h ++ [t] := by
  simp [waits,new]

theorem wakes_skip {h : List (Event Tid Lock Cond)} (skip : e.signalledOn c = none) : wakes c (e :: h) = wakes c h := by
  simp [wakes,skip]

theorem wakes_new {h : List (Event Tid Lock Cond)} (new : e.signalledOn c = some t) :
    wakes c (e :: h) = wakes c h ++ [t] := by
  simp [wakes,new]

end

section
variable {Tid Lock Cond : Type}

/-- Where a program counter is relative to `cond_wait`, from the initialization of its
semaphore to its return. -/
inductive Stage (Lock Cond : Type) where
  | apart
  | entering (c : Cond)
  | leaving (l : Lock) (c : Cond)
  | waiting (c : Cond)
  | returning (l : Lock) (c : Cond)
  deriving DecidableEq, Repr

def Pc.stage : Pc Tid Lock Cond → Stage Lock Cond
  | .waitPush c => .entering c
  | .releaseCheck l (some c) | .releaseClear l (some c) | .releaseUp l (some c) => .leaving l c
  | .waitDown c => .waiting c
  | .acquireCheck l (some c) | .acquireDown l (some c) | .acquireOwn l (some c) => .returning l c
  | _ => .apart

def Pc.raises : Pc Tid Lock Cond → Option (Cond × Tid)
  | .signalUp c _ t => some (c,t)
  | _ => none

def Settled (p : Option (Phase Cond)) : Prop := p = none ∨ ∃ c, p = some (.resumed c)

theorem stage_waiting {p : Pc Tid Lock Cond} : p.stage = .waiting c ↔ p = .waitDown c := by
  unfold Pc.stage
  split <;> simp_all

variable [DecidableEq Tid]

/-- A thread at the semaphore of its entry: no signal has come; a signal has removed the entry
and is to raise the semaphore; the semaphore is raised. -/
inductive Waiting (h : List (Event Tid Lock Cond)) (s : State Tid Lock Cond) (t : Tid) (c : Cond)
    (sema : Semaphore Tid) : Prop
  | unsignalled (last : lastWait t h = some (.released c)) (queued : Queued sema s.status (· = t)) (zero : sema.value = 0)
  | popped (last : lastWait t h = some (.signalled c)) (queued : Queued sema s.status (· = t)) (zero : sema.value = 0)
      (raiser : (s.pc u).raises = some (c,t))
  | raised (last : lastWait t h = some (.signalled c)) (one : sema.value = 1) (ready : s.status t = .ready)

/-- What the stage of a thread says about its last wait and the semaphore of its entry. -/
def WaitOk (lockOf : Cond → Lock) (h : List (Event Tid Lock Cond)) (s : State Tid Lock Cond) (t : Tid) :
    Stage Lock Cond → Prop
  | .apart => Settled (lastWait t h)
  | .entering _ => Settled (lastWait t h) ∧ s.waiter t = some (semaInit 0)
  | .leaving l c => l = lockOf c ∧ lastWait t h = some (.began c) ∧ s.waiter t = some (semaInit 0)
  | .waiting c => ∃ sema, s.waiter t = some sema ∧ Waiting h s t c sema
  | .returning l c => l = lockOf c ∧ lastWait t h = some (.signalled c)

/-- The entry of a thread was removed from the queue, and its semaphore is not raised yet. -/
structure Popped (h : List (Event Tid Lock Cond)) (s : State Tid Lock Cond) (c : Cond) (t : Tid) : Prop where
  place : (s.pc t).stage = .waiting c
  last : lastWait t h = some (.signalled c)
  there : ∃ sema, s.waiter t = some sema ∧ sema.value = 0

/-- The queues hold, in the order in which they came, the waits that no signal has ended. -/
structure Queues [DecidableEq Cond] (h : List (Event Tid Lock Cond)) (queue : Cond → List Tid) : Prop where
  fifo : ∀ c, waits c h = wakes c h ++ queue c
  queued : ∀ t c, t ∈ queue c ↔ lastWait t h = some (.began c) ∨ lastWait t h = some (.released c)
  nodup : ∀ c, (queue c).Nodup

variable [DecidableEq Cond]

structure Waits (lockOf : Cond → Lock) (h : List (Event Tid Lock Cond)) (s : State Tid Lock Cond) : Prop where
  threads : ∀ t, WaitOk lockOf h s t (s.pc t).stage
  raisers : ∀ u c t, (s.pc u).raises = some (c,t) → Popped h s c t
  queues : Queues h s.queue

variable {lockOf : Cond → Lock} {h h' : List (Event Tid Lock Cond)} {s s' : State Tid Lock Cond}

theorem init_waits : Waits lockOf [] (State.init : State Tid Lock Cond) where
  threads := fun t => Or.inl rfl
  raisers := fun u c t raises => nomatch raises
  queues := ⟨fun c => rfl,by simp [State.init,lastWait],fun c => List.nodup_nil⟩

omit [DecidableEq Cond] in
/-- Nothing that concerns the wait of a thread has changed. -/
theorem WaitOk.frame (ok : WaitOk lockOf h s u (s.pc u).stage) (pc : s'.pc u = s.pc u)
    (last : lastWait u h' = lastWait u h) (waiter : s'.waiter u = s.waiter u)
    (status : (s.pc u).down = none → s'.status u = s.status u)
    (raisers : ∀ v c, (s.pc v).raises = some (c,u) → ∃ v, (s'.pc v).raises = some (c,u)) :
    WaitOk lockOf h' s' u (s'.pc u).stage := by
  rw [pc]
  cases place : (s.pc u).stage with
  | waiting c =>
    rw [place] at ok
    obtain ⟨sema,there,ok⟩ := ok
    have same : s'.status u = s.status u := status (by rw [stage_waiting.mp place]; rfl)
    have queue (queued : Queued sema s.status (· = u)) : Queued sema s'.status (· = u) := by
      apply queued.congr
      intro v
      constructor <;> rintro ⟨rfl,asleep⟩ <;> refine ⟨rfl,?_⟩
      · rwa [← same]
      · rwa [same]
    refine ⟨sema,by rwa [waiter],?_⟩
    cases ok with
    | unsignalled last' queued zero => exact .unsignalled (by rwa [last]) (queue queued) zero
    | popped last' queued zero raiser =>
      obtain ⟨v,raiser⟩ := raisers _ _ raiser
      exact .popped (by rwa [last]) (queue queued) zero raiser
    | raised last' one ready => exact .raised (by rwa [last]) one (by rwa [same])
  | _ =>
    rw [place] at ok
    simpa only [WaitOk,last,waiter] using ok

/-- A step of a thread that concerns no wait but its own. -/
theorem Waits.move (waits : Waits lockOf h s) (t : Tid) (pc : ∀ u, u ≠ t → s'.pc u = s.pc u)
    (last : ∀ u, u ≠ t → lastWait u h' = lastWait u h) (waiter : ∀ u, u ≠ t → s'.waiter u = s.waiter u)
    (status : ∀ u, u ≠ t → (s.pc u).down = none → s'.status u = s.status u)
    (before : (s.pc t).raises = none) (after : (s'.pc t).raises = none) (own : WaitOk lockOf h' s' t (s'.pc t).stage)
    (popped : ∀ c, Popped h s c t → Popped h' s' c t) (queues : Queues h' s'.queue) : Waits lockOf h' s' := by
  refine ⟨?_,?_,queues⟩
  · intro u
    by_cases same : u = t
    · rwa [same]
    · apply (waits.threads u).frame (pc u same) (last u same) (waiter u same) (status u same)
      intro v c raises
      have other : v ≠ t := by
        rintro rfl
        rw [before] at raises
        contradiction
      exact ⟨v,by rwa [pc v other]⟩
  · intro v c u raises
    have other : v ≠ t := by
      rintro rfl
      rw [after] at raises
      contradiction
    rw [pc v other] at raises
    have was := waits.raisers v c u raises
    by_cases same : u = t
    · subst same
      exact popped c was
    · obtain ⟨sema,there,zero⟩ := was.there
      exact ⟨by rw [pc u same]; exact was.place,by rw [last u same]; exact was.last,
        sema,by rwa [waiter u same],zero⟩

theorem Queues.skip (queues : Queues h queue) (began : ∀ c, e.beganOn c = none) (signalled : ∀ c, e.signalledOn c = none)
    (same : ∀ u c, lastWait u (e :: h) = some (.began c) ∨ lastWait u (e :: h) = some (.released c) ↔
      lastWait u h = some (.began c) ∨ lastWait u h = some (.released c)) : Queues (e :: h) queue := by
  refine ⟨fun c => ?_,fun u c => ?_,queues.nodup⟩
  · rw [waits_skip (began c),wakes_skip (signalled c)]
    exact queues.fifo c
  · rw [same]
    exact queues.queued u c

def Event.plain : Event Tid Lock Cond → Bool
  | .call _ _ | .quiet _ | .cleared _ _ | .acquired _ _ none | .unheard _ _ _ => true
  | _ => false

omit [DecidableEq Cond] in
theorem phase_plain {e : Event Tid Lock Cond} (plain : e.plain) (t : Tid) : e.phase t = none := by
  unfold Event.plain at plain
  split at plain <;> simp_all [Event.phase]

omit [DecidableEq Tid] in
theorem beganOn_plain {e : Event Tid Lock Cond} (plain : e.plain) (c : Cond) : e.beganOn c = none := by
  unfold Event.plain at plain
  split at plain <;> simp_all [Event.beganOn]

omit [DecidableEq Tid] in
theorem signalledOn_plain {e : Event Tid Lock Cond} (plain : e.plain) (c : Cond) : e.signalledOn c = none := by
  unfold Event.plain at plain
  split at plain <;> simp_all [Event.signalledOn]

theorem Queues.plain (queues : Queues h queue) (plain : e.plain) : Queues (e :: h) queue := by
  apply queues.skip (beganOn_plain plain) (signalledOn_plain plain)
  intro u c
  rw [lastWait_skip (phase_plain plain u)]

/-- A step within one stage, other than the stage of waiting. -/
theorem Waits.stay (waits : Waits lockOf h s) (t : Tid) (plain : e.plain) (pc : ∀ u, u ≠ t → s'.pc u = s.pc u)
    (waiter : s'.waiter = s.waiter) (queue : s'.queue = s.queue)
    (status : ∀ u, u ≠ t → (s.pc u).down = none → s'.status u = s.status u)
    (before : (s.pc t).raises = none) (after : (s'.pc t).raises = none) (stage : (s'.pc t).stage = (s.pc t).stage)
    (away : ∀ c, (s.pc t).stage ≠ .waiting c) : Waits lockOf (e :: h) s' := by
  have last := fun u => lastWait_skip (h := h) (phase_plain plain u)
  refine waits.move t pc (fun u _ => last u) (fun u _ => by rw [waiter]) status before after ?_ ?_ ?_
  · have ok := waits.threads t
    rw [stage]
    cases place : (s.pc t).stage with
    | waiting c => exact absurd place (away c)
    | _ =>
      rw [place] at ok
      simpa only [WaitOk,last,waiter] using ok
  · exact fun c was => absurd was.place (away c)
  · rw [queue]
    exact waits.queues.plain plain

omit [DecidableEq Cond] in
theorem Popped.elsewhere (popped : Popped h s c t) (place : (s.pc t).stage = other) (away : other ≠ .waiting c) : False :=
  away (place.symm.trans popped.place)

/-- The semaphore of the entry is initialized. -/
theorem Waits.enter (waits : Waits lockOf h s) (here : s.pc t = .waitCheck c) :
    Waits lockOf (.quiet t :: h) (State.goto { s with
      waiter := Function.update s.waiter t (some (semaInit 0)) } t (.waitPush c)) := by
  have place : (s.pc t).stage = .apart := by rw [here]; rfl
  have settled := waits.threads t
  rw [place] at settled
  refine waits.move t ?_ (fun _ _ => rfl) ?_ (fun _ _ _ => rfl) (by rw [here]; rfl) ?_ ?_ ?_ (waits.queues.plain rfl)
  · exact fun u other => by simp [State.goto,other]
  · exact fun u other => by simp [State.goto,other]
  · simp [State.goto,Pc.raises]
  · simp only [State.goto,Function.update_self]
    exact ⟨settled,by simp⟩
  · exact fun c was => (was.elsewhere place (by simp)).elim

/-- The entry is put into the queue. -/
theorem Waits.push (waits : Waits lockOf h s) (here : s.pc t = .waitPush c) :
    Settled (lastWait t h) ∧
    Waits lockOf (.began t c :: h) (State.goto { s with
      queue := Function.update s.queue c (s.queue c ++ [t]) } t (.releaseCheck (lockOf c) (some c))) := by
  have place : (s.pc t).stage = .entering c := by rw [here]; rfl
  have ok := waits.threads t
  rw [place] at ok
  obtain ⟨settled,fresh⟩ := ok
  refine ⟨settled,?_⟩
  have new : lastWait t (.began t c :: h) = some (.began c) := lastWait_new (by simp [Event.phase])
  have old : ∀ u, u ≠ t → lastWait u (.began t c :: h) = lastWait u h :=
    fun u other => lastWait_skip (by simp [Event.phase,Ne.symm other])
  have absent : ∀ d, t ∉ s.queue d := by
    intro d member
    rcases (waits.queues.queued t d).mp member with last | last <;>
      rcases settled with none | ⟨c,resumed⟩ <;> simp_all
  refine waits.move t ?_ old (fun _ _ => rfl) (fun _ _ _ => rfl) (by rw [here]; rfl) ?_ ?_ ?_ ⟨?_,?_,?_⟩
  · exact fun u other => by simp [State.goto,other]
  · simp [State.goto,Pc.raises]
  · simp only [State.goto,Function.update_self]
    exact ⟨rfl,new,fresh⟩
  · exact fun c was => (was.elsewhere place (by simp)).elim
  · intro d
    rw [wakes_skip (by simp [Event.signalledOn])]
    by_cases same : d = c
    · subst same
      rw [waits_new (t := t) (by simp [Event.beganOn]),waits.queues.fifo d]
      simp [State.goto]
    · rw [waits_skip (by simp [Event.beganOn,Ne.symm same]),waits.queues.fifo d]
      simp [State.goto,same]
  · intro u d
    by_cases thread : u = t
    · subst thread
      rw [new]
      by_cases same : d = c
      · simp [State.goto,same]
      · simp [State.goto,same,absent d,Ne.symm same]
    · rw [old u thread,← waits.queues.queued u d]
      by_cases same : d = c
      · simp [State.goto,same,thread]
      · simp [State.goto,same]
  · intro d
    by_cases same : d = c
    · subst same
      have longer : (s.queue d ++ [t]).Nodup := by
        rw [List.nodup_append_comm]
        exact List.nodup_cons.mpr ⟨absent d,waits.queues.nodup d⟩
      simpa [State.goto] using longer
    · simp [State.goto,same,waits.queues.nodup d]

/-- The lock is released and the thread goes to its semaphore. -/
theorem Waits.release (waits : Waits lockOf h s) (here : s.pc t = .releaseUp l (some c)) (ready : s.status t = .ready)
    (status : ∀ u, (s.pc u).down = none → status' u = s.status u) (sema : Lock → Semaphore Tid) :
    lastWait t h = some (.began c) ∧
    Waits lockOf (.released t c :: h) (State.goto { s with sema := sema, status := status' } t (.waitDown c)) := by
  have place : (s.pc t).stage = .leaving l c := by rw [here]; rfl
  have ok := waits.threads t
  rw [place] at ok
  obtain ⟨-,last,fresh⟩ := ok
  refine ⟨last,?_⟩
  have new : lastWait t (.released t c :: h) = some (.released c) := lastWait_new (by simp [Event.phase])
  have old : ∀ u, u ≠ t → lastWait u (.released t c :: h) = lastWait u h :=
    fun u other => lastWait_skip (by simp [Event.phase,Ne.symm other])
  have awake : status' t = .ready := by rw [status t (by rw [here]; rfl),ready]
  refine waits.move t ?_ old (fun _ _ => rfl) (fun u _ => status u) (by rw [here]; rfl) ?_ ?_ ?_ ?_
  · exact fun u other => by simp [State.goto,other]
  · simp [State.goto,Pc.raises]
  · simp only [State.goto,Function.update_self]
    refine ⟨semaInit 0,fresh,.unsignalled new (queued_init ?_) rfl⟩
    rintro u rfl
    exact awake
  · exact fun c was => (was.elsewhere place (by simp)).elim
  · apply waits.queues.skip (fun _ => rfl) (fun _ => rfl)
    intro u d
    by_cases thread : u = t
    · subst thread
      simp [new,last]
    · rw [old u thread]

/-- The wait returns. -/
theorem Waits.resume (waits : Waits lockOf h s) (here : s.pc t = .acquireOwn l (some c)) (holder : Lock → Option Tid) :
    lastWait t h = some (.signalled c) ∧
    Waits lockOf (.acquired t l (some c) :: h) (State.goto { s with
      holder := holder, waiter := Function.update s.waiter t none } t .outside) := by
  have place : (s.pc t).stage = .returning l c := by rw [here]; rfl
  have ok := waits.threads t
  rw [place] at ok
  obtain ⟨-,last⟩ := ok
  refine ⟨last,?_⟩
  have new : lastWait t (.acquired t l (some c) :: h) = some (.resumed c) := lastWait_new (by simp [Event.phase])
  have old : ∀ u, u ≠ t → lastWait u (.acquired t l (some c) :: h) = lastWait u h :=
    fun u other => lastWait_skip (by simp [Event.phase,Ne.symm other])
  refine waits.move t ?_ old ?_ (fun _ _ _ => rfl) (by rw [here]; rfl) ?_ ?_ ?_ ?_
  · exact fun u other => by simp [State.goto,other]
  · exact fun u other => by simp [State.goto,other]
  · simp [State.goto,Pc.raises]
  · simp only [State.goto,Function.update_self]
    exact Or.inr ⟨c,new⟩
  · exact fun c was => (was.elsewhere place (by simp)).elim
  · apply waits.queues.skip (fun _ => rfl) (fun _ => rfl)
    intro u d
    by_cases thread : u = t
    · subst thread
      simp [new,last]
    · rw [old u thread]

/-- The test at the semaphore of the entry. -/
theorem Waits.test (waits : Waits lockOf h s) (here : s.pc t = .waitDown c) (ready : s.status t = .ready) :
    ∃ sema, s.waiter t = some sema ∧
      (sema.value = 0 ∧ Waits lockOf (.quiet t :: h) { s with
        waiter := Function.update s.waiter t (some { sema with waiters := sema.waiters ++ [t] }),
        status := Function.update s.status t .blocked } ∨
      sema.value ≠ 0 ∧ Waits lockOf (.quiet t :: h) (State.goto { s with
        waiter := Function.update s.waiter t (some { sema with value := sema.value - 1 }) } t
        (.acquireCheck (lockOf c) (some c)))) := by
  have place : (s.pc t).stage = .waiting c := by rw [here]; rfl
  have ok := waits.threads t
  rw [place] at ok
  obtain ⟨sema,there,ok⟩ := ok
  refine ⟨sema,there,?_⟩
  have others : ∀ (x : Option (Semaphore Tid)) u, u ≠ t → Function.update s.waiter t x u = s.waiter u :=
    fun x u other => Function.update_of_ne other x s.waiter
  have pushed (queued : Queued sema s.status (· = t)) :
      Queued { sema with waiters := sema.waiters ++ [t] } (Function.update s.status t .blocked) (· = t) :=
    queued.push ready rfl fun _ _ => Iff.rfl
  have asleep (zero : sema.value = 0) (ok : Waiting (.quiet t :: h) { s with
        waiter := Function.update s.waiter t (some { sema with waiters := sema.waiters ++ [t] }),
        status := Function.update s.status t .blocked } t c { sema with waiters := sema.waiters ++ [t] }) :
      Waits lockOf (.quiet t :: h) { s with
        waiter := Function.update s.waiter t (some { sema with waiters := sema.waiters ++ [t] }),
        status := Function.update s.status t .blocked } := by
    refine waits.move t (fun _ _ => rfl) (fun _ _ => rfl) (others _) (fun u other _ => by simp [other]) (by rw [here]; rfl)
      (by rw [here]; rfl) ?_ ?_ (waits.queues.plain rfl)
    · rw [place]
      exact ⟨_,by simp,ok⟩
    · exact fun d was => ⟨was.place,was.last,_,Function.update_self _ _ _,zero⟩
  cases ok with
  | unsignalled last queued zero =>
    exact Or.inl ⟨zero,asleep zero (.unsignalled last (pushed queued) zero)⟩
  | popped last queued zero raiser =>
    exact Or.inl ⟨zero,asleep zero (.popped last (pushed queued) zero raiser)⟩
  | raised last one _ =>
    refine Or.inr ⟨by omega,?_⟩
    refine waits.move t ?_ (fun _ _ => rfl) (others _) (fun _ _ _ => rfl) (by rw [here]; rfl) ?_ ?_ ?_
      (waits.queues.plain rfl)
    · exact fun u other => by simp [State.goto,other]
    · simp [State.goto,Pc.raises]
    · simp only [State.goto,Function.update_self]
      exact ⟨rfl,last⟩
    · intro d was
      obtain ⟨sema',there',zero⟩ := was.there
      rw [there] at there'
      obtain rfl := Option.some.inj there'
      omega

theorem Waits.began (waits : Waits lockOf h s) (last : lastWait t h = some (.began c)) :
    (s.pc t).stage = .leaving (lockOf c) c := by
  have ok := waits.threads t
  cases place : (s.pc t).stage with
  | leaving l d =>
    rw [place] at ok
    obtain ⟨rfl,last',-⟩ := ok
    rw [last] at last'
    obtain rfl := Phase.began.inj (Option.some.inj last')
    rfl
  | waiting d =>
    rw [place] at ok
    obtain ⟨sema,-,ok⟩ := ok
    cases ok <;> simp_all
  | _ =>
    rw [place] at ok
    simp [WaitOk,Settled,last] at ok

theorem Waits.released (waits : Waits lockOf h s) (last : lastWait t h = some (.released c)) :
    (s.pc t).stage = .waiting c ∧ ∃ sema, s.waiter t = some sema ∧ Queued sema s.status (· = t) ∧ sema.value = 0 := by
  have ok := waits.threads t
  cases place : (s.pc t).stage with
  | waiting d =>
    rw [place] at ok
    obtain ⟨sema,there,ok⟩ := ok
    cases ok with
    | unsignalled last' queued zero =>
      rw [last] at last'
      obtain rfl := Phase.released.inj (Option.some.inj last')
      exact ⟨rfl,sema,there,queued,zero⟩
    | popped last' => simp [last] at last'
    | raised last' => simp [last] at last'
  | _ =>
    rw [place] at ok
    simp [WaitOk,Settled,last] at ok

omit [DecidableEq Tid] [DecidableEq Cond] in
/-- A thread that is to release the lock for its wait holds it or has its unit. -/
theorem leaving_owner {p : Pc Tid Lock Cond} (place : p.stage = .leaving l c) : p.holds lockOf = some l ∨ p.unit = some l := by
  unfold Pc.stage at place
  split at place <;> simp_all [Pc.holds,Pc.unit]

variable [DecidableEq Lock]

omit [DecidableEq Cond] in
theorem Locks.owner (locks : Locks lockOf h s) (first : s.holder l = some t ∨ (s.pc t).unit = some l)
    (second : s.holder l = some u ∨ (s.pc u).unit = some l) : t = u := by
  obtain ⟨o,owned⟩ := locks.owned l
  exact Option.some.inj ((owned.unique first).symm.trans (owned.unique second))

/-- While a thread holds the lock, every wait in the queue has released it. -/
theorem Waits.queue_released (waits : Waits lockOf h s) (locks : Locks lockOf h s) (held : s.holder (lockOf c) = some t)
    (apart : (s.pc t).stage = .apart) (member : u ∈ s.queue c) : lastWait u h = some (.released c) := by
  rcases (waits.queues.queued u c).mp member with began | released
  · have place := waits.began began
    have owner : s.holder (lockOf c) = some u ∨ (s.pc u).unit = some (lockOf c) :=
      (leaving_owner place).imp_left (locks.holds u _)
    obtain rfl := locks.owner (Or.inl held) owner
    rw [apart] at place
    contradiction
  · exact released

omit [DecidableEq Lock] in
/-- The queues without the first entry of one of them. -/
theorem Queues.pop {queues : Cond → List Tid} (before : Queues h queues) (queue : queues c = u :: rest)
    (released : lastWait u h = some (.released c)) :
    Queues (.signalled t c u :: h) (Function.update queues c rest) := by
  have new : lastWait u (.signalled t c u :: h) = some (.signalled c) := lastWait_new (by simp [Event.phase])
  have old : ∀ v, v ≠ u → lastWait v (.signalled t c u :: h) = lastWait v h :=
    fun v away => lastWait_skip (by simp [Event.phase,Ne.symm away])
  have nodup := before.nodup c
  rw [queue,List.nodup_cons] at nodup
  refine ⟨?_,?_,?_⟩
  · intro d
    rw [waits_skip (by simp [Event.beganOn]),before.fifo d]
    by_cases same : d = c
    · subst same
      rw [wakes_new (t := u) (by simp [Event.signalledOn]),queue]
      simp
    · rw [wakes_skip (by simp [Event.signalledOn,Ne.symm same])]
      simp [same]
  · intro v d
    have was := before.queued v d
    by_cases his : v = u
    · subst his
      by_cases same : d = c
      · subst same
        simp [new,nodup.1]
      · rw [released] at was
        simp [new,same,was,Ne.symm same]
    · rw [old v his,← was]
      by_cases same : d = c
      · subst same
        simp [queue,his]
      · simp [same]
  · intro d
    by_cases same : d = c
    · subst same
      simpa using nodup.2
    · simpa [same] using before.nodup d

/-- A signal removes the first entry. -/
theorem Waits.pop (waits : Waits lockOf h s) (locks : Locks lockOf h s) (here : s.pc t = .signalPop c b)
    (queue : s.queue c = u :: rest) :
    lastWait u h = some (.released c) ∧
    Waits lockOf (.signalled t c u :: h) (State.goto { s with
      queue := Function.update s.queue c rest } t (.signalUp c b u)) := by
  have place : (s.pc t).stage = .apart := by rw [here]; rfl
  have held : s.holder (lockOf c) = some t := locks.holds t _ (by rw [here]; rfl)
  have released := waits.queue_released locks held place (u := u) (by simp [queue])
  obtain ⟨waiting,sema,there,queued,zero⟩ := waits.released released
  have other : u ≠ t := by
    rintro rfl
    rw [place] at waiting
    contradiction
  refine ⟨released,?_⟩
  have new : lastWait u (.signalled t c u :: h) = some (.signalled c) := lastWait_new (by simp [Event.phase])
  have old : ∀ v, v ≠ u → lastWait v (.signalled t c u :: h) = lastWait v h :=
    fun v away => lastWait_skip (by simp [Event.phase,Ne.symm away])
  refine ⟨?_,?_,waits.queues.pop queue released⟩
  · intro v
    by_cases mine : v = t
    · subst mine
      have settled := waits.threads v
      rw [place] at settled
      simpa [State.goto,Pc.stage,WaitOk,old v (Ne.symm other)] using settled
    · by_cases his : v = u
      · subst his
        simp only [State.goto,Function.update_of_ne mine,waiting]
        exact ⟨sema,there,.popped (u := t) new queued zero (by simp [Pc.raises])⟩
      · refine (waits.threads v).frame ?_ (old v his) ?_ ?_ ?_
        · simp [State.goto,mine]
        · rfl
        · exact fun _ => rfl
        intro w d raises
        have away : w ≠ t := by
          rintro rfl
          rw [here] at raises
          contradiction
        exact ⟨w,by simpa [State.goto,away] using raises⟩
  · intro v d x raises
    by_cases mine : v = t
    · subst mine
      simp only [State.goto,Function.update_self,Pc.raises,Option.some.injEq,Prod.mk.injEq] at raises
      obtain ⟨rfl,rfl⟩ := raises
      exact ⟨by simpa [State.goto,other] using waiting,new,sema,there,zero⟩
    · simp only [State.goto,Function.update_of_ne mine] at raises
      have was := waits.raisers v d x raises
      have away : x ≠ u := by
        rintro rfl
        simp [was.last] at released
      have there' : x ≠ t := by
        rintro rfl
        exact was.elsewhere place (by simp)
      exact ⟨by simpa [State.goto,there'] using was.place,by rw [old x away]; exact was.last,was.there⟩

omit [DecidableEq Tid] [DecidableEq Cond] [DecidableEq Lock] in
theorem raises_holds {p : Pc Tid Lock Cond} (raises : p.raises = some (c,t)) : p.holds lockOf = some (lockOf c) := by
  unfold Pc.raises at raises
  split at raises
  · obtain ⟨rfl,rfl⟩ := Prod.mk.inj (Option.some.inj raises)
    rfl
  · contradiction

omit [DecidableEq Lock] in
/-- The semaphore of an entry that has been removed has not been raised yet. -/
theorem Waits.popped_queued (waits : Waits lockOf h s) (waiting : (s.pc u).stage = .waiting c)
    (last : lastWait u h = some (.signalled c)) (there : s.waiter u = some sema) (zero : sema.value = 0) :
    Queued sema s.status (· = u) := by
  have ok := waits.threads u
  rw [waiting] at ok
  obtain ⟨sema',there',ok⟩ := ok
  rw [there] at there'
  obtain rfl := Option.some.inj there'
  cases ok with
  | unsignalled last' => simp [last] at last'
  | popped _ queued => exact queued
  | raised _ one => omega

/-- The signal raises the semaphore of the entry it has removed. -/
theorem Waits.raise (waits : Waits lockOf h s) (locks : Locks lockOf h s) (here : s.pc t = .signalUp c b u) :
    ∃ sema sema' status, s.waiter u = some sema ∧ semaUp sema s.status = some (sema',status) ∧
      (∀ v, v ≠ u → status v = s.status v) ∧ (s.pc u).down = none ∧
      Waits lockOf (.quiet t :: h) (State.goto { s with
        waiter := Function.update s.waiter u (some sema'), status := status } t (afterSignal c b)) := by
  have place : (s.pc t).stage = .apart := by rw [here]; rfl
  have raises : (s.pc t).raises = some (c,u) := by rw [here]; rfl
  have after : (afterSignal c b : Pc Tid Lock Cond).stage = .apart ∧ (afterSignal c b : Pc Tid Lock Cond).raises = none := by
    cases b <;> exact ⟨rfl,rfl⟩
  obtain ⟨waiting,last,sema,there,zero⟩ := waits.raisers t c u raises
  have other : u ≠ t := by
    rintro rfl
    rw [place] at waiting
    contradiction
  have queued := waits.popped_queued waiting last there zero
  obtain ⟨sema',status,ran,one,awake,same⟩ := queued.up_only zero
  refine ⟨sema,sema',status,there,ran,same,by rw [stage_waiting.mp waiting]; rfl,?_,?_,waits.queues.plain rfl⟩
  · intro v
    by_cases mine : v = t
    · subst mine
      have settled := waits.threads v
      rw [place] at settled
      simp only [State.goto,Function.update_self,after.1]
      exact settled
    · by_cases his : v = u
      · subst his
        simp only [State.goto,Function.update_of_ne mine,waiting]
        exact ⟨sema',by simp,.raised last one awake⟩
      · refine (waits.threads v).frame ?_ rfl ?_ (fun _ => same v his) ?_
        · simp [State.goto,mine]
        · simp [State.goto,his]
        intro w d raises'
        have away : w ≠ t := by
          rintro rfl
          rw [raises] at raises'
          exact his (Prod.mk.inj (Option.some.inj raises')).2.symm
        exact ⟨w,by simpa [State.goto,away] using raises'⟩
  · intro v d x raises'
    have mine : v ≠ t := by
      rintro rfl
      simp [State.goto,after.2] at raises'
    simp only [State.goto,Function.update_of_ne mine] at raises'
    have was := waits.raisers v d x raises'
    have away : x ≠ u := by
      rintro rfl
      -- both signallers would hold the lock of the condition
      have condition : d = c := Stage.waiting.inj (was.place.symm.trans waiting)
      subst condition
      exact mine (locks.owner (Or.inl (locks.holds v _ (raises_holds raises')))
        (Or.inl (locks.holds t _ (raises_holds raises))))
    have there' : x ≠ t := by
      rintro rfl
      exact was.elsewhere place (by simp)
    exact ⟨by simpa [State.goto,there'] using was.place,was.last,by simpa [State.goto,away] using was.there⟩

end

end OsProj.Synch.Monitor
