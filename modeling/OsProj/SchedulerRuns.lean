import OsProj.SchedulerSwitch

/-! Every operation of the scheduler keeps its lists, statuses and pages consistent and fails no
assertion, and so does every run. -/
namespace OsProj.Scheduler

section
variable {Tid Q : Type} [DecidableEq Tid] {s s' : State Tid Q}

theorem Inv.current (inv : Inv s) : threadCurrent s = some s.cpu := by
  rw [threadCurrent,if_pos ((inv.running s.cpu).mpr rfl)]

theorem Inv.here (inv : Inv s) : s.status s.cpu = some .running := (inv.running s.cpu).mpr rfl

/-- The running thread is in no list. -/
theorem Inv.unlisted (inv : Inv s) (l : Option Q) : s.cpu ∉ s.list l :=
  inv.lists.free (by simp [inv.here]) (by simp [inv.here]) l

theorem Inv.cpu_all (inv : Inv s) : s.cpu ∈ s.all := by
  rw [inv.lists.all.2,inv.here]
  simp

theorem Inv.create (inv : Inv s) (fresh : s.status t = none) : Inv (initThread t s) := by
  have absent : t ∉ s.all := by simp [inv.lists.all.2,fresh]
  have idler : s.idler ≠ t := by
    rintro rfl
    exact absent inv.idler
  have initial : s.initialThread ≠ t := by
    rintro rfl
    exact inv.initial fresh
  have cpu : s.cpu ≠ t := by
    rintro rfl
    simp [inv.here] at fresh
  have longer : (s.all ++ [t]).Nodup := by
    rw [List.nodup_append_comm]
    exact List.nodup_cons.mpr ⟨absent,inv.lists.all.1⟩
  constructor
  · constructor
    · refine inv.lists.restatus t (some .blocked) (inv.lists.free (by simp [fresh]) (by simp [fresh])) rfl rfl rfl rfl (by simp)
        ⟨longer,fun u => ?_⟩
      by_cases same : u = t <;> simp [initThread,State.record,State.setStatus,same]
    · exact inv.policy
    · exact inv.registered
    · exact List.mem_append_left _ inv.idler
    · simpa [initThread,State.record,State.setStatus,initial] using inv.initial
    · simpa [initThread,State.record,State.setStatus,enqueued,dequeued] using inv.fifo
    · intro u
      have lives := inv.lives u
      simp only [created,exited] at lives
      simp only [initThread,State.record,State.setStatus,created,exited,List.filterMap_append,List.count_append,
        List.filterMap_cons,List.filterMap_nil,List.count_nil]
      omega
    · simpa [initThread,State.record,State.setStatus] using inv.safe
  · intro u
    by_cases same : u = t
    · subst same
      simp [initThread,State.record,State.setStatus,Ne.symm cpu]
    · simpa [initThread,State.record,State.setStatus,same] using inv.running u
  · intro u dying
    by_cases same : u = t
    · subst same
      simp [initThread,State.record,State.setStatus] at dying
    · simp only [initThread,State.record,State.setStatus,Function.update_of_ne same] at dying
      exact inv.dying u dying
  · exact inv.started
  · simpa [initThread,State.record,State.setStatus,ran,chosen] using inv.runs
  · simpa [initThread,State.record,State.setStatus,freed,exited] using inv.reaped

/-- A blocked thread goes to the end of the ready list, from the list it was in or from none. -/
theorem Inv.unblock (inv : Inv s) (blocked : s.status t = some .blocked) (waiters : Q → List Tid)
    (nodup : ∀ q, (waiters q).Nodup) (member : ∀ q u, u ∈ waiters q ↔ u ≠ t ∧ u ∈ s.waiters q) :
    ∃ s', threadUnblock t { s with waiters := waiters } = some s' ∧ Inv s' := by
  have absent : t ∉ s.ready := by
    intro member
    simp [inv.lists.ready t member] at blocked
  have cpu : s.cpu ≠ t := by
    rintro rfl
    simp [inv.here] at blocked
  have longer : (s.ready ++ [t]).Nodup := by
    rw [List.nodup_append_comm]
    exact List.nodup_cons.mpr ⟨absent,inv.lists.nodup none⟩
  refine ⟨State.setStatus (State.record { s with ready := s.ready ++ [t], waiters := waiters } (.enqueue t)) t .ready,?_,?_⟩
  · simp [threadUnblock,threadEnqueue,blocked,isThread,inv.policy]
  constructor
  · constructor
    · refine inv.lists.move t (some .ready) (some none) rfl rfl rfl ?_ ?_ (by simp) (by simp) (by simp)
        (inv.lists.kept ?_ (by simp))
      · intro l
        cases l with
        | none => exact longer
        | some q => exact nodup q
      · intro l u
        cases l with
        | none => by_cases same : u = t <;> simp [State.list,State.record,State.setStatus,same,absent]
        | some q => simp [State.list,State.record,State.setStatus,member q u]
      · rw [inv.lists.all.2,blocked]
        simp
    · exact inv.policy
    · exact inv.registered
    · exact inv.idler
    · exact fun none => inv.initial (update_none none)
    · have fifo := inv.fifo
      simp only [enqueued,dequeued] at fifo
      simp [State.record,State.setStatus,enqueued,dequeued,fifo]
    · simpa [State.record,State.setStatus,created,exited] using inv.lives
    · simpa [State.record,State.setStatus] using inv.safe
  · intro u
    by_cases same : u = t
    · subst same
      simp [State.record,State.setStatus,Ne.symm cpu]
    · simpa [State.record,State.setStatus,same] using inv.running u
  · intro u dying
    by_cases same : u = t
    · subst same
      simp [State.record,State.setStatus] at dying
    · simp only [State.record,State.setStatus,Function.update_of_ne same] at dying
      exact inv.dying u dying
  · intro unset
    exact (inv.started unset).imp_right fun here => List.mem_append_left _ here
  · simpa [State.record,State.setStatus,ran,chosen] using inv.runs
  · simpa [State.record,State.setStatus,freed,exited] using inv.reaped

/-- The running thread gives up the processor. -/
theorem Inv.leave (inv : Inv s) (status : Status) (between : Base s') (cpu : s'.cpu = s.cpu)
    (changed : s'.status = Function.update s.status s.cpu (some status)) (left : status ≠ .running)
    (initial : s'.initialThread = s.initialThread) (idle : s'.idleThread = s.idleThread) (idler : s'.idler = s.idler)
    (started : s.idleThread = none → s.idler ∈ s'.ready)
    (runs : ran s'.log = ran s.log ∧ chosen s'.log = chosen s.log) (frees : freed s'.log = freed s.log)
    (exits : exited s'.log = exited s.log ++ if status = .dying then [s.cpu] else []) : Between s' := by
  refine ⟨between,?_,?_,?_,?_,?_⟩
  · intro t
    rw [changed]
    by_cases same : t = s.cpu
    · subst same
      simpa using left
    · rw [Function.update_of_ne same,Ne,inv.running t]
      exact same
  · intro t dying
    rw [initial,cpu]
    by_cases same : t = s.cpu
    · exact Or.inr same
    · rw [changed,Function.update_of_ne same] at dying
      exact Or.inl (inv.dying t dying)
  · rw [idle,idler]
    exact started
  · rw [runs.1,runs.2]
    exact inv.runs
  · intro t other
    rw [initial] at other
    rw [frees,exits,changed,cpu,List.count_append,inv.reaped t other]
    by_cases same : t = s.cpu
    · subst same
      by_cases dying : status = .dying <;> simp [dying]
    · by_cases dying : status = .dying <;> simp [dying,same,Ne.symm same]

/-- `thread_block`, with the `elem` of the thread in the list `place`, if that is one. -/
theorem Inv.block (inv : Inv s) (place : Option Q) (waiters : Q → List Tid)
    (nodup : ∀ q, (waiters q).Nodup) (member : ∀ q u, u ∈ waiters q ↔ u ≠ s.cpu ∧ u ∈ s.waiters q ∨ u = s.cpu ∧ place = some q)
    (idle : s.cpu = s.idler → s.idleThread = some s.idler ∧ place = none) :
    ∃ s', threadBlock { s with waiters := waiters } = some s' ∧ Inv s' := by
  have current : threadCurrent { s with waiters := waiters } = some s.cpu := inv.current
  have lists : Lists (State.setStatus { s with waiters := waiters } s.cpu .blocked) := by
    refine inv.lists.move s.cpu (some .blocked) (place.map some) rfl rfl rfl ?_ ?_ (by simp) ?_ (by simp)
      (inv.lists.kept inv.cpu_all (by simp))
    · intro l
      cases l with
      | none => exact inv.lists.nodup none
      | some q => exact nodup q
    · intro l u
      cases l with
      | none =>
        have absent := inv.unlisted none
        by_cases same : u = s.cpu
        · subst same
          simpa [State.list,State.setStatus] using absent
        · simp [State.list,State.setStatus,same]
      | some q => simp [State.list,State.setStatus,member q u]
    · intro q waits
      refine ⟨rfl,fun same => ?_⟩
      simp [(idle same).2] at waits
  have base : Base (State.setStatus { s with waiters := waiters } s.cpu .blocked) := by
    refine ⟨lists,inv.policy,inv.registered,inv.idler,?_,inv.fifo,inv.lives,inv.safe⟩
    exact fun none => inv.initial (update_none none)
  have between := inv.leave .blocked base rfl rfl (by simp) rfl rfl rfl ?_ ⟨rfl,rfl⟩ rfl (by simp [State.setStatus])
  · obtain ⟨s',ran,inv'⟩ := between.schedule
    exact ⟨s',by simp [threadBlock,current,ran],inv'⟩
  · intro unset
    rcases inv.started unset with same | here
    · simp [(idle same).1] at unset
    · exact here

theorem Inv.yield (inv : Inv s) : ∃ s', threadYield s = some s' ∧ Inv s' := by
  by_cases idle : s.idleThread = some s.cpu
  · have base : Base (s.setStatus s.cpu .ready) := by
      refine ⟨?_,inv.policy,inv.registered,inv.idler,?_,inv.fifo,inv.lives,inv.safe⟩
      · exact inv.lists.restatus s.cpu (some .ready) inv.unlisted rfl rfl rfl rfl (fun _ => idle)
          (inv.lists.kept inv.cpu_all (by simp))
      · exact fun none => inv.initial (update_none none)
    have between := inv.leave .ready base rfl rfl (by simp) rfl rfl rfl ?_ ⟨rfl,rfl⟩ rfl (by simp [State.setStatus])
    · obtain ⟨s',ran,inv'⟩ := between.schedule
      exact ⟨s',by simp [threadYield,inv.current,idle,ran],inv'⟩
    · intro unset
      simp [idle] at unset
  · have absent : s.cpu ∉ s.ready := inv.unlisted none
    have longer : (s.ready ++ [s.cpu]).Nodup := by
      rw [List.nodup_append_comm]
      exact List.nodup_cons.mpr ⟨absent,inv.lists.nodup none⟩
    have base : Base (State.setStatus (State.record { s with ready := s.ready ++ [s.cpu] } (.enqueue s.cpu)) s.cpu .ready) := by
      refine ⟨?_,inv.policy,inv.registered,inv.idler,?_,?_,?_,?_⟩
      · refine inv.lists.move s.cpu (some .ready) (some none) rfl rfl rfl ?_ ?_ (by simp) (by simp) (by simp)
          (inv.lists.kept inv.cpu_all (by simp))
        · intro l
          cases l with
          | none => exact longer
          | some q => exact inv.lists.nodup (some q)
        · intro l u
          have nowhere := inv.unlisted l
          cases l with
          | none => by_cases same : u = s.cpu <;> simp [State.list,State.record,State.setStatus,same,absent]
          | some q =>
            by_cases same : u = s.cpu
            · subst same
              simpa [State.list,State.record,State.setStatus] using nowhere
            · simp [State.list,State.record,State.setStatus,same]
      · exact fun none => inv.initial (update_none none)
      · have fifo := inv.fifo
        simp only [enqueued,dequeued] at fifo
        simp [State.record,State.setStatus,enqueued,dequeued,fifo]
      · simpa [State.record,State.setStatus,created,exited] using inv.lives
      · simpa [State.record,State.setStatus] using inv.safe
    have between := inv.leave .ready base rfl rfl (by simp) rfl rfl rfl ?_ ?_ ?_ ?_
    · obtain ⟨s',ran,inv'⟩ := between.schedule
      have queued : threadEnqueue s.cpu s = some (State.record { s with ready := s.ready ++ [s.cpu] } (.enqueue s.cpu)) := by
        simp [threadEnqueue,isThread,inv.here,inv.policy]
      exact ⟨s',by simp only [threadYield,inv.current,Option.bind_some,ne_eq,idle,not_false_eq_true,↓reduceIte,queued,ran],inv'⟩
    · intro unset
      rcases inv.started unset with same | here
      · simp [State.record,State.setStatus,same]
      · exact List.mem_append_left _ here
    · simp [State.record,State.setStatus,ran,chosen]
    · simp [State.record,State.setStatus,freed]
    · simp [State.record,State.setStatus,exited]

theorem Inv.exit (inv : Inv s) (other : s.cpu ≠ s.idler) : ∃ s', threadExit s = some s' ∧ Inv s' := by
  have shorter := inv.lists.all.1.erase s.cpu
  have remains (u : Tid) : u ∈ s.all.erase s.cpu ↔ u ≠ s.cpu ∧ u ∈ s.all := inv.lists.all.1.mem_erase_iff
  have base : Base (State.setStatus (State.record { s with all := s.all.erase s.cpu } (.exit s.cpu)) s.cpu .dying) := by
    refine ⟨?_,inv.policy,inv.registered,?_,?_,?_,?_,?_⟩
    · refine inv.lists.restatus s.cpu (some .dying) inv.unlisted rfl rfl rfl rfl (by simp) ⟨shorter,fun u => ?_⟩
      simpa [State.record,State.setStatus] using remains u
    · exact (remains s.idler).mpr ⟨Ne.symm other,inv.idler⟩
    · exact fun none => inv.initial (update_none none)
    · simpa [State.record,State.setStatus,enqueued,dequeued] using inv.fifo
    · intro u
      have lives := inv.lives u
      simp only [created,exited] at lives
      simp only [State.record,State.setStatus,created,exited,List.filterMap_append,List.count_append,
        List.filterMap_cons,List.filterMap_nil,List.count_nil]
      by_cases same : u = s.cpu
      · subst same
        have positive : 0 < s.all.count s.cpu := List.count_pos_iff.mpr inv.cpu_all
        simp only [List.count_erase_self,List.count_singleton_self]
        omega
      · rw [List.count_erase_of_ne same,List.count_singleton]
        simp [Ne.symm same,lives]
    · simpa [State.record,State.setStatus] using inv.safe
  have between := inv.leave .dying base rfl rfl (by simp) rfl rfl rfl ?_ ?_ ?_ ?_
  · obtain ⟨s',ran,inv'⟩ := between.schedule
    exact ⟨s',by simp [threadExit,inv.current,ran],inv'⟩
  · intro unset
    exact (inv.started unset).resolve_left other
  · simp [State.record,State.setStatus,ran,chosen]
  · simp [State.record,State.setStatus,freed]
  · simp [State.record,State.setStatus,exited]

theorem Inv.register (inv : Inv s) (idler : s.cpu = s.idler) : ∃ s', idleRegister s = some s' ∧ Inv s' := by
  refine ⟨{ s with idleThread := some s.cpu },by simp [idleRegister,inv.current],?_⟩
  have lists : Lists { s with idleThread := some s.cpu } := by
    refine ⟨inv.lists.nodup,inv.lists.single,inv.lists.ready,inv.lists.waiting,?_,inv.lists.all⟩
    intro t ready
    rcases inv.lists.queued t ready with here | idle
    · exact Or.inl here
    · exact Or.inr (by rw [inv.registered t idle,← idler])
  refine ⟨⟨lists,inv.policy,?_,inv.idler,inv.initial,inv.fifo,inv.lives,inv.safe⟩,inv.running,inv.dying,?_,inv.runs,inv.reaped⟩
  · rintro t registered
    exact (Option.some.inj registered).symm.trans idler
  · simp

variable [DecidableEq Q]

theorem Inv.wait (inv : Inv s) (other : s.cpu ≠ s.idler) (q : Q) : ∃ s', waitOn q s = some s' ∧ Inv s' := by
  have absent : s.cpu ∉ s.waiters q := inv.unlisted (some q)
  have longer : (s.waiters q ++ [s.cpu]).Nodup := by
    rw [List.nodup_append_comm]
    exact List.nodup_cons.mpr ⟨absent,inv.lists.nodup (some q)⟩
  have blocks := inv.block (some q) (Function.update s.waiters q (s.waiters q ++ [s.cpu])) ?_ ?_ (fun same => absurd same other)
  · obtain ⟨s',ran,inv'⟩ := blocks
    exact ⟨s',by simp [waitOn,inv.current,ran],inv'⟩
  · intro r
    by_cases same : r = q
    · subst same
      simpa using longer
    · rw [Function.update_of_ne same]
      exact inv.lists.nodup (some r)
  · intro r u
    by_cases same : r = q
    · subst same
      by_cases his : u = s.cpu <;> simp [his,absent]
    · have nowhere : s.cpu ∉ s.waiters r := inv.unlisted (some r)
      by_cases his : u = s.cpu
      · subst his
        simp [same,nowhere,Ne.symm same]
      · simp [same,his]

theorem Inv.wake (inv : Inv s) (q : Q) : ∃ s', wakeFrom q s = some s' ∧ Inv s' := by
  cases first : s.waiters q with
  | nil => exact ⟨s,by simp [wakeFrom,first],inv⟩
  | cons t rest =>
    have member : t ∈ s.list (some q) := by simp [State.list,first]
    have nodup := inv.lists.nodup (some q)
    simp only [State.list,first,List.nodup_cons] at nodup
    have unblocks := inv.unblock (inv.lists.waiting t q member).1 (Function.update s.waiters q rest) ?_ ?_
    · obtain ⟨s',ran,inv'⟩ := unblocks
      exact ⟨s',by simp only [wakeFrom,first,ran],inv'⟩
    · intro r
      by_cases same : r = q
      · subst same
        simpa using nodup.2
      · rw [Function.update_of_ne same]
        exact inv.lists.nodup (some r)
    · intro r u
      by_cases same : r = q
      · subst same
        by_cases his : u = t <;> simp [his,first,nodup.1]
      · have elsewhere : t ∉ s.waiters r := fun here => same (Option.some.inj (inv.lists.single t (some r) (some q) here member))
        by_cases his : u = t
        · subst his
          simp [same,elsewhere]
        · simp [same,his]

/-- An operation the callers may perform fails no assertion. -/
theorem Inv.perform (inv : Inv s) (allowed : Allowed s op) : ∃ s', perform op s = some s' ∧ Inv s' := by
  cases op with
  | create page =>
    cases page with
    | none => exact ⟨s,rfl,inv⟩
    | some t => exact ⟨_,rfl,inv.create (allowed t rfl)⟩
  | register => exact inv.register allowed
  | unblock t =>
    refine inv.unblock allowed.1 s.waiters (fun q => inv.lists.nodup (some q)) (fun q u => ?_)
    by_cases same : u = t
    · subst same
      simp [allowed.2 q]
    · simp [same]
  | wake q => exact inv.wake q
  | block =>
    refine inv.block none s.waiters (fun q => inv.lists.nodup (some q)) (fun q u => ?_) (fun same => ⟨allowed same,rfl⟩)
    have nowhere : s.cpu ∉ s.waiters q := inv.unlisted (some q)
    by_cases same : u = s.cpu
    · subst same
      simp [nowhere]
    · simp [same]
  | wait q => exact inv.wait allowed q
  | yield => exact inv.yield
  | exit => exact inv.exit allowed

omit [DecidableEq Q] in
/-- Where `thread_start` leaves the threads when it enables interrupts. Any other policy has no
ready list and panics there. -/
theorem start_inv {initialThread idler : Tid} (distinct : idler ≠ initialThread)
    (started : threadStart (threadInit policy initialThread idler : State Tid Q) = some s) : Inv s := by
  have fifo : policy = .fifo := by
    cases policy <;> simp [threadStart,threadInit,threadCreate,threadUnblock,threadEnqueue,isThread,initThread,State.record,
      State.setStatus] at started ⊢
  subst fifo
  simp only [threadStart,threadInit,threadCreate,threadUnblock,threadEnqueue,isThread,initThread,State.record,State.setStatus,
    Function.update_self,Option.isSome_some,↓reduceIte,Option.map_some,Option.some.injEq] at started
  subst started
  constructor
  · constructor
    · constructor
      · intro l
        cases l <;> simp [State.list]
      · intro t l l' first second
        cases l <;> cases l' <;> simp_all [State.list]
      · simp [State.list]
      · simp [State.list]
      · intro t
        by_cases same : t = idler
        · simp [State.list,same]
        · by_cases initial : t = initialThread <;> simp [initial,same,Ne.symm distinct]
      · refine ⟨by simpa using Ne.symm distinct,fun t => ?_⟩
        by_cases same : t = idler
        · simp [same]
        · by_cases initial : t = initialThread <;> simp [initial,same,Ne.symm distinct]
    · rfl
    · simp
    · simp
    · simp [Ne.symm distinct]
    · simp [enqueued,dequeued]
    · simp [created,exited]
    · simp
  · intro t
    by_cases same : t = idler
    · simp [same,distinct]
    · by_cases initial : t = initialThread <;> simp [initial,same,Ne.symm distinct]
  · intro t
    by_cases same : t = idler
    · simp [same]
    · by_cases initial : t = initialThread <;> simp [initial,same,Ne.symm distinct]
  · simp
  · simp [ran,chosen]
  · simp [freed,exited]

theorem Inv.step (inv : Inv s) (taken : Step h s op s') : Inv s' := by
  cases taken with
  | op allowed ran =>
    obtain ⟨next,done,inv'⟩ := inv.perform allowed
    rw [ran] at done
    exact Option.some.inj done ▸ inv'

theorem run_inv {initialThread idler : Tid} {s₀ : State Tid Q} (distinct : idler ≠ initialThread)
    (started : threadStart (threadInit policy initialThread idler) = some s₀)
    (run : History.Path Step [] s₀ h s) : Inv s :=
  run.invariant (fun _ s => Inv s) (fun _ _ _ _ inv taken => inv.step taken) (start_inv distinct started)

/-- In every run: one thread is running, the one on the processor; the ready list holds the ready
threads, once each, but for the idle thread; no thread is in two lists or twice in one; a thread
that was created and has not exited is still there; ready threads run in the order in which they
became ready; the page of a thread other than the initial one is freed once for each exit, with
the processor on another page; and nothing the callers may do next fails an assertion. -/
theorem scheduler_consistent {initialThread idler : Tid} {s₀ : State Tid Q} (distinct : idler ≠ initialThread)
    (started : threadStart (threadInit policy initialThread idler) = some s₀) (run : History.Path Step [] s₀ h s) :
    (∀ t, s.status t = some .running ↔ t = s.cpu) ∧
      (∀ t, s.status t = some .ready → s.idleThread ≠ some t → s.ready.count t = 1) ∧
      (∀ t, t ∈ s.ready → s.status t = some .ready) ∧
      (∀ t l, (s.list l).count t ≤ 1) ∧ (∀ t l l', t ∈ s.list l → t ∈ s.list l' → l = l') ∧
      (∀ t, (created s.log).count t = (exited s.log).count t + s.all.count t ∧ s.all.count t ≤ 1) ∧
      (∀ t, t ∈ s.all ↔ s.status t = some .running ∨ s.status t = some .ready ∨ s.status t = some .blocked) ∧
      enqueued s.log = dequeued s.log ++ s.ready ∧ ran s.log = chosen s.log ∧
      (∀ t, t ≠ s.initialThread → (freed s.log).count t = (exited s.log).count t) ∧
      (∀ t cpu, Action.free t cpu ∈ s.log → cpu ≠ t ∧ t ≠ s.initialThread) ∧
      ∀ op, Allowed s op → perform op s ≠ none := by
  have inv := run_inv distinct started run
  refine ⟨inv.running,?_,inv.lists.ready,?_,inv.lists.single,?_,?_,inv.fifo,inv.runs,inv.reaped,inv.safe,?_⟩
  · intro t ready other
    exact List.count_eq_one_of_mem (inv.lists.nodup none) ((inv.lists.queued t ready).resolve_right other)
  · exact fun t l => List.nodup_iff_count_le_one.mp (inv.lists.nodup l) t
  · exact fun t => ⟨inv.lives t,List.nodup_iff_count_le_one.mp inv.lists.all.1 t⟩
  · intro t
    rw [inv.lists.all.2]
    cases s.status t with
    | none => simp
    | some status => cases status <;> simp
  · intro op allowed failed
    obtain ⟨s',done,_⟩ := inv.perform allowed
    rw [failed] at done
    contradiction

end

/-- The initial thread waits, the idle thread registers and blocks, and a third thread wakes the
initial one and exits. -/
def waitAndExit : List (Op (Fin 3) Unit) :=
  [.create (some 2),.unblock 2,.wait (),.register,.block,.wake (),.exit]

/-- The state after `thread_start`, with thread 0 the initial and thread 1 the idle one. -/
def afterStart : State (Fin 3) Unit := (threadStart (threadInit .fifo 0 1)).getD (threadInit .fifo 0 1)

def reached : List (Op (Fin 3) Unit) × State (Fin 3) Unit :=
  History.arrive operate (fun _ s op => Allowed s op) afterStart waitAndExit

theorem scheduler_consistent_exit : History.Path Step [] afterStart reached.1 reached.2 ∧
    freed reached.2.log = [2] ∧ ran reached.2.log = [1,2,0] ∧ ran reached.2.log = chosen reached.2.log ∧
      (∀ t cpu, Action.free t cpu ∈ reached.2.log → cpu ≠ t ∧ t ≠ reached.2.initialThread) ∧
      ∀ op, Allowed reached.2 op → perform op reached.2 ≠ none := by
  have started : threadStart (threadInit .fifo 0 1) = some afterStart := rfl
  have run : History.Path Step [] afterStart reached.1 reached.2 :=
    History.arrive_path (fun _ _ _ _ _ => operate_step) (by decide)
  obtain ⟨-,-,-,-,-,-,-,-,runs,-,safe,alive⟩ := scheduler_consistent (by decide) started run
  exact ⟨run,by decide,by decide,runs,safe,alive⟩

end OsProj.Scheduler
