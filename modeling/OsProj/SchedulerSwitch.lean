import OsProj.Scheduler

/-! The invariant of the scheduler, and the switch to the next thread: it finds a thread to run,
fails no assertion and leaves the invariant behind. -/
namespace OsProj.Scheduler

/-! Reading the record. -/

def created (log : List (Action Tid)) : List Tid := log.filterMap fun
  | .create t => some t
  | _ => none

def exited (log : List (Action Tid)) : List Tid := log.filterMap fun
  | .exit t => some t
  | _ => none

def enqueued (log : List (Action Tid)) : List Tid := log.filterMap fun
  | .enqueue t => some t
  | _ => none

def dequeued (log : List (Action Tid)) : List Tid := log.filterMap fun
  | .dequeue t => some t
  | _ => none

/-- The threads the scheduler chose, from the ready list or for want of one in it. -/
def chosen (log : List (Action Tid)) : List Tid := log.filterMap fun
  | .dequeue t | .idle t => some t
  | _ => none

def ran (log : List (Action Tid)) : List Tid := log.filterMap fun
  | .run t => some t
  | _ => none

def freed (log : List (Action Tid)) : List Tid := log.filterMap fun
  | .free t _ => some t
  | _ => none

/-! The lists. -/

/-- The lists that an `elem` may be in: the ready list and the others. -/
def State.list (s : State Tid Q) : Option Q → List Tid
  | none => s.ready
  | some q => s.waiters q

structure Lists (s : State Tid Q) : Prop where
  nodup : ∀ l, (s.list l).Nodup
  single : ∀ t l l', t ∈ s.list l → t ∈ s.list l' → l = l'
  ready : ∀ t, t ∈ s.list none → s.status t = some .ready
  waiting : ∀ t q, t ∈ s.list (some q) → s.status t = some .blocked ∧ t ≠ s.idler
  queued : ∀ t, s.status t = some .ready → t ∈ s.list none ∨ s.idleThread = some t
  all : s.all.Nodup ∧ ∀ t, t ∈ s.all ↔ s.status t ≠ none ∧ s.status t ≠ some .dying

section
variable {Tid Q : Type} {s s' : State Tid Q}

/-- A thread without a status has none before one is set either. -/
theorem update_none [DecidableEq Tid] {f : Tid → Option Status} (unset : Function.update f t (some x) u = none) :
    f u = none := by
  by_cases same : u = t
  · simp [same] at unset
  · rwa [Function.update_of_ne same] at unset

/-- Only a ready or a blocked thread is in a list. -/
theorem Lists.free (lists : Lists s) (neither : s.status t ≠ some .ready) (awake : s.status t ≠ some .blocked) (l : Option Q) :
    t ∉ s.list l := by
  intro member
  cases l with
  | none => exact neither (lists.ready t member)
  | some q => exact awake (lists.waiting t q member).1

variable [DecidableEq Tid]

/-- One thread changes its status and goes from the list it was in, if any, to `place`, if that
is a list. -/
theorem Lists.move (lists : Lists s) (t : Tid) (status : Option Status) (place : Option (Option Q))
    (changed : s'.status = Function.update s.status t status)
    (idle : s'.idleThread = s.idleThread) (idler : s'.idler = s.idler)
    (nodup : ∀ l, (s'.list l).Nodup)
    (member : ∀ l u, u ∈ s'.list l ↔ u ≠ t ∧ u ∈ s.list l ∨ u = t ∧ place = some l)
    (readied : place = some none → status = some .ready)
    (waits : ∀ q, place = some (some q) → status = some .blocked ∧ t ≠ s.idler)
    (queued : status = some .ready → place = some none ∨ s.idleThread = some t)
    (all : s'.all.Nodup ∧ ∀ u, u ∈ s'.all ↔ u ≠ t ∧ u ∈ s.all ∨ u = t ∧ status ≠ none ∧ status ≠ some .dying) :
    Lists s' := by
  have self : s'.status t = status := by rw [changed,Function.update_self]
  have others (u : Tid) (other : u ≠ t) : s'.status u = s.status u := by rw [changed,Function.update_of_ne other]
  refine ⟨nodup,?_,?_,?_,?_,all.1,?_⟩
  · intro u l l' first second
    rcases (member l u).mp first with ⟨other,first⟩ | ⟨rfl,first⟩
    · rcases (member l' u).mp second with ⟨_,second⟩ | ⟨same,_⟩
      · exact lists.single u l l' first second
      · exact absurd same other
    · rcases (member l' u).mp second with ⟨other,_⟩ | ⟨_,second⟩
      · exact absurd rfl other
      · exact Option.some.inj (first.symm.trans second)
  · intro u here
    rcases (member none u).mp here with ⟨other,here⟩ | ⟨rfl,here⟩
    · rw [others u other]
      exact lists.ready u here
    · rw [self]
      exact readied here
  · intro u q here
    rw [idler]
    rcases (member (some q) u).mp here with ⟨other,here⟩ | ⟨rfl,here⟩
    · rw [others u other]
      exact lists.waiting u q here
    · rw [self]
      exact waits q here
  · intro u ready
    rw [member none u,idle]
    by_cases same : u = t
    · subst same
      rw [self] at ready
      rcases queued ready with place | idle
      · exact Or.inl (Or.inr ⟨rfl,place⟩)
      · exact Or.inr idle
    · rw [others u same] at ready
      rcases lists.queued u ready with here | idle
      · exact Or.inl (Or.inl ⟨same,here⟩)
      · exact Or.inr idle
  · intro u
    rw [all.2 u]
    by_cases same : u = t
    · subst same
      simp [self]
    · simp [same,others u same,lists.all.2 u]

/-- Nothing but the status of a thread in no list changes. -/
theorem Lists.restatus (lists : Lists s) (t : Tid) (status : Option Status) (nowhere : ∀ l, t ∉ s.list l)
    (changed : s'.status = Function.update s.status t status)
    (idle : s'.idleThread = s.idleThread) (idler : s'.idler = s.idler) (same : s'.list = s.list)
    (queued : status = some .ready → s.idleThread = some t)
    (all : s'.all.Nodup ∧ ∀ u, u ∈ s'.all ↔ u ≠ t ∧ u ∈ s.all ∨ u = t ∧ status ≠ none ∧ status ≠ some .dying) :
    Lists s' := by
  refine lists.move t status none changed idle idler ?_ ?_ ?_ ?_ ?_ all
  · rw [same]
    exact lists.nodup
  · intro l u
    by_cases his : u = t
    · subst his
      simp [same,nowhere l]
    · simp [same,his]
  · simp
  · simp
  · exact fun ready => Or.inr (queued ready)

omit [DecidableEq Tid] in
theorem Lists.kept (lists : Lists s) (present : t ∈ s.all) (alive : status ≠ none ∧ status ≠ some Status.dying) :
    s.all.Nodup ∧ ∀ u, u ∈ s.all ↔ u ≠ t ∧ u ∈ s.all ∨ u = t ∧ status ≠ none ∧ status ≠ some .dying := by
  refine ⟨lists.all.1,fun u => ?_⟩
  by_cases same : u = t
  · subst same
    simp [present,alive]
  · simp [same]

end

/-! The invariant, and what is left of it while the processor switches threads. -/

section
variable {Tid Q : Type} [DecidableEq Tid] {s s' : State Tid Q}

structure Base (s : State Tid Q) : Prop where
  lists : Lists s
  policy : s.policy = .fifo
  registered : ∀ t, s.idleThread = some t → t = s.idler
  idler : s.idler ∈ s.all
  initial : s.status s.initialThread ≠ none
  fifo : enqueued s.log = dequeued s.log ++ s.ready
  lives : ∀ t, (created s.log).count t = (exited s.log).count t + s.all.count t
  safe : ∀ t c, Action.free t c ∈ s.log → c ≠ t ∧ t ≠ s.initialThread

structure Inv (s : State Tid Q) : Prop extends Base s where
  running : ∀ t, s.status t = some .running ↔ t = s.cpu
  dying : ∀ t, s.status t = some .dying → t = s.initialThread
  started : s.idleThread = none → s.cpu = s.idler ∨ s.idler ∈ s.ready
  runs : ran s.log = chosen s.log
  reaped : ∀ t, t ≠ s.initialThread → (freed s.log).count t = (exited s.log).count t

/-- The thread on the processor has given up `running`. If it is dying, its page is not freed yet. -/
structure Between (s : State Tid Q) : Prop extends Base s where
  halted : ∀ t, s.status t ≠ some .running
  dying : ∀ t, s.status t = some .dying → t = s.initialThread ∨ t = s.cpu
  started : s.idleThread = none → s.idler ∈ s.ready
  runs : ran s.log = chosen s.log
  leaving : ∀ t, t ≠ s.initialThread →
    (freed s.log).count t + (if t = s.cpu ∧ s.status t = some .dying then 1 else 0) = (exited s.log).count t

/-- The scheduler has chosen the next thread, which is in no list. -/
structure Chosen (s : State Tid Q) (next : Tid) : Prop extends Base (s.setStatus next .running) where
  halted : ∀ t, s.status t ≠ some .running
  present : s.status next ≠ some .dying
  dying : ∀ t, s.status t = some .dying → t = s.initialThread ∨ t = s.cpu
  started : s.idleThread = none → next = s.idler ∨ s.idler ∈ s.ready
  runs : chosen s.log = ran s.log ++ [next]
  leaving : ∀ t, t ≠ s.initialThread →
    (freed s.log).count t + (if t = s.cpu ∧ s.status t = some .dying then 1 else 0) = (exited s.log).count t

omit [DecidableEq Tid] in
theorem Lists.congr (lists : Lists s) (status : s'.status = s.status) (list : s'.list = s.list) (all : s'.all = s.all)
    (idle : s'.idleThread = s.idleThread) (idler : s'.idler = s.idler) : Lists s' := by
  refine ⟨?_,?_,?_,?_,?_,?_⟩
  · rw [list]
    exact lists.nodup
  · rw [list]
    exact lists.single
  · rw [list,status]
    exact lists.ready
  · rw [list,status,idler]
    exact lists.waiting
  · rw [list,status,idle]
    exact lists.queued
  · rw [all,status]
    exact lists.all

/-- The chosen thread runs; nothing is to be freed. -/
theorem Chosen.resume (picked : Chosen s next) (alive : s.status s.cpu = some .dying → s.cpu = s.initialThread) :
    Inv ((State.setStatus { s with cpu := next } next .running).record (.run next)) where
  lists := picked.lists.congr rfl rfl rfl rfl rfl
  policy := picked.policy
  registered := picked.registered
  idler := picked.idler
  initial := picked.initial
  fifo := by simpa [State.record,State.setStatus,enqueued,dequeued] using picked.fifo
  lives := by simpa [State.record,State.setStatus,created,exited] using picked.lives
  safe := by simpa [State.record,State.setStatus] using picked.safe
  running := by
    intro t
    by_cases same : t = next
    · subst same
      simp [State.record,State.setStatus]
    · simp [State.record,State.setStatus,same,picked.halted t]
  dying := by
    intro t dying
    by_cases same : t = next
    · subst same
      simp [State.record,State.setStatus] at dying
    · simp only [State.record,State.setStatus,Function.update_of_ne same] at dying
      rcases picked.dying t dying with initial | rfl
      · exact initial
      · exact alive dying
  started := picked.started
  runs := by
    have runs := picked.runs
    simp only [ran,chosen] at runs
    simp [State.record,State.setStatus,ran,chosen,runs]
  reaped := by
    intro t other
    have leaving := picked.leaving t other
    have rest : ¬(t = s.cpu ∧ s.status t = some .dying) := by
      rintro ⟨rfl,dying⟩
      exact other (alive dying)
    rw [if_neg rest] at leaving
    simpa [State.record,State.setStatus,freed,exited] using leaving

/-- The chosen thread runs and frees the page of the one that has exited. -/
theorem Chosen.reap (picked : Chosen s next) (gone : s.status s.cpu = some .dying) (other : s.cpu ≠ s.initialThread) :
    Inv (State.record { (State.setStatus { s with cpu := next } next .running).record (.run next) with
      status := Function.update (Function.update s.status next (some .running)) s.cpu none } (.free s.cpu next)) := by
  have different : s.cpu ≠ next := by
    rintro rfl
    exact picked.present gone
  have dying : (s.setStatus next .running).status s.cpu = some .dying := by simp [State.setStatus,different,gone]
  have absent : s.cpu ∉ s.all := fun member => ((picked.lists.all.2 s.cpu).mp member).2 dying
  constructor
  · constructor
    · refine picked.lists.restatus s.cpu none (picked.lists.free ?_ ?_) rfl rfl rfl rfl ?_ ⟨picked.lists.all.1,fun u => ?_⟩
      · simp [dying]
      · simp [dying]
      · simp
      · by_cases same : u = s.cpu
        · subst same
          simp [State.record,State.setStatus,absent]
        · simp [State.record,State.setStatus,same]
    · exact picked.policy
    · exact picked.registered
    · exact picked.idler
    · have initial := picked.initial
      simpa [State.record,State.setStatus,Function.update_of_ne (Ne.symm other)] using initial
    · simpa [State.record,State.setStatus,enqueued,dequeued] using picked.fifo
    · simpa [State.record,State.setStatus,created,exited] using picked.lives
    · intro t c member
      simp only [State.record,State.setStatus,List.mem_append,List.mem_singleton,Action.free.injEq,reduceCtorEq,or_false] at member
      rcases member with before | ⟨rfl,rfl⟩
      · exact picked.safe t c before
      · exact ⟨Ne.symm different,other⟩
  · intro t
    by_cases left : t = s.cpu
    · subst left
      simp [State.record,State.setStatus,different]
    · by_cases same : t = next
      · subst same
        simp [State.record,State.setStatus,left]
      · simp [State.record,State.setStatus,left,same,picked.halted t]
  · intro t dying
    by_cases left : t = s.cpu
    · subst left
      simp [State.record,State.setStatus] at dying
    · by_cases same : t = next
      · subst same
        simp [State.record,State.setStatus,left] at dying
      · simp only [State.record,State.setStatus,Function.update_of_ne same,Function.update_of_ne left] at dying
        exact (picked.dying t dying).resolve_right left
  · exact picked.started
  · have runs := picked.runs
    simp only [ran,chosen] at runs
    simp [State.record,State.setStatus,ran,chosen,runs]
  · intro t initial
    have leaving := picked.leaving t initial
    by_cases left : t = s.cpu
    · subst left
      rw [if_pos ⟨rfl,gone⟩] at leaving
      simpa [State.record,State.setStatus,freed,exited] using leaving
    · rw [if_neg fun both => left both.1] at leaving
      simpa [State.record,State.setStatus,freed,exited,List.count_singleton,Ne.symm left] using leaving

/-- The end of the switch to another thread. -/
theorem Chosen.switch (picked : Chosen s next) (different : s.cpu ≠ next) :
    ∃ s', threadSwitchTail (some s.cpu) { s with cpu := next } = some s' ∧ Inv s' := by
  by_cases gone : s.status s.cpu = some .dying ∧ s.cpu ≠ s.initialThread
  · refine ⟨_,?_,picked.reap gone.1 gone.2⟩
    simp [threadSwitchTail,State.record,State.setStatus,different,gone,pallocFreePage,isThread]
  · refine ⟨_,?_,picked.resume fun dying => by_contra fun other => gone ⟨dying,other⟩⟩
    simp only [threadSwitchTail,State.record,State.setStatus,Function.update_of_ne different,if_neg gone]

/-- The thread on the processor was chosen again. -/
theorem Chosen.stay (picked : Chosen s s.cpu) : ∃ s', threadSwitchTail none s = some s' ∧ Inv s' :=
  ⟨_,rfl,picked.resume fun dying => absurd dying picked.present⟩

theorem Between.chooseFirst (between : Between s) (first : s.ready = next :: rest) :
    Chosen (State.record { s with ready := rest } (.dequeue next)) next := by
  have member : next ∈ s.list none := by simp [State.list,first]
  have ready := between.lists.ready next member
  have nodup := between.lists.nodup none
  simp only [State.list,first,List.nodup_cons] at nodup
  have alone (q : Q) : next ∉ s.waiters q := fun waits => by simpa using between.lists.single next none (some q) member waits
  constructor
  · constructor
    · refine between.lists.move next (some .running) none rfl rfl rfl ?_ ?_ ?_ ?_ ?_ (between.lists.kept ?_ (by simp))
      · intro l
        cases l with
        | none => exact nodup.2
        | some q => exact between.lists.nodup (some q)
      · intro l u
        cases l with
        | none =>
          by_cases same : u = next
          · subst same
            simp [State.list,State.setStatus,State.record,nodup.1]
          · simp [State.list,State.setStatus,State.record,first,same]
        | some q =>
          by_cases same : u = next
          · subst same
            simp [State.list,State.setStatus,State.record,alone q]
          · simp [State.list,State.setStatus,State.record,same]
      · simp
      · simp
      · simp
      · rw [between.lists.all.2,ready]
        simp
    · exact between.policy
    · exact between.registered
    · exact between.idler
    · exact fun none => between.initial (update_none none)
    · have fifo := between.fifo
      rw [first] at fifo
      simpa [State.record,State.setStatus,enqueued,dequeued] using fifo
    · simpa [State.record,State.setStatus,created,exited] using between.lives
    · simpa [State.record,State.setStatus] using between.safe
  · exact between.halted
  · simp [State.record,ready]
  · exact between.dying
  · intro unset
    have here := between.started unset
    simpa [first,eq_comm,State.record] using here
  · have runs := between.runs
    simp only [ran,chosen] at runs
    simp [State.record,ran,chosen,runs]
  · have frees : freed (s.log ++ [Action.dequeue next]) = freed s.log := by simp [freed]
    have exits : exited (s.log ++ [Action.dequeue next]) = exited s.log := by simp [exited]
    simp only [State.record,frees,exits]
    exact between.leaving

theorem Between.chooseIdle (between : Between s) (empty : s.ready = []) (idle : s.idleThread = some next)
    (alive : s.status next ≠ some .dying) : Chosen (s.record (.idle next)) next := by
  have same := between.registered next idle
  have present : next ∈ s.all := same ▸ between.idler
  have nowhere (l : Option Q) : next ∉ s.list l := by
    intro member
    cases l with
    | none => simp [State.list,empty] at member
    | some q => exact (between.lists.waiting next q member).2 same
  constructor
  · constructor
    · exact between.lists.restatus next (some .running) nowhere rfl rfl rfl rfl (by simp) (between.lists.kept present (by simp))
    · exact between.policy
    · exact between.registered
    · exact between.idler
    · exact fun none => between.initial (update_none none)
    · simpa [State.record,State.setStatus,enqueued,dequeued] using between.fifo
    · simpa [State.record,State.setStatus,created,exited] using between.lives
    · simpa [State.record,State.setStatus] using between.safe
  · exact between.halted
  · exact alive
  · exact between.dying
  · exact fun unset => Or.inr (between.started unset)
  · have runs := between.runs
    simp only [ran,chosen] at runs
    simp [State.record,ran,chosen,runs]
  · have frees : freed (s.log ++ [Action.idle next]) = freed s.log := by simp [freed]
    have exits : exited (s.log ++ [Action.idle next]) = exited s.log := by simp [exited]
    simp only [State.record,frees,exits]
    exact between.leaving

/-- There is always a thread to choose. -/
theorem Between.choose (between : Between s) :
    ∃ next s', threadScheduleFifo s = (some next,s') ∧ Chosen s' next ∧ s'.cpu = s.cpu ∧ s'.status = s.status ∧ next ∈ s.all := by
  cases first : s.ready with
  | cons next rest =>
    refine ⟨next,_,by simp [threadScheduleFifo,first],between.chooseFirst first,rfl,rfl,?_⟩
    have ready := between.lists.ready next (by simp [State.list,first])
    rw [between.lists.all.2,ready]
    simp
  | nil =>
    cases idle : s.idleThread with
    | none =>
      have here := between.started idle
      rw [first] at here
      exact absurd here List.not_mem_nil
    | some next =>
      have present : next ∈ s.all := between.registered next idle ▸ between.idler
      exact ⟨next,_,by simp [threadScheduleFifo,first,idle],
        between.chooseIdle first idle ((between.lists.all.2 next).mp present).2,rfl,rfl,present⟩

theorem Between.schedule (between : Between s) : ∃ s', schedule s = some s' ∧ Inv s' := by
  obtain ⟨next,s',chose,picked,cpu,status,present⟩ := between.choose
  have halted : s'.status s'.cpu ≠ some .running := picked.halted _
  have thread : isThread s' next = true := by
    rw [isThread,status,Option.isSome_iff_ne_none]
    exact ((between.lists.all.2 next).mp present).1
  by_cases different : s'.cpu = next
  · subst different
    obtain ⟨result,ran,inv⟩ := picked.stay
    exact ⟨result,by simp [Scheduler.schedule,nextThreadToRun,between.policy,chose,halted,thread,ran],inv⟩
  · obtain ⟨result,ran,inv⟩ := picked.switch different
    refine ⟨result,?_,inv⟩
    simp [Scheduler.schedule,nextThreadToRun,between.policy,chose,halted,thread,different,switchThreads,ran]

end

end OsProj.Scheduler
