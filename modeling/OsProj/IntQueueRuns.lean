import OsProj.IntQueue

/-! At most one thread waits for the interrupt queue, and the only assertion that can fail is that
of `wait` when a thread gets the lock it slept for and the queue has changed. -/
namespace OsProj.IntQueue

open OsProj.Synch

section
variable {Tid : Type} {s s' : State Tid}

structure Inv (s : State Tid) : Prop where
  bounds : s.head < intqBufsize ∧ s.tail < intqBufsize
  lock : s.lock.value = if s.holder = none then 1 else 0
  holder : ∀ t, s.holder = some t ↔ ∃ call, s.pc t = .waiting call
  queued : Queued s.lock s.status fun t => ∃ call, s.pc t = .locking call
  waiter : ∀ w t, s.waiter w = some t ↔ s.status t = .blocked ∧ ∃ call, s.pc t = .waiting call ∧ call.waiter = w
  outside : ∀ t, s.pc t = .outside → s.status t = .ready

theorem init_inv : Inv (intqInit : State Tid) where
  bounds := by simp [intqInit,intqBufsize]
  lock := rfl
  holder := by simp [intqInit]
  queued := queued_init (by simp [intqInit])
  waiter := by simp [intqInit]
  outside := by simp [intqInit]

theorem next_lt (pos : Nat) : next pos < intqBufsize := Nat.mod_lt _ (by decide)

theorem next_inj (left : a < intqBufsize) (right : b < intqBufsize) (same : next a = next b) : a = b := by
  simp only [next,intqBufsize] at *
  omega

/-- Nobody waits while the lock is free. -/
theorem Inv.nobody (inv : Inv s) (free : s.holder = none) (t : Tid) (call : Call) : s.pc t ≠ .waiting call := by
  intro waits
  have held := (inv.holder t).mpr ⟨call,waits⟩
  simp [free] at held

theorem Inv.unrecorded (inv : Inv s) (free : s.holder = none) (w : Waiter) : s.waiter w = none := by
  cases recorded : s.waiter w with
  | none => rfl
  | some t =>
    obtain ⟨_,call,waits,_⟩ := (inv.waiter w t).mp recorded
    exact absurd waits (inv.nobody free t call)

theorem Inv.free_iff (inv : Inv s) : s.lock.value ≠ 0 ↔ s.holder = none := by
  rw [inv.lock]
  split <;> simp_all

theorem transfer_met (inv : Inv s) (met : Met s call.waiter) : Met (transfer call s).2 call.signals := by
  cases call with
  | getc =>
    intro full
    exact met (next_inj inv.bounds.1 inv.bounds.2 full)
  | putc byte => exact met

theorem Inv.transfer (inv : Inv s) (call : Call) : Inv (transfer call s).2 := by
  cases call with
  | getc => exact ⟨⟨inv.bounds.1,next_lt _⟩,inv.lock,inv.holder,inv.queued,inv.waiter,inv.outside⟩
  | putc byte => exact ⟨⟨next_lt _,inv.bounds.2⟩,inv.lock,inv.holder,inv.queued,inv.waiter,inv.outside⟩

variable [DecidableEq Tid]

theorem Inv.signal (inv : Inv s) (met : Met s w) : ∃ s', signal w s = some s' ∧ Inv s' ∧ s'.pc = s.pc := by
  cases recorded : s.waiter w with
  | none => exact ⟨s,by simp [IntQueue.signal,met,recorded],inv,rfl⟩
  | some t =>
    obtain ⟨blocked,call,waits,here⟩ := (inv.waiter w t).mp recorded
    refine ⟨{ s with status := Function.update s.status t .ready, waiter := Function.update s.waiter w none },?_,?_,rfl⟩
    · simp [IntQueue.signal,met,recorded,threadUnblock,blocked]
    refine ⟨inv.bounds,inv.lock,inv.holder,?_,?_,?_⟩
    · refine inv.queued.congr fun u => ?_
      by_cases same : u = t
      · subst same
        simp [waits]
      · simp [same]
    · intro v u
      by_cases same : u = t
      · subst same
        by_cases his : v = w
        · subst his
          simp
        · have other : s.waiter v ≠ some u := by
            intro also
            obtain ⟨_,call',waits',there⟩ := (inv.waiter v u).mp also
            rw [waits] at waits'
            cases waits'
            exact his (there.symm.trans here)
          simp [his,other]
      · by_cases his : v = w
        · subst his
          have other : ¬(s.status u = .blocked ∧ ∃ call, s.pc u = .waiting call ∧ call.waiter = v) := by
            rw [← inv.waiter v u,recorded]
            simp [Ne.symm same]
          simpa [same] using other
        · simpa [same,his] using inv.waiter v u
    · intro u out
      by_cases same : u = t
      · subst same
        simp
      · simpa [same] using inv.outside u out

theorem Inv.finish (inv : Inv s) (met : Met s call.waiter) :
    ∃ byte s', finish call s = some (byte,s') ∧ Inv s' ∧ s'.pc = s.pc := by
  obtain ⟨s',done,inv',same⟩ := (inv.transfer call).signal (transfer_met inv met)
  refine ⟨_,s',by rw [IntQueue.finish,done]; rfl,inv',same.trans ?_⟩
  cases call <;> rfl

/-- The thread gets the lock and waits, if the queue is as it must be. -/
theorem Inv.acquired (inv : Inv s) (ready : s.status t = .ready) (free : s.lock.value ≠ 0) (unmet : ¬Met s call.waiter) :
    ∃ s', lockAcquire t call s = some s' ∧ Inv s' := by
  have open' := inv.free_iff.mp free
  have one : s.lock.value = 1 := by rw [inv.lock,if_pos open']
  have same (w : Waiter) : Met { s with lock := { s.lock with value := s.lock.value - 1 }, holder := some t } w ↔ Met s w := by
    cases w <;> rfl
  refine ⟨State.goto { s with lock := { s.lock with value := s.lock.value - 1 }, holder := some t,
                              waiter := Function.update s.waiter call.waiter (some t),
                              status := Function.update s.status t .blocked } t (.waiting call),?_,?_⟩
  · simp only [lockAcquire,semaDown_pos free,wait]
    exact if_neg (mt (same _).mp unmet)
  refine ⟨inv.bounds,?_,?_,?_,?_,?_⟩
  · simp [State.goto,one]
  · intro u
    by_cases his : u = t
    · subst his
      simp [State.goto]
    · simp [State.goto,his,Ne.symm his,inv.nobody open' u]
  · refine inv.queued.congr fun u => ?_
    by_cases his : u = t
    · subst his
      simp [State.goto,ready]
    · simp [State.goto,his]
  · intro w u
    by_cases his : u = t
    · subst his
      by_cases mine : w = call.waiter
      · subst mine
        simp [State.goto]
      · simp [State.goto,mine,Ne.symm mine,inv.unrecorded open' w]
    · by_cases mine : w = call.waiter
      · subst mine
        simp [State.goto,his,Ne.symm his,inv.nobody open' u]
      · simp [State.goto,his,mine,inv.unrecorded open' w,inv.nobody open' u]
  · intro u out
    by_cases his : u = t
    · subst his
      simp [State.goto] at out
    · simp only [State.goto,Function.update_of_ne his] at out ⊢
      exact inv.outside u out

/-- The thread goes to sleep for the lock. -/
theorem Inv.sleeps (inv : Inv s) (call : Call) (ready : s.status t = .ready) (taken : s.lock.value = 0)
    (apart : ∀ call, s.pc t ≠ .waiting call) : ∃ s', lockAcquire t call s = some s' ∧ Inv s' := by
  refine ⟨State.goto { s with lock := { s.lock with waiters := s.lock.waiters ++ [t] },
                              status := Function.update s.status t .blocked } t (.locking call),?_,?_⟩
  · simp only [lockAcquire,semaDown_zero taken]
  refine ⟨inv.bounds,inv.lock,?_,?_,?_,?_⟩
  · intro u
    have before := inv.holder u
    by_cases his : u = t
    · subst his
      simpa [State.goto,apart] using before
    · simpa [State.goto,his] using before
  · refine inv.queued.push ready ⟨call,by simp [State.goto]⟩ fun u other => ?_
    simp [State.goto,other]
  · intro w u
    have before := inv.waiter w u
    by_cases his : u = t
    · subst his
      simpa [State.goto,apart] using before
    · simpa [State.goto,his] using before
  · intro u out
    by_cases his : u = t
    · subst his
      simp [State.goto] at out
    · simp only [State.goto,Function.update_of_ne his] at out ⊢
      exact inv.outside u out

theorem Inv.attempt (inv : Inv s) (idle : s.pc t = .outside) (call : Call) : ∃ s', attempt t call s = some s' ∧ Inv s' := by
  have ready := inv.outside t idle
  by_cases met : Met s call.waiter
  · obtain ⟨byte,s',done,inv',same⟩ := inv.finish met
    refine ⟨s',?_,inv'⟩
    have back : s'.goto t .outside = s' := by
      rw [State.goto,Function.update_eq_self_iff.mpr (by rw [same,idle])]
    simp [IntQueue.attempt,met,done,back]
  · have other : s.holder ≠ some t := by simp [inv.holder t,idle]
    by_cases taken : s.lock.value = 0
    · obtain ⟨s',done,inv'⟩ := inv.sleeps call ready taken (by simp [idle])
      exact ⟨s',by simp [IntQueue.attempt,met,other,done],inv'⟩
    · obtain ⟨s',done,inv'⟩ := inv.acquired ready taken met
      exact ⟨s',by simp [IntQueue.attempt,met,other,done],inv'⟩

/-- The thread comes back from `wait`, and stands before the test of its loop as after the call. -/
theorem Inv.release (inv : Inv s) (waits : s.pc t = .waiting call) (ready : s.status t = .ready) :
    ∃ s', lockRelease t s = some s' ∧ Inv (s'.goto t .outside) := by
  have mine := (inv.holder t).mpr ⟨call,waits⟩
  have zero : s.lock.value = 0 := by simp [inv.lock,mine]
  have one : (s.lock.value + 1) % unsignedValues = 1 := by rw [zero]; rfl
  have others (u : Tid) (his : u ≠ t) (call : Call) : s.pc u ≠ .waiting call := by
    intro also
    have held := (inv.holder u).mpr ⟨call,also⟩
    rw [mine] at held
    exact his (Option.some.inj held).symm
  have unrecorded (w : Waiter) : s.waiter w = none := by
    cases recorded : s.waiter w with
    | none => rfl
    | some u =>
      obtain ⟨blocked,call',also,_⟩ := (inv.waiter w u).mp recorded
      by_cases his : u = t
      · subst his
        simp [ready] at blocked
      · exact absurd also (others u his call')
  -- The first thread that sleeps for the lock, if there is one, is unblocked and tests again.
  obtain ⟨lock,status,raised,value,woken,queued⟩ : ∃ lock status, semaUp s.lock s.status = some (lock,status) ∧ lock.value = 1 ∧
      (∀ u, status u = s.status u ∨ status u = .ready ∧ ∃ call, s.pc u = .locking call) ∧
      Queued lock status fun u => ∃ call, s.pc u = .locking call := by
    rcases inv.queued.up with ⟨empty,raised⟩ | ⟨first,rest,_,inside,_,raised,queued⟩
    · exact ⟨_,_,raised,one,fun u => Or.inl rfl,inv.queued.congr fun u => Iff.rfl⟩
    · refine ⟨_,_,raised,one,fun u => ?_,queued⟩
      by_cases his : u = first
      · subst his
        exact Or.inr ⟨by simp,inside⟩
      · exact Or.inl (by simp [his])
  refine ⟨{ s with lock := lock, status := status, holder := none },by simp [lockRelease,mine,raised],?_⟩
  refine ⟨inv.bounds,value,?_,?_,?_,?_⟩
  · intro u
    by_cases his : u = t
    · subst his
      simp [State.goto]
    · simp [State.goto,his,others u his]
  · refine queued.congr fun u => ?_
    by_cases his : u = t
    · subst his
      simp [State.goto,waits]
    · simp [State.goto,his]
  · intro w u
    by_cases his : u = t
    · subst his
      simp [State.goto,unrecorded]
    · simp [State.goto,unrecorded,his,others u his]
  · intro u out
    rcases woken u with same | ⟨ready',_⟩
    · simp only [State.goto,same]
      by_cases his : u = t
      · subst his
        exact ready
      · simp only [State.goto,Function.update_of_ne his] at out
        exact inv.outside u out
    · exact ready'

/-- A thread that runs on fails an assertion exactly when it gets the lock it slept for and the
queue has changed. -/
theorem Inv.proceed (inv : Inv s) (allowed : Allowed s (.run t)) :
    proceed t s = none ∧ ¬Current s (.run t) ∨ ∃ s', proceed t s = some s' ∧ Inv s' ∧ Current s (.run t) := by
  obtain ⟨inside,ready⟩ := allowed
  cases here : s.pc t with
  | outside => exact absurd here inside
  | locking call =>
    by_cases taken : s.lock.value = 0
    · obtain ⟨s',done,inv'⟩ := inv.sleeps call ready taken (by simp [here])
      exact Or.inr ⟨s',by simp [IntQueue.proceed,here,done],inv',fun _ _ free => absurd taken free⟩
    · by_cases met : Met s call.waiter
      · refine Or.inl ⟨?_,fun current => current call here taken met⟩
        have same : Met { s with lock := { s.lock with value := s.lock.value - 1 }, holder := some t } call.waiter := by
          cases call <;> exact met
        simp only [IntQueue.proceed,here,lockAcquire,semaDown_pos taken,wait]
        exact if_pos same
      · obtain ⟨s',done,inv'⟩ := inv.acquired ready taken met
        refine Or.inr ⟨s',by simp [IntQueue.proceed,here,done],inv',fun call' there _ => ?_⟩
        rw [here] at there
        cases there
        exact met
  | waiting call =>
    obtain ⟨s₁,released,back⟩ := inv.release here ready
    obtain ⟨s',done,inv'⟩ := back.attempt (t := t) (by simp [State.goto]) call
    refine Or.inr ⟨s',by simp [IntQueue.proceed,here,released,done],inv',fun call' there => ?_⟩
    rw [here] at there
    contradiction

theorem Inv.perform (inv : Inv s) (allowed : Allowed s e) :
    perform e s = none ∧ ¬Current s e ∨ ∃ s', perform e s = some s' ∧ Inv s' ∧ Current s e := by
  cases e with
  | call t call =>
    obtain ⟨s',done,inv'⟩ := inv.attempt allowed call
    exact Or.inr ⟨s',done,inv',trivial⟩
  | run t => exact inv.proceed allowed
  | interrupt call =>
    obtain ⟨byte,s',done,inv',_⟩ := inv.finish allowed
    refine Or.inr ⟨s',?_,inv',trivial⟩
    have met : Met s call.waiter := allowed
    simp [IntQueue.perform,handle,met,done]

theorem run_inv (run : History.Path Step [] (some (intqInit : State Tid)) h r) : ∀ s, r = some s → Inv s := by
  refine run.invariant (fun _ r => ∀ s, r = some s → Inv s) ?_ (by rintro s ⟨⟩; exact init_inv)
  intro h r e r' before taken s' reached
  cases taken with
  | event allowed =>
    rcases (before _ rfl).perform allowed with ⟨failed,_⟩ | ⟨_,done,inv,_⟩
    · rw [failed] at reached
      contradiction
    · rw [done] at reached
      cases reached
      exact inv

/-- The steps of a run that has failed no assertion. -/
theorem run_current (run : History.Path Step [] (some (intqInit : State Tid)) h r) :
    r ≠ none → History.Path (History.Guarded Step StaysCurrent) [] (some (intqInit : State Tid)) h r := by
  induction run with
  | refl => exact fun _ => .refl
  | snoc front last ih =>
    intro reached
    cases last with
    | event allowed =>
      refine .snoc (ih (by simp)) ⟨.event allowed,?_⟩
      rintro _ ⟨⟩
      rcases (run_inv front _ rfl).perform allowed with ⟨failed,_⟩ | ⟨_,_,_,current⟩
      · exact absurd failed reached
      · exact current

theorem current_reached (run : History.Path (History.Guarded Step StaysCurrent) [] (some (intqInit : State Tid)) h r) :
    ∃ s, r = some s ∧ Inv s := by
  refine run.invariant (fun _ r => ∃ s, r = some s ∧ Inv s) ?_ ⟨_,rfl,init_inv⟩
  rintro h _ e r' ⟨s,rfl,inv⟩ ⟨taken,current⟩
  cases taken with
  | event allowed =>
    rcases inv.perform allowed with ⟨_,stale⟩ | ⟨s',done,inv',_⟩
    · exact absurd (current s rfl) stale
    · exact ⟨s',done,inv'⟩

/-- A run fails no assertion, with the one thread that is blocked in `wait` for each condition the
one recorded, exactly when all its steps are such that a thread that gets the lock it slept for
finds the queue empty, or full, as it was when it went to sleep. -/
theorem safe_iff_current (run : History.Path Step [] (some (intqInit : State Tid)) h r) :
    (∃ s, r = some s ∧ ∀ w t, s.waiter w = some t ↔
      s.status t = .blocked ∧ ∃ call, s.pc t = .waiting call ∧ call.waiter = w) ↔
    History.Path (History.Guarded Step StaysCurrent) [] (some (intqInit : State Tid)) h r := by
  constructor
  · rintro ⟨s,rfl,_⟩
    exact run_current run (by simp)
  · intro steady
    obtain ⟨s,reached,inv⟩ := current_reached steady
    exact ⟨s,reached,inv.waiter⟩

end

end OsProj.IntQueue
