import OsProj.IntQueueBytes

/-! Threads that sleep for the lock of the interrupt queue. `intq_getc` and `intq_putc` do not test
their loop again between `lock_acquire` and `wait`, so what the assertion in `wait` needs is that
the calls that returned meanwhile have put as many bytes as they took. -/
namespace OsProj.IntQueue

open OsProj.Synch

section
variable {Tid : Type} {s s' : State Tid} {call call' : Call}

def Call.level : Call → Nat
  | .getc => 0
  | .putc _ => intqBufsize - 1

theorem met_iff (bounds : s.head < intqBufsize ∧ s.tail < intqBufsize) (call : Call) :
    Met s call.waiter ↔ stored s ≠ call.level := by
  cases call with
  | getc =>
    change ¬s.head = s.tail ↔ stored s ≠ 0
    unfold stored intqBufsize at *
    omega
  | putc byte =>
    change ¬next s.head = s.tail ↔ stored s ≠ intqBufsize - 1
    unfold stored next intqBufsize at *
    omega

theorem contents_length (s : State Tid) : (contents s).length = stored s := by simp [contents]

theorem Passes.stored {r : Result} (passes : Passes s r s') :
    stored s + (putBytes r).length = (gotBytes r).length + stored s' := by
  have lengths := congrArg List.length passes.passed
  simpa only [List.length_append,contents_length] using lengths

variable [DecidableEq Tid]

def replayed : List (Event Tid) → Option (State Tid)
  | [] => some intqInit
  | e :: h => (replayed h).bind (perform e)

theorem run_replayed (run : History.Path Step [] (some (intqInit : State Tid)) h r) : replayed h = r := by
  induction run with
  | refl => rfl
  | snoc _ last ih =>
    cases last with
    | event _ => rw [replayed,ih,Option.bind_some]

/-- How many bytes calls have put, or got, since the thread went to sleep for the lock. -/
def sinceAsleep (bytes : Result → List UInt8) (t : Tid) : List (Event Tid) → Nat
  | [] => 0
  | e :: h =>
    match replayed h with
    | none => 0
    | some s =>
      match s.pc t with
      | .locking _ => sinceAsleep bytes t h + (bytes (returned e s)).length
      | _ => 0

/-- A thread gets the lock it slept for only when as many bytes have been put since it went to sleep as have
been got. -/
def Balanced (h : List (Event Tid)) (r : Option (State Tid)) : Event Tid → Prop
  | .run t => ∀ s call, r = some s → s.pc t = .locking call → s.lock.value ≠ 0 →
    sinceAsleep putBytes t h = sinceAsleep gotBytes t h
  | _ => True

/-- Who is asleep for the lock after an attempt has found the queue as it must be to wait. -/
theorem attempt_asleep (ran : attempt t call s = some s') (asleep : s'.pc t = .locking call') :
    call' = call ∧ ¬Met s call.waiter := by
  unfold attempt at ran
  split at ran
  · obtain ⟨_,_,rfl⟩ := Option.map_eq_some_iff.mp ran
    simp [State.goto] at asleep
  · rename_i unmet
    refine ⟨?_,unmet⟩
    split at ran
    · cases ran
    · obtain ⟨_,pc,inside,moved⟩ := lockAcquire_kept ran
      rw [moved,Function.update_self] at asleep
      rcases inside with rfl | rfl
      · exact (Pc.locking.inj asleep).symm
      · cases asleep

theorem attempt_other (inv : Inv s) (ran : attempt t call s = some s') (other : u ≠ t) : s'.pc u = s.pc u := by
  obtain ⟨_,pc,_,moved⟩ := attempt_passes inv.bounds ran
  rw [moved,Function.update_of_ne other]

/-- A thread that is asleep for the lock was so before, or has just tested its loop and no call has returned. -/
theorem perform_asleep (inv : Inv s) (allowed : Allowed s e) (ran : perform e s = some s')
    (asleep : s'.pc t = .locking call) :
    s.pc t = .locking call ∨
      (∀ call, s.pc t ≠ .locking call) ∧ ¬Met s call.waiter ∧ returned e s = none := by
  cases e with
  | call u made =>
    have idle : s.pc u = .outside := allowed
    by_cases his : t = u
    · subst his
      obtain ⟨rfl,unmet⟩ := attempt_asleep ran asleep
      exact .inr ⟨by simp [idle],unmet,if_neg unmet⟩
    · exact .inl ((attempt_other inv ran his).symm.trans asleep)
  | run u =>
    simp only [perform,proceed] at ran
    cases here : s.pc u with
    | outside => exact absurd here allowed.1
    | locking made =>
      rw [here] at ran
      obtain ⟨_,pc,inside,moved⟩ := lockAcquire_kept ran
      rw [moved] at asleep
      by_cases his : t = u
      · subst his
        rw [Function.update_self] at asleep
        rcases inside with rfl | rfl
        · exact .inl (here.trans asleep)
        · cases asleep
      · rw [Function.update_of_ne his] at asleep
        exact .inl asleep
    | waiting made =>
      rw [here] at ran
      obtain ⟨s₁,released,back⟩ := inv.release here allowed.2
      obtain ⟨same,kept,_⟩ := lockRelease_kept released
      simp only [released,Option.bind_some] at ran
      by_cases his : t = u
      · subst his
        obtain ⟨rfl,unmet⟩ := attempt_asleep ran asleep
        have moved : SameQueue s (s₁.goto t .outside) := ⟨same.buf,same.head,same.tail⟩
        refine .inr ⟨by simp [here],mt moved.met.mpr unmet,?_⟩
        simp only [returned,here,released,Option.bind_some]
        exact if_neg unmet
      · have still : s'.pc t = (s₁.goto u .outside).pc t := attempt_other back ran his
        rw [still,State.goto] at asleep
        simp only [Function.update_of_ne his] at asleep
        exact .inl (kept ▸ asleep)
  | interrupt made =>
    have met : Met s made.waiter := allowed
    simp only [perform,handle,if_pos met] at ran
    obtain ⟨⟨byte,s₁⟩,done,rfl⟩ := Option.map_eq_some_iff.mp ran
    rw [(finish_passes inv.bounds met done).2] at asleep
    exact .inl asleep

/-- Since a thread went to sleep, the queue has changed by what has been put and got. -/
def Counted (h : List (Event Tid)) (r : Option (State Tid)) : Prop :=
  ∀ s, r = some s → ∀ t call, s.pc t = .locking call →
    stored s + sinceAsleep gotBytes t h = call.level + sinceAsleep putBytes t h

theorem run_counted (run : History.Path Step [] (some (intqInit : State Tid)) h r) : Counted h r := by
  induction run with
  | refl =>
    intro s start t call asleep
    cases start
    cases asleep
  | @snoc h r e r' front last ih =>
    intro s' reached t call asleep
    cases last with
    | @event s _ _ allowed =>
      have inv := run_inv front s rfl
      have before := run_replayed front
      have passes := perform_passes inv reached
      have change := passes.stored
      rcases perform_asleep inv allowed reached asleep with still | ⟨awake,unmet,nothing⟩
      · have counted := ih s rfl t call still
        simp only [sinceAsleep,before,still]
        omega
      · have level : stored s = call.level := by
          by_contra other
          exact unmet ((met_iff inv.bounds call).mpr other)
        rw [nothing] at change
        simp only [putBytes,gotBytes,List.length_nil] at change
        have zero (bytes : Result → List UInt8) : sinceAsleep bytes t (e :: h) = 0 := by
          simp only [sinceAsleep,before]
        rw [zero,zero]
        omega

/-- What is asked of the calls that returned is what `wait` asserts of the queue. -/
theorem current_iff (run : History.Path Step [] (some (intqInit : State Tid)) h (some s)) :
    Current s e ↔ Balanced h (some s) e := by
  have inv := run_inv run s rfl
  cases e with
  | run t =>
    have same (call : Call) (asleep : s.pc t = .locking call) :
        ¬Met s call.waiter ↔ sinceAsleep putBytes t h = sinceAsleep gotBytes t h := by
      have counted := run_counted run s rfl t call asleep
      rw [met_iff inv.bounds call]
      omega
    constructor
    · intro current _ call here asleep free
      cases here
      exact (same call asleep).mp (current call asleep free)
    · intro balanced call asleep free
      exact (same call asleep).mpr (balanced s call rfl asleep free)
  | call _ _ => exact Iff.rfl
  | interrupt _ => exact Iff.rfl

theorem balanced_run (run : History.Path (History.Guarded Step StaysCurrent) [] (some (intqInit : State Tid)) h r) :
    History.Path (History.Guarded Step Balanced) [] (some (intqInit : State Tid)) h r := by
  induction run with
  | refl => exact .refl
  | snoc front last ih =>
    obtain ⟨taken,current⟩ := last
    cases taken with
    | event allowed => exact .snoc ih ⟨.event allowed,(current_iff front.unguarded).mp (current _ rfl)⟩

theorem current_run (run : History.Path (History.Guarded Step Balanced) [] (some (intqInit : State Tid)) h r) :
    History.Path (History.Guarded Step StaysCurrent) [] (some (intqInit : State Tid)) h r := by
  induction run with
  | refl => exact .refl
  | snoc front last ih =>
    obtain ⟨taken,balanced⟩ := last
    cases taken with
    | event allowed =>
      refine .snoc ih ⟨.event allowed,?_⟩
      rintro _ ⟨⟩
      exact (current_iff front.unguarded).mpr balanced

/-- A run fails no assertion, with the one thread that is blocked in `wait` for each condition the one
recorded, exactly when each thread that gets the lock it slept for does so after as many bytes have been put
as got since it went to sleep. -/
theorem intq_safe_iff (run : History.Path Step [] (some (intqInit : State Tid)) h r) :
    (∃ s, r = some s ∧ ∀ w t, s.waiter w = some t ↔
      s.status t = .blocked ∧ ∃ call, s.pc t = .waiting call ∧ call.waiter = w) ↔
    History.Path (History.Guarded Step Balanced) [] (some (intqInit : State Tid)) h r :=
  (safe_iff_current run).trans ⟨balanced_run,current_run⟩

end

/-- Two threads get from the empty queue, so that one waits and the other sleeps for the lock. A
handler puts the bytes, the first thread takes one and releases the lock. -/
def twoReaders (bytes : List UInt8) : List (Event (Fin 2)) :=
  [.call 0 .getc,.call 1 .getc] ++ bytes.map (fun byte => .interrupt (.putc byte)) ++ [.run 0]

def reached (events : List (Event (Fin 2))) : List (Event (Fin 2)) × Option (State (Fin 2)) :=
  History.arrive operate (fun _ _ _ => True) (some intqInit) events

theorem reached_run (events : List (Event (Fin 2)))
    (handled : (History.replay operate (fun _ _ _ => True) events ([],some intqInit)).isSome = true) :
    History.Path Step [] (some intqInit) (reached events).1 (reached events).2 :=
  History.arrive_path (fun _ _ _ _ _ ran _ => operate_step ran) handled

/-- The second thread gets the lock after one byte has come and gone, and waits in its turn. -/
theorem intq_safe_iff_one :
    let slept := (reached (twoReaders [10])).1
    (sinceAsleep putBytes 1 slept = 1 ∧ sinceAsleep gotBytes 1 slept = 1) ∧
      ∃ s, (reached (twoReaders [10] ++ [.run 1])).2 = some s ∧ ∀ w t, s.waiter w = some t ↔
        s.status t = .blocked ∧ ∃ call, s.pc t = .waiting call ∧ call.waiter = w := by
  have run := reached_run (twoReaders [10] ++ [.run 1]) (by decide)
  exact ⟨by decide,(intq_safe_iff run).mpr (balanced_run (run_current run (by decide)))⟩

/-- Two bytes come and one goes: the second thread gets the lock while a byte is in the queue. -/
theorem second_reader_fails_assertion :
    let slept := (reached (twoReaders [10,11])).1
    (sinceAsleep putBytes 1 slept = 2 ∧ sinceAsleep gotBytes 1 slept = 1) ∧
      ∃ h, History.Path Step [] (some (intqInit : State (Fin 2))) h none := by
  have run := reached_run (twoReaders [10,11] ++ [.run 1]) (by decide)
  have failed : (reached (twoReaders [10,11] ++ [.run 1])).2 = none := by decide
  rw [failed] at run
  exact ⟨by decide,_,run⟩

end OsProj.IntQueue
