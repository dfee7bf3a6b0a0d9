import OsProj.IntQueueRuns

/-! The interrupt queue as a bounded queue of bytes. One kernel thread calls it and handlers
call it between the thread's steps; whatever has been put and not taken yet is in the buffer,
from the tail to the head. -/
namespace OsProj.IntQueue

open OsProj.Synch

section
variable {Tid : Type}

def stored (s : State Tid) : Nat := (s.head + intqBufsize - s.tail) % intqBufsize

def contents (s : State Tid) : List UInt8 := (List.range (stored s)).map fun i => s.buf ((s.tail + i) % intqBufsize)

abbrev Result := Option (Call × UInt8)

def putBytes : Result → List UInt8
  | some (.putc _,byte) => [byte]
  | _ => []

def gotBytes : Result → List UInt8
  | some (.getc,byte) => [byte]
  | _ => []

variable [DecidableEq Tid]

/-- What `attempt` and `handle` leave out of what they get from `finish`. -/
def completes (call : Call) (s : State Tid) : Result :=
  if Met s call.waiter then (finish call s).map fun (byte,_) => (call,byte) else none

def returned (e : Event Tid) (s : State Tid) : Result :=
  match e with
  | .call _ call => completes call s
  | .run t =>
    match s.pc t with
    | .waiting call => (lockRelease t s).bind fun s => completes call (s.goto t .outside)
    | _ => none
  | .interrupt call => completes call s

def OneThread (t : Tid) : Event Tid → Prop
  | .call u _ => u = t
  | .run u => u = t
  | .interrupt _ => True

/-- Runs with one kernel thread; `puts` and `gets` are the bytes of the calls that have returned. -/
inductive Logged (t : Tid) : State Tid → List UInt8 → List UInt8 → Prop
  | init : Logged t intqInit [] []
  | step (before : Logged t s puts gets) (one : OneThread t e) (allowed : Allowed s e) (ran : perform e s = some s') :
      Logged t s' (puts ++ putBytes (returned e s)) (gets ++ gotBytes (returned e s))

end

section
variable {Tid : Type} {s s' : State Tid}

theorem stored_lt (s : State Tid) : stored s < intqBufsize := Nat.mod_lt _ (by decide)

theorem transfer_contents (bounds : s.head < intqBufsize ∧ s.tail < intqBufsize) (met : Met s call.waiter) :
    contents s ++ putBytes (some (call,(transfer call s).1)) =
      gotBytes (some (call,(transfer call s).1)) ++ contents (transfer call s).2 := by
  obtain ⟨headIn,tailIn⟩ := bounds
  cases call with
  | getc =>
    have some_ : stored s = stored (transfer .getc s).2 + 1 := by
      change ¬s.head = s.tail at met
      change (s.head + intqBufsize - s.tail) % intqBufsize = (s.head + intqBufsize - next s.tail) % intqBufsize + 1
      unfold next intqBufsize at *
      omega
    change contents s ++ [] = s.buf s.tail :: contents (transfer .getc s).2
    unfold contents
    rw [some_,List.range_succ_eq_map,List.map_cons,List.map_map,List.append_nil,Nat.add_zero,Nat.mod_eq_of_lt tailIn]
    congr 1
    apply List.map_congr_left
    intro i _
    change s.buf ((s.tail + (i + 1)) % intqBufsize) = s.buf ((next s.tail + i) % intqBufsize)
    congr 1
    unfold next intqBufsize
    omega
  | putc byte =>
    have more : stored (transfer (.putc byte) s).2 = stored s + 1 := by
      change ¬next s.head = s.tail at met
      change (next s.head + intqBufsize - s.tail) % intqBufsize = (s.head + intqBufsize - s.tail) % intqBufsize + 1
      unfold next intqBufsize at *
      omega
    change contents s ++ [byte] = contents (transfer (.putc byte) s).2
    unfold contents
    rw [more,List.range_succ,List.map_append,List.map_singleton]
    have full := stored_lt s
    have place : (s.tail + stored s) % intqBufsize = s.head := by
      unfold stored intqBufsize at *
      omega
    congr 1
    · apply List.map_congr_left
      intro i inside
      have early := List.mem_range.mp inside
      change s.buf ((s.tail + i) % intqBufsize) = Function.update s.buf s.head byte ((s.tail + i) % intqBufsize)
      rw [Function.update_of_ne]
      unfold stored intqBufsize at *
      omega
    · change [byte] = [Function.update s.buf s.head byte ((s.tail + stored s) % intqBufsize)]
      rw [place,Function.update_self]

structure SameQueue (s s' : State Tid) : Prop where
  buf : s'.buf = s.buf
  head : s'.head = s.head
  tail : s'.tail = s.tail

theorem SameQueue.contents (same : SameQueue s s') : contents s' = contents s := by
  unfold IntQueue.contents stored
  rw [same.buf,same.head,same.tail]

theorem SameQueue.met (same : SameQueue s s') : Met s' w ↔ Met s w := by
  cases w
  · change ¬s'.head = s'.tail ↔ ¬s.head = s.tail
    rw [same.head,same.tail]
  · change ¬next s'.head = s'.tail ↔ ¬next s.head = s.tail
    rw [same.head,same.tail]

structure Fifo (t : Tid) (s : State Tid) (puts gets : List UInt8) : Prop where
  inv : Inv s
  alone : ∀ u, s.pc u ≠ .outside → u = t
  unlocked : ∀ u call, s.pc u ≠ .locking call
  waiting : ∀ w u, s.waiter w = some u → ¬Met s w
  queue : puts = gets ++ contents s

theorem init_fifo (t : Tid) : Fifo t intqInit [] [] where
  inv := init_inv
  alone := fun u inside => absurd rfl inside
  unlocked := by
    intro u call locking
    cases locking
  waiting := by
    intro w u recorded
    cases recorded
  queue := by simp [contents,stored,intqInit,intqBufsize]

variable [DecidableEq Tid]

theorem signal_kept (ran : signal w s = some s') :
    SameQueue s s' ∧ s'.pc = s.pc ∧ s'.waiter w = none ∧ ∀ v, v ≠ w → s'.waiter v = s.waiter v := by
  unfold signal at ran
  split at ran
  · split at ran
    · rename_i none_
      cases ran
      exact ⟨⟨rfl,rfl,rfl⟩,rfl,none_,fun _ _ => rfl⟩
    · obtain ⟨status,_,rfl⟩ := Option.map_eq_some_iff.mp ran
      refine ⟨⟨rfl,rfl,rfl⟩,rfl,Function.update_self ..,?_⟩
      intro v other
      exact Function.update_of_ne other ..
  · cases ran

theorem lockRelease_kept (ran : lockRelease t s = some s') : SameQueue s s' ∧ s'.pc = s.pc ∧ s'.waiter = s.waiter := by
  unfold lockRelease at ran
  split at ran
  · obtain ⟨raised,_,rfl⟩ := Option.map_eq_some_iff.mp ran
    exact ⟨⟨rfl,rfl,rfl⟩,rfl,rfl⟩
  · cases ran

/-- The thread has the lock at once when it is free, and waits. -/
theorem lockAcquire_free (free : s.lock.value ≠ 0) (ran : lockAcquire t call s = some s') :
    SameQueue s s' ∧ s'.pc = Function.update s.pc t (.waiting call) ∧ ¬Met s call.waiter ∧
      ∀ v, v ≠ call.waiter → s'.waiter v = s.waiter v := by
  unfold lockAcquire at ran
  rw [semaDown_pos free] at ran
  dsimp only at ran
  unfold wait at ran
  split at ran
  · cases ran
  · rename_i unmet
    cases ran
    refine ⟨⟨rfl,rfl,rfl⟩,rfl,?_,?_⟩
    · cases call <;> exact unmet
    · intro v other
      exact Function.update_of_ne other ..

/-- A call that finds its condition true takes its byte through. -/
theorem Fifo.finish (fifo : Fifo t s puts gets) (met : Met s call.waiter) :
    ∃ s', finish call s = some ((transfer call s).1,s') ∧ s'.pc = s.pc ∧
      Fifo t s' (puts ++ putBytes (some (call,(transfer call s).1))) (gets ++ gotBytes (some (call,(transfer call s).1))) := by
  obtain ⟨s',signalled,inv',pc⟩ := (fifo.inv.transfer call).signal (transfer_met fifo.inv met)
  obtain ⟨same,_,mine,others⟩ := signal_kept signalled
  have passed := transfer_contents fifo.inv.bounds met
  have pcs : s'.pc = s.pc := pc.trans (by cases call <;> rfl)
  refine ⟨s',by rw [IntQueue.finish,signalled]; rfl,pcs,inv',?_,?_,?_,?_⟩
  · rw [pcs]
    exact fifo.alone
  · rw [pcs]
    exact fifo.unlocked
  · -- Neither member is set any more: one was signalled, the other's condition holds.
    intro w u recorded
    by_cases his : w = call.signals
    · subst his
      rw [mine] at recorded
      cases recorded
    · have own : w = call.waiter := by
        cases call <;> cases w <;> simp_all [Call.signals,Call.waiter]
      subst own
      rw [others _ his] at recorded
      exact absurd met (fifo.waiting _ u (by cases call <;> exact recorded))
  · rw [same.contents,List.append_assoc,← passed,fifo.queue,List.append_assoc]

/-- From a test of the loop on: the byte goes through, or the thread waits. -/
theorem Fifo.attempt (fifo : Fifo t s puts gets) (idle : s.pc t = .outside) (call : Call) :
    ∃ s', attempt t call s = some s' ∧ Fifo t s' (puts ++ putBytes (completes call s)) (gets ++ gotBytes (completes call s)) := by
  by_cases met : Met s call.waiter
  · obtain ⟨s',done,pc,fifo'⟩ := fifo.finish met
    have back : s'.goto t .outside = s' := by
      rw [State.goto,Function.update_eq_self_iff.mpr (by rw [pc,idle])]
    refine ⟨s',?_,?_⟩
    · rw [IntQueue.attempt,if_pos met,done]
      exact congrArg some back
    · rw [completes,if_pos met,done]
      exact fifo'
  · obtain ⟨s',ran,inv'⟩ := fifo.inv.attempt idle call
    have nobody : s.holder = none := by
      cases held : s.holder with
      | none => rfl
      | some u =>
        obtain ⟨call',waits⟩ := (fifo.inv.holder u).mp held
        have his : u = t := fifo.alone u (by rw [waits]; exact Pc.noConfusion)
        rw [his,idle] at waits
        cases waits
    have acquired : lockAcquire t call s = some s' := by
      rw [IntQueue.attempt,if_neg met,if_neg (by simp [nobody])] at ran
      exact ran
    obtain ⟨same,pc,_,others⟩ := lockAcquire_free (fifo.inv.free_iff.mpr nobody) acquired
    refine ⟨s',ran,inv',?_,?_,?_,?_⟩
    · intro u inside
      by_contra other
      rw [pc,Function.update_of_ne other] at inside
      exact other (fifo.alone u inside)
    · intro u call' locking
      rw [pc] at locking
      by_cases his : u = t
      · rw [his,Function.update_self] at locking
        cases locking
      · rw [Function.update_of_ne his] at locking
        exact fifo.unlocked u call' locking
    · intro w u recorded
      rw [same.met]
      by_cases mine : w = call.waiter
      · rwa [mine]
      · rw [others w mine] at recorded
        exact fifo.waiting w u recorded
    · rw [completes,if_neg met,same.contents]
      exact (List.append_nil _).trans (fifo.queue.trans (by rw [show gotBytes none = [] from rfl,List.append_nil]))

/-- The thread comes back from `wait`. -/
theorem Fifo.release (fifo : Fifo t s puts gets) (waits : s.pc t = .waiting call) (ready : s.status t = .ready) :
    ∃ s', lockRelease t s = some s' ∧ Fifo t (s'.goto t .outside) puts gets := by
  obtain ⟨s',ran,inv'⟩ := fifo.inv.release waits ready
  obtain ⟨same,pc,waiter⟩ := lockRelease_kept ran
  have moved : SameQueue s (s'.goto t .outside) := ⟨same.buf,same.head,same.tail⟩
  refine ⟨s',ran,inv',?_,?_,?_,?_⟩
  · intro u inside
    by_contra other
    change Function.update s'.pc t .outside u ≠ .outside at inside
    rw [Function.update_of_ne other,pc] at inside
    exact other (fifo.alone u inside)
  · intro u call' locking
    change Function.update s'.pc t .outside u = _ at locking
    by_cases his : u = t
    · rw [his,Function.update_self] at locking
      cases locking
    · rw [Function.update_of_ne his,pc] at locking
      exact fifo.unlocked u call' locking
  · intro w u recorded
    change s'.waiter w = some u at recorded
    rw [waiter] at recorded
    rw [moved.met]
    exact fifo.waiting w u recorded
  · rw [moved.contents]
    exact fifo.queue

/-- No assertion fails when the one thread or a handler goes on. -/
theorem Fifo.perform (fifo : Fifo t s puts gets) (one : OneThread t e) (allowed : Allowed s e) :
    ∃ s', perform e s = some s' ∧ Fifo t s' (puts ++ putBytes (returned e s)) (gets ++ gotBytes (returned e s)) := by
  cases e with
  | call u call =>
    cases one
    exact fifo.attempt allowed call
  | run u =>
    cases one
    obtain ⟨inside,ready⟩ := allowed
    cases here : s.pc t with
    | outside => exact absurd here inside
    | locking call => exact absurd here (fifo.unlocked t call)
    | waiting call =>
      obtain ⟨s₁,released,back⟩ := fifo.release here ready
      obtain ⟨s',ran,fifo'⟩ := back.attempt (by simp [State.goto]) call
      refine ⟨s',?_,?_⟩
      · simp only [IntQueue.perform,proceed,here,released]
        exact ran
      · simp only [returned,here,released]
        exact fifo'
  | interrupt call =>
    have met : Met s call.waiter := allowed
    obtain ⟨s',done,_,fifo'⟩ := fifo.finish met
    refine ⟨s',?_,?_⟩
    · rw [IntQueue.perform,handle,if_pos met,done]
      rfl
    · rw [returned,completes,if_pos met,done]
      exact fifo'

theorem Logged.fifo (logged : Logged t s puts gets) : Fifo t s puts gets := by
  induction logged with
  | init => exact init_fifo t
  | step _ one allowed ran ih =>
    obtain ⟨s',ran',fifo⟩ := ih.perform one allowed
    rw [ran] at ran'
    cases ran'
    exact fifo

/-- In every run with one kernel thread, whatever it and the handlers call, the bytes that were
got are the first of those that were put and the buffer holds the others in their order; it
never holds all of its places, who is recorded waits for a condition that is false, and the
next event fails no assertion. -/
theorem intq_is_fifo (logged : Logged t s puts gets) :
    puts = gets ++ contents s ∧ (contents s).length = (s.head + intqBufsize - s.tail) % intqBufsize ∧
    (contents s).length ≤ intqBufsize - 1 ∧ (∀ w u, s.waiter w = some u → ¬Met s w) ∧
    ∀ e, OneThread t e → Allowed s e → ∃ s', perform e s = some s' := by
  have fifo := logged.fifo
  have full := stored_lt s
  have length : (contents s).length = stored s := by simp [contents]
  refine ⟨fifo.queue,length,by omega,fifo.waiting,?_⟩
  intro e one allowed
  obtain ⟨s',ran,_⟩ := fifo.perform one allowed
  exact ⟨s',ran⟩

end

/-- A thread waits for input, two bytes arrive, and it takes the first. -/
theorem intq_is_fifo_input :
    ∃ s : State Unit, Logged () s [10,11] [10] ∧ contents s = [11] ∧ ∀ w u, s.waiter w = some u → ¬Met s w := by
  have waits : Logged () _ _ _ := .step .init (e := .call () .getc) rfl (by decide) rfl
  have first : Logged () _ _ _ := .step waits (e := .interrupt (.putc 10)) trivial (by decide) rfl
  have second : Logged () _ _ _ := .step first (e := .interrupt (.putc 11)) trivial (by decide) rfl
  have taken : Logged () _ [10,11] [10] := .step second (e := .run ()) rfl (by decide) rfl
  obtain ⟨order,_,_,waiting,_⟩ := intq_is_fifo taken
  exact ⟨_,taken,(List.cons.inj order).2.symm,waiting⟩

end OsProj.IntQueue
