import OsProj.History
import OsProj.Synch

/-! The interrupt queue. Its functions run with interrupts off, so a thread runs alone from the
call, or from the point where it was unblocked, until it blocks or returns; an interrupt handler
runs between two such steps. `none` is a failed assertion. -/
namespace OsProj.IntQueue

open OsProj.Synch

def intqBufsize : Nat := 64

inductive Waiter where
  | notEmpty
  | notFull
  deriving DecidableEq, Repr

inductive Call where
  | getc
  | putc (byte : UInt8)
  deriving DecidableEq, Repr

def Call.waiter : Call → Waiter
  | .getc => .notEmpty
  | .putc _ => .notFull

def Call.signals : Call → Waiter
  | .getc => .notFull
  | .putc _ => .notEmpty

/-- Where a thread is: in `sema_down` of the lock or in `thread_block` of `wait`, asleep or
unblocked but not run since. -/
inductive Pc where
  | outside
  | locking (call : Call)
  | waiting (call : Call)
  deriving DecidableEq, Repr

structure State (Tid : Type) where
  lock : Semaphore Tid
  holder : Option Tid
  waiter : Waiter → Option Tid
  buf : Nat → UInt8
  head : Nat
  tail : Nat
  status : Tid → Status
  pc : Tid → Pc

def next (pos : Nat) : Nat := (pos + 1) % intqBufsize

section
variable {Tid : Type}

def intqInit : State Tid := ⟨semaInit 1,none,fun _ => none,fun _ => 0,0,0,fun _ => .ready,fun _ => .outside⟩

def intqEmpty (s : State Tid) : Prop := s.head = s.tail

def intqFull (s : State Tid) : Prop := next s.head = s.tail

instance (s : State Tid) : Decidable (intqEmpty s) := inferInstanceAs (Decidable (s.head = s.tail))

instance (s : State Tid) : Decidable (intqFull s) := inferInstanceAs (Decidable (next s.head = s.tail))

def Met (s : State Tid) : Waiter → Prop
  | .notEmpty => ¬intqEmpty s
  | .notFull => ¬intqFull s

instance (s : State Tid) : (w : Waiter) → Decidable (Met s w)
  | .notEmpty => inferInstanceAs (Decidable (¬intqEmpty s))
  | .notFull => inferInstanceAs (Decidable (¬intqFull s))

variable [DecidableEq Tid]

def State.goto (s : State Tid) (t : Tid) (pc : Pc) : State Tid := { s with pc := Function.update s.pc t pc }

def wait (t : Tid) (call : Call) (s : State Tid) : Option (State Tid) :=
  if Met s call.waiter then none
  else some (State.goto { s with waiter := Function.update s.waiter call.waiter (some t),
                                 status := Function.update s.status t .blocked } t (.waiting call))

def signal (w : Waiter) (s : State Tid) : Option (State Tid) :=
  if Met s w then
    match s.waiter w with
    | none => some s
    | some t => (threadUnblock t s.status).map fun status => { s with status := status, waiter := Function.update s.waiter w none }
  else none

/-- `lock_acquire` from a test of the semaphore on, and the call of `wait` behind it. -/
def lockAcquire (t : Tid) (call : Call) (s : State Tid) : Option (State Tid) :=
  match semaDown t s.lock s.status with
  | (true,lock,status) => wait t call { s with lock := lock, status := status, holder := some t }
  | (false,lock,status) => some (State.goto { s with lock := lock, status := status } t (.locking call))

def lockRelease (t : Tid) (s : State Tid) : Option (State Tid) :=
  if s.holder = some t then
    (semaUp s.lock s.status).map fun (lock,status) => { s with lock := lock, status := status, holder := none }
  else none

/-- The statements behind the loop, with the byte that `intq_getc` returns. -/
def transfer (call : Call) (s : State Tid) : UInt8 × State Tid :=
  match call with
  | .getc => (s.buf s.tail,{ s with tail := next s.tail })
  | .putc byte => (byte,{ s with buf := Function.update s.buf s.head byte, head := next s.head })

def finish (call : Call) (s : State Tid) : Option (UInt8 × State Tid) :=
  (signal call.signals (transfer call s).2).map fun s' => ((transfer call s).1,s')

def attempt (t : Tid) (call : Call) (s : State Tid) : Option (State Tid) :=
  if Met s call.waiter then (finish call s).map fun (_,s) => s.goto t .outside
  else if s.holder = some t then none
  else lockAcquire t call s

/-- The thread goes on where it was unblocked. From `wait` it comes back to the test of its loop. -/
def proceed (t : Tid) (s : State Tid) : Option (State Tid) :=
  match s.pc t with
  | .outside => none
  | .locking call => lockAcquire t call s
  | .waiting call => (lockRelease t s).bind fun s => attempt t call (s.goto t .outside)

/-- A call in an interrupt handler, which must not wait. -/
def handle (call : Call) (s : State Tid) : Option (State Tid) :=
  if Met s call.waiter then (finish call s).map fun (_,s) => s else none

inductive Event (Tid : Type) where
  | call (t : Tid) (call : Call)
  | run (t : Tid)
  | interrupt (call : Call)
  deriving DecidableEq, Repr

def perform (e : Event Tid) (s : State Tid) : Option (State Tid) :=
  match e with
  | .call t call => attempt t call s
  | .run t => proceed t s
  | .interrupt call => handle call s

/-- A thread calls while it is in no call and runs when it is not blocked. The handlers of the
drivers put only into a queue that is not full and get only from one that is not empty. -/
def Allowed (s : State Tid) : Event Tid → Prop
  | .call t _ => s.pc t = .outside
  | .run t => s.pc t ≠ .outside ∧ s.status t = .ready
  | .interrupt call => Met s call.waiter

instance (s : State Tid) : (e : Event Tid) → Decidable (Allowed s e)
  | .call t _ => inferInstanceAs (Decidable (s.pc t = .outside))
  | .run t => inferInstanceAs (Decidable (s.pc t ≠ .outside ∧ s.status t = .ready))
  | .interrupt call => inferInstanceAs (Decidable (Met s call.waiter))

/-- Nothing follows a failed assertion. -/
inductive Step : List (Event Tid) → Option (State Tid) → Event Tid → Option (State Tid) → Prop
  | event (allowed : Allowed s e) : Step h (some s) e (perform e s)

def operate (e : Event Tid) (r : Option (State Tid)) : Option (Event Tid × Option (State Tid)) :=
  r.bind fun s => if Allowed s e then some (e,perform e s) else none

theorem operate_step {r r' : Option (State Tid)} (ran : operate e r = some (e',r')) : Step h r e' r' := by
  simp only [operate,Option.bind_eq_some_iff,Option.ite_none_right_eq_some,Option.some.injEq,Prod.mk.injEq] at ran
  obtain ⟨s,rfl,allowed,rfl,rfl⟩ := ran
  exact .event allowed

/-- A thread that slept for the lock and gets it now finds the queue as it must be to wait: empty
for `intq_getc`, full for `intq_putc`. -/
def Current (s : State Tid) : Event Tid → Prop
  | .run t => ∀ call, s.pc t = .locking call → s.lock.value ≠ 0 → ¬Met s call.waiter
  | _ => True

def StaysCurrent (_ : List (Event Tid)) (r : Option (State Tid)) (e : Event Tid) : Prop := ∀ s, r = some s → Current s e

end

end OsProj.IntQueue
