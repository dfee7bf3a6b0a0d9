import OsProj.History
import OsProj.Synch

/-! Locks and condition variables. Threads are preempted between any two of the steps below:
what runs with interrupts off is one step, and so is an operation on the queue of a condition,
which only the holder of its lock touches. -/
namespace OsProj.Synch.Monitor

section
variable {Tid Lock Cond : Type}

/-- Where a thread is. In the code of a lock, `w` is the condition whose `cond_wait` called it;
in `cond_signal`, `b` tells whether `cond_broadcast` called it. -/
inductive Pc (Tid Lock Cond : Type) where
  | outside
  | acquireCheck (l : Lock) (w : Option Cond)
  | acquireDown (l : Lock) (w : Option Cond)
  | acquireOwn (l : Lock) (w : Option Cond)
  | tryCheck (l : Lock)
  | tryDown (l : Lock)
  | releaseCheck (l : Lock) (w : Option Cond)
  | releaseClear (l : Lock) (w : Option Cond)
  | releaseUp (l : Lock) (w : Option Cond)
  | waitCheck (c : Cond)
  | waitPush (c : Cond)
  | waitDown (c : Cond)
  | signalCheck (c : Cond) (b : Bool)
  | signalPop (c : Cond) (b : Bool)
  | signalUp (c : Cond) (b : Bool) (t : Tid)
  | broadcastTest (c : Cond)
  deriving DecidableEq, Repr

/-- The locks, the queues of the conditions and the threads. The entry of a `cond_wait` in a
queue is on the stack of the thread, which names it; its semaphore is there until the
function returns. -/
structure State (Tid Lock Cond : Type) where
  holder : Lock → Option Tid
  sema : Lock → Semaphore Tid
  queue : Cond → List Tid
  waiter : Tid → Option (Semaphore Tid)
  status : Tid → Status
  pc : Tid → Pc Tid Lock Cond

inductive Op (Lock Cond : Type) where
  | acquire (l : Lock)
  | tryAcquire (l : Lock)
  | release (l : Lock)
  | wait (c : Cond)
  | signal (c : Cond)
  | broadcast (c : Cond)
  deriving DecidableEq, Repr

/-- What a step does that is remembered: a call; a lock that was acquired, at the end of a
`cond_wait` if a condition is given; a lock that is given up; the entry of a wait into the
queue, the end of its release of the lock, and its removal by a signal; a signal that finds
no entry. -/
inductive Event (Tid Lock Cond : Type) where
  | call (t : Tid) (op : Op Lock Cond)
  | quiet (t : Tid)
  | acquired (t : Tid) (l : Lock) (w : Option Cond)
  | cleared (t : Tid) (l : Lock)
  | began (t : Tid) (c : Cond)
  | released (t : Tid) (c : Cond)
  | signalled (u : Tid) (c : Cond) (t : Tid)
  | unheard (u : Tid) (c : Cond) (b : Bool)
  deriving DecidableEq, Repr

def State.init : State Tid Lock Cond where
  holder := fun _ => none
  sema := fun _ => semaInit 1
  queue := fun _ => []
  waiter := fun _ => none
  status := fun _ => .ready
  pc := fun _ => .outside

def Op.entry : Op Lock Cond → Pc Tid Lock Cond
  | .acquire l => .acquireCheck l none
  | .tryAcquire l => .tryCheck l
  | .release l => .releaseCheck l none
  | .wait c => .waitCheck c
  | .signal c => .signalCheck c false
  | .broadcast c => .broadcastTest c

variable [DecidableEq Tid] [DecidableEq Lock] [DecidableEq Cond]

def State.goto (s : State Tid Lock Cond) (t : Tid) (pc : Pc Tid Lock Cond) : State Tid Lock Cond :=
  { s with pc := Function.update s.pc t pc }

def afterSignal (c : Cond) (b : Bool) : Pc Tid Lock Cond := if b then .broadcastTest c else .outside

/-- The next step of a thread. There is none if an assertion fails or if the semaphore of an
entry is gone. -/
def advance (lockOf : Cond → Lock) (t : Tid) (s : State Tid Lock Cond) :
    Option (Event Tid Lock Cond × State Tid Lock Cond) :=
  match s.pc t with
  | .outside => some (.quiet t,s)
  | .acquireCheck l w => if s.holder l = some t then none else some (.quiet t,s.goto t (.acquireDown l w))
  | .acquireDown l w =>
    let (done,sema,status) := semaDown t (s.sema l) s.status
    let s := { s with sema := Function.update s.sema l sema, status := status }
    some (.quiet t,if done then s.goto t (.acquireOwn l w) else s)
  | .acquireOwn l w =>
    -- with the return from `cond_wait` its entry is gone
    let waiter := if w.isSome then Function.update s.waiter t none else s.waiter
    some (.acquired t l w,{ s with holder := Function.update s.holder l (some t), waiter := waiter }.goto t .outside)
  | .tryCheck l => if s.holder l = some t then none else some (.quiet t,s.goto t (.tryDown l))
  | .tryDown l =>
    let (success,sema) := semaTryDown (s.sema l)
    let s := { s with sema := Function.update s.sema l sema }
    some (.quiet t,s.goto t (if success then .acquireOwn l none else .outside))
  | .releaseCheck l w => if s.holder l = some t then some (.quiet t,s.goto t (.releaseClear l w)) else none
  | .releaseClear l w =>
    some (.cleared t l,{ s with holder := Function.update s.holder l none }.goto t (.releaseUp l w))
  | .releaseUp l w =>
    (semaUp (s.sema l) s.status).map fun (sema,status) =>
      let s := { s with sema := Function.update s.sema l sema, status := status }
      match w with
      | none => (.quiet t,s.goto t .outside)
      | some c => (.released t c,s.goto t (.waitDown c))
  | .waitCheck c =>
    if s.holder (lockOf c) = some t then
      some (.quiet t,{ s with waiter := Function.update s.waiter t (some (semaInit 0)) }.goto t (.waitPush c))
    else none
  | .waitPush c =>
    some (.began t c,{ s with queue := Function.update s.queue c (s.queue c ++ [t]) }.goto t
      (.releaseCheck (lockOf c) (some c)))
  | .waitDown c =>
    (s.waiter t).map fun waiter =>
      let (done,waiter,status) := semaDown t waiter s.status
      let s := { s with waiter := Function.update s.waiter t (some waiter), status := status }
      (.quiet t,if done then s.goto t (.acquireCheck (lockOf c) (some c)) else s)
  | .signalCheck c b => if s.holder (lockOf c) = some t then some (.quiet t,s.goto t (.signalPop c b)) else none
  | .signalPop c b =>
    match s.queue c with
    | [] => some (.unheard t c b,s.goto t (afterSignal c b))
    | first :: rest =>
      some (.signalled t c first,{ s with queue := Function.update s.queue c rest }.goto t (.signalUp c b first))
  | .signalUp c b u =>
    (s.waiter u).bind fun waiter => (semaUp waiter s.status).map fun (waiter,status) =>
      (.quiet t,{ s with waiter := Function.update s.waiter u (some waiter), status := status }.goto t (afterSignal c b))
  | .broadcastTest c =>
    some (.quiet t,s.goto t (if s.queue c = [] then .outside else .signalCheck c true))

/-- The thread has acquired the lock and not given it up since. -/
def holding (t : Tid) (l : Lock) : List (Event Tid Lock Cond) → Bool
  | [] => false
  | .acquired u k _ :: h => if u = t ∧ k = l then true else holding t l h
  | .cleared u k :: h => if u = t ∧ k = l then false else holding t l h
  | _ :: h => holding t l h

/-- The documented preconditions. A condition belongs to one lock. -/
def Allowed (lockOf : Cond → Lock) (h : List (Event Tid Lock Cond)) (t : Tid) : Op Lock Cond → Prop
  | .acquire l | .tryAcquire l => holding t l h = false
  | .release l => holding t l h = true
  | .wait c | .signal c | .broadcast c => holding t (lockOf c) h = true

inductive Step (lockOf : Cond → Lock) :
    List (Event Tid Lock Cond) → State Tid Lock Cond → Event Tid Lock Cond → State Tid Lock Cond → Prop
  | call (ready : s.status t = .ready) (idle : s.pc t = .outside) (allowed : Allowed lockOf h t op) :
      Step lockOf h s (.call t op) (s.goto t op.entry)
  | go (ready : s.status t = .ready) (busy : s.pc t ≠ .outside) (ran : advance lockOf t s = some (e,s')) :
      Step lockOf h s e s'

end

end OsProj.Synch.Monitor
