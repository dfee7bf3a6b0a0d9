import Mathlib.Data.Fintype.Basic
import Mathlib.Data.List.Nodup
import Mathlib.Logic.Function.Basic
import OsProj.History

/-! Threads and the scheduler. A thread is its page. Each operation runs with interrupts off, so
it is one step; `none` is a failed assertion or a panic. -/
namespace OsProj.Scheduler

inductive Status where
  | running
  | ready
  | blocked
  | dying
  deriving DecidableEq, Repr

inductive SchedPolicy where
  | fifo
  | prio
  | fair
  | mlfqs
  deriving DecidableEq, Repr

/-- What the operations do, for the record. `free` remembers on which thread's page the processor
ran; `idle` is the choice of the idle thread because no other is ready. -/
inductive Action (Tid : Type) where
  | create (t : Tid)
  | exit (t : Tid)
  | enqueue (t : Tid)
  | dequeue (t : Tid)
  | idle (t : Tid)
  | run (t : Tid)
  | free (t : Tid) (cpu : Tid)
  deriving DecidableEq, Repr

/-- `status` is `none` on pages without a thread, `cpu` is the thread on whose stack the processor
runs, `idler` the thread whose function is `idle`, and `waiters` are the lists other than the ready
list that hold the `elem` of a thread. -/
structure State (Tid Q : Type) where
  policy : SchedPolicy
  initialThread : Tid
  idler : Tid
  idleThread : Option Tid
  cpu : Tid
  status : Tid → Option Status
  ready : List Tid
  all : List Tid
  waiters : Q → List Tid
  log : List (Action Tid)

section
variable {Tid Q : Type} [DecidableEq Tid]

def State.setStatus (s : State Tid Q) (t : Tid) (status : Status) : State Tid Q :=
  { s with status := Function.update s.status t (some status) }

def State.record (s : State Tid Q) (action : Action Tid) : State Tid Q := { s with log := s.log ++ [action] }

def isThread (s : State Tid Q) (t : Tid) : Bool := (s.status t).isSome

def threadCurrent (s : State Tid Q) : Option Tid := if s.status s.cpu = some .running then some s.cpu else none

def threadEnqueue (t : Tid) (s : State Tid Q) : Option (State Tid Q) :=
  if isThread s t then
    match s.policy with
    | .fifo => some ({ s with ready := s.ready ++ [t] }.record (.enqueue t))
    | .prio | .fair | .mlfqs => none
  else none

def threadUnblock (t : Tid) (s : State Tid Q) : Option (State Tid Q) :=
  if s.status t = some .blocked then (threadEnqueue t s).map fun s => s.setStatus t .ready else none

def threadScheduleFifo (s : State Tid Q) : Option Tid × State Tid Q :=
  match s.ready with
  | t :: rest => (some t,{ s with ready := rest }.record (.dequeue t))
  | [] =>
    match s.idleThread with
    | some t => (some t,s.record (.idle t))
    | none => (none,s)

def nextThreadToRun (s : State Tid Q) : Option (Option Tid × State Tid Q) :=
  match s.policy with
  | .fifo => some (threadScheduleFifo s)
  | .prio | .fair | .mlfqs => none

def switchThreads (cur next : Tid) (s : State Tid Q) : Option Tid × State Tid Q := (some cur,{ s with cpu := next })

/-- A page that is not in use fails the assertion. -/
def pallocFreePage (t : Tid) (s : State Tid Q) : Option (State Tid Q) :=
  if isThread s t then some ({ s with status := Function.update s.status t none }.record (.free t s.cpu)) else none

def threadSwitchTail (prev : Option Tid) (s : State Tid Q) : Option (State Tid Q) :=
  let s := (s.setStatus s.cpu .running).record (.run s.cpu)
  match prev with
  | none => some s
  | some prev =>
    if s.status prev = some .dying ∧ prev ≠ s.initialThread then
      if prev = s.cpu then none else pallocFreePage prev s
    else some s

def schedule (s : State Tid Q) : Option (State Tid Q) :=
  match nextThreadToRun s with
  | none | some (none,_) => none
  | some (some next,s) =>
    if s.status s.cpu = some .running ∨ isThread s next = false then none
    else if s.cpu ≠ next then
      let (prev,s) := switchThreads s.cpu next s
      threadSwitchTail prev s
    else threadSwitchTail none s

def threadBlock (s : State Tid Q) : Option (State Tid Q) :=
  (threadCurrent s).bind fun cur => schedule (s.setStatus cur .blocked)

/-- The timer interrupt calls it too, on return. -/
def threadYield (s : State Tid Q) : Option (State Tid Q) :=
  (threadCurrent s).bind fun cur =>
    (if s.idleThread ≠ some cur then threadEnqueue cur s else some s).bind fun s => schedule (s.setStatus cur .ready)

def threadExit (s : State Tid Q) : Option (State Tid Q) :=
  (threadCurrent s).bind fun cur =>
    schedule ((State.record { s with all := s.all.erase cur } (.exit cur)).setStatus cur .dying)

def initThread (t : Tid) (s : State Tid Q) : State Tid Q :=
  (State.record { s with all := s.all ++ [t] } (.create t)).setStatus t .blocked

/-- `thread_create` up to the call of `thread_unblock`, with the page that `palloc_get_page`
returns. -/
def threadCreate (page : Option Tid) (s : State Tid Q) : State Tid Q :=
  match page with
  | none => s
  | some t => initThread t s

def threadInit (policy : SchedPolicy) (initialThread idler : Tid) : State Tid Q :=
  (initThread initialThread ⟨policy,initialThread,idler,none,initialThread,fun _ => none,[],[],fun _ => [],[]⟩).setStatus
    initialThread .running

/-- Up to the point where it enables interrupts. -/
def threadStart (s : State Tid Q) : Option (State Tid Q) := threadUnblock s.idler (threadCreate (some s.idler) s)

/-- The first statement of `idle`. -/
def idleRegister (s : State Tid Q) : Option (State Tid Q) := (threadCurrent s).map fun cur => { s with idleThread := some cur }

variable [DecidableEq Q]

/-- The loop of `sema_down` while the value is zero. -/
def waitOn (q : Q) (s : State Tid Q) : Option (State Tid Q) :=
  (threadCurrent s).bind fun cur => threadBlock { s with waiters := Function.update s.waiters q (s.waiters q ++ [cur]) }

/-- The part of `sema_up` that unblocks a thread. -/
def wakeFrom (q : Q) (s : State Tid Q) : Option (State Tid Q) :=
  match s.waiters q with
  | [] => some s
  | t :: rest => threadUnblock t { s with waiters := Function.update s.waiters q rest }

inductive Op (Tid Q : Type) where
  | create (page : Option Tid)
  | register
  | unblock (t : Tid)
  | wake (q : Q)
  | block
  | wait (q : Q)
  | yield
  | exit
  deriving DecidableEq, Repr

def perform (op : Op Tid Q) (s : State Tid Q) : Option (State Tid Q) :=
  match op with
  | .create page => some (threadCreate page s)
  | .register => idleRegister s
  | .unblock t => threadUnblock t s
  | .wake q => wakeFrom q s
  | .block => threadBlock s
  | .wait q => waitOn q s
  | .yield => threadYield s
  | .exit => threadExit s

/-- What the callers keep to: pages come from the allocator, a thread that waits in a list is
unblocked by the one that takes it from the list, and the idle thread runs the code of `idle`. -/
def Allowed (s : State Tid Q) : Op Tid Q → Prop
  | .create page => ∀ t, page = some t → s.status t = none
  | .register => s.cpu = s.idler
  | .unblock t => s.status t = some .blocked ∧ ∀ q, t ∉ s.waiters q
  | .wake _ | .yield => True
  | .block => s.cpu = s.idler → s.idleThread = some s.idler
  | .wait _ | .exit => s.cpu ≠ s.idler

instance [Fintype Q] (s : State Tid Q) : (op : Op Tid Q) → Decidable (Allowed s op)
  | .create none => .isTrue (by simp [Allowed])
  | .create (some t) => decidable_of_iff (s.status t = none) (by simp [Allowed])
  | .register => inferInstanceAs (Decidable (s.cpu = s.idler))
  | .unblock t => inferInstanceAs (Decidable (s.status t = some .blocked ∧ ∀ q, t ∉ s.waiters q))
  | .wake _ | .yield => .isTrue trivial
  | .block => inferInstanceAs (Decidable (s.cpu = s.idler → s.idleThread = some s.idler))
  | .wait _ | .exit => inferInstanceAs (Decidable (s.cpu ≠ s.idler))

inductive Step : List (Op Tid Q) → State Tid Q → Op Tid Q → State Tid Q → Prop
  | op (allowed : Allowed s op) (ran : perform op s = some s') : Step h s op s'

def operate (op : Op Tid Q) (s : State Tid Q) : Option (Op Tid Q × State Tid Q) := (perform op s).map fun s' => (op,s')

theorem operate_step {s s' : State Tid Q} (ran : operate op s = some (e,s')) (allowed : Allowed s e) : Step h s e s' := by
  simp only [operate,Option.map_eq_some_iff,Prod.mk.injEq] at ran
  obtain ⟨_,ran,rfl,rfl⟩ := ran
  exact .op allowed ran

end

end OsProj.Scheduler
