import OsProj.CoordinatorCounting
import OsProj.CoordinatorService
import OsProj.CoordinatorTiming
import OsProj.WorkerDegree
import OsProj.WorkerGrep
import OsProj.WorkerJob
import OsProj.WorkerPartition

/-! A whole cluster of hw-map-reduce: the coordinator, any number of workers and the output
directories that they share. Workers are interleaved at each file they open, read or close; a
file that is open for writing may show anything. A worker may stop at any time, and a reply may
be lost so that the request is sent again. -/
namespace OsProj.Worker

open OsProj.ByteList

def Files.writeTmp (files : Files) (i r : Nat) (content : Bytes) : Files :=
  { files with tmp := Function.update files.tmp i (Function.update (files.tmp i) r (some content)) }

def Files.writeOut (files : Files) (r : Nat) (content : Bytes) : Files :=
  { files with out := Function.update files.out r (some content) }

end OsProj.Worker

namespace OsProj.Cluster

open OsProj.ByteList
open OsProj.History
open OsProj.MapReduce (Coordinator Event FinishTaskRequest GetTaskReply IterOrder NoPrematureRepeats SubmitJobRequest
  coordinatorInit finishTask1Svc getTask1Svc pollJob1Svc submission submitJob1Svc)
open OsProj.Worker (App Fault Files KeyValue Qsort grepApp handleMapTask ldrCount openMapWriters readLoop reduceKvs
  vertexDegreeApp wcApp writeOpenedKvs)

/-- What the workers find outside of the output directories; paths may lead to one directory. -/
structure Site where
  qsort : Qsort
  readAll : String → Option Bytes
  place : String → Nat

def getApp (qsort : Qsort) (name : String) : Option App :=
  (MapReduce.getApp name).map fun
    | .wc => wcApp
    | .grep => grepApp qsort
    | .vertexDegree => vertexDegreeApp

def nameBytes (name : String) : Bytes := name.toUTF8.data.toList

inductive Work where
  | received
  | mapping (app : App)
  | closing (writers : List Bytes) (closed : Nat)
  | counting (opened : Nat) (entries : Nat)
  | reading (entries : Nat) (read : Nat) (kvs : List KeyValue)
  | writing (out : Bytes)
  | reporting (success : Bool)

structure Busy where
  task : GetTaskReply
  aux : Bytes
  work : Work

def Busy.index (busy : Busy) : Nat := busy.task.task.toNat

/-- The next step of `handle_map_task` or `handle_reduce_task`; a fault ends the worker. -/
def advance (site : Site) (files : Files) (busy : Busy) : Except Fault (Work × Files) :=
  let reply := busy.task
  match busy.work with
  | .received =>
    if reply.reduce then .ok (.counting 0 0,files)
    else match getApp site.qsort reply.app with
      | none => .ok (.reporting false,files)
      | some app => .ok (.mapping app,files)
  | .mapping app =>
    match site.readAll reply.file with
    | none => .ok (.reporting false,files)
    | some contents => do
      let kvs ← app.map ⟨nameBytes reply.file,contents⟩ busy.aux
      match writeOpenedKvs reply.nReduce (openMapWriters reply.nReduce) kvs with
      | none => throw .outOfBounds
      | some writers => return (.closing writers 0,files)
  | .closing writers closed =>
    match writers[closed]? with
    | none => .ok (.reporting true,files)
    | some content => .ok (.closing writers (closed + 1),files.writeTmp busy.index closed content)
  | .counting opened entries =>
    if opened < reply.nMap.toNat then
      match files.tmp opened busy.index with
      | none => .ok (.reporting false,files)
      | some reader => do
        let count ← ldrCount reader
        return (.counting (opened + 1) (entries + count),files)
    else if entries % 2 = 1 then .ok (.reporting false,files)
    else .ok (.reading (entries / 2) 0 [],files.writeOut busy.index [])
  | .reading length read kvs =>
    if length = 0 then .ok (.writing [],files)
    else if read < reply.nMap.toNat then
      match files.tmp read busy.index with
      | none => .error .outOfBounds
      | some reader => do
        let kvs ← readLoop length (reader.length + 1) reader kvs
        return (.reading length (read + 1) kvs,files)
    else match getApp site.qsort reply.app with
      | none => .error .outOfBounds
      | some app => do
        let out ← reduceKvs site.qsort app busy.aux kvs
        return (.writing out,files)
  | .writing out => .ok (.reporting true,files.writeOut busy.index out)
  | .reporting success => .ok (.reporting success,files)

/-- What the files show while the worker has one of them open: anything. -/
def scribble (files : Files) (busy : Busy) (r : Nat) (content : Bytes) : Option Files :=
  match busy.work with
  | .mapping _ => if r < busy.task.nReduce.toNat then some (files.writeTmp busy.index r content) else none
  | .closing writers closed =>
    if closed ≤ r ∧ r < writers.length then some (files.writeTmp busy.index r content) else none
  | .reading .. | .writing _ => some (files.writeOut busy.index content)
  | _ => none

/-- The places where a file cannot be opened or memory is exhausted. -/
def Work.mayFail : Work → Bool
  | .mapping _ | .counting .. | .reading .. => true
  | _ => false

def Busy.request (busy : Busy) (success : Bool) : FinishTaskRequest :=
  ⟨busy.task.jobId,busy.task.task,busy.task.reduce,success⟩

/-- The requests the coordinator has handled are kept, newest first. -/
structure State (W : Type) where
  history : List Event
  coordinator : Coordinator
  disk : Nat → Files
  workers : W → Option Busy

/-- One step of the cluster, with all that is left open in it. -/
inductive Command (W : Type) where
  | submitJob (argp : SubmitJobRequest) (behind : Bytes)
  | pollJob (k : Int)
  | getTask (w : W) (order : IterOrder) (now : Int) (heap : Nat → UInt8)
  /-- GET_TASK is handled but no worker receives the reply. -/
  | lostTask (order : IterOrder) (now : Int)
  | work (w : W)
  | scribble (w : W) (r : Nat) (content : Bytes)
  | failure (w : W)
  /-- FINISH_TASK is handled; it will be sent again if the reply is lost. -/
  | report (w : W) (again : Bool)
  /-- The worker stops, and a new one may take its place. -/
  | stop (w : W)

section
variable {W : Type} [DecidableEq W] (site : Site)

def State.setWorker (c : State W) (w : W) (busy : Option Busy) : State W :=
  { c with workers := Function.update c.workers w busy }

theorem setWorker_self (c : State W) (w : W) (busy : Option Busy) : (c.setWorker w busy).workers w = busy :=
  Function.update_self ..

theorem setWorker_ne {c : State W} {busy : Option Busy} (other : v ≠ w) : (c.setWorker w busy).workers v = c.workers v :=
  Function.update_of_ne other ..

def State.setFiles (c : State W) (d : Nat) (files : Files) : State W :=
  { c with disk := Function.update c.disk d files }

def State.served (c : State W) (e : Event) (s : Coordinator) : State W :=
  { c with history := e :: c.history, coordinator := s }

def Busy.place (busy : Busy) : Nat := site.place busy.task.outputDir

def State.notAfter (c : State W) (now : Int) : Prop := ∀ e ∈ c.history, e.NotAfter now

instance (c : State W) (now : Int) : Decidable (c.notAfter now) := inferInstanceAs (Decidable (∀ e ∈ c.history, e.NotAfter now))

def perform (c : State W) : Command W → Option (State W)
  | .submitJob argp behind => match submitJob1Svc argp behind c.coordinator with
    | .error _ => none
    | .ok (answer,s) => some (c.served (.submitJob argp behind answer) s)
  | .pollJob k => match pollJob1Svc k c.coordinator with
    | .error _ => none
    | .ok (answer,s) => some (c.served (.pollJob k answer) s)
  | .getTask w order now heap =>
    if c.notAfter now ∧ (c.workers w).isNone then
      match getTask1Svc order now c.coordinator with
      | .error _ => none
      | .ok (r,s) =>
        let busy := if r.wait then none else some ⟨r,r.sentArgs heap,.received⟩
        some ((c.served (.getTask order now r) s).setWorker w busy)
    else none
  | .lostTask order now =>
    if c.notAfter now then
      match getTask1Svc order now c.coordinator with
      | .error _ => none
      | .ok (r,s) => some (c.served (.getTask order now r) s)
    else none
  | .work w => do
    let busy ← c.workers w
    match advance site (c.disk (busy.place site)) busy with
    | .error _ => none
    | .ok (work,files) => some ((c.setFiles (busy.place site) files).setWorker w (some { busy with work := work }))
  | .scribble w r content => do
    let busy ← c.workers w
    let files ← scribble (c.disk (busy.place site)) busy r content
    return c.setFiles (busy.place site) files
  | .failure w => do
    let busy ← c.workers w
    if busy.work.mayFail then some (c.setWorker w (some { busy with work := .reporting false })) else none
  | .report w again => do
    let busy ← c.workers w
    match busy.work with
    | .reporting success =>
      match finishTask1Svc (busy.request success) c.coordinator with
      | .error _ => none
      | .ok s =>
        some ((c.served (.finishTask (busy.request success)) s).setWorker w (if again then some busy else none))
    | _ => none
  | .stop w => some (c.setWorker w none)

def Busy.Holds (busy : Busy) (k t : Int) (reduce : Bool) : Prop :=
  busy.task.jobId = k ∧ busy.task.task = t ∧ busy.task.reduce = reduce

instance (busy : Busy) (k t : Int) (reduce : Bool) : Decidable (busy.Holds k t reduce) :=
  inferInstanceAs (Decidable (_ ∧ _ ∧ _))

/-- No worker that is still running works on the task. -/
def State.Free (c : State W) (k t : Int) (reduce : Bool) : Prop :=
  ∀ w, ∀ busy ∈ c.workers w, ¬busy.Holds k t reduce

/-- A task goes to a second worker only when the first has stopped, and a report that is sent
again does not arrive before all tasks of the kind are reported. -/
def Undisturbed (c : State W) : Command W → Prop
  | .getTask _ order now _ => ∀ r s, getTask1Svc order now c.coordinator = .ok (r,s) → r.wait = false →
    c.Free r.jobId r.task r.reduce
  | .report w _ => ∀ busy ∈ c.workers w, ∀ success,
    NoPrematureRepeats c.history c.coordinator (.finishTask (busy.request success))
  | _ => True

instance (c : State W) [Fintype W] (k t : Int) (reduce : Bool) : Decidable (c.Free k t reduce) :=
  inferInstanceAs (Decidable (∀ w, ∀ busy ∈ c.workers w, ¬busy.Holds k t reduce))

instance (c : State W) [Fintype W] : (command : Command W) → Decidable (Undisturbed c command)
  | .getTask _ order now _ =>
    match served : getTask1Svc order now c.coordinator with
    | .error _ => .isTrue fun _ _ answered _ => nomatch served.symm.trans answered
    | .ok (r,_) => decidable_of_iff (r.wait = false → c.Free r.jobId r.task r.reduce)
      ⟨fun free _ _ answered => by
        cases served.symm.trans answered
        exact free,fun calm => calm r _ served⟩
  | .report w _ => inferInstanceAs (Decidable (∀ busy ∈ c.workers w, ∀ success,
    NoPrematureRepeats c.history c.coordinator (.finishTask (busy.request success))))
  | .submitJob .. | .pollJob _ | .lostTask .. | .work _ | .scribble .. | .failure _ | .stop _ => .isTrue trivial

/-- Nothing is known about what the directories hold at first. -/
def clusterInit (disk : Nat → Files) : State W := ⟨[],coordinatorInit,disk,fun _ => none⟩

def ClusterStep (_ : List (Command W)) (c : State W) (command : Command W) (c' : State W) : Prop :=
  perform site c command = some c'

abbrev ClusterRun (disk : Nat → Files) : List (Command W) → State W → Prop :=
  Path (Guarded (ClusterStep site) fun _ => Undisturbed) [] (clusterInit disk)

end

end OsProj.Cluster
