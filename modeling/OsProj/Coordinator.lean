import Mathlib.Data.List.AList

/-! The MapReduce coordinator of hw-map-reduce: its records and its four RPC handlers.
GLib's list is a list and its hash table a finite map; the order in which an iterator
visits a table is not fixed by GLib and is supplied from outside. A handler that would
read through a null pointer or overflow an `int` stops with a fault. -/
namespace OsProj.MapReduce

inductive Fault where
  | nullDereference
  | signedOverflow
  /-- A read outside of a block of the heap. -/
  | outside
  deriving DecidableEq, Repr

def intMin : Int := -2147483648
def intMax : Int := 2147483647

def taskTimeoutSecs : Int := 10

/-- One record of a job's `taskInfo`; `file` is null unless the task is a map task. -/
structure Task where
  startTime : Int
  complete : Bool
  reduce : Bool
  jobID : Int
  taskID : Int
  timeout : Bool
  file : Option String
  deriving DecidableEq, Repr

abbrev MapTasks := AList (fun _ : Int => String)
abbrev TaskInfo := AList (fun _ : Int => Task)

/-- The four counters start at zero and are only incremented, an increment past
`INT_MAX` being a fault, so their comparisons with the `u_int` field are plain. -/
structure Job where
  jobID : Int
  nReduce : Int
  nMap : Nat
  argsLen : Nat
  argsVal : Option (List UInt8)
  app : String
  outputDir : String
  mapTasks : MapTasks
  taskInfo : TaskInfo
  nMapCompleted : Nat
  nMapAssigned : Nat
  nReduceCompleted : Nat
  nReduceAssigned : Nat
  done : Bool
  failed : Bool
  deriving DecidableEq

abbrev JobInfo := AList (fun _ : Int => Job)

structure SubmitJobRequest where
  files : List String
  outputDir : String
  app : String
  nReduce : Int
  args : List UInt8
  /-- `n_reduce` is a C `int`. -/
  nReduce_range : intMin ≤ nReduce ∧ nReduce ≤ intMax := by decide
  deriving DecidableEq

structure PollJobReply where
  done : Bool
  failed : Bool
  invalidJobId : Bool
  deriving DecidableEq, Repr

structure GetTaskReply where
  jobId : Int
  task : Int
  file : String
  outputDir : String
  app : String
  nReduce : Int
  nMap : Int
  reduce : Bool
  wait : Bool
  argsLen : Nat
  argsVal : Option (List UInt8)
  deriving DecidableEq, Repr

structure FinishTaskRequest where
  jobId : Int
  task : Int
  reduce : Bool
  success : Bool
  deriving DecidableEq, Repr

/-- The global state, with the static reply buffer that GET_TASK keeps between calls. -/
structure Coordinator where
  jobs : List Int
  jobInfo : JobInfo
  counter : Nat
  getTaskResult : GetTaskReply
  deriving DecidableEq

def emptyReply : GetTaskReply := ⟨0,0,"","","",0,0,false,false,0,none⟩

def coordinatorInit : Coordinator := ⟨[],∅,0,emptyReply⟩

def Coordinator.setJob (s : Coordinator) (id : Int) (job : Job) : Coordinator :=
  { s with jobInfo := s.jobInfo.insert id job }

inductive App where
  | wc
  | grep
  | vertexDegree
  deriving DecidableEq, Repr

def getApp (name : String) : Option App :=
  if name = "wc" then some .wc
  else if name = "grep" then some .grep
  else if name = "vertex-degree" then some .vertexDegree
  else none

def strdup (bytes : List UInt8) : List UInt8 := bytes.takeWhile (· != 0)

/-- `strdup` of a block of the heap, which reads it up to a zero. -/
def strdupBlock (block : List UInt8) : Except Fault (List UInt8) :=
  if 0 ∈ block then .ok (strdup block ++ [0]) else .error .outside

def insertFiles : Nat → List String → MapTasks → MapTasks
  | _, [], table => table
  | i, file :: files, table => insertFiles (i + 1) files (table.insert (i : Int) file)

/-- The decoded `args` array is copied with `strdup`. Where `strdupBlock` reads outside of it, the copy
goes on with whatever lies `behind` the array. An empty array decodes to null. -/
def newJob (argp : SubmitJobRequest) (behind : List UInt8) (counter : Nat) : Job where
  jobID := counter
  app := argp.app
  nMap := argp.files.length
  mapTasks := insertFiles 0 argp.files ∅
  taskInfo := ∅
  nMapCompleted := 0
  nMapAssigned := 0
  nReduceAssigned := 0
  nReduceCompleted := 0
  outputDir := argp.outputDir
  argsLen := argp.args.length
  argsVal := if argp.args = [] then none else some (strdup (argp.args ++ behind))
  nReduce := argp.nReduce
  done := false
  failed := false

/-- SUBMIT_JOB. The `int` loop index over the files and the job counter can overflow;
the application name is only looked up after the job has been queued. -/
def submitJob1Svc (argp : SubmitJobRequest) (behind : List UInt8) (s : Coordinator) :
    Except Fault (Int × Coordinator) :=
  if intMax < argp.files.length then .error .signedOverflow
  else if (s.counter : Int) < intMax then
    let job := newJob argp behind s.counter
    let s := { s with
      counter := s.counter + 1
      jobs := s.jobs ++ [job.jobID]
      jobInfo := s.jobInfo.insert job.jobID job }
    match getApp argp.app with
    | none => .ok (-1, s)
    | some _ => .ok (job.jobID, s)
  else .error .signedOverflow

/-- POLL_JOB. The reply prepared for the id -1 is overwritten by both branches below it. -/
def pollJob1Svc (argp : Int) (s : Coordinator) : Except Fault (PollJobReply × Coordinator) :=
  if argp ∈ s.jobs then
    match s.jobInfo.lookup argp with
    | none => .error .nullDereference
    | some job =>
      if job.done then .ok (⟨true,job.failed,false⟩, { s with jobs := s.jobs.erase argp })
      else .ok (⟨false,job.failed,false⟩, s)
  else .ok (⟨false,false,true⟩, s)

/-- An order in which an iterator may visit the records of a task table. -/
structure IterOrder where
  arrange : List Task → List Task
  perm : ∀ tasks, (arrange tasks).Perm tasks

def Job.tasks (job : Job) : List Task := job.taskInfo.entries.map Sigma.snd

def Task.timedOut (now : Int) (task : Task) : Bool :=
  taskTimeoutSecs ≤ now - task.startTime && !task.complete

/-- The submission's data, copied into the reply for every job that is not done. -/
def GetTaskReply.fill (result : GetTaskReply) (job : Job) : GetTaskReply :=
  { result with
    jobId := job.jobID
    outputDir := job.outputDir
    app := job.app
    argsLen := job.argsLen
    nReduce := job.nReduce
    nMap := job.nMap
    argsVal := job.argsVal }

def respond (result : GetTaskReply) (s : Coordinator) : Except Fault (GetTaskReply × Coordinator) :=
  .ok (result, { s with getTaskResult := result })

/-- A timed-out task is handed out again; its record stays as it is. -/
def reassign (task : Task) (result : GetTaskReply) (s : Coordinator) :
    Except Fault (GetTaskReply × Coordinator) :=
  if task.reduce then
    respond { result with wait := false, task := task.taskID, reduce := true } s
  else match task.file with
    | none => .error .nullDereference
    | some file =>
      respond { result with wait := false, task := task.taskID, file := file, reduce := false } s

def Job.mapAssignable (job : Job) : Bool :=
  job.nMapAssigned < job.nMap && job.nMapCompleted < job.nMap

def Job.reduceAssignable (job : Job) : Bool :=
  job.nMapCompleted == job.nMap && (job.nReduceAssigned : Int) < job.nReduce &&
    (job.nReduceCompleted : Int) < job.nReduce

def newTask (now : Int) (reduce : Bool) (jobID taskID : Int) (file : Option String) : Task :=
  ⟨now,false,reduce,jobID,taskID,false,file⟩

def Job.startMap (job : Job) (now : Int) (file : String) : Job :=
  { job with
    nMapAssigned := job.nMapAssigned + 1
    taskInfo := job.taskInfo.insert (job.nMapAssigned : Int)
      (newTask now false job.jobID job.nMapAssigned (some file)) }

/-- The same for a reduce task, filed in the same table under its own number. -/
def Job.startReduce (job : Job) (now : Int) : Job :=
  { job with
    nReduceAssigned := job.nReduceAssigned + 1
    taskInfo := job.taskInfo.insert (job.nReduceAssigned : Int)
      (newTask now true job.jobID job.nReduceAssigned none) }

def assignMap (now : Int) (id : Int) (job : Job) (result : GetTaskReply) (s : Coordinator) :
    Except Fault (GetTaskReply × Coordinator) :=
  match job.mapTasks.lookup (job.nMapAssigned : Int) with
  | none => .error .nullDereference
  | some file =>
    if (job.nMapAssigned : Int) < intMax then
      respond { result with task := job.nMapAssigned, file := file, reduce := false, wait := false }
        (s.setJob id (job.startMap now file))
    else .error .signedOverflow

def assignReduce (now : Int) (id : Int) (job : Job) (result : GetTaskReply) (s : Coordinator) :
    Except Fault (GetTaskReply × Coordinator) :=
  if (job.nReduceAssigned : Int) < intMax then
    respond { result with task := job.nReduceAssigned, reduce := true, wait := false }
      (s.setJob id (job.startReduce now))
  else .error .signedOverflow

/-- The loop over the queue. What a job without assignable work left in the reply
buffer stays there when the scan moves on. -/
def scanJobs (order : IterOrder) (now : Int) (s : Coordinator) :
    List Int → GetTaskReply → Except Fault (GetTaskReply × Coordinator)
  | [], result => respond result s
  | id :: rest, result =>
    match s.jobInfo.lookup id with
    | none => .error .nullDereference
    | some job =>
      if job.done then scanJobs order now s rest result
      else
        let result := result.fill job
        match (order.arrange job.tasks).find? (Task.timedOut now) with
        | some task => reassign task result s
        | none =>
          if job.mapAssignable then assignMap now id job result s
          else if job.reduceAssignable then assignReduce now id job result s
          else scanJobs order now s rest result

def getTask1Svc (order : IterOrder) (now : Int) (s : Coordinator) :
    Except Fault (GetTaskReply × Coordinator) :=
  scanJobs order now s s.jobs
    { s.getTaskResult with file := "", outputDir := "", app := "", wait := true, argsLen := 0 }

def Job.countCompletion (job : Job) (reduce : Bool) : Except Fault Job :=
  if reduce then
    if (job.nReduceCompleted : Int) < intMax then
      .ok { job with nReduceCompleted := job.nReduceCompleted + 1 }
    else .error .signedOverflow
  else if (job.nMapCompleted : Int) < intMax then
    .ok { job with nMapCompleted := job.nMapCompleted + 1 }
  else .error .signedOverflow

def Job.checkDone (job : Job) : Job :=
  if job.nMapCompleted = job.nMap ∧ (job.nReduceCompleted : Int) = job.nReduce then
    { job with done := true }
  else job

def Job.fail (job : Job) : Job := { job with failed := true, done := true }

/-- The record is marked through the pointer found under `key` and then filed again
under its own `taskID`. -/
def Job.finish (job : Job) (key : Int) (task : Task) (reduce : Bool) : Except Fault Job :=
  let task := { task with complete := true }
  let job := { job with taskInfo := job.taskInfo.insert key task }
  match job.countCompletion reduce with
  | .error fault => .error fault
  | .ok job =>
    let job := job.checkDone
    .ok { job with taskInfo := job.taskInfo.insert task.taskID task }

/-- FINISH_TASK. A request for an unknown job is ignored; the task lookup is unchecked. -/
def finishTask1Svc (argp : FinishTaskRequest) (s : Coordinator) : Except Fault Coordinator :=
  match s.jobInfo.lookup argp.jobId with
  | none => .ok s
  | some job =>
    if argp.success then
      match job.taskInfo.lookup argp.task with
      | none => .error .nullDereference
      | some task =>
        match job.finish argp.task task argp.reduce with
        | .error fault => .error fault
        | .ok job => .ok (s.setJob argp.jobId job)
    else .ok (s.setJob argp.jobId job.fail)

end OsProj.MapReduce
