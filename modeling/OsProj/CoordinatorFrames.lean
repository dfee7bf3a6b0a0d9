import OsProj.CoordinatorProgress

/-! What a request leaves alone, and what it does not: both kinds of task share one table
entry per number, and a rejected submission is queued like any other. -/
namespace OsProj.MapReduce

open OsProj.History

def Job.status (job : Job) (reduce : Bool) (t : Int) : Option Bool :=
  match job.taskInfo.lookup t with
  | some task => if task.reduce = reduce then some task.complete else none
  | none => none

def Coordinator.status (s : Coordinator) (k : Int) (reduce : Bool) (t : Int) : Option Bool :=
  match s.jobInfo.lookup k with
  | some job => job.status reduce t
  | none => none

theorem status_eq {s : Coordinator} (found : s.jobInfo.lookup k = some job)
    (atTask : job.taskInfo.lookup t = some task) (reduce : Bool) :
    s.status k reduce t = if task.reduce = reduce then some task.complete else none := by
  simp [Coordinator.status,found,Job.status,atTask]

/-- A report marks whatever record lies under its number. -/
theorem finish_keeps_reduce_iff (valid : Consistent h s) {argp : FinishTaskRequest}
    (success : argp.success = true) (step : Step h s (.finishTask argp) s') :
    s'.status argp.jobId true argp.task = s.status argp.jobId true argp.task ↔
      s.status argp.jobId true argp.task ≠ some false := by
  obtain ⟨job,found⟩ := valid.handed _ _ _ step.1
  have tracked := valid.tracked _ job found
  obtain ⟨job',found',moved⟩ := valid.lookup step argp.jobId job found
  cases moved with
  | otherFinish other => exact absurd rfl other
  | fail _ failure =>
    rw [success] at failure
    contradiction
  | finish _ _ atTask finished =>
    have after := tracked.finish_lookup atTask finished argp.task
    rw [if_pos rfl] at after
    rw [status_eq found atTask,status_eq found' after]
    split <;> simp

/-- The hand-out of a reduce task leaves a reduce record under its number. -/
theorem handOut_keeps_map_iff (valid : Consistent h s) {order : IterOrder} {now : Int}
    {r : GetTaskReply} (step : Step h s (.getTask order now r) s') (assigned : r.wait = false)
    (reduce : r.reduce = true) :
    s'.status r.jobId false r.task = s.status r.jobId false r.task ↔
      s.status r.jobId false r.task = none := by
  obtain ⟨job,job',chosen⟩ := valid.handsOut step.2 assigned
  have found' : s'.jobInfo.lookup r.jobId = some job' := by simpa using chosen.stored.2.2.2 r.jobId
  have tracked := valid.tracked r.jobId job chosen.found
  cases chosen.handOut with
  | again task member late number kind file =>
    obtain ⟨slot,atTask⟩ := (mem_tasks_iff job task).mp member
    have id := (tracked.record slot task atTask).1
    rw [← id,← number] at atTask
    rw [status_eq chosen.found atTask,status_eq found' atTask,← kind,reduce]
    simp
  | map unassigned file number kind =>
    rw [kind] at reduce
    contradiction
  | reduce unassigned number kind =>
    have after : (job.startReduce now).taskInfo.lookup r.task =
        some (newTask now true job.jobID job.nReduceAssigned none) := by
      rw [number]
      exact AList.lookup_insert _
    rw [status_eq found' after]
    exact eq_comm

/-- In every reachable state: a map report leaves the status of the reduce task with its
number alone exactly when that task is not recorded as incomplete, and handing out a
reduce task leaves the status of the map task with its number alone exactly when no map
record lies there. -/
theorem interference_iff (run : Run h s) :
    (∀ argp s', argp.reduce = false → argp.success = true → Step h s (.finishTask argp) s' →
      (s'.status argp.jobId true argp.task = s.status argp.jobId true argp.task ↔
        s.status argp.jobId true argp.task ≠ some false)) ∧
    (∀ order now r s', Step h s (.getTask order now r) s' → r.wait = false → r.reduce = true →
      (s'.status r.jobId false r.task = s.status r.jobId false r.task ↔
        s.status r.jobId false r.task = none)) := by
  have valid := run_consistent run
  exact ⟨fun argp s' _ success step => finish_keeps_reduce_iff valid success step,
    fun order now r s' step assigned reduce => handOut_keeps_map_iff valid step assigned reduce⟩

/-- One map task, handed out twice. -/
def oneFile : SubmitJobRequest := { wordCount with files := ["a.txt"] }

def reassigned : List Request :=
  [.submitJob oneFile [],.getTask .insertion 0,.getTask .insertion 10,.finishTask ⟨0,0,false,true⟩]

theorem interference_iff_reassigned :
    let reached := outcome reassigned
    ∃ r s', Step reached.1 reached.2 (.getTask .insertion 10 r) s' ∧ r.reduce = true ∧
      ¬s'.status r.jobId false r.task = reached.2.status r.jobId false r.task := by
  intro reached
  have run : Run reached.1 reached.2 := outcome_run _ (by decide)
  have answers : Answers (fun out => out.1.wait = false ∧ out.1.reduce = true ∧
      reached.2.status out.1.jobId false out.1.task ≠ none)
    (getTask1Svc .insertion 10 reached.2) := by decide
  obtain ⟨⟨r,s'⟩,served,assigned,reduce,recorded⟩ := answers.exists
  have step : Step reached.1 reached.2 (.getTask .insertion 10 r) s' :=
    ⟨show ∀ e ∈ reached.1, e.NotAfter 10 by decide,served⟩
  refine ⟨r,s',step,reduce,?_⟩
  rw [(interference_iff run).2 _ _ _ _ step assigned reduce]
  exact recorded

/-- The first reduce task of a job replaces the record of its first map task, and the late
second report of the map task completes the reduce task that is just running. -/
theorem map_and_reduce_records_collide :
    let before := outcome reassigned
    let handed := outcome (reassigned ++ [.getTask .insertion 10])
    (Run before.1 before.2 ∧ ∃ r s', Step before.1 before.2 (.getTask .insertion 10 r) s' ∧
      r.wait = false ∧ r.reduce = true ∧ r.jobId = 0 ∧ r.task = 0 ∧
      before.2.status 0 false 0 = some true ∧ s'.status 0 false 0 = none) ∧
    (Run handed.1 handed.2 ∧ ∃ s', Step handed.1 handed.2 (.finishTask ⟨0,0,false,true⟩) s' ∧
      handed.2.status 0 true 0 = some false ∧ s'.status 0 true 0 = some true) := by
  intro before handed
  have hands : Answers (fun out => out.1.wait = false ∧ out.1.reduce = true ∧
      out.1.jobId = 0 ∧ out.1.task = 0 ∧ before.2.status 0 false 0 = some true ∧
      out.2.status 0 false 0 = none) (getTask1Svc .insertion 10 before.2) := by decide
  have finishes : Answers (fun out => handed.2.status 0 true 0 = some false ∧
      out.status 0 true 0 = some true) (finishTask1Svc ⟨0,0,false,true⟩ handed.2) := by decide
  obtain ⟨⟨r,s'⟩,served,facts⟩ := hands.exists
  obtain ⟨s'',finished,statuses⟩ := finishes.exists
  exact ⟨⟨outcome_run _ (by decide),r,s',⟨show ∀ e ∈ before.1, e.NotAfter 10 by decide,served⟩,facts⟩,
    ⟨outcome_run _ (by decide),s'',⟨show HandedOut handed.1 0 0 false by decide,finished⟩,statuses⟩⟩

/-- A rejected submission leaves queue, job table and next id as they were, and no later
GET_TASK hands out a task under the id it used. -/
structure RejectedCleanly (h : List Event) (s s' : Coordinator) : Prop where
  jobs : s'.jobs = s.jobs
  jobInfo : s'.jobInfo = s.jobInfo
  counter : s'.counter = s.counter
  never : ∀ later s'', Path Step h s' (later ++ h) s'' →
    ∀ e ∈ later, ∀ t reduce, ¬e.HandsOut s.counter t reduce

/-- No rejected submission is clean: the application name is looked up when the job has
already been numbered, queued and filed. -/
theorem rejected_never_clean {argp : SubmitJobRequest} {behind : List UInt8}
    {s s' : Coordinator} {answer : Int} (unknown : getApp argp.app = none)
    (served : submitJob1Svc argp behind s = .ok (answer,s')) :
    answer = -1 ∧ ∀ h, ¬RejectedCleanly h s s' := by
  obtain ⟨_,_,rfl,rfl⟩ := submitJob_cases served
  refine ⟨by simp [unknown],?_⟩
  intro h clean
  have counted := clean.counter
  exact absurd counted (Nat.succ_ne_self _)

def unknownApp : SubmitJobRequest := { wordCount with app := "sort" }

theorem rejected_never_clean_unknownApp :
    ∃ s', submitJob1Svc unknownApp [] coordinatorInit = .ok (-1,s') ∧
      ∀ h, ¬RejectedCleanly h coordinatorInit s' := by
  have answers : Answers (fun _ => True) (submitJob1Svc unknownApp [] coordinatorInit) := by decide
  obtain ⟨⟨answer,s'⟩,served,_⟩ := answers.exists
  obtain ⟨rfl,unclean⟩ := rejected_never_clean (by decide) served
  exact ⟨s',served,unclean⟩

/-- Whatever the application, a submitted job with a file is served as soon as no job
before it has work. -/
theorem submitted_handed_out (run : Run h s) {argp : SubmitJobRequest} {behind : List UInt8}
    {answer : Int} (served : submitJob1Svc argp behind s = .ok (answer,s'))
    (files : argp.files ≠ []) (now : Int) (idle : ∀ i ∈ s.jobs, Idle s' now i) (order : IterOrder) :
    ∃ r s'', getTask1Svc order now s' = .ok (r,s'') ∧ r.wait = false ∧ r.jobId = s.counter := by
  have step : Step h s (.submitJob argp behind answer) s' := ⟨trivial,served⟩
  have valid := (run_consistent run).step step
  obtain ⟨_,_,rfl,_⟩ := submitJob_cases served
  have found : (s.jobInfo.insert (s.counter : Int) (newJob argp behind s.counter)).lookup
      (s.counter : Int) = some (newJob argp behind s.counter) := AList.lookup_insert _
  have tracked := valid.tracked _ _ found
  have positive : 0 < argp.files.length := List.length_pos_iff.mpr files
  have ready : (newJob argp behind s.counter).assignable now = true := by
    simp [Job.assignable,newJob,Job.mapAssignable,positive]
  obtain ⟨r,s'',assigned,wait,id⟩ := scanJobs_assigns found ready tracked.servable s.jobs [] idle
    { s.getTaskResult with file := "", outputDir := "", app := "", wait := true, argsLen := 0 }
  exact ⟨r,s'',assigned,wait,id.trans tracked.key⟩

/-- The rejected job is in the queue, and the next GET_TASK hands out its first task. -/
theorem rejected_job_is_served :
    let rejection := Event.submitJob unknownApp [] (-1)
    ∃ s', submitJob1Svc unknownApp [] coordinatorInit = .ok (-1,s') ∧
      s'.jobs ≠ coordinatorInit.jobs ∧ s'.counter ≠ coordinatorInit.counter ∧
      ∃ later s'', Path Step [rejection] s' (later ++ [rejection]) s'' ∧
        ∃ e ∈ later, e.HandsOut coordinatorInit.counter 0 false := by
  intro rejection
  have answers : Answers (fun out => out.1 = -1 ∧ out.2.jobs ≠ coordinatorInit.jobs ∧
      out.2.counter ≠ coordinatorInit.counter ∧
      Answers (fun out => out.1.wait = false ∧ out.1.jobId = 0 ∧ out.1.task = 0 ∧ out.1.reduce = false)
        (getTask1Svc .insertion 0 out.2))
    (submitJob1Svc unknownApp [] coordinatorInit) := by decide
  obtain ⟨⟨answer,s'⟩,served,rfl,jobs,counter,hands⟩ := answers.exists
  obtain ⟨⟨r,s''⟩,assigned,handsOut⟩ := hands.exists
  have step : Step [rejection] s' (.getTask .insertion 0 r) s'' :=
    ⟨by simp [Event.Admissible,rejection,Event.NotAfter],assigned⟩
  exact ⟨s',served,jobs,counter,[.getTask .insertion 0 r],s'',.snoc .refl step,
    .getTask .insertion 0 r,by simp,handsOut⟩

end OsProj.MapReduce
