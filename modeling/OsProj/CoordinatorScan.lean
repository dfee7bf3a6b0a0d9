import OsProj.Coordinator

/-! What one handled request can do. Each handler has one inversion lemma that lists
its outcomes with their guards; later modules argue from these lists and do not
unfold the handlers again. -/
namespace OsProj.MapReduce

theorem lookup_insert_eq [DecidableEq κ] (table : AList (fun _ : κ => ν)) (k k' : κ) (v : ν) :
    (table.insert k v).lookup k' = if k' = k then some v else table.lookup k' := by
  by_cases same : k' = k
  · subst k'
    simp [AList.lookup_insert]
  · simp [AList.lookup_insert_ne same,same]

@[simp] theorem setJob_jobs (s : Coordinator) (id : Int) (job : Job) :
    (s.setJob id job).jobs = s.jobs := rfl

@[simp] theorem setJob_counter (s : Coordinator) (id : Int) (job : Job) :
    (s.setJob id job).counter = s.counter := rfl

@[simp] theorem setJob_lookup (s : Coordinator) (id k : Int) (job : Job) :
    (s.setJob id job).jobInfo.lookup k = if k = id then some job else s.jobInfo.lookup k :=
  lookup_insert_eq _ _ _ _

theorem mem_tasks_iff (job : Job) (task : Task) :
    task ∈ job.tasks ↔ ∃ key, job.taskInfo.lookup key = some task := by
  simp only [Job.tasks,List.mem_map]
  constructor
  · rintro ⟨entry,member,rfl⟩
    exact ⟨entry.1,AList.mem_lookup_iff.mpr member⟩
  · rintro ⟨key,found⟩
    exact ⟨⟨key,task⟩,AList.mem_lookup_iff.mp found,rfl⟩

/-- The loop over the files stores each path under its index. -/
theorem insertFiles_lookup (first : Nat) (files : List String) (table : MapTasks) (key : Int) :
    (insertFiles first files table).lookup key =
      if (first : Int) ≤ key ∧ key < first + files.length then files[(key - first).toNat]?
      else table.lookup key := by
  induction files generalizing first table with
  | nil =>
    rw [if_neg (by simp only [List.length_nil]; omega)]
    rfl
  | cons file files ih =>
    rw [insertFiles,ih,lookup_insert_eq]
    simp only [List.length_cons]
    by_cases here : key = first
    · subst key
      rw [if_neg (by omega),if_pos rfl,if_pos (by omega)]
      simp
    · by_cases within : ((first + 1 : Nat) : Int) ≤ key ∧ key < (first + 1 : Nat) + files.length
      · rw [if_pos within,if_pos (by omega)]
        have shift : (key - first).toNat = (key - (first + 1 : Nat)).toNat + 1 := by omega
        rw [shift,List.getElem?_cons_succ]
      · rw [if_neg within,if_neg here,if_neg (by omega)]

/-- A job has work to assign by the coordinator's own records. -/
def Job.assignable (now : Int) (job : Job) : Bool :=
  !job.done && (job.tasks.any (Task.timedOut now) || job.mapAssignable || job.reduceAssignable)

def Idle (s : Coordinator) (now : Int) (id : Int) : Prop :=
  ∃ job, s.jobInfo.lookup id = some job ∧ job.assignable now = false

structure GetTaskReply.Names (r : GetTaskReply) (job : Job) : Prop where
  wait : r.wait = false
  jobId : r.jobId = job.jobID
  outputDir : r.outputDir = job.outputDir
  app : r.app = job.app
  nReduce : r.nReduce = job.nReduce
  nMap : r.nMap = job.nMap
  argsLen : r.argsLen = job.argsLen
  argsVal : r.argsVal = job.argsVal

/-- The three ways a task of the job filed under `id` is handed out, with the job's
record afterwards. -/
inductive HandOut (now : Int) (job : Job) (r : GetTaskReply) : Job → Prop where
  | again (task : Task) : task ∈ job.tasks → task.timedOut now = true →
      r.task = task.taskID → r.reduce = task.reduce →
      (task.reduce = false → task.file = some r.file) → HandOut now job r job
  | map : job.mapAssignable = true → job.mapTasks.lookup (job.nMapAssigned : Int) = some r.file →
      r.task = job.nMapAssigned → r.reduce = false → HandOut now job r (job.startMap now r.file)
  | reduce : job.reduceAssignable = true →
      r.task = job.nReduceAssigned → r.reduce = true → HandOut now job r (job.startReduce now)

/-- The state after a hand-out: one job record and the reply buffer may differ. -/
def Stored (s : Coordinator) (id : Int) (job : Job) (r : GetTaskReply) (s' : Coordinator) : Prop :=
  s'.jobs = s.jobs ∧ s'.counter = s.counter ∧ s'.getTaskResult = r ∧
    ∀ k, s'.jobInfo.lookup k = if k = id then some job else s.jobInfo.lookup k

theorem stored_respond (s : Coordinator) (id : Int) (job : Job) (r : GetTaskReply) :
    Stored s id job r { s.setJob id job with getTaskResult := r } :=
  ⟨rfl,rfl,rfl,fun k => setJob_lookup s id k job⟩

theorem stored_unchanged {s : Coordinator} {id : Int} {job : Job}
    (found : s.jobInfo.lookup id = some job) (r : GetTaskReply) :
    Stored s id job r { s with getTaskResult := r } := by
  refine ⟨rfl,rfl,rfl,?_⟩
  intro k
  by_cases same : k = id
  · subst k
    simpa using found
  · simp [same]

theorem reassign_handOut {s : Coordinator} {id : Int} {job : Job} {task : Task} {now : Int}
    {result r : GetTaskReply} {s' : Coordinator} (found : s.jobInfo.lookup id = some job)
    (member : task ∈ job.tasks) (late : task.timedOut now = true)
    (served : reassign task (result.fill job) s = .ok (r,s')) :
    r.Names job ∧ HandOut now job r job ∧ Stored s id job r s' := by
  unfold reassign at served
  split at served
  · rename_i kind
    obtain ⟨rfl,rfl⟩ := Prod.mk.inj (Except.ok.inj served)
    refine ⟨⟨rfl,rfl,rfl,rfl,rfl,rfl,rfl,rfl⟩,.again task member late rfl kind.symm ?_,
      stored_unchanged found _⟩
    intro impossible
    rw [kind] at impossible
    contradiction
  · rename_i kind
    split at served
    · contradiction
    · rename_i file atFile
      obtain ⟨rfl,rfl⟩ := Prod.mk.inj (Except.ok.inj served)
      exact ⟨⟨rfl,rfl,rfl,rfl,rfl,rfl,rfl,rfl⟩,
        .again task member late rfl (Bool.eq_false_iff.mpr kind).symm (fun _ => atFile),
        stored_unchanged found _⟩

theorem assignMap_handOut {s : Coordinator} {id : Int} {job : Job} {now : Int}
    {result r : GetTaskReply} {s' : Coordinator} (unassigned : job.mapAssignable = true)
    (served : assignMap now id job (result.fill job) s = .ok (r,s')) :
    r.Names job ∧ HandOut now job r (job.startMap now r.file) ∧
      Stored s id (job.startMap now r.file) r s' := by
  unfold assignMap at served
  split at served
  · contradiction
  · rename_i file atFile
    split at served
    · obtain ⟨rfl,rfl⟩ := Prod.mk.inj (Except.ok.inj served)
      exact ⟨⟨rfl,rfl,rfl,rfl,rfl,rfl,rfl,rfl⟩,.map unassigned atFile rfl rfl,stored_respond ..⟩
    · contradiction

theorem assignReduce_handOut {s : Coordinator} {id : Int} {job : Job} {now : Int}
    {result r : GetTaskReply} {s' : Coordinator} (unassigned : job.reduceAssignable = true)
    (served : assignReduce now id job (result.fill job) s = .ok (r,s')) :
    r.Names job ∧ HandOut now job r (job.startReduce now) ∧
      Stored s id (job.startReduce now) r s' := by
  unfold assignReduce at served
  split at served
  · obtain ⟨rfl,rfl⟩ := Prod.mk.inj (Except.ok.inj served)
    exact ⟨⟨rfl,rfl,rfl,rfl,rfl,rfl,rfl,rfl⟩,.reduce unassigned rfl rfl,stored_respond ..⟩
  · contradiction

theorem find_timedOut_none {order : IterOrder} {now : Int} {job : Job}
    (absent : (order.arrange job.tasks).find? (Task.timedOut now) = none) :
    job.tasks.any (Task.timedOut now) = false := by
  rw [List.find?_eq_none] at absent
  rw [List.any_eq_false]
  intro task member
  exact absent task ((order.perm job.tasks).mem_iff.mpr member)

structure Chosen (s : Coordinator) (now : Int) (queue : List Int) (r : GetTaskReply)
    (s' : Coordinator) (id : Int) (job job' : Job) : Prop where
  position : ∃ before after, queue = before ++ id :: after ∧ ∀ i ∈ before, Idle s now i
  found : s.jobInfo.lookup id = some job
  live : job.done = false
  names : r.Names job
  handOut : HandOut now job r job'
  stored : Stored s id job' r s'

/-- Every job was passed over: only the reply buffer has changed. -/
structure Exhausted (s : Coordinator) (now : Int) (queue : List Int) (r : GetTaskReply)
    (s' : Coordinator) : Prop where
  wait : r.wait = true
  unchanged : s' = { s with getTaskResult := r }
  idle : ∀ id ∈ queue, Idle s now id

/-- An idle job in front changes nothing about where the scan stops. -/
theorem skip_idle {s s' : Coordinator} {now id : Int} {rest : List Int} {r : GetTaskReply}
    (here : Idle s now id)
    (later : Exhausted s now rest r s' ∨ ∃ i job job', Chosen s now rest r s' i job job') :
    Exhausted s now (id :: rest) r s' ∨ ∃ i job job', Chosen s now (id :: rest) r s' i job job' := by
  rcases later with none | ⟨i,job,job',chosen⟩
  · exact .inl ⟨none.wait,none.unchanged,by simpa [here] using none.idle⟩
  · obtain ⟨before,after,rfl,idles⟩ := chosen.position
    refine .inr ⟨i,job,job',{ chosen with position := ⟨id :: before,after,rfl,?_⟩ }⟩
    simpa [here] using idles

theorem scanJobs_cases {order : IterOrder} {now : Int} {s s' : Coordinator} {queue : List Int}
    {result r : GetTaskReply} (waiting : result.wait = true)
    (served : scanJobs order now s queue result = .ok (r,s')) :
    Exhausted s now queue r s' ∨ ∃ id job job', Chosen s now queue r s' id job job' := by
  induction queue generalizing result with
  | nil =>
    obtain ⟨rfl,rfl⟩ := Prod.mk.inj (Except.ok.inj served)
    exact .inl ⟨waiting,rfl,by simp⟩
  | cons id rest ih =>
    unfold scanJobs at served
    split at served
    · contradiction
    rename_i job found
    split at served
    · rename_i isDone
      exact skip_idle ⟨job,found,by simp [Job.assignable,isDone]⟩ (ih waiting served)
    rename_i notDone
    have live : job.done = false := Bool.eq_false_iff.mpr notDone
    have first : ∃ before after, id :: rest = before ++ id :: after ∧ ∀ i ∈ before, Idle s now i :=
      ⟨[],rest,rfl,by simp⟩
    dsimp only at served
    split at served
    · rename_i task chosen
      have member := (order.perm job.tasks).mem_iff.mp (List.mem_of_find?_eq_some chosen)
      obtain ⟨names,handOut,stored⟩ :=
        reassign_handOut found member (List.find?_some chosen) served
      exact .inr ⟨id,job,_,first,found,live,names,handOut,stored⟩
    rename_i absent
    split at served
    · rename_i unassigned
      obtain ⟨names,handOut,stored⟩ := assignMap_handOut unassigned served
      exact .inr ⟨id,job,_,first,found,live,names,handOut,stored⟩
    rename_i noMap
    split at served
    · rename_i unassigned
      obtain ⟨names,handOut,stored⟩ := assignReduce_handOut unassigned served
      exact .inr ⟨id,job,_,first,found,live,names,handOut,stored⟩
    rename_i noReduce
    have idle : job.assignable now = false := by
      simp [Job.assignable,find_timedOut_none absent,noMap,noReduce]
    have still : (result.fill job).wait = true := waiting
    exact skip_idle ⟨job,found,idle⟩ (ih still served)

/-- Every outcome of GET_TASK. -/
theorem getTask_cases {order : IterOrder} {now : Int} {s s' : Coordinator} {r : GetTaskReply}
    (served : getTask1Svc order now s = .ok (r,s')) :
    Exhausted s now s.jobs r s' ∨ ∃ id job job', Chosen s now s.jobs r s' id job job' :=
  scanJobs_cases rfl served

/-- A job's records can be served: its next map file is stored, map records carry their
file and no assignment counter is at its limit. -/
structure Job.Servable (job : Job) : Prop where
  file : job.mapAssignable = true → ∃ file, job.mapTasks.lookup (job.nMapAssigned : Int) = some file
  mapRoom : job.mapAssignable = true → (job.nMapAssigned : Int) < intMax
  reduceRoom : job.reduceAssignable = true → (job.nReduceAssigned : Int) < intMax
  record : ∀ task ∈ job.tasks, task.reduce = false → ∃ file, task.file = some file

/-- An idle job is passed over, whatever the iteration order. -/
theorem scanJobs_skips {now : Int} {s : Coordinator} {id : Int} (order : IterOrder) (rest : List Int) (idle : Idle s now id)
    (result : GetTaskReply) :
    ∃ result', scanJobs order now s (id :: rest) result = scanJobs order now s rest result' := by
  obtain ⟨job,found,nothing⟩ := idle
  simp only [scanJobs,found]
  cases isDone : job.done
  · have quiet : job.tasks.any (Task.timedOut now) = false ∧
        job.mapAssignable = false ∧ job.reduceAssignable = false := by
      simpa [Job.assignable,isDone,and_assoc] using nothing
    have absent : (order.arrange job.tasks).find? (Task.timedOut now) = none := by
      rw [List.find?_eq_none]
      intro task member
      exact List.any_eq_false.mp quiet.1 task ((order.perm job.tasks).mem_iff.mp member)
    simp only [absent,quiet.2.1,quiet.2.2,Bool.false_eq_true,↓reduceIte]
    exact ⟨_,rfl⟩
  · exact ⟨result,by simp only [↓reduceIte]⟩

/-- Progress of the scan: work behind idle jobs is found, whatever the iteration order. -/
theorem scanJobs_assigns {order : IterOrder} {now : Int} {s : Coordinator} {id : Int} {job : Job}
    (found : s.jobInfo.lookup id = some job) (ready : job.assignable now = true)
    (servable : job.Servable) (before after : List Int) (idle : ∀ i ∈ before, Idle s now i)
    (result : GetTaskReply) :
    ∃ r s', scanJobs order now s (before ++ id :: after) result = .ok (r,s') ∧
      r.wait = false ∧ r.jobId = job.jobID := by
  induction before generalizing result with
  | nil =>
    have live : job.done = false := by
      cases isDone : job.done
      · rfl
      · simp [Job.assignable,isDone] at ready
    simp only [List.nil_append,scanJobs,found,live,Bool.false_eq_true,↓reduceIte]
    cases chosen : (order.arrange job.tasks).find? (Task.timedOut now) with
    | some task =>
      have member := (order.perm job.tasks).mem_iff.mp (List.mem_of_find?_eq_some chosen)
      cases kind : task.reduce
      · obtain ⟨file,atFile⟩ := servable.record task member kind
        simp [reassign,kind,atFile,respond,GetTaskReply.fill]
      · simp [reassign,kind,respond,GetTaskReply.fill]
    | none =>
      have absent := find_timedOut_none chosen
      cases maps : job.mapAssignable
      · have reduces : job.reduceAssignable = true := by
          simpa [Job.assignable,live,absent,maps] using ready
        simp [reduces,assignReduce,servable.reduceRoom reduces,respond,GetTaskReply.fill]
      · obtain ⟨file,atFile⟩ := servable.file maps
        simp [assignMap,atFile,servable.mapRoom maps,respond,GetTaskReply.fill]
  | cons first before ih =>
    obtain ⟨result',skipped⟩ := scanJobs_skips order (before ++ id :: after) (idle first (by simp)) result
    rw [List.cons_append,skipped]
    exact ih (fun i member => idle i (by simp [member])) result'

/-- SUBMIT_JOB changes the same three fields whether or not the application is known. -/
theorem submitJob_cases {argp : SubmitJobRequest} {behind : List UInt8} {s s' : Coordinator}
    {answer : Int} (served : submitJob1Svc argp behind s = .ok (answer,s')) :
    (argp.files.length : Int) ≤ intMax ∧ (s.counter : Int) < intMax ∧
    s' = { s with
      counter := s.counter + 1
      jobs := s.jobs ++ [(s.counter : Int)]
      jobInfo := s.jobInfo.insert (s.counter : Int) (newJob argp behind s.counter) } ∧
    answer = if getApp argp.app = none then -1 else (s.counter : Int) := by
  unfold submitJob1Svc at served
  split at served
  · contradiction
  rename_i fits
  split at served
  · rename_i room
    dsimp only at served
    split at served
    · rename_i unknown
      obtain ⟨rfl,rfl⟩ := Prod.mk.inj (Except.ok.inj served)
      exact ⟨by omega,room,rfl,by simp [unknown]⟩
    · rename_i app known
      obtain ⟨rfl,rfl⟩ := Prod.mk.inj (Except.ok.inj served)
      exact ⟨by omega,room,rfl,by simp [known,newJob]⟩
  · contradiction

/-- POLL_JOB answers from the queue, and takes a done job out of it. -/
theorem pollJob_cases {k : Int} {s s' : Coordinator} {answer : PollJobReply}
    (served : pollJob1Svc k s = .ok (answer,s')) :
    (k ∉ s.jobs ∧ answer = ⟨false,false,true⟩ ∧ s' = s) ∨
    (k ∈ s.jobs ∧ ∃ job, s.jobInfo.lookup k = some job ∧ answer = ⟨job.done,job.failed,false⟩ ∧
      s' = if job.done then { s with jobs := s.jobs.erase k } else s) := by
  unfold pollJob1Svc at served
  split at served
  · rename_i queued
    split at served
    · contradiction
    rename_i job found
    refine .inr ⟨queued,job,found,?_⟩
    split at served
    · rename_i isDone
      obtain ⟨rfl,rfl⟩ := Prod.mk.inj (Except.ok.inj served)
      simp [isDone]
    · rename_i notDone
      obtain ⟨rfl,rfl⟩ := Prod.mk.inj (Except.ok.inj served)
      simp [Bool.eq_false_iff.mpr notDone]
  · rename_i absent
    obtain ⟨rfl,rfl⟩ := Prod.mk.inj (Except.ok.inj served)
    exact .inl ⟨absent,rfl,rfl⟩

theorem finishTask_cases {argp : FinishTaskRequest} {s s' : Coordinator}
    (served : finishTask1Svc argp s = .ok s') :
    (s.jobInfo.lookup argp.jobId = none ∧ s' = s) ∨
    (∃ job, s.jobInfo.lookup argp.jobId = some job ∧ argp.success = false ∧
      s' = s.setJob argp.jobId job.fail) ∨
    (∃ job task job', s.jobInfo.lookup argp.jobId = some job ∧ argp.success = true ∧
      job.taskInfo.lookup argp.task = some task ∧
      job.finish argp.task task argp.reduce = .ok job' ∧ s' = s.setJob argp.jobId job') := by
  unfold finishTask1Svc at served
  split at served
  · rename_i absent
    exact .inl ⟨absent,(Except.ok.inj served).symm⟩
  rename_i job found
  split at served
  · rename_i success
    split at served
    · contradiction
    rename_i task atTask
    split at served
    · contradiction
    rename_i job' finished
    exact .inr (.inr ⟨job,task,job',found,success,atTask,finished,(Except.ok.inj served).symm⟩)
  · rename_i failure
    exact .inr (.inl ⟨job,found,Bool.eq_false_iff.mpr failure,(Except.ok.inj served).symm⟩)

structure SameSubmission (job job' : Job) : Prop where
  jobID : job'.jobID = job.jobID
  nReduce : job'.nReduce = job.nReduce
  nMap : job'.nMap = job.nMap
  argsLen : job'.argsLen = job.argsLen
  argsVal : job'.argsVal = job.argsVal
  app : job'.app = job.app
  outputDir : job'.outputDir = job.outputDir
  mapTasks : job'.mapTasks = job.mapTasks

theorem SameSubmission.refl (job : Job) : SameSubmission job job :=
  ⟨rfl,rfl,rfl,rfl,rfl,rfl,rfl,rfl⟩

theorem SameSubmission.trans (first : SameSubmission a b) (second : SameSubmission b c) :
    SameSubmission a c :=
  ⟨second.jobID.trans first.jobID,second.nReduce.trans first.nReduce,second.nMap.trans first.nMap,
    second.argsLen.trans first.argsLen,second.argsVal.trans first.argsVal,
    second.app.trans first.app,second.outputDir.trans first.outputDir,
    second.mapTasks.trans first.mapTasks⟩

theorem startMap_same (job : Job) (now : Int) (file : String) :
    SameSubmission job (job.startMap now file) := ⟨rfl,rfl,rfl,rfl,rfl,rfl,rfl,rfl⟩

theorem startReduce_same (job : Job) (now : Int) : SameSubmission job (job.startReduce now) :=
  ⟨rfl,rfl,rfl,rfl,rfl,rfl,rfl,rfl⟩

theorem fail_same (job : Job) : SameSubmission job job.fail := ⟨rfl,rfl,rfl,rfl,rfl,rfl,rfl,rfl⟩

structure Finished (job : Job) (key : Int) (task : Task) (reduce : Bool) (job' : Job) : Prop where
  submission : SameSubmission job job'
  taskInfo : ∀ k, job'.taskInfo.lookup k =
    if k = task.taskID ∨ k = key then some { task with complete := true } else job.taskInfo.lookup k
  nMapAssigned : job'.nMapAssigned = job.nMapAssigned
  nReduceAssigned : job'.nReduceAssigned = job.nReduceAssigned
  nMapCompleted : job'.nMapCompleted = job.nMapCompleted + if reduce then 0 else 1
  nReduceCompleted : job'.nReduceCompleted = job.nReduceCompleted + if reduce then 1 else 0
  done : job'.done = (job.done ||
    (job'.nMapCompleted = job'.nMap ∧ (job'.nReduceCompleted : Int) = job'.nReduce : Bool))
  failed : job'.failed = job.failed

theorem checkDone_fields (job : Job) :
    job.checkDone = { job with done := job.done ||
      (job.nMapCompleted = job.nMap ∧ (job.nReduceCompleted : Int) = job.nReduce : Bool) } := by
  unfold Job.checkDone
  split
  · rename_i full
    simp [full]
  · rename_i short
    simp [short]

theorem finish_finished {job job' : Job} {key : Int} {task : Task} {reduce : Bool}
    (finished : job.finish key task reduce = .ok job') : Finished job key task reduce job' := by
  have table (k : Int) : ((job.taskInfo.insert key { task with complete := true }).insert
      task.taskID { task with complete := true }).lookup k =
      if k = task.taskID ∨ k = key then some { task with complete := true }
      else job.taskInfo.lookup k := by
    rw [lookup_insert_eq,lookup_insert_eq]
    by_cases own : k = task.taskID <;> by_cases asked : k = key <;> simp [own,asked]
  unfold Job.finish at finished
  dsimp only at finished
  split at finished
  · contradiction
  rename_i counted atCount
  rw [checkDone_fields] at finished
  obtain rfl := Except.ok.inj finished
  unfold Job.countCompletion at atCount
  cases reduce
  · simp only [Bool.false_eq_true,↓reduceIte] at atCount
    split at atCount
    · obtain rfl := Except.ok.inj atCount
      exact ⟨⟨rfl,rfl,rfl,rfl,rfl,rfl,rfl,rfl⟩,table,rfl,rfl,rfl,rfl,rfl,rfl⟩
    · contradiction
  · simp only [↓reduceIte] at atCount
    split at atCount
    · obtain rfl := Except.ok.inj atCount
      exact ⟨⟨rfl,rfl,rfl,rfl,rfl,rfl,rfl,rfl⟩,table,rfl,rfl,rfl,rfl,rfl,rfl⟩
    · contradiction

end OsProj.MapReduce
