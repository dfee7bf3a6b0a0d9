import OsProj.CoordinatorRun

/-! What the coordinator's records say about the run so far, in every reachable state:
each job keeps its submission, its assignment counters enumerate the tasks handed out
and its task table holds a record for each of them. -/
namespace OsProj.MapReduce

open OsProj.History

def Job.assigned (job : Job) (reduce : Bool) : Nat :=
  if reduce then job.nReduceAssigned else job.nMapAssigned

def Job.size (job : Job) (reduce : Bool) : Int := if reduce then job.nReduce else job.nMap

structure Tracked (h : List Event) (k : Int) (job : Job) : Prop where
  submitted : ∃ argp behind, submission h k = some argp ∧ (argp.files.length : Int) ≤ intMax ∧
    SameSubmission (newJob argp behind k.toNat) job
  natural : 0 ≤ k
  assigned_le : ∀ reduce, (job.assigned reduce : Int) ≤ max 0 (job.size reduce)
  handed : ∀ t reduce, HandedOut h k t reduce ↔ 0 ≤ t ∧ t < job.assigned reduce
  recorded : ∀ t reduce, HandedOut h k t reduce → ∃ task, job.taskInfo.lookup t = some task
  record : ∀ t task, job.taskInfo.lookup t = some task →
    task.taskID = t ∧ HandedOut h k t task.reduce ∧
      (task.reduce = false → task.file = job.mapTasks.lookup t)
  reported : ∀ t reduce, Reported h k t reduce → HandedOut h k t reduce

theorem Tracked.key (tracked : Tracked h k job) : job.jobID = k := by
  obtain ⟨argp,behind,_,_,same⟩ := tracked.submitted
  rw [same.jobID]
  have := tracked.natural
  simp only [newJob]
  omega

/-- The files are stored under exactly the map task numbers. -/
theorem Tracked.mapTasks (tracked : Tracked h k job) :
    ∃ argp, submission h k = some argp ∧ job.nMap = argp.files.length ∧
      ∀ t, job.mapTasks.lookup t = if 0 ≤ t ∧ t < job.nMap then argp.files[t.toNat]? else none := by
  obtain ⟨argp,behind,known,_,same⟩ := tracked.submitted
  refine ⟨argp,known,same.nMap,?_⟩
  intro t
  rw [same.mapTasks,same.nMap]
  simpa [newJob] using insertFiles_lookup 0 argp.files ∅ t

/-- An event that names no new task of job `k` leaves what is known about it as it was. -/
theorem Tracked.unaffected (tracked : Tracked h k job) (e : Event)
    (handsOut : ∀ t reduce, e.HandsOut k t reduce → HandedOut h k t reduce)
    (reports : ∀ t reduce, e.Reports k t reduce → HandedOut h k t reduce) :
    Tracked (e :: h) k job := by
  have handed (t : Int) (reduce : Bool) : HandedOut (e :: h) k t reduce ↔ HandedOut h k t reduce := by
    rw [handedOut_cons]
    exact ⟨fun either => either.elim (handsOut t reduce) id,.inr⟩
  obtain ⟨argp,behind,known,fits,same⟩ := tracked.submitted
  constructor
  · exact ⟨argp,behind,submission_cons e known,fits,same⟩
  · exact tracked.natural
  · exact tracked.assigned_le
  · simpa only [handed] using tracked.handed
  · simpa only [handed] using tracked.recorded
  · simpa only [handed] using tracked.record
  · intro t reduce reported
    rw [handed]
    exact (reported_cons.mp reported).elim (reports t reduce) (tracked.reported t reduce)

/-- Changes to counters of completions, flags and completion marks are not tracked here. -/
theorem Tracked.transfer (tracked : Tracked h k job) {job' : Job} (same : SameSubmission job job')
    (assigned : ∀ reduce, job'.assigned reduce = job.assigned reduce)
    (kept : ∀ t task, job.taskInfo.lookup t = some task → ∃ task', job'.taskInfo.lookup t = some task')
    (origin : ∀ t task', job'.taskInfo.lookup t = some task' →
      ∃ task, job.taskInfo.lookup t = some task ∧
        task'.taskID = task.taskID ∧ task'.reduce = task.reduce ∧ task'.file = task.file) :
    Tracked h k job' := by
  obtain ⟨argp,behind,known,fits,original⟩ := tracked.submitted
  constructor
  · exact ⟨argp,behind,known,fits,original.trans same⟩
  · exact tracked.natural
  · intro reduce
    have size : job'.size reduce = job.size reduce := by simp [Job.size,same.nReduce,same.nMap]
    rw [assigned,size]
    exact tracked.assigned_le reduce
  · intro t reduce
    rw [assigned]
    exact tracked.handed t reduce
  · intro t reduce handed
    obtain ⟨task,found⟩ := tracked.recorded t reduce handed
    exact kept t task found
  · intro t task' found'
    obtain ⟨task,found,id,kind,file⟩ := origin t task' found'
    rw [id,kind,file,same.mapTasks]
    exact tracked.record t task found
  · exact tracked.reported

theorem tracked_fresh (argp : SubmitJobRequest) (behind : List UInt8) (answer : Int)
    (fits : (argp.files.length : Int) ≤ intMax)
    (unknown : ∀ t reduce, ¬HandedOut h (submissions h).length t reduce)
    (silent : ∀ t reduce, ¬Reported h (submissions h).length t reduce) :
    Tracked (.submitJob argp behind answer :: h) ((submissions h).length : Int)
      (newJob argp behind (submissions h).length) := by
  constructor
  · exact ⟨argp,behind,by simp [submission,submissions],fits,.refl _⟩
  · omega
  · intro reduce
    have none : (newJob argp behind (submissions h).length).assigned reduce = 0 := by
      cases reduce <;> rfl
    rw [none]
    omega
  · intro t reduce
    cases reduce <;> simp [Event.HandsOut,unknown,Job.assigned,newJob]
  · simp [Event.HandsOut,unknown]
  · simp [newJob]
  · simp [Event.HandsOut,Event.Reports,unknown,silent]

/-- A first hand-out adds the next number of its kind and its record. -/
theorem Tracked.start (tracked : Tracked h k job) (reduce : Bool) {job' : Job} {task : Task}
    {r : GetTaskReply} {order : IterOrder} {now : Int} (names : r.Names job)
    (number : r.task = job.assigned reduce) (kind : r.reduce = reduce)
    (room : (job.assigned reduce : Int) < job.size reduce)
    (same : SameSubmission job job')
    (next : job'.assigned reduce = job.assigned reduce + 1)
    (other : job'.assigned (!reduce) = job.assigned (!reduce))
    (table : ∀ t, job'.taskInfo.lookup t =
      if t = job.assigned reduce then some task else job.taskInfo.lookup t)
    (ownID : task.taskID = job.assigned reduce) (ownKind : task.reduce = reduce)
    (ownFile : reduce = false → task.file = job.mapTasks.lookup (job.assigned reduce : Int)) :
    Tracked (.getTask order now r :: h) k job' := by
  obtain ⟨argp,behind,known,fits,original⟩ := tracked.submitted
  have key : r.jobId = k := names.jobId.trans tracked.key
  have handsOut (t : Int) (kind' : Bool) :
      (Event.getTask order now r).HandsOut k t kind' ↔ t = job.assigned reduce ∧ kind' = reduce := by
    simp only [Event.HandsOut,names.wait,key,number,kind,true_and]
    constructor
    · rintro ⟨rfl,rfl⟩; exact ⟨rfl,rfl⟩
    · rintro ⟨rfl,rfl⟩; exact ⟨rfl,rfl⟩
  constructor
  · exact ⟨argp,behind,submission_cons _ known,fits,original.trans same⟩
  · exact tracked.natural
  · intro kind'
    have size : job'.size kind' = job.size kind' := by simp [Job.size,same.nReduce,same.nMap]
    rw [size]
    by_cases own : kind' = reduce
    · subst own
      omega
    · obtain rfl : kind' = !reduce := by cases kind' <;> cases reduce <;> simp_all
      rw [other]
      exact tracked.assigned_le _
  · intro t kind'
    rw [handedOut_cons,handsOut,tracked.handed]
    by_cases own : kind' = reduce
    · subst own
      rw [next]
      simp only [and_true]
      omega
    · obtain rfl : kind' = !reduce := by cases kind' <;> cases reduce <;> simp_all
      rw [other]
      simp
  · intro t kind' handed
    rw [table]
    split
    · exact ⟨task,rfl⟩
    · rename_i earlier
      rw [handedOut_cons,handsOut] at handed
      rcases handed with ⟨now',_⟩ | handed
      · exact absurd now' earlier
      · exact tracked.recorded t kind' handed
  · intro t record found
    rw [table] at found
    rw [handedOut_cons,handsOut,same.mapTasks]
    split at found
    · rename_i this
      obtain rfl := Option.some.inj found
      subst this
      exact ⟨ownID,.inl ⟨rfl,ownKind⟩,fun map => ownFile (ownKind.symm.trans map)⟩
    · obtain ⟨id,handed,file⟩ := tracked.record t record found
      exact ⟨id,.inr handed,file⟩
  · intro t kind' reported
    rw [reported_cons] at reported
    rcases reported with impossible | reported
    · exact absurd impossible (by simp [Event.Reports])
    · exact handedOut_cons.mpr (.inr (tracked.reported t kind' reported))

theorem mapAssignable_iff {job : Job} : job.mapAssignable = true ↔
    job.nMapAssigned < job.nMap ∧ job.nMapCompleted < job.nMap := by
  simp [Job.mapAssignable]

theorem reduceAssignable_iff {job : Job} : job.reduceAssignable = true ↔
    job.nMapCompleted = job.nMap ∧ (job.nReduceAssigned : Int) < job.nReduce ∧
      (job.nReduceCompleted : Int) < job.nReduce := by
  simp [Job.reduceAssignable,and_assoc]

theorem Tracked.handOut (tracked : Tracked h k job) {r : GetTaskReply} {now : Int} {job' : Job}
    {order : IterOrder} (names : r.Names job) (handOut : HandOut now job r job') :
    Tracked (.getTask order now r :: h) k job' := by
  cases handOut with
  | again task member late number kind file =>
    obtain ⟨key,found⟩ := (mem_tasks_iff job task).mp member
    obtain ⟨id,handed,_⟩ := tracked.record key task found
    apply tracked.unaffected
    · rintro t reduce ⟨_,_,rfl,rfl⟩
      rw [number,kind,id]
      exact handed
    · intro t reduce impossible
      exact impossible.elim
  | map unassigned file number kind =>
    refine tracked.start false names number kind ?_ (startMap_same job now r.file) rfl rfl
      (fun t => lookup_insert_eq _ _ _ _) rfl rfl (fun _ => file.symm)
    exact Int.ofNat_lt.mpr (mapAssignable_iff.mp unassigned).1
  | reduce unassigned number kind =>
    exact tracked.start true names number kind (reduceAssignable_iff.mp unassigned).2.1
      (startReduce_same job now) rfl rfl (fun t => lookup_insert_eq _ _ _ _) rfl rfl
      (fun impossible => by contradiction)

theorem Tracked.fail (tracked : Tracked h k job) : Tracked h k job.fail :=
  tracked.transfer (fail_same job) (fun _ => rfl) (fun _ task found => ⟨task,found⟩)
    (fun _ task found => ⟨task,found,rfl,rfl,rfl⟩)

/-- In reachable states the two insertions of FINISH_TASK hit one entry. -/
theorem Tracked.finish_lookup (tracked : Tracked h k job)
    (found : job.taskInfo.lookup slot = some task)
    (finished : Finished job slot task reduce job') (t : Int) :
    job'.taskInfo.lookup t =
      if t = slot then some { task with complete := true } else job.taskInfo.lookup t := by
  have id : task.taskID = slot := (tracked.record slot task found).1
  rw [finished.taskInfo]
  by_cases same : t = slot
  · rw [if_pos (.inr same),if_pos same]
  · rw [if_neg (by simp [id,same]),if_neg same]

theorem Tracked.finish (tracked : Tracked h k job) (found : job.taskInfo.lookup slot = some task)
    (finished : Finished job slot task reduce job') : Tracked h k job' := by
  apply tracked.transfer finished.submission
  · intro kind
    simp [Job.assigned,finished.nMapAssigned,finished.nReduceAssigned]
  · intro t record atRecord
    rw [tracked.finish_lookup found finished]
    split
    · exact ⟨_,rfl⟩
    · exact ⟨record,atRecord⟩
  · intro t record atRecord
    rw [tracked.finish_lookup found finished] at atRecord
    split at atRecord
    · rename_i same
      obtain rfl := Option.some.inj atRecord
      subst same
      exact ⟨task,found,rfl,rfl,rfl⟩
    · exact ⟨record,atRecord,rfl,rfl,rfl⟩

theorem Tracked.step (tracked : Tracked h k job) (step : JobStep k e job job')
    (admissible : e.Admissible h) : Tracked (e :: h) k job' := by
  cases step with
  | submitJob | pollJob =>
    exact tracked.unaffected _ (fun _ _ impossible => impossible.elim)
      (fun _ _ impossible => impossible.elim)
  | wait waiting =>
    refine tracked.unaffected _ ?_ (fun _ _ impossible => impossible.elim)
    rintro t reduce ⟨assigned,_⟩
    rw [waiting] at assigned
    contradiction
  | otherTask other =>
    refine tracked.unaffected _ ?_ (fun _ _ impossible => impossible.elim)
    rintro t reduce ⟨_,own,_⟩
    exact absurd own other
  | handOut live names own handOut => exact tracked.handOut names handOut
  | otherFinish other =>
    refine tracked.unaffected _ (fun _ _ impossible => impossible.elim) ?_
    rintro t reduce rfl
    exact absurd rfl other
  | fail own failure =>
    refine Tracked.fail (tracked.unaffected _ (fun _ _ impossible => impossible.elim) ?_)
    rintro t reduce rfl
    contradiction
  | finish own success found finished =>
    refine Tracked.finish (tracked.unaffected _ (fun _ _ impossible => impossible.elim) ?_) found finished
    rintro t reduce rfl
    exact admissible

/-- A job that is done stays done. -/
theorem JobStep.done (step : JobStep k e job job') (isDone : job.done = true) : job'.done = true := by
  cases step with
  | handOut live => simp [live] at isDone
  | fail => rfl
  | finish own success found finished => rw [finished.done,isDone]; rfl
  | _ => exact isDone

theorem JobStep.live (step : JobStep k e job job') (live : job'.done = false) : job.done = false := by
  rw [Bool.eq_false_iff]
  intro isDone
  rw [step.done isDone] at live
  contradiction

/-- What a step does to the job counter and to the queue. -/
theorem served_queue {e : Event} {s s' : Coordinator} (served : e.Served s s') :
    (∃ argp behind answer, e = .submitJob argp behind answer ∧ s'.counter = s.counter + 1 ∧
      s'.jobs = s.jobs ++ [(s.counter : Int)] ∧ (argp.files.length : Int) ≤ intMax) ∨
    (∃ k answer job, e = .pollJob k answer ∧ s.jobInfo.lookup k = some job ∧ job.done = true ∧
      s'.counter = s.counter ∧ s'.jobs = s.jobs.erase k) ∨
    ((∀ argp behind answer, e ≠ .submitJob argp behind answer) ∧
      s'.counter = s.counter ∧ s'.jobs = s.jobs) := by
  cases e with
  | submitJob argp behind answer =>
    obtain ⟨fits,_,rfl,_⟩ := submitJob_cases served
    exact .inl ⟨argp,behind,answer,rfl,rfl,rfl,fits⟩
  | pollJob k answer =>
    rcases pollJob_cases served with ⟨_,_,rfl⟩ | ⟨_,job,found,_,rfl⟩
    · exact .inr (.inr ⟨by simp,rfl,rfl⟩)
    · by_cases isDone : job.done = true
      · exact .inr (.inl ⟨k,answer,job,rfl,found,isDone,by simp [isDone],by simp [isDone]⟩)
      · exact .inr (.inr ⟨by simp,by simp [isDone],by simp [isDone]⟩)
  | getTask order now r =>
    rcases getTask_cases served with none | ⟨id,job,job',chosen⟩
    · exact .inr (.inr ⟨by simp,by rw [none.unchanged],by rw [none.unchanged]⟩)
    · exact .inr (.inr ⟨by simp,chosen.stored.2.1,chosen.stored.1⟩)
  | finishTask argp =>
    rcases finishTask_cases served with ⟨_,rfl⟩ | ⟨_,_,_,rfl⟩ | ⟨_,_,_,_,_,_,_,rfl⟩
    all_goals exact .inr (.inr ⟨by simp,rfl,rfl⟩)

theorem step_queue (step : Step h s e s') :
    (∃ argp behind answer, e = .submitJob argp behind answer ∧ s'.counter = s.counter + 1 ∧
      s'.jobs = s.jobs ++ [(s.counter : Int)] ∧ (argp.files.length : Int) ≤ intMax) ∨
    (∃ k answer job, e = .pollJob k answer ∧ s.jobInfo.lookup k = some job ∧ job.done = true ∧
      s'.counter = s.counter ∧ s'.jobs = s.jobs.erase k) ∨
    ((∀ argp behind answer, e ≠ .submitJob argp behind answer) ∧
      s'.counter = s.counter ∧ s'.jobs = s.jobs) := served_queue step.2

structure Consistent (h : List Event) (s : Coordinator) : Prop where
  counter : s.counter = (submissions h).length
  known : ∀ k, (∃ job, s.jobInfo.lookup k = some job) ↔ 0 ≤ k ∧ k < s.counter
  tracked : ∀ k job, s.jobInfo.lookup k = some job → Tracked h k job
  handed : ∀ k t reduce, HandedOut h k t reduce → ∃ job, s.jobInfo.lookup k = some job
  reported : ∀ k t reduce, Reported h k t reduce → ∃ job, s.jobInfo.lookup k = some job
  nodup : s.jobs.Nodup
  queued : ∀ k ∈ s.jobs, ∃ job, s.jobInfo.lookup k = some job
  live : ∀ k job, s.jobInfo.lookup k = some job → job.done = false → k ∈ s.jobs

theorem Consistent.keyed (valid : Consistent h s) (k : Int) (job : Job)
    (found : s.jobInfo.lookup k = some job) : job.jobID = k := (valid.tracked k job found).key

theorem consistent_init : Consistent [] coordinatorInit := by
  constructor <;> simp [coordinatorInit,submissions]

/-- The id of the next submission names no job yet. -/
theorem Consistent.fresh (valid : Consistent h s) :
    ¬∃ job, s.jobInfo.lookup (s.counter : Int) = some job := by
  rw [valid.known]
  omega

theorem Consistent.lookup (valid : Consistent h s) (step : Step h s e s') (k : Int) (job : Job)
    (found : s.jobInfo.lookup k = some job) :
    ∃ job', s'.jobInfo.lookup k = some job' ∧ JobStep k e job job' := by
  rcases step_lookup step valid.keyed k with ⟨_,_,_,_,rfl,_⟩ | ⟨absent,_⟩ | ⟨_,job',same,found',moved⟩
  · exact absurd ⟨job,found⟩ valid.fresh
  · rw [found] at absent
    contradiction
  · obtain rfl := Option.some.inj (found.symm.trans same)
    exact ⟨job',found',moved⟩

theorem Consistent.lookup_back (valid : Consistent h s) (step : Step h s e s') (k : Int) (job' : Job)
    (found : s'.jobInfo.lookup k = some job') :
    (∃ argp behind answer, e = .submitJob argp behind answer ∧ k = s.counter ∧
      job' = newJob argp behind s.counter) ∨
    ∃ job, s.jobInfo.lookup k = some job ∧ JobStep k e job job' := by
  rcases step_lookup step valid.keyed k with ⟨argp,behind,answer,rfl,rfl,made⟩ | ⟨_,absent⟩ |
    ⟨job,_,found',same,moved⟩
  · exact .inl ⟨argp,behind,answer,rfl,rfl,Option.some.inj (found.symm.trans made)⟩
  · rw [found] at absent
    contradiction
  · obtain rfl := Option.some.inj (found.symm.trans same)
    exact .inr ⟨job,found',moved⟩

theorem submissions_cons (other : ∀ argp behind answer, e ≠ Event.submitJob argp behind answer) :
    submissions (e :: h) = submissions h := by
  cases e with
  | submitJob argp behind answer => exact absurd rfl (other argp behind answer)
  | _ => rfl

theorem Consistent.counter_step (valid : Consistent h s) (step : Step h s e s') :
    s'.counter = (submissions (e :: h)).length := by
  rcases step_queue step with ⟨argp,behind,answer,rfl,count,_,_⟩ | ⟨k,answer,_,rfl,_,_,count,_⟩ |
    ⟨other,count,_⟩
  · rw [count,valid.counter]
    simp [submissions]
  · rw [count,valid.counter]
    rfl
  · rw [count,valid.counter,submissions_cons other]

theorem Consistent.known_step (valid : Consistent h s) (step : Step h s e s') (k : Int) :
    (∃ job, s'.jobInfo.lookup k = some job) ↔ 0 ≤ k ∧ k < s'.counter := by
  have before := valid.known k
  -- Only a submission makes an id known.
  have kept (other : ∀ argp behind answer, e ≠ .submitJob argp behind answer) :
      (∃ job, s'.jobInfo.lookup k = some job) ↔ ∃ job, s.jobInfo.lookup k = some job := by
    rcases step_lookup step valid.keyed k with ⟨argp,behind,answer,equal,_⟩ | ⟨absent,absent'⟩ |
      ⟨job,job',found,found',_⟩
    · exact absurd equal (other argp behind answer)
    · rw [absent,absent']
    · exact ⟨fun _ => ⟨job,found⟩,fun _ => ⟨job',found'⟩⟩
  rcases step_queue step with ⟨argp,behind,answer,rfl,_⟩ | ⟨i,answer,_,rfl,_,_,count,_⟩ |
    ⟨other,count,_⟩
  · obtain ⟨_,_,rfl,_⟩ := submitJob_cases step.2
    simp only [lookup_insert_eq]
    by_cases latest : k = s.counter
    · simp only [latest,↓reduceIte,Option.some.injEq,exists_eq',true_iff]
      omega
    · simp only [latest,↓reduceIte,before]
      omega
  · rw [kept (by simp),before,count]
  · rw [kept other,before,count]

/-- Inversion of a hand-out: the named job exists, is not done, and is the first one in
the queue with work. -/
theorem Consistent.handsOut (valid : Consistent h s)
    (served : getTask1Svc order now s = .ok (r,s')) (assigned : r.wait = false) :
    ∃ job job', Chosen s now s.jobs r s' r.jobId job job' := by
  rcases getTask_cases served with none | ⟨id,job,job',chosen⟩
  · rw [none.wait] at assigned
    contradiction
  · have key : r.jobId = id := chosen.names.jobId.trans (valid.keyed id job chosen.found)
    rw [key]
    exact ⟨job,job',chosen⟩

theorem Consistent.handed_step (valid : Consistent h s) (step : Step h s e s')
    (k t : Int) (reduce : Bool) (handed : HandedOut (e :: h) k t reduce) :
    ∃ job, s'.jobInfo.lookup k = some job := by
  rcases handedOut_cons.mp handed with current | earlier
  · cases e with
    | getTask order now r =>
      obtain ⟨assigned,rfl,_⟩ := current
      obtain ⟨job,job',chosen⟩ := valid.handsOut step.2 assigned
      exact ⟨job',by simpa using chosen.stored.2.2.2 r.jobId⟩
    | _ => exact current.elim
  · obtain ⟨job,found⟩ := valid.handed k t reduce earlier
    obtain ⟨job',found',_⟩ := valid.lookup step k job found
    exact ⟨job',found'⟩

theorem Consistent.step (valid : Consistent h s) (step : Step h s e s') : Consistent (e :: h) s' := by
  have kept (k : Int) (known : ∃ job, s.jobInfo.lookup k = some job) :
      ∃ job, s'.jobInfo.lookup k = some job := by
    obtain ⟨job,found⟩ := known
    obtain ⟨job',found',_⟩ := valid.lookup step k job found
    exact ⟨job',found'⟩
  constructor
  · exact valid.counter_step step
  · exact valid.known_step step
  · intro k job' found'
    rcases valid.lookup_back step k job' found' with ⟨argp,behind,answer,rfl,rfl,rfl⟩ | ⟨job,found,moved⟩
    · obtain ⟨fits,_⟩ := submitJob_cases step.2
      rw [valid.counter]
      apply tracked_fresh argp behind answer fits
      · intro t reduce handed
        exact valid.fresh (valid.counter ▸ valid.handed _ t reduce handed)
      · intro t reduce reported
        exact valid.fresh (valid.counter ▸ valid.reported _ t reduce reported)
    · exact (valid.tracked k job found).step moved step.1
  · exact valid.handed_step step
  · intro k t reduce reported
    rcases reported_cons.mp reported with current | earlier
    · cases e with
      | finishTask argp =>
        obtain rfl : argp = ⟨k,t,reduce,true⟩ := current
        exact kept k (valid.handed k t reduce step.1)
      | _ => exact current.elim
    · exact kept k (valid.reported k t reduce earlier)
  · rcases step_queue step with ⟨_,_,_,_,_,queue,_⟩ | ⟨_,_,_,_,_,_,_,queue⟩ | ⟨_,_,queue⟩
    · rw [queue]
      refine List.nodup_append.mpr ⟨valid.nodup,by simp,?_⟩
      intro k member k' last same
      obtain rfl := List.mem_singleton.mp last
      exact valid.fresh (same ▸ valid.queued k member)
    · rw [queue]
      exact valid.nodup.erase _
    · rw [queue]
      exact valid.nodup
  · intro k member
    rcases step_queue step with ⟨_,_,_,_,count,queue,_⟩ | ⟨_,_,_,_,_,_,_,queue⟩ | ⟨_,_,queue⟩
    · rw [queue,List.mem_append,List.mem_singleton] at member
      rcases member with earlier | rfl
      · exact kept k (valid.queued k earlier)
      · rw [valid.known_step step,count]
        omega
    · rw [queue] at member
      exact kept k (valid.queued k (List.mem_of_mem_erase member))
    · rw [queue] at member
      exact kept k (valid.queued k member)
  · intro k job' found' live
    have before : (∃ job, s.jobInfo.lookup k = some job ∧ job.done = false) ∨
        ∃ argp behind answer, e = .submitJob argp behind answer ∧ k = s.counter := by
      rcases valid.lookup_back step k job' found' with ⟨argp,behind,answer,shape,last,_⟩ |
        ⟨job,found,moved⟩
      · exact .inr ⟨argp,behind,answer,shape,last⟩
      · exact .inl ⟨job,found,moved.live live⟩
    rcases step_queue step with ⟨_,_,_,rfl,_,queue,_⟩ | ⟨i,_,done,rfl,atDone,isDone,_,queue⟩ |
      ⟨other,_,queue⟩
    · rw [queue,List.mem_append,List.mem_singleton]
      rcases before with ⟨job,found,running⟩ | ⟨_,_,_,_,last⟩
      · exact .inl (valid.live k job found running)
      · exact .inr last
    · rcases before with ⟨job,found,running⟩ | ⟨_,_,_,impossible,_⟩
      · rw [queue]
        apply (List.mem_erase_of_ne _).mpr (valid.live k job found running)
        rintro rfl
        obtain rfl := Option.some.inj (atDone.symm.trans found)
        rw [isDone] at running
        contradiction
      · contradiction
    · rcases before with ⟨job,found,running⟩ | ⟨argp,behind,answer,shape,_⟩
      · rw [queue]
        exact valid.live k job found running
      · exact absurd shape (other argp behind answer)

theorem run_consistent (run : Run h s) : Consistent h s :=
  run.invariant Consistent (fun _ _ _ _ valid step => valid.step step) consistent_init

/-- The invariant rule for one job at a time, in runs whose steps meet a condition:
it holds of the job a submission makes and every `JobStep` preserves it. -/
theorem RunWhere.jobs {condition : List Event → Coordinator → Event → Prop}
    (property : List Event → Int → Job → Prop)
    (fresh : ∀ h s argp behind answer, Consistent h s →
      condition h s (.submitJob argp behind answer) →
      property (.submitJob argp behind answer :: h) s.counter (newJob argp behind s.counter))
    (preserved : ∀ h s e k job job', Consistent h s → condition h s e → e.Admissible h →
      s.jobInfo.lookup k = some job → JobStep k e job job' → property h k job →
      property (e :: h) k job')
    (run : RunWhere condition h s) :
    ∀ k job, s.jobInfo.lookup k = some job → property h k job := by
  induction run with
  | refl => simp [coordinatorInit]
  | @snoc h s e s' front last ih =>
    intro k job' found'
    have valid := run_consistent front.unguarded
    rcases valid.lookup_back last.1 k job' found' with ⟨argp,behind,answer,rfl,rfl,rfl⟩ |
      ⟨job,found,moved⟩
    · exact fresh h s argp behind answer valid last.2
    · exact preserved h s e k job job' valid last.2 last.1.1 found moved (ih k job found)

/-- A run is a run under the trivial condition. -/
theorem Run.anywhere (run : Run h s) : RunWhere (fun _ _ _ => True) h s :=
  run.mono (fun _ _ _ _ step => ⟨step,trivial⟩)

/-- What a GET_TASK reply that hands out a task says, in terms of the run before it. -/
structure Assignment (h : List Event) (s : Coordinator) (r : GetTaskReply) : Prop where
  submitted : ∃ argp, submission h r.jobId = some argp ∧
    r.app = argp.app ∧ r.outputDir = argp.outputDir ∧
    r.nMap = argp.files.length ∧ r.nReduce = argp.nReduce ∧
    (r.reduce = false → 0 ≤ r.task ∧ r.task < argp.files.length ∧
      argp.files[r.task.toNat]? = some r.file) ∧
    (r.reduce = true → 0 ≤ r.task ∧ r.task < argp.nReduce)
  live : ∃ job, s.jobInfo.lookup r.jobId = some job ∧ job.done = false
  inOrder : ¬HandedOut h r.jobId r.task r.reduce →
    ∀ t, HandedOut h r.jobId t r.reduce ↔ 0 ≤ t ∧ t < r.task

/-- A reply names a task number of its kind with, for a map task, the stored file; a task
not handed out before is the next one of its kind. -/
theorem Tracked.assignment (tracked : Tracked h k job) (handOut : HandOut now job r job') :
    0 ≤ r.task ∧ r.task < job.size r.reduce ∧
    (r.reduce = false → job.mapTasks.lookup r.task = some r.file) ∧
    (HandedOut h k r.task r.reduce ∨ r.task = job.assigned r.reduce) := by
  cases handOut with
  | again task member late number kind file =>
    obtain ⟨slot,found⟩ := (mem_tasks_iff job task).mp member
    obtain ⟨id,handed,stored⟩ := tracked.record slot task found
    rw [number,kind,id]
    have range := (tracked.handed slot task.reduce).mp handed
    have bound := tracked.assigned_le task.reduce
    exact ⟨range.1,by omega,fun map => (stored map).symm.trans (file map),.inl handed⟩
  | map unassigned file number kind =>
    rw [number,kind]
    exact ⟨by omega,Int.ofNat_lt.mpr (mapAssignable_iff.mp unassigned).1,fun _ => file,.inr rfl⟩
  | reduce unassigned number kind =>
    rw [number,kind]
    exact ⟨by omega,(reduceAssignable_iff.mp unassigned).2.1,fun impossible => by contradiction,.inr rfl⟩

/-- Every hand-out of every run is well formed, and the record that a report of a
handed-out task looks up without a check is always there. -/
theorem assignments_wellFormed (run : Run h s) :
    (∀ order now r s', getTask1Svc order now s = .ok (r,s') → r.wait = false → Assignment h s r) ∧
    (∀ argp : FinishTaskRequest, HandedOut h argp.jobId argp.task argp.reduce →
      ∃ job, s.jobInfo.lookup argp.jobId = some job ∧
        ∃ task, job.taskInfo.lookup argp.task = some task) := by
  have valid := run_consistent run
  constructor
  · intro order now r s' served assigned
    obtain ⟨job,job',chosen⟩ := valid.handsOut served assigned
    have tracked := valid.tracked r.jobId job chosen.found
    obtain ⟨low,high,stored,position⟩ := tracked.assignment chosen.handOut
    obtain ⟨argp,behind,known,fits,same⟩ := tracked.submitted
    refine ⟨⟨argp,known,?_,?_,?_,?_,?_,?_⟩,⟨job,chosen.found,chosen.live⟩,?_⟩
    · rw [chosen.names.app,same.app]
      rfl
    · rw [chosen.names.outputDir,same.outputDir]
      rfl
    · rw [chosen.names.nMap,same.nMap]
      rfl
    · rw [chosen.names.nReduce,same.nReduce]
      rfl
    · intro map
      obtain ⟨argp',known',count,files⟩ := tracked.mapTasks
      obtain rfl := Option.some.inj (known.symm.trans known')
      have below : r.task < job.nMap := by simpa [Job.size,map] using high
      have file := stored map
      rw [files,if_pos ⟨low,below⟩] at file
      exact ⟨low,count ▸ below,file⟩
    · intro reduce
      have below : r.task < job.nReduce := by simpa [Job.size,reduce] using high
      rw [same.nReduce] at below
      exact ⟨low,below⟩
    · intro fresh t
      rw [position.resolve_left fresh]
      exact tracked.handed t r.reduce
  · intro argp handed
    obtain ⟨job,found⟩ := valid.handed _ _ _ handed
    exact ⟨job,found,(valid.tracked _ job found).recorded _ _ handed⟩

def wordCount : SubmitJobRequest where
  files := ["a.txt","b.txt"]
  outputDir := "out"
  app := "wc"
  nReduce := 1
  args := []

theorem assignments_wellFormed_wordCount :
    let reached := outcome [.submitJob wordCount [],.getTask .insertion 0,.getTask .insertion 3]
    (∃ r s', getTask1Svc .insertion 10 reached.2 = .ok (r,s') ∧ r.wait = false ∧
      Assignment reached.1 reached.2 r) ∧
    (∃ job, reached.2.jobInfo.lookup 0 = some job ∧ ∃ task, job.taskInfo.lookup 1 = some task) := by
  intro reached
  have run : Run reached.1 reached.2 := outcome_run _ (by decide)
  obtain ⟨assignments,records⟩ := assignments_wellFormed run
  refine ⟨⟨_,_,rfl,rfl,assignments .insertion 10 _ _ rfl rfl⟩,?_⟩
  exact records ⟨0,1,false,true⟩ (by decide)

end OsProj.MapReduce
