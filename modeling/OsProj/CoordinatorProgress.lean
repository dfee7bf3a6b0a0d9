import OsProj.CoordinatorCounting

/-! Progress of a job: with everything handed out also reported, a job that is not done
still has a task to hand out. The map counter must not overshoot, and a job must have a
task at all, since only a report ever marks it done. -/
namespace OsProj.MapReduce

open OsProj.History

/-- If this event handed out a task of job `k`, the history holds a report of it. -/
def Event.SettledIn (h : List Event) (k : Int) : Event → Prop
  | .getTask _ _ r => r.wait = false → r.jobId = k → Reported h k r.task r.reduce
  | _ => True

instance (h : List Event) (k : Int) : (e : Event) → Decidable (e.SettledIn h k)
  | .submitJob .. | .pollJob .. | .finishTask _ => inferInstanceAs (Decidable True)
  | .getTask _ _ r => inferInstanceAs
    (Decidable (r.wait = false → r.jobId = k → Reported h k r.task r.reduce))

/-- Every task of the job handed out so far has been reported at least once. -/
def NothingOutstanding (h : List Event) (k : Int) : Prop := ∀ e ∈ h, e.SettledIn h k

instance (h : List Event) (k : Int) : Decidable (NothingOutstanding h k) :=
  inferInstanceAs (Decidable (∀ e ∈ h, e.SettledIn h k))

theorem NothingOutstanding.reported (settled : NothingOutstanding h k)
    (handed : HandedOut h k t reduce) : Reported h k t reduce := by
  obtain ⟨e,member,handsOut⟩ := handed
  cases e with
  | getTask order now r =>
    obtain ⟨assigned,own,rfl,rfl⟩ := handsOut
    exact settled _ member assigned own
  | _ => exact handsOut.elim

/-- A job that is not done and has nothing outstanding has work by its own records, and
the next GET_TASK hands it out unless an earlier job in the queue has some. -/
def NeverStuck (h : List Event) (s : Coordinator) : Prop :=
  ∀ k job order now, s.jobInfo.lookup k = some job → job.done = false → 0 ≤ job.nReduce →
    (∀ e ∈ h, e.NotAfter now) → NothingOutstanding h k →
    job.assignable now = true ∧
    ((∀ i ∈ s.jobs.takeWhile (· != k), Idle s now i) →
      ∃ r s', getTask1Svc order now s = .ok (r,s') ∧ r.wait = false ∧ r.jobId = k)

/-- No job without tasks is submitted, and no map task of a job that is not done is
reported twice. -/
def Progressive (h : List Event) (s : Coordinator) : Event → Prop
  | .submitJob argp _ _ => ¬(argp.files = [] ∧ argp.nReduce = 0)
  | .finishTask argp => s.running argp.jobId = true → argp.reduce = false → argp.success = true →
    ¬Reported h argp.jobId argp.task false
  | _ => True

instance (h : List Event) (s : Coordinator) : (e : Event) → Decidable (Progressive h s e)
  | .pollJob .. | .getTask .. => inferInstanceAs (Decidable True)
  | .submitJob argp _ _ => inferInstanceAs (Decidable (¬(argp.files = [] ∧ argp.nReduce = 0)))
  | .finishTask argp => inferInstanceAs (Decidable (s.running argp.jobId = true →
    argp.reduce = false → argp.success = true → ¬Reported h argp.jobId argp.task false))

structure Moving (h : List Event) (k : Int) (job : Job) : Prop where
  maps : job.nMapCompleted = reportedCount h k false job.nMap
  reducing : 0 < job.nReduceAssigned → job.nMapCompleted = job.nMap
  unfinished : ¬(job.nMapCompleted = job.nMap ∧ (job.nReduceCompleted : Int) = job.nReduce)
  reduces : job.nReduceCompleted = 0 ∨ (job.nReduceCompleted : Int) < job.nReduce

theorem moving_fresh (valid : Consistent h s) (argp : SubmitJobRequest) (behind : List UInt8)
    (answer : Int) (tasks : ¬(argp.files = [] ∧ argp.nReduce = 0)) :
    Moving (.submitJob argp behind answer :: h) s.counter (newJob argp behind s.counter) := by
  constructor
  · rw [reportedCount_fresh (valid.silent argp behind answer)]
    rfl
  · intro impossible
    exact absurd impossible (Nat.lt_irrefl 0)
  · rintro ⟨maps,reduces⟩
    refine tasks ⟨List.length_eq_zero_iff.mp maps.symm,?_⟩
    simpa [newJob] using reduces.symm
  · exact .inl rfl

theorem Moving.unreported (moving : Moving h k job) (tracked : Tracked h k job)
    (handed : HandedOut h k t false) (first : ¬Reported h k t false) : job.nReduceAssigned = 0 := by
  by_contra started
  have full := moving.reducing (Nat.pos_of_ne_zero started)
  have count : reportedCount h k false (job.size false) = (job.size false).toNat :=
    moving.maps.symm.trans full
  obtain ⟨low,high⟩ := tracked.reported_range handed
  have every := (tracked.allReported_iff false).mp (tracked.reportedCount_full false count)
  have this := every t.toNat (by omega)
  rw [Int.toNat_of_nonneg low] at this
  exact first this

theorem Moving.finish (moving : Moving h k job) (tracked : Tracked h k job)
    {argp : FinishTaskRequest} (own : argp.jobId = k)
    (handed : HandedOut h k argp.task argp.reduce) (success : argp.success = true)
    (found : job.taskInfo.lookup argp.task = some task)
    (finished : Finished job argp.task task argp.reduce job')
    (first : argp.reduce = false → ¬Reported h k argp.task false)
    (live : job.done = false) (live' : job'.done = false) :
    Moving (.finishTask argp :: h) k job' := by
  have step : JobStep k (.finishTask argp) job job' := .finish own success found finished
  have nMap := finished.submission.nMap
  have nReduce := finished.submission.nReduce
  have maps := finished.nMapCompleted
  have reduces := finished.nReduceCompleted
  have unfinished : ¬(job'.nMapCompleted = job'.nMap ∧ (job'.nReduceCompleted : Int) = job'.nReduce) := by
    have isDone := finished.done
    rw [live',live,Bool.false_or] at isDone
    simpa using isDone.symm
  have admissible : (Event.finishTask argp).Admissible h := by
    subst own
    exact handed
  obtain ⟨_,⟨counter,count⟩ | ⟨argp',equal,_,_,kind,counter,count⟩⟩ :=
    tracked.counting step admissible false
  · have counter : job'.nMapCompleted = job.nMapCompleted := counter
    have isReduce : argp.reduce = true := by
      by_contra isMap
      rw [Bool.eq_false_iff.mpr isMap] at maps
      simp only [Bool.false_eq_true,↓reduceIte] at maps
      omega
    rw [isReduce] at handed reduces
    have started := (tracked.handed argp.task true).mp handed
    have bound := tracked.assigned_le true
    have full : job.nMapCompleted = job.nMap := by
      apply moving.reducing
      have : (0 : Int) < job.assigned true := by omega
      exact Int.ofNat_lt.mp this
    refine ⟨?_,fun _ => by omega,unfinished,?_⟩
    · rw [nMap,counter,moving.maps]
      exact count.symm
    · right
      have positive : 0 < job.nReduce := by
        have : job.size true = job.nReduce := rfl
        omega
      have previous := moving.reduces
      simp only [↓reduceIte] at reduces
      omega
  · obtain rfl := Event.finishTask.inj equal
    have counter : job'.nMapCompleted = job.nMapCompleted + 1 := counter
    have none : job.nReduceAssigned = 0 := moving.unreported tracked (kind ▸ handed) (first kind)
    rw [if_neg (first kind)] at count
    rw [kind] at reduces
    refine ⟨?_,?_,unfinished,?_⟩
    · rw [nMap,counter,moving.maps]
      exact count.symm
    · rw [finished.nReduceAssigned,none]
      intro impossible
      exact absurd impossible (Nat.lt_irrefl 0)
    · have previous := moving.reduces
      simp only [Bool.false_eq_true,↓reduceIte] at reduces
      omega

/-- Steps that report nothing for the job keep it moving as long as its counters of
completions stay. -/
theorem Moving.silent (moving : Moving h k job) (same : SameSubmission job job')
    (maps : job'.nMapCompleted = job.nMapCompleted)
    (reduces : job'.nReduceCompleted = job.nReduceCompleted)
    (started : 0 < job'.nReduceAssigned → 0 < job.nReduceAssigned ∨ job.nMapCompleted = job.nMap)
    (reported : ∀ t, Reported (e :: h) k t false ↔ Reported h k t false) :
    Moving (e :: h) k job' := by
  constructor
  · rw [reportedCount_congr _ reported,maps,same.nMap]
    exact moving.maps
  · intro positive
    rw [maps,same.nMap]
    exact (started positive).elim moving.reducing id
  · rw [maps,reduces,same.nMap,same.nReduce]
    exact moving.unfinished
  · rw [reduces,same.nReduce]
    exact moving.reduces

theorem Moving.step (moving : Moving h k job) (tracked : Tracked h k job)
    (step : JobStep k e job job') (admissible : e.Admissible h) (running : s.running k = true)
    (condition : Progressive h s e) (live : job.done = false) (live' : job'.done = false) :
    Moving (e :: h) k job' := by
  have silent (no : ∀ t, ¬e.Reports k t false) (t : Int) :
      Reported (e :: h) k t false ↔ Reported h k t false := by
    simp [no t]
  cases step with
  | submitJob | pollJob | wait | otherTask =>
    exact moving.silent (.refl _) rfl rfl .inl (silent (fun _ => id))
  | handOut live names own handOut =>
    cases handOut with
    | again => exact moving.silent (.refl _) rfl rfl .inl (silent (fun _ => id))
    | map => exact moving.silent (startMap_same ..) rfl rfl .inl (silent (fun _ => id))
    | reduce unassigned number kind =>
      exact moving.silent (startReduce_same ..) rfl rfl
        (fun _ => .inr (reduceAssignable_iff.mp unassigned).1) (silent (fun _ => id))
  | otherFinish other =>
    refine moving.silent (.refl _) rfl rfl .inl (silent ?_)
    rintro t rfl
    exact other rfl
  | fail => contradiction
  | finish own success found finished =>
    subst own
    exact moving.finish tracked rfl admissible success found finished
      (fun kind => condition running kind success) live live'

theorem moving (run : RunWhere Progressive h s) (k : Int) (job : Job)
    (found : s.jobInfo.lookup k = some job) (live : job.done = false) : Moving h k job := by
  refine RunWhere.jobs (fun h k job => job.done = false → Moving h k job) ?_ ?_ run k job found live
  · intro h s argp behind answer valid tasks _
    exact moving_fresh valid argp behind answer tasks
  · intro h s e k job job' valid condition admissible found step before live'
    have live := step.live live'
    exact (before live).step (valid.tracked k job found) step admissible
      (running_of_live found live) condition live live'

/-- With nothing outstanding the reported tasks of a kind are the assigned ones. -/
theorem Tracked.settled_count (tracked : Tracked h k job) (settled : NothingOutstanding h k)
    (reduce : Bool) : reportedCount h k reduce (job.size reduce) = job.assigned reduce := by
  have bound := tracked.assigned_le reduce
  rw [reportedCount,Nat.count_eq_card_filter_range]
  have same : (Finset.range (job.size reduce).toNat).filter (fun t : Nat => Reported h k t reduce) =
      Finset.range (job.assigned reduce) := by
    ext t
    simp only [Finset.mem_filter,Finset.mem_range]
    constructor
    · rintro ⟨_,reported⟩
      have handed := (tracked.handed t reduce).mp (tracked.reported t reduce reported)
      omega
    · intro below
      have handed := (tracked.handed t reduce).mpr ⟨by omega,by omega⟩
      exact ⟨by omega,settled.reported handed⟩
  rw [same,Finset.card_range]

/-- In reachable states nothing that a hand-out reads is missing and no assignment
counter is at its limit. -/
theorem Tracked.servable (tracked : Tracked h k job) : job.Servable := by
  obtain ⟨argp,known,count,files⟩ := tracked.mapTasks
  obtain ⟨argp',behind,known',fits,same⟩ := tracked.submitted
  obtain rfl := Option.some.inj (known.symm.trans known')
  have file (t : Int) (low : 0 ≤ t) (high : t < job.nMap) : ∃ file, job.mapTasks.lookup t = some file := by
    rw [files,if_pos ⟨low,high⟩]
    exact ⟨_,List.getElem?_eq_getElem (by omega)⟩
  constructor
  · intro unassigned
    exact file _ (by omega) (Int.ofNat_lt.mpr (mapAssignable_iff.mp unassigned).1)
  · intro unassigned
    have below := (mapAssignable_iff.mp unassigned).1
    omega
  · intro unassigned
    have below := (reduceAssignable_iff.mp unassigned).2.1
    have range := argp.nReduce_range.2
    rw [same.nReduce] at below
    exact Int.lt_of_lt_of_le below range
  · intro task member kind
    obtain ⟨slot,found⟩ := (mem_tasks_iff job task).mp member
    obtain ⟨_,handed,stored⟩ := tracked.record slot task found
    rw [kind] at handed
    obtain ⟨low,high⟩ := tracked.reported_range handed
    rw [stored kind]
    exact file slot low high

/-- The counters leave exactly one of the two assignment branches open. -/
theorem Moving.assignable (moving : Moving h k job) (tracked : Tracked h k job)
    (behind : reportedCount h k true (job.size true) ≤ job.completed true)
    (live : job.done = false) (natural : 0 ≤ job.nReduce) (settled : NothingOutstanding h k)
    (now : Int) : job.assignable now = true := by
  have maps : job.nMapCompleted = job.nMapAssigned :=
    moving.maps.trans (tracked.settled_count settled false)
  have bound : (job.nMapAssigned : Int) ≤ max 0 job.nMap := tracked.assigned_le false
  rw [tracked.settled_count settled true] at behind
  have reduces : job.nReduceAssigned ≤ job.nReduceCompleted := behind
  have unfinished := moving.unfinished
  have position := moving.reduces
  have either : job.mapAssignable = true ∨ job.reduceAssignable = true := by
    rw [mapAssignable_iff,reduceAssignable_iff]
    omega
  rcases either with unassigned | unassigned <;> simp [Job.assignable,live,unassigned]

theorem split_at_mem {k : Int} {queue : List Int} (queued : k ∈ queue) :
    ∃ rest, queue = queue.takeWhile (· != k) ++ k :: rest := by
  induction queue with
  | nil => contradiction
  | cons first queue ih =>
    by_cases here : first = k
    · exact ⟨queue,by simp [here]⟩
    · obtain ⟨rest,split⟩ := ih ((List.mem_cons.mp queued).resolve_left (Ne.symm here))
      refine ⟨rest,?_⟩
      rw [List.takeWhile_cons_of_pos (by simpa using here),List.cons_append,← split]

/-- In every run that submits only jobs with tasks and never reports a map task of a job
that is not done twice, no job is stuck in any state reached. -/
theorem never_stuck (run : RunWhere Progressive h s) : NeverStuck h s := by
  intro k job order now found live natural _ settled
  have valid := run_consistent run.unguarded
  have tracked := valid.tracked k job found
  have ready := (moving run k job found live).assignable tracked
    (reportedCount_le_completed run.unguarded k job found true) live natural settled now
  refine ⟨ready,?_⟩
  intro idle
  obtain ⟨rest,queue⟩ := split_at_mem (valid.live k job found live)
  obtain ⟨r,s',served,assigned,id⟩ := scanJobs_assigns found ready tracked.servable
    (s.jobs.takeWhile (· != k)) rest idle
    { s.getTaskResult with file := "", outputDir := "", app := "", wait := true, argsLen := 0 }
  refine ⟨r,s',?_,assigned,id.trans tracked.key⟩
  rw [← queue] at served
  exact served

theorem never_stuck_wordCount :
    let reached := outcome [.submitJob wordCount [],.getTask .insertion 0,
      .finishTask ⟨0,0,false,true⟩]
    NothingOutstanding reached.1 0 ∧
      ∃ r s', getTask1Svc .insertion 0 reached.2 = .ok (r,s') ∧ r.wait = false ∧ r.jobId = 0 := by
  intro reached
  have run : RunWhere Progressive reached.1 reached.2 := outcome_runWhere Progressive _ (by decide)
  have settled : NothingOutstanding reached.1 0 := by decide
  exact ⟨settled,(never_stuck run 0 _ .insertion 0 rfl rfl (by decide) (by decide) settled).2 (by
    intro i impossible
    contradiction)⟩

def noTasks : SubmitJobRequest where
  files := []
  outputDir := "out"
  app := "wc"
  nReduce := 0
  args := []

/-- Two stuck jobs: one without tasks, and one whose only map task was reported twice
before its reduce task was handed out. -/
theorem stuck_jobs :
    let empty := outcome [.submitJob noTasks []]
    let repeated := outcome [.submitJob { wordCount with files := ["a.txt"] } [],
      .getTask .insertion 0,.finishTask ⟨0,0,false,true⟩,.finishTask ⟨0,0,false,true⟩]
    (Run empty.1 empty.2 ∧ ¬NeverStuck empty.1 empty.2) ∧
    (Run repeated.1 repeated.2 ∧ ¬NeverStuck repeated.1 repeated.2) := by
  intro empty repeated
  refine ⟨⟨outcome_run _ (by decide),?_⟩,⟨outcome_run _ (by decide),?_⟩⟩
  · intro never
    have ready := (never 0 _ .insertion 0 rfl rfl (by decide) (by decide) (by decide)).1
    contradiction
  · intro never
    have ready := (never 0 _ .insertion 0 rfl rfl (by decide) (by decide) (by decide)).1
    contradiction

end OsProj.MapReduce
