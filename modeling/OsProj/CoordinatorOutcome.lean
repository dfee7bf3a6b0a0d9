import OsProj.CoordinatorFrames

/-! What clients are told about a job over time. A poll that finds a job done takes it
out of the queue, and a failure report is recorded whether or not the job has ended. -/
namespace OsProj.MapReduce

open OsProj.History

def Event.Returns (k : Int) : Event → Prop
  | .submitJob _ _ answer => answer = k
  | _ => False

def Event.CallsDone (k : Int) : Event → Prop
  | .pollJob i answer => i = k ∧ answer.done = true
  | _ => False

instance (k : Int) : (e : Event) → Decidable (e.Returns k)
  | .pollJob .. | .getTask .. | .finishTask _ => inferInstanceAs (Decidable False)
  | .submitJob _ _ answer => inferInstanceAs (Decidable (answer = k))

instance (k : Int) : (e : Event) → Decidable (e.CallsDone k)
  | .submitJob .. | .getTask .. | .finishTask _ => inferInstanceAs (Decidable False)
  | .pollJob i answer => inferInstanceAs (Decidable (i = k ∧ answer.done = true))

def Returned (h : List Event) (k : Int) : Prop := 0 ≤ k ∧ ∃ e ∈ h, e.Returns k

instance (h : List Event) (k : Int) : Decidable (Returned h k) :=
  inferInstanceAs (Decidable (0 ≤ k ∧ ∃ e ∈ h, e.Returns k))

/-- A poll of a returned id calls it valid, and calls the job done if an earlier poll did. -/
def StablePoll (earlier : List Event) : Event → Prop
  | .pollJob k answer => Returned earlier k →
    answer.invalidJobId = false ∧ ((∃ e ∈ earlier, e.CallsDone k) → answer.done = true)
  | _ => True

instance (earlier : List Event) : (e : Event) → Decidable (StablePoll earlier e)
  | .submitJob .. | .getTask .. | .finishTask _ => inferInstanceAs (Decidable True)
  | .pollJob k answer => inferInstanceAs (Decidable (Returned earlier k →
    answer.invalidJobId = false ∧ ((∃ e ∈ earlier, e.CallsDone k) → answer.done = true)))

/-- Some POLL_JOB for the id was handled when the job was already recorded as done. -/
def Collected (h : List Event) (k : Int) : Prop :=
  ∃ later answer earlier s job, h = later ++ .pollJob k answer :: earlier ∧
    Run earlier s ∧ s.jobInfo.lookup k = some job ∧ job.done = true

/-- A returned id is not polled again after a poll that came when its job was done. -/
def PolledOnce (earlier : List Event) : Event → Prop
  | .pollJob k _ => Returned earlier k → ¬Collected earlier k
  | _ => True

theorem collected_cons (run : Run h s) (k : Int) : Collected (e :: h) k ↔
    (∃ answer job, e = .pollJob k answer ∧ s.jobInfo.lookup k = some job ∧ job.done = true) ∨
      Collected h k := by
  constructor
  · rintro ⟨later,answer,earlier,s₀,job,split,before,found,isDone⟩
    cases later with
    | nil =>
      obtain ⟨rfl,rfl⟩ := List.cons.inj split
      obtain rfl := before.deterministic step_functional run
      exact .inl ⟨answer,job,rfl,found,isDone⟩
    | cons first later =>
      exact .inr ⟨later,answer,earlier,s₀,job,(List.cons.inj split).2,before,found,isDone⟩
  · rintro (⟨answer,job,rfl,found,isDone⟩ | ⟨later,answer,earlier,s₀,job,rfl,rest⟩)
    · exact ⟨[],answer,h,s,job,rfl,run,found,isDone⟩
    · exact ⟨e :: later,answer,earlier,s₀,job,rfl,rest⟩

theorem Collected.known (run : Run h s) (collected : Collected h k) :
    ∃ job, s.jobInfo.lookup k = some job := by
  induction run with
  | refl =>
    obtain ⟨later,_,_,_,_,impossible,_⟩ := collected
    simp at impossible
  | @snoc h s e s' front last ih =>
    have before : ∃ job, s.jobInfo.lookup k = some job := by
      rcases (collected_cons front k).mp collected with ⟨_,job,_,found,_⟩ | earlier
      · exact ⟨job,found⟩
      · exact ih earlier
    obtain ⟨job,found⟩ := before
    obtain ⟨job',found',_⟩ := (run_consistent front).lookup last k job found
    exact ⟨job',found'⟩

/-- A poll that finds the job done is the one that takes it out of the queue. -/
theorem queued_poll (run : Run h s) (step : Step h s (.pollJob k answer) s')
    (queued : k ∈ s.jobs ↔ (∃ job, s.jobInfo.lookup k = some job) ∧ ¬Collected h k) :
    k ∈ s'.jobs ↔
      (∃ job, s'.jobInfo.lookup k = some job) ∧ ¬Collected (.pollJob k answer :: h) k := by
  rw [collected_cons run]
  rcases pollJob_cases step.2 with ⟨absent,_,rfl⟩ | ⟨member,job,found,_,rfl⟩
  · constructor
    · intro impossible
      exact absurd impossible absent
    · rintro ⟨known,uncollected⟩
      exact absurd (queued.mpr ⟨known,fun earlier => uncollected (.inr earlier)⟩) absent
  · have uncollected := (queued.mp member).2
    cases isDone : job.done
    · simp [member,found,isDone,uncollected]
    · simp [found,isDone,(run_consistent run).nodup.mem_erase_iff]

/-- A known job is in the queue exactly until a poll finds it done. -/
theorem queued_iff (run : Run h s) (k : Int) :
    k ∈ s.jobs ↔ (∃ job, s.jobInfo.lookup k = some job) ∧ ¬Collected h k := by
  induction run with
  | refl => simp [coordinatorInit]
  | @snoc h s e s' front last ih =>
    have valid := run_consistent front
    by_cases polled : ∃ answer, e = .pollJob k answer
    · obtain ⟨answer,rfl⟩ := polled
      exact queued_poll front last ih
    have still : Collected (e :: h) k ↔ Collected h k := by
      rw [collected_cons front]
      apply or_iff_right
      rintro ⟨answer,_,same,_⟩
      exact polled ⟨answer,same⟩
    rw [still,valid.known_step last]
    rw [valid.known] at ih
    rcases step_queue last with ⟨argp,behind,answer,rfl,count,queue,_⟩ |
      ⟨i,answer,_,rfl,_,_,count,queue⟩ | ⟨_,count,queue⟩
    · have fresh : ¬Collected h s.counter := fun earlier => valid.fresh (earlier.known front)
      rw [queue,count,List.mem_append,List.mem_singleton,ih]
      by_cases latest : k = s.counter
      · subst latest
        simp only [fresh,not_false_eq_true,and_true,or_true,true_iff]
        omega
      · simp only [latest,or_false]
        apply and_congr_left
        intro _
        omega
    · have other : k ≠ i := fun same => polled ⟨answer,same ▸ rfl⟩
      rw [queue,count,valid.nodup.mem_erase_iff,ih]
      exact and_iff_right other
    · rw [queue,count,ih]

theorem collected_of_done (run : Run h s) (called : ∃ e ∈ h, e.CallsDone k) : Collected h k := by
  induction run with
  | refl =>
    obtain ⟨_,impossible,_⟩ := called
    contradiction
  | @snoc h s e s' front last ih =>
    rw [collected_cons front]
    obtain ⟨e',member,called⟩ := called
    rcases List.mem_cons.mp member with rfl | earlier
    · cases e' with
      | pollJob i answer =>
        obtain ⟨rfl,done⟩ := called
        rcases pollJob_cases last.2 with ⟨_,rfl,_⟩ | ⟨_,job,found,rfl,_⟩
        · contradiction
        · exact .inl ⟨_,job,rfl,found,done⟩
      | _ => exact called.elim
    · exact .inr (ih ⟨e',earlier,called⟩)

theorem Returned.known (run : Run h s) (returned : Returned h k) :
    ∃ job, s.jobInfo.lookup k = some job := by
  obtain ⟨natural,e',member,returns⟩ := returned
  induction run with
  | refl => contradiction
  | @snoc h s e s' front last ih =>
    rcases List.mem_cons.mp member with rfl | earlier
    · cases e' with
      | submitJob argp behind answer =>
        obtain rfl : answer = k := returns
        obtain ⟨_,_,rfl,answered⟩ := submitJob_cases last.2
        split at answered
        · omega
        · subst answered
          exact ⟨_,AList.lookup_insert _⟩
      | _ => exact returns.elim
    · obtain ⟨job,found⟩ := ih earlier
      obtain ⟨job',found',_⟩ := (run_consistent front).lookup last k job found
      exact ⟨job',found'⟩

/-- Polling is stable in a run exactly when no returned id is polled again after a poll
that came when its job was done. -/
theorem polls_stable_iff (run : Run h s) : Always StablePoll h ↔ Always PolledOnce h := by
  induction run with
  | refl => simp
  | @snoc h s e s' front last ih =>
    rw [always_cons,always_cons,ih]
    apply and_congr_left
    intro _
    cases e with
    | pollJob k answer =>
      apply forall_congr'
      intro returned
      have queued := queued_iff front k
      rw [and_iff_right (returned.known front)] at queued
      rcases pollJob_cases last.2 with ⟨absent,rfl,_⟩ | ⟨member,job,found,rfl,_⟩
      · simp [← queued,absent]
      · simp only [true_and,← queued,member,iff_true]
        intro polled
        exact absurd (collected_of_done front polled) (queued.mp member)
    | _ => rfl

def finished : List Request :=
  [.submitJob oneFile [],.getTask .insertion 0,.finishTask ⟨0,0,false,true⟩,
    .getTask .insertion 0,.finishTask ⟨0,0,true,true⟩]

theorem polls_stable_iff_finished :
    let once := outcome (finished ++ [.pollJob 0])
    let twice := outcome (finished ++ [.pollJob 0,.pollJob 0])
    Always PolledOnce once.1 ∧ ¬Always PolledOnce twice.1 := by
  intro once twice
  have first : Run once.1 once.2 := outcome_run _ (by decide)
  have second : Run twice.1 twice.2 := outcome_run _ (by decide)
  exact ⟨(polls_stable_iff first).mp (by decide),(polls_stable_iff second).not.mp (by decide)⟩

/-- The second poll of a job that is done calls its id invalid and the job not done. -/
theorem second_poll_invalid :
    let reached := outcome (finished ++ [.pollJob 0,.pollJob 0])
    Run reached.1 reached.2 ∧ ¬Always StablePoll reached.1 :=
  ⟨outcome_run _ (by decide),by decide⟩

/-- What a step does to the outcome of a job that has ended. -/
theorem JobStep.ended (step : JobStep k e job job') (isDone : job.done = true) :
    job'.done = true ∧ (job'.failed = true ↔ job.failed = true ∨
      ∃ argp, e = .finishTask argp ∧ argp.jobId = k ∧ argp.success = false) := by
  refine ⟨step.done isDone,?_⟩
  cases step with
  | handOut live => simp [live] at isDone
  | otherFinish other => simp [other]
  | fail own failure => simp [Job.fail,own,failure]
  | finish own success found finished => simp [finished.failed,success]
  | _ => simp

theorem ended_failed_iff (run : Run h s) (found : s.jobInfo.lookup k = some job)
    (isDone : job.done = true) (path : Path Step h s (later ++ h) s') :
    ∃ job', s'.jobInfo.lookup k = some job' ∧ job'.done = true ∧
      (job'.failed = true ↔ job.failed = true ∨
        ∃ argp, Event.finishTask argp ∈ later ∧ argp.jobId = k ∧ argp.success = false) := by
  induction later generalizing s' with
  | nil =>
    have origin := (run.trans path).deterministic step_functional run
    subst origin
    exact ⟨job,found,isDone,by simp⟩
  | cons e later ih =>
    obtain ⟨middle,front,last⟩ := path.unsnoc
    obtain ⟨before,found',isDone',failed⟩ := ih front
    obtain ⟨job',found'',moved⟩ := (run_consistent (run.trans front)).lookup last k before found'
    obtain ⟨isDone'',failed'⟩ := moved.ended isDone'
    refine ⟨job',found'',isDone'',?_⟩
    rw [failed',failed]
    constructor
    · rintro ((old | ⟨argp,member,own,failure⟩) | ⟨argp,rfl,own,failure⟩)
      · exact .inl old
      · exact .inr ⟨argp,by simp [member],own,failure⟩
      · exact .inr ⟨argp,by simp,own,failure⟩
    · rintro (old | ⟨argp,member,own,failure⟩)
      · exact .inl (.inl old)
      · rcases List.mem_cons.mp member with rfl | earlier
        · exact .inr ⟨argp,rfl,own,failure⟩
        · exact .inl (.inr ⟨argp,earlier,own,failure⟩)

/-- An ended job keeps its outcome through a continuation of the run exactly when it had
failed or no failure is reported for it. -/
theorem outcome_final_iff (run : Run h s) (found : s.jobInfo.lookup k = some job)
    (isDone : job.done = true) (path : Path Step h s (later ++ h) s') :
    ∃ job', s'.jobInfo.lookup k = some job' ∧
      ((job'.done,job'.failed) = (job.done,job.failed) ↔ job.failed = true ∨
        ∀ argp, Event.finishTask argp ∈ later → argp.jobId = k → argp.success = true) := by
  obtain ⟨job',found',isDone',failed⟩ := ended_failed_iff run found isDone path
  refine ⟨job',found',?_⟩
  rw [Prod.mk.injEq,isDone',isDone,and_iff_right rfl,Bool.eq_iff_iff,failed]
  constructor
  · intro same
    by_contra neither
    push Not at neither
    obtain ⟨succeeded,argp,member,own,failure⟩ := neither
    exact succeeded (same.mp (.inr ⟨argp,member,own,Bool.eq_false_iff.mpr failure⟩))
  · rintro (old | successes)
    · simp [old]
    · apply or_iff_left
      rintro ⟨argp,member,own,failure⟩
      rw [successes argp member own] at failure
      contradiction

def mapOnly : SubmitJobRequest := { noTasks with files := ["a.txt"] }

def ended : List Request :=
  [.submitJob mapOnly [],.getTask .insertion 0,.getTask .insertion 10,.finishTask ⟨0,0,false,true⟩]

theorem outcome_final_iff_ended :
    let reached := outcome ended
    ∃ s' job', Path Step reached.1 reached.2
        ([.finishTask ⟨0,0,false,true⟩] ++ reached.1) s' ∧
      s'.jobInfo.lookup 0 = some job' ∧ (job'.done,job'.failed) = (true,false) := by
  intro reached
  have run : Run reached.1 reached.2 := outcome_run _ (by decide)
  have answers : Answers (fun _ => True) (finishTask1Svc ⟨0,0,false,true⟩ reached.2) := by decide
  obtain ⟨s',served,_⟩ := answers.exists
  have path : Path Step reached.1 reached.2 ([.finishTask ⟨0,0,false,true⟩] ++ reached.1) s' :=
    .snoc .refl ⟨show HandedOut reached.1 0 0 false by decide,served⟩
  obtain ⟨job',found,same⟩ := outcome_final_iff run (k := 0) rfl rfl path
  refine ⟨s',job',path,found,same.mpr (.inr ?_)⟩
  intro argp member _
  obtain rfl := Event.finishTask.inj (List.mem_singleton.mp member)
  rfl

/-- The worker that lost the task to the timeout reports a failure, and the job that had
ended well is recorded as failed. -/
theorem late_failure_changes_outcome :
    let reached := outcome ended
    Run reached.1 reached.2 ∧
    (∃ job, reached.2.jobInfo.lookup 0 = some job ∧ job.done = true ∧ job.failed = false) ∧
    ∃ s', Step reached.1 reached.2 (.finishTask ⟨0,0,false,false⟩) s' ∧
      ∃ job', s'.jobInfo.lookup 0 = some job' ∧ job'.done = true ∧ job'.failed = true := by
  intro reached
  have handed : HandedOut reached.1 0 0 false := by decide
  exact ⟨outcome_run _ (by decide),⟨_,rfl,rfl,rfl⟩,_,⟨handed,rfl⟩,_,rfl,rfl,rfl⟩

end OsProj.MapReduce
