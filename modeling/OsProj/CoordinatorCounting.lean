import Mathlib.Data.Nat.Count
import OsProj.CoordinatorRecords

/-! Completion is a pair of counters, one per kind of task, while what they stand for is a
set of reported tasks. A counter is never below the size of its set; it is exact as long
as no report is repeated while another task of the kind is still missing. -/
namespace OsProj.MapReduce

open OsProj.History

/-- One more member below the bound is one more counted. -/
theorem count_insert (p q : Nat → Prop) [DecidablePred p] [DecidablePred q] {a n : Nat}
    (below : a < n) (absent : ¬p a) (extends_ : ∀ t, q t ↔ t = a ∨ p t) :
    Nat.count q n = Nat.count p n + 1 := by
  have same : (Finset.range n).filter q = insert a ((Finset.range n).filter p) := by
    ext t
    simp only [Finset.mem_filter,Finset.mem_range,Finset.mem_insert,extends_]
    constructor
    · rintro ⟨bound,rfl | old⟩
      · exact .inl rfl
      · exact .inr ⟨bound,old⟩
    · rintro (rfl | ⟨bound,old⟩)
      · exact ⟨below,.inl rfl⟩
      · exact ⟨bound,.inr old⟩
  rw [Nat.count_eq_card_filter_range,Nat.count_eq_card_filter_range,same,Finset.card_insert_of_notMem]
  simp [absent]

def SubmitJobRequest.size (argp : SubmitJobRequest) (reduce : Bool) : Int :=
  if reduce then argp.nReduce else argp.files.length

def AllReported (h : List Event) (k : Int) (reduce : Bool) : Prop :=
  ∃ argp, submission h k = some argp ∧ ∀ t, 0 ≤ t → t < argp.size reduce → Reported h k t reduce

theorem Reported.cons (e : Event) (reported : Reported h k t reduce) : Reported (e :: h) k t reduce :=
  reported_cons.mpr (.inr reported)

theorem AllReported.cons (e : Event) (all : AllReported h k reduce) : AllReported (e :: h) k reduce := by
  obtain ⟨argp,known,every⟩ := all
  exact ⟨argp,submission_cons e known,fun t low high => (every t low high).cons e⟩

instance (h : List Event) (k : Int) (reduce : Bool) : Decidable (AllReported h k reduce) :=
  match known : submission h k with
  | none => .isFalse (fun ⟨_,known',_⟩ => nomatch known.symm.trans known')
  | some argp =>
    decidable_of_iff (∀ t : Nat, t < (argp.size reduce).toNat → Reported h k t reduce) (by
      constructor
      · intro every
        refine ⟨argp,known,?_⟩
        intro t low high
        have at' := every t.toNat (by omega)
        rwa [Int.toNat_of_nonneg low] at at'
      · rintro ⟨argp',known',every⟩ t below
        obtain rfl := Option.some.inj (known.symm.trans known')
        exact every t (by omega) (by omega))

/-- A task already reported is reported again before all tasks of its kind are. -/
def PrematureRepeat (h : List Event) (argp : FinishTaskRequest) : Prop :=
  argp.success = true ∧ Reported h argp.jobId argp.task argp.reduce ∧
    ¬AllReported h argp.jobId argp.reduce

instance (h : List Event) (argp : FinishTaskRequest) : Decidable (PrematureRepeat h argp) :=
  inferInstanceAs (Decidable (_ ∧ _ ∧ ¬_))

def Coordinator.running (s : Coordinator) (k : Int) : Bool :=
  match s.jobInfo.lookup k with
  | some job => !job.done
  | none => false

theorem running_of_live {s : Coordinator} {k : Int} {job : Job}
    (found : s.jobInfo.lookup k = some job) (live : job.done = false) : s.running k = true := by
  simp [Coordinator.running,found,live]

/-- The condition on FINISH_TASK under which the counter of a kind stays exact until the
job is done. -/
def NoPrematureRepeat (reduce : Bool) (h : List Event) (s : Coordinator) : Event → Prop
  | .finishTask argp => s.running argp.jobId = true → argp.reduce = reduce → ¬PrematureRepeat h argp
  | _ => True

instance (reduce : Bool) (h : List Event) (s : Coordinator) :
    (e : Event) → Decidable (NoPrematureRepeat reduce h s e)
  | .submitJob .. | .pollJob .. | .getTask .. => inferInstanceAs (Decidable True)
  | .finishTask argp => inferInstanceAs
    (Decidable (s.running argp.jobId = true → argp.reduce = reduce → ¬PrematureRepeat h argp))

def Job.completed (job : Job) (reduce : Bool) : Nat :=
  if reduce then job.nReduceCompleted else job.nMapCompleted

def reportedCount (h : List Event) (k : Int) (reduce : Bool) (size : Int) : Nat :=
  Nat.count (fun t : Nat => Reported h k t reduce) size.toNat

theorem Tracked.size (tracked : Tracked h k job) :
    ∃ argp, submission h k = some argp ∧ ∀ reduce, job.size reduce = argp.size reduce := by
  obtain ⟨argp,behind,known,_,same⟩ := tracked.submitted
  refine ⟨argp,known,?_⟩
  intro reduce
  simp [Job.size,SubmitJobRequest.size,same.nReduce,same.nMap,newJob]

theorem Tracked.allReported_iff (tracked : Tracked h k job) (reduce : Bool) :
    AllReported h k reduce ↔ ∀ t : Nat, t < (job.size reduce).toNat → Reported h k t reduce := by
  obtain ⟨argp,known,size⟩ := tracked.size
  constructor
  · rintro ⟨argp',known',every⟩ t below
    obtain rfl := Option.some.inj (known.symm.trans known')
    rw [size] at below
    exact every t (by omega) (by omega)
  · intro every
    refine ⟨argp,known,?_⟩
    intro t low high
    have at' := every t.toNat (by rw [size]; omega)
    rwa [Int.toNat_of_nonneg low] at at'

theorem Tracked.reportedCount_full (tracked : Tracked h k job) (reduce : Bool)
    (full : reportedCount h k reduce (job.size reduce) = (job.size reduce).toNat) :
    AllReported h k reduce :=
  (tracked.allReported_iff reduce).mpr (Nat.count_iff_forall.mp full)

/-- A `JobStep` either leaves counters and reports of the job alone, or counts one report. -/
theorem JobStep.counting (step : JobStep k e job job') (h : List Event) :
    SameSubmission job job' ∧
    (((∀ reduce, job'.completed reduce = job.completed reduce) ∧
      ∀ t reduce, Reported (e :: h) k t reduce ↔ Reported h k t reduce) ∨
    (∃ argp task, e = .finishTask argp ∧ argp.jobId = k ∧ argp.success = true ∧
      job.taskInfo.lookup argp.task = some task ∧ Finished job argp.task task argp.reduce job' ∧
      (∀ reduce, job'.completed reduce =
        job.completed reduce + if reduce = argp.reduce then 1 else 0) ∧
      ∀ t reduce, Reported (e :: h) k t reduce ↔
        (t = argp.task ∧ reduce = argp.reduce) ∨ Reported h k t reduce)) := by
  have silent {e : Event} (no : ∀ t reduce, ¬e.Reports k t reduce) (t : Int) (reduce : Bool) :
      Reported (e :: h) k t reduce ↔ Reported h k t reduce := by
    simp [no t reduce]
  cases step with
  | submitJob | pollJob | wait | otherTask =>
    exact ⟨.refl _,.inl ⟨fun _ => rfl,silent (fun _ _ => id)⟩⟩
  | handOut live names own handOut =>
    cases handOut with
    | again => exact ⟨.refl _,.inl ⟨fun _ => rfl,silent (fun _ _ => id)⟩⟩
    | map => exact ⟨startMap_same ..,.inl ⟨fun _ => rfl,silent (fun _ _ => id)⟩⟩
    | reduce => exact ⟨startReduce_same ..,.inl ⟨fun _ => rfl,silent (fun _ _ => id)⟩⟩
  | otherFinish other =>
    refine ⟨.refl _,.inl ⟨fun _ => rfl,silent ?_⟩⟩
    rintro t reduce rfl
    exact other rfl
  | fail own failure =>
    refine ⟨fail_same _,.inl ⟨fun _ => rfl,silent ?_⟩⟩
    rintro t reduce rfl
    contradiction
  | finish own success found finished =>
    rename_i task argp
    refine ⟨finished.submission,.inr ⟨argp,task,rfl,own,success,found,finished,?_,?_⟩⟩
    · intro reduce
      cases reduce <;> cases kind : argp.reduce <;>
        simp [Job.completed,finished.nMapCompleted,finished.nReduceCompleted,kind]
    · intro t reduce
      rw [reported_cons]
      apply or_congr_left
      constructor
      · rintro rfl
        exact ⟨rfl,rfl⟩
      · rintro ⟨rfl,rfl⟩
        cases argp
        simp_all [Event.Reports]

/-- The tally of one kind grows by one for a task reported for the first time and not
at all for a repeat. -/
theorem reportedCount_step (size : Int) (task : Int) (low : 0 ≤ task) (high : task < size)
    (grows : ∀ t, Reported h' k t reduce ↔ t = task ∨ Reported h k t reduce) :
    reportedCount h' k reduce size =
      reportedCount h k reduce size + if Reported h k task reduce then 0 else 1 := by
  split
  · rename_i before
    rw [Nat.add_zero,reportedCount,reportedCount,Nat.count_eq_card_filter_range,
      Nat.count_eq_card_filter_range]
    apply congrArg Finset.card (Finset.filter_congr _)
    intro t _
    rw [grows]
    exact ⟨fun either => either.elim (fun same => same ▸ before) id,.inr⟩
  · rename_i first
    have below : task.toNat < size.toNat := by omega
    refine count_insert (fun t : Nat => Reported h k t reduce) (fun t : Nat => Reported h' k t reduce)
      below ?_ ?_
    · rwa [Int.toNat_of_nonneg low]
    · intro t
      rw [grows]
      apply or_congr_left
      omega

theorem SameSubmission.size (same : SameSubmission job job') (reduce : Bool) :
    job'.size reduce = job.size reduce := by
  simp [Job.size,same.nReduce,same.nMap]

theorem reportedCount_congr (size : Int) (same : ∀ t, Reported h' k t reduce ↔ Reported h k t reduce) :
    reportedCount h' k reduce size = reportedCount h k reduce size := by
  simp only [reportedCount,Nat.count_eq_card_filter_range,same]

theorem Tracked.reported_range (tracked : Tracked h k job) (handed : HandedOut h k t reduce) :
    0 ≤ t ∧ t < job.size reduce := by
  have range := (tracked.handed t reduce).mp handed
  have bound := tracked.assigned_le reduce
  omega

/-- How the counter of a kind and the number of its reported tasks move in one step. -/
theorem Tracked.counting (tracked : Tracked h k job) (step : JobStep k e job job')
    (admissible : e.Admissible h) (reduce : Bool) :
    job'.size reduce = job.size reduce ∧
    ((job'.completed reduce = job.completed reduce ∧
      reportedCount (e :: h) k reduce (job.size reduce) = reportedCount h k reduce (job.size reduce)) ∨
    (∃ argp, e = .finishTask argp ∧ argp.jobId = k ∧ argp.success = true ∧ argp.reduce = reduce ∧
      job'.completed reduce = job.completed reduce + 1 ∧
      reportedCount (e :: h) k reduce (job.size reduce) =
        reportedCount h k reduce (job.size reduce) +
          if Reported h k argp.task reduce then 0 else 1)) := by
  obtain ⟨same,⟨completed,reported⟩ | ⟨argp,task,rfl,rfl,success,_,_,completed,reported⟩⟩ := step.counting h
  · exact ⟨same.size reduce,.inl ⟨completed reduce,
      reportedCount_congr _ (fun t => reported t reduce)⟩⟩
  · refine ⟨same.size reduce,?_⟩
    by_cases own : argp.reduce = reduce
    · subst own
      obtain ⟨low,high⟩ := tracked.reported_range admissible
      refine .inr ⟨argp,rfl,rfl,success,rfl,by simp [completed],?_⟩
      exact reportedCount_step _ argp.task low high (fun t => by simp [reported])
    · have other : reduce ≠ argp.reduce := Ne.symm own
      exact .inl ⟨by simp [completed,other],
        reportedCount_congr _ (fun t => by simp [reported,other])⟩

theorem reportedCount_fresh (silent : ∀ t reduce, ¬Reported h k t reduce) (size : Int) :
    reportedCount h k reduce size = 0 :=
  Nat.count_of_forall_not (fun t _ => silent t reduce)

theorem Consistent.silent (valid : Consistent h s) (argp : SubmitJobRequest) (behind : List UInt8)
    (answer t : Int) (reduce : Bool) :
    ¬Reported (.submitJob argp behind answer :: h) s.counter t reduce := by
  intro reported
  rcases reported_cons.mp reported with current | earlier
  · exact current
  · exact valid.fresh (valid.reported _ t reduce earlier)

/-- A counter never falls behind the set of tasks reported. -/
theorem reportedCount_le_completed (run : Run h s) (k : Int) (job : Job)
    (found : s.jobInfo.lookup k = some job) (reduce : Bool) :
    reportedCount h k reduce (job.size reduce) ≤ job.completed reduce := by
  refine RunWhere.jobs (fun h k job => ∀ reduce,
    reportedCount h k reduce (job.size reduce) ≤ job.completed reduce) ?_ ?_ run.anywhere k job found reduce
  · intro h s argp behind answer valid _ reduce
    rw [reportedCount_fresh (valid.silent argp behind answer)]
    exact Nat.zero_le _
  · intro h s e k job job' valid _ admissible found step bound reduce
    obtain ⟨size,⟨completed,count⟩ | ⟨argp,_,_,_,_,completed,count⟩⟩ :=
      (valid.tracked k job found).counting step admissible reduce
    · rw [size,completed,count]
      exact bound reduce
    · rw [size,completed,count]
      have := bound reduce
      split <;> omega

/-- The counter is the number of reported tasks, unless all of them are reported. -/
def Exact (h : List Event) (k : Int) (job : Job) (reduce : Bool) : Prop :=
  job.completed reduce = reportedCount h k reduce (job.size reduce) ∨ AllReported h k reduce

theorem Tracked.exact_step (tracked : Tracked h k job) (step : JobStep k e job job')
    (admissible : e.Admissible h) (running : s.running k = true)
    (condition : NoPrematureRepeat reduce h s e)
    (exact_ : Exact h k job reduce) : Exact (e :: h) k job' reduce := by
  rcases exact_ with counted | all
  · obtain ⟨size,⟨completed,count⟩ | ⟨argp,rfl,rfl,success,rfl,completed,count⟩⟩ :=
      tracked.counting step admissible reduce
    · left
      rw [size,completed,count,counted]
    · by_cases repeated : Reported h argp.jobId argp.task argp.reduce
      · right
        by_contra missing
        exact condition running rfl ⟨success,repeated,fun all => missing (all.cons _)⟩
      · left
        rw [size,completed,count,counted,if_neg repeated]
  · exact .inr (all.cons e)

theorem counter_exact {condition : List Event → Coordinator → Event → Prop}
    (stronger : ∀ h s e, condition h s e → NoPrematureRepeat reduce h s e)
    (run : RunWhere condition h s) (k : Int) (job : Job) (found : s.jobInfo.lookup k = some job)
    (live : job.done = false) : Exact h k job reduce := by
  refine RunWhere.jobs (fun h k job => job.done = false → Exact h k job reduce) ?_ ?_ run k job found live
  · intro h s argp behind answer valid _ _
    left
    rw [reportedCount_fresh (valid.silent argp behind answer)]
    cases reduce <;> rfl
  · intro h s e k job job' valid met admissible found step exact_ live'
    have live := step.live live'
    exact (valid.tracked k job found).exact_step step admissible (running_of_live found live)
      (stronger h s e met) (exact_ live)

/-- An exact counter that has reached the number of tasks means they are all reported. -/
theorem Exact.allReported (exact_ : Exact h k job reduce) (tracked : Tracked h k job)
    (full : (job.completed reduce : Int) = job.size reduce) : AllReported h k reduce := by
  rcases exact_ with counted | all
  · exact tracked.reportedCount_full reduce (by omega)
  · exact all

/-- A GET_TASK reply with a reduce task comes after a report of every map task of its job. -/
def ReduceAfterMaps (earlier : List Event) : Event → Prop
  | .getTask _ _ r => r.wait = false → r.reduce = true → AllReported earlier r.jobId false
  | _ => True

instance (earlier : List Event) : (e : Event) → Decidable (ReduceAfterMaps earlier e)
  | .submitJob .. | .pollJob .. | .finishTask _ => inferInstanceAs (Decidable True)
  | .getTask _ _ r => inferInstanceAs
    (Decidable (r.wait = false → r.reduce = true → AllReported earlier r.jobId false))

/-- The first reduce hand-out tests the counter; later ones find a record it left. -/
theorem maps_reported {condition : List Event → Coordinator → Event → Prop}
    (stronger : ∀ h s e, condition h s e → NoPrematureRepeat false h s e)
    (run : RunWhere condition h s) (k : Int) (job : Job) (found : s.jobInfo.lookup k = some job)
    (started : 0 < job.nReduceAssigned) : AllReported h k false := by
  induction run generalizing k job with
  | refl => simp [coordinatorInit] at found
  | @snoc h s e s' front last ih =>
    have valid := run_consistent front.unguarded
    rcases valid.lookup_back last.1 k job found with ⟨_,_,_,_,_,rfl⟩ | ⟨before,found',step⟩
    · exact absurd started (Nat.lt_irrefl 0)
    · have earlier (old : 0 < before.nReduceAssigned) := (ih k before found' old).cons e
      cases step with
      | handOut live names own handOut =>
        cases handOut with
        | reduce unassigned number kind =>
          have full := (reduceAssignable_iff.mp unassigned).1
          have counted := counter_exact stronger front k before found' live
          refine (counted.allReported (valid.tracked k before found') ?_).cons _
          exact congrArg Nat.cast full
        | _ => exact earlier started
      | finish own success atTask finished => exact earlier (finished.nReduceAssigned ▸ started)
      | _ => exact earlier started

/-- In every run in which no map report of a job that is not done is repeated before all
map tasks of the job are reported, reduce tasks wait for the maps. -/
theorem reduce_after_maps (run : RunWhere (NoPrematureRepeat false) h s) :
    Always ReduceAfterMaps h := by
  refine run.always ?_
  intro h s e s' front ⟨step,_⟩
  cases e with
  | getTask order now r =>
    intro assigned reduce
    have valid := run_consistent front.unguarded
    obtain ⟨job,job',chosen⟩ := valid.handsOut step.2 assigned
    have tracked := valid.tracked r.jobId job chosen.found
    cases chosen.handOut with
    | again task member late number kind file =>
      obtain ⟨slot,found⟩ := (mem_tasks_iff job task).mp member
      have handed := (tracked.record slot task found).2.1
      rw [← kind,reduce,tracked.handed] at handed
      have started : 0 < job.assigned true := by omega
      exact maps_reported (fun _ _ _ => id) front r.jobId job chosen.found started
    | map unassigned file number kind =>
      rw [kind] at reduce
      contradiction
    | reduce unassigned number kind =>
      have counted := counter_exact (fun _ _ _ => id) front r.jobId job chosen.found chosen.live
      exact counted.allReported tracked (congrArg Nat.cast (reduceAssignable_iff.mp unassigned).1)
  | _ => trivial

/-- Two maps and the reduce task behind them. -/
theorem reduce_after_maps_wordCount :
    let reached := outcome [.submitJob wordCount [],.getTask .insertion 0,.getTask .insertion 0,
      .finishTask ⟨0,1,false,true⟩,.finishTask ⟨0,0,false,true⟩,.getTask .insertion 1]
    HandedOut reached.1 0 0 true ∧ Always ReduceAfterMaps reached.1 :=
  ⟨by decide,reduce_after_maps (outcome_runWhere (NoPrematureRepeat false) _ (by decide))⟩

/-- Reporting one of two map tasks twice releases the reduce task while the other map is
still running. -/
theorem repeated_map_report_releases_reduce :
    let reached := outcome [.submitJob wordCount [],.getTask .insertion 0,.getTask .insertion 0,
      .finishTask ⟨0,0,false,true⟩,.finishTask ⟨0,0,false,true⟩,.getTask .insertion 1]
    Run reached.1 reached.2 ∧ ¬Always ReduceAfterMaps reached.1 :=
  ⟨outcome_run _ (by decide),by decide⟩

/-- A POLL_JOB reply that calls a job done and not failed comes after a report of every
task of the job. -/
def DoneAfterReports (earlier : List Event) : Event → Prop
  | .pollJob k answer => answer.done = true → answer.failed = false →
    AllReported earlier k false ∧ AllReported earlier k true
  | _ => True

instance (earlier : List Event) : (e : Event) → Decidable (DoneAfterReports earlier e)
  | .submitJob .. | .getTask .. | .finishTask _ => inferInstanceAs (Decidable True)
  | .pollJob k answer => inferInstanceAs (Decidable (answer.done = true → answer.failed = false →
    AllReported earlier k false ∧ AllReported earlier k true))

def NoPrematureRepeats (h : List Event) (s : Coordinator) (e : Event) : Prop :=
  NoPrematureRepeat false h s e ∧ NoPrematureRepeat true h s e

instance (h : List Event) (s : Coordinator) (e : Event) : Decidable (NoPrematureRepeats h s e) :=
  inferInstanceAs (Decidable (_ ∧ _))

theorem done_reported (run : RunWhere NoPrematureRepeats h s) (k : Int) (job : Job)
    (found : s.jobInfo.lookup k = some job) (isDone : job.done = true) (succeeded : job.failed = false) :
    AllReported h k false ∧ AllReported h k true := by
  induction run generalizing k job with
  | refl => simp [coordinatorInit] at found
  | @snoc h s e s' front last ih =>
    have valid := run_consistent front.unguarded
    rcases valid.lookup_back last.1 k job found with ⟨_,_,_,_,_,rfl⟩ | ⟨before,found',step⟩
    · contradiction
    · have earlier (isDone : before.done = true) (succeeded : before.failed = false) :
          AllReported (e :: h) k false ∧ AllReported (e :: h) k true := by
        obtain ⟨maps,reduces⟩ := ih k before found' isDone succeeded
        exact ⟨maps.cons e,reduces.cons e⟩
      have tracked := valid.tracked k before found'
      have tracked' := tracked.step step last.1.1
      have moved := step
      cases step with
      | handOut live names own handOut =>
        cases handOut with
        | again => exact earlier isDone succeeded
        | map => exact earlier isDone succeeded
        | reduce => exact earlier isDone succeeded
      | fail => contradiction
      | finish own success atTask finished =>
        by_cases already : before.done = true
        · exact earlier already (finished.failed ▸ succeeded)
        · -- The job became done in this step, so both counters have just reached their sizes.
          have live : before.done = false := Bool.eq_false_iff.mpr already
          have running := running_of_live found' live
          rw [finished.done,live,Bool.false_or,decide_eq_true_eq] at isDone
          have maps := counter_exact (fun _ _ _ => And.left) front k before found' live
          have reduces := counter_exact (fun _ _ _ => And.right) front k before found' live
          have maps' := tracked.exact_step moved last.1.1 running last.2.1 maps
          have reduces' := tracked.exact_step moved last.1.1 running last.2.2 reduces
          exact ⟨maps'.allReported tracked' (congrArg Nat.cast isDone.1),
            reduces'.allReported tracked' isDone.2⟩
      | _ => exact earlier isDone succeeded

/-- In every run in which no report of a job that is not done is repeated before all its
tasks of the kind are reported, done without failure means everything was reported. -/
theorem done_after_reports (run : RunWhere NoPrematureRepeats h s) : Always DoneAfterReports h := by
  refine run.always ?_
  intro h s e s' front ⟨step,_⟩
  cases e with
  | pollJob k answer =>
    intro isDone succeeded
    rcases pollJob_cases step.2 with ⟨_,rfl,_⟩ | ⟨_,job,found,rfl,_⟩
    · contradiction
    · exact done_reported front k job found isDone succeeded
  | _ => trivial

theorem done_after_reports_wordCount :
    let reached := outcome [.submitJob wordCount [],.getTask .insertion 0,.getTask .insertion 0,
      .finishTask ⟨0,1,false,true⟩,.finishTask ⟨0,0,false,true⟩,.getTask .insertion 1,
      .finishTask ⟨0,0,true,true⟩,.pollJob 0]
    (∃ job, reached.2.jobInfo.lookup 0 = some job ∧ job.done = true ∧ job.failed = false) ∧
      Always DoneAfterReports reached.1 :=
  ⟨⟨_,rfl,rfl,rfl⟩,done_after_reports (outcome_runWhere NoPrematureRepeats _ (by decide))⟩

/-- The second map task is never reported, and the job is polled as done all the same. -/
theorem repeated_reports_finish_job :
    let reached := outcome [.submitJob wordCount [],.getTask .insertion 0,.getTask .insertion 0,
      .finishTask ⟨0,0,false,true⟩,.finishTask ⟨0,0,false,true⟩,.getTask .insertion 1,
      .finishTask ⟨0,0,true,true⟩,.pollJob 0]
    Run reached.1 reached.2 ∧ ¬Always DoneAfterReports reached.1 :=
  ⟨outcome_run _ (by decide),by decide⟩

end OsProj.MapReduce
