import OsProj.CoordinatorOutcome

/-! Timeouts. A record keeps the time of the first hand-out of its task, so the first
re-assignment waits for the timeout and the ones after it do not. -/
namespace OsProj.MapReduce

open OsProj.History

def Event.Aged (now : Int) : Event → Prop
  | .getTask _ earlier _ => taskTimeoutSecs ≤ now - earlier
  | _ => True

def Event.At (time : Int) : Event → Prop
  | .getTask _ now _ => now = time
  | _ => False

instance (now : Int) : (e : Event) → Decidable (e.Aged now)
  | .submitJob .. | .pollJob .. | .finishTask _ => inferInstanceAs (Decidable True)
  | .getTask _ earlier _ => inferInstanceAs (Decidable (taskTimeoutSecs ≤ now - earlier))

/-- A hand-out comes at least the timeout after every earlier one of the same task, and
before any successful report of it. -/
def Spaced (earlier : List Event) : Event → Prop
  | .getTask _ now r => r.wait = false →
    (∀ e ∈ earlier, e.HandsOut r.jobId r.task r.reduce → e.Aged now) ∧
      ¬Reported earlier r.jobId r.task r.reduce
  | _ => True

instance (earlier : List Event) : (e : Event) → Decidable (Spaced earlier e)
  | .submitJob .. | .pollJob .. | .finishTask _ => inferInstanceAs (Decidable True)
  | .getTask _ now r => inferInstanceAs (Decidable (r.wait = false →
    (∀ e ∈ earlier, e.HandsOut r.jobId r.task r.reduce → e.Aged now) ∧
      ¬Reported earlier r.jobId r.task r.reduce))

/-- The timeout has passed since every re-assignment of the task. -/
def ReassignmentsAged (h : List Event) (k t : Int) (reduce : Bool) (now : Int) : Prop :=
  Always (fun earlier e => e.HandsOut k t reduce → HandedOut earlier k t reduce → e.Aged now) h

instance (h : List Event) (k t : Int) (reduce : Bool) (now : Int) :
    Decidable (ReassignmentsAged h k t reduce now) :=
  inferInstanceAs (Decidable (Always _ h))

instance (s : Coordinator) (now id : Int) : Decidable (Idle s now id) :=
  inferInstanceAs (Decidable (∃ job ∈ s.jobInfo.lookup id, job.assignable now = false))

/-- When GET_TASK is handled, no timed-out task of the job that the scan reaches has been
re-assigned within the timeout. -/
def NoRecentReassignment (h : List Event) (s : Coordinator) : Event → Prop
  | .getTask _ now _ => ∀ k ∈ s.jobs, (∀ i ∈ s.jobs.takeWhile (· != k), Idle s now i) →
    ∀ job ∈ s.jobInfo.lookup k, job.done = false →
      ∀ task ∈ job.tasks, task.timedOut now = true →
        ReassignmentsAged h k task.taskID task.reduce now
  | _ => True

instance (h : List Event) (s : Coordinator) : (e : Event) → Decidable (NoRecentReassignment h s e)
  | .submitJob .. | .pollJob .. | .finishTask _ => inferInstanceAs (Decidable True)
  | .getTask _ now _ => inferInstanceAs (Decidable (∀ k ∈ s.jobs,
    (∀ i ∈ s.jobs.takeWhile (· != k), Idle s now i) →
      ∀ job ∈ s.jobInfo.lookup k, job.done = false →
        ∀ task ∈ job.tasks, task.timedOut now = true →
          ReassignmentsAged h k task.taskID task.reduce now))

/-- What a record says about the hand-outs and reports of its task. -/
structure Stamped (h : List Event) (k t : Int) (task : Task) : Prop where
  first : Always (fun earlier e => e.HandsOut k t task.reduce →
    ¬HandedOut earlier k t task.reduce → e.At task.startTime) h
  settled : Reported h k t task.reduce → task.complete = true

/-- An event that is no first hand-out and no report of the task leaves its record right. -/
theorem Stamped.cons (stamped : Stamped h k t task) {e : Event}
    (repeated : e.HandsOut k t task.reduce → HandedOut h k t task.reduce)
    (silent : ¬e.Reports k t task.reduce) : Stamped (e :: h) k t task := by
  constructor
  · refine ⟨?_,stamped.first⟩
    intro hands fresh
    exact absurd (repeated hands) fresh
  · intro reported
    exact stamped.settled ((reported_cons.mp reported).resolve_left silent)

theorem always_of_not_handedOut {property : List Event → Event → Prop}
    (fresh : ¬HandedOut h k t reduce) :
    Always (fun earlier e => e.HandsOut k t reduce → property earlier e) h := by
  induction h with
  | nil => trivial
  | cons e h ih =>
    rw [handedOut_cons,not_or] at fresh
    exact ⟨fun hands => absurd hands fresh.1,ih fresh.2⟩

/-- The record of a first hand-out carries the time of that hand-out. -/
theorem Tracked.stamped_new (tracked : Tracked h k job) (fresh : ¬HandedOut h k t task.reduce)
    (order : IterOrder) (r : GetTaskReply) :
    Stamped (.getTask order task.startTime r :: h) k t task := by
  constructor
  · exact ⟨fun _ _ => rfl,always_of_not_handedOut fresh⟩
  · intro reported
    rcases reported_cons.mp reported with impossible | earlier
    · exact impossible.elim
    · exact absurd (tracked.reported t task.reduce earlier) fresh

def Timed (h : List Event) (k : Int) (job : Job) : Prop :=
  ∀ t task, job.taskInfo.lookup t = some task → Stamped h k t task

theorem Timed.start (timed : Timed h k job) (tracked : Tracked h k job) {job' : Job} (task : Task)
    {r : GetTaskReply} (order : IterOrder) (number : r.task = job.assigned task.reduce)
    (table : ∀ t, job'.taskInfo.lookup t =
      if t = job.assigned task.reduce then some task else job.taskInfo.lookup t) :
    Timed (.getTask order task.startTime r :: h) k job' := by
  have fresh : ¬HandedOut h k (job.assigned task.reduce) task.reduce := by
    rw [tracked.handed]
    omega
  intro t record found
  rw [table] at found
  split at found
  · rename_i this
    obtain rfl := Option.some.inj found
    subst this
    exact tracked.stamped_new fresh order r
  · rename_i other
    refine (timed t record found).cons ?_ id
    rintro ⟨_,_,same,_⟩
    exact absurd (same.symm.trans number) other

theorem Timed.step (timed : Timed h k job) (tracked : Tracked h k job)
    (step : JobStep k e job job') : Timed (e :: h) k job' := by
  cases step with
  | submitJob | pollJob =>
    intro t task found
    exact (timed t task found).cons (fun impossible => impossible.elim) id
  | wait waiting =>
    intro t task found
    refine (timed t task found).cons ?_ id
    rintro ⟨assigned,_⟩
    rw [waiting] at assigned
    contradiction
  | otherTask other =>
    intro t task found
    refine (timed t task found).cons ?_ id
    rintro ⟨_,own,_⟩
    exact absurd own other
  | handOut live names own handOut =>
    cases handOut with
    | again task member late number kind file =>
      intro t record found
      exact (timed t record found).cons (fun _ => (tracked.record t record found).2.1) id
    | map unassigned file number kind =>
      exact timed.start tracked (newTask _ false job.jobID job.nMapAssigned _) _ number
        (fun t => lookup_insert_eq _ _ _ _)
    | reduce unassigned number kind =>
      exact timed.start tracked (newTask _ true job.jobID job.nReduceAssigned none) _ number
        (fun t => lookup_insert_eq _ _ _ _)
  | otherFinish other =>
    intro t task found
    refine (timed t task found).cons (fun impossible => impossible.elim) ?_
    rintro rfl
    exact other rfl
  | fail own failure =>
    intro t task found
    refine (timed t task found).cons (fun impossible => impossible.elim) ?_
    rintro rfl
    contradiction
  | finish own success found finished =>
    rename_i marked argp
    intro t task atTask
    rw [tracked.finish_lookup found finished] at atTask
    split at atTask
    · rename_i same
      obtain rfl := Option.some.inj atTask
      subst same
      exact ⟨⟨fun impossible => impossible.elim,(timed _ _ found).first⟩,fun _ => rfl⟩
    · rename_i other
      refine (timed t task atTask).cons (fun impossible => impossible.elim) ?_
      rintro rfl
      exact other rfl

theorem run_timed (run : Run h s) (k : Int) (job : Job) (found : s.jobInfo.lookup k = some job) :
    Timed h k job := by
  refine RunWhere.jobs Timed ?_ ?_ run.anywhere k job found
  · intro h s argp behind answer _ _ t task impossible
    simp [newJob] at impossible
  · intro h s e k job job' valid _ _ found step timed
    exact timed.step (valid.tracked k job found) step

/-- A hand-out is aged because it was the first one, at the recorded time, or because it
was a re-assignment. -/
theorem Stamped.aged (stamped : Stamped h k t task) (late : task.timedOut now = true)
    (again : ReassignmentsAged h k t task.reduce now) :
    ∀ e ∈ h, e.HandsOut k t task.reduce → e.Aged now := by
  intro e member hands
  obtain ⟨later,earlier,split⟩ := List.append_of_mem member
  by_cases before : HandedOut earlier k t task.reduce
  · exact always_iff.mp again later e earlier split hands before
  · have stamp := always_iff.mp stamped.first later e earlier split hands before
    cases e with
    | getTask order time r =>
      obtain rfl : time = task.startTime := stamp
      simp only [Task.timedOut,Bool.and_eq_true,decide_eq_true_eq] at late
      exact late.1
    | _ => exact hands.elim

/-- The jobs before the chosen one are those the condition speaks of. -/
theorem Chosen.before_idle {id : Int} (chosen : Chosen s now s.jobs r s' id job job')
    (nodup : s.jobs.Nodup) :
    id ∈ s.jobs ∧ ∀ i ∈ s.jobs.takeWhile (· != id), Idle s now i := by
  obtain ⟨before,after,queue,idle⟩ := chosen.position
  rw [queue] at nodup ⊢
  refine ⟨by simp,?_⟩
  have absent : ∀ i ∈ before, (i != id) = true := by
    intro i member
    have apart := List.nodup_append.mp nodup
    simpa using apart.2.2 i member id (by simp)
  rw [List.takeWhile_append_of_pos absent]
  simpa using idle

/-- In every run whose GET_TASKs find no timed-out task re-assigned within the timeout,
hand-outs are spaced. -/
theorem handOuts_spaced (run : RunWhere NoRecentReassignment h s) : Always Spaced h := by
  refine run.always ?_
  intro h s e s' front ⟨step,condition⟩
  cases e with
  | getTask order now r =>
    intro assigned
    have valid := run_consistent front.unguarded
    obtain ⟨job,job',chosen⟩ := valid.handsOut step.2 assigned
    have tracked := valid.tracked r.jobId job chosen.found
    obtain ⟨queued,idle⟩ := chosen.before_idle valid.nodup
    -- A task handed out for the first time has no earlier hand-out and no report.
    have new (fresh : ¬HandedOut h r.jobId r.task r.reduce) :
        (∀ e ∈ h, e.HandsOut r.jobId r.task r.reduce → e.Aged now) ∧
          ¬Reported h r.jobId r.task r.reduce :=
      ⟨fun e member hands => absurd ⟨e,member,hands⟩ fresh,
        fun reported => fresh (tracked.reported _ _ reported)⟩
    cases chosen.handOut with
    | again task member late number kind file =>
      obtain ⟨slot,found⟩ := (mem_tasks_iff job task).mp member
      have stamped := run_timed front.unguarded r.jobId job chosen.found slot task found
      have id := (tracked.record slot task found).1
      have aged := condition r.jobId queued idle job chosen.found chosen.live task member late
      rw [number,kind,id]
      rw [id] at aged
      refine ⟨stamped.aged late aged,?_⟩
      intro reported
      simp [Task.timedOut,stamped.settled reported] at late
    | map unassigned file number kind =>
      apply new
      rw [tracked.handed,number,kind]
      exact fun ⟨_,below⟩ => absurd below (Int.lt_irrefl _)
    | reduce unassigned number kind =>
      apply new
      rw [tracked.handed,number,kind]
      exact fun ⟨_,below⟩ => absurd below (Int.lt_irrefl _)
  | _ => trivial

/-- Two hand-outs of one map task, the second at the timeout. -/
theorem handOuts_spaced_oneFile :
    let reached := outcome [.submitJob oneFile [],.getTask .insertion 0,.getTask .insertion 10]
    HandedOut (reached.1.drop 1) 0 0 false ∧ HandedOut (reached.1.take 1) 0 0 false ∧
      Always Spaced reached.1 :=
  ⟨by decide,by decide,handOuts_spaced (outcome_runWhere NoRecentReassignment _ (by decide))⟩

/-- Two workers poll at the moment of the timeout, and both receive the task. -/
theorem reassigned_twice_at_once :
    let reached := outcome [.submitJob oneFile [],.getTask .insertion 0,.getTask .insertion 10,
      .getTask .insertion 10]
    Run reached.1 reached.2 ∧ ¬Always Spaced reached.1 :=
  ⟨outcome_run _ (by decide),by decide⟩

end OsProj.MapReduce
