import OsProj.CoordinatorScan
import OsProj.History

/-! Runs of the coordinator: requests handled one at a time, a clock that never goes
back, and FINISH_TASK sent only for tasks that some GET_TASK handed out. Late and
repeated reports are ordinary steps. -/
namespace OsProj.MapReduce

open OsProj.History

inductive Event where
  | submitJob (argp : SubmitJobRequest) (behind : List UInt8) (answer : Int)
  | pollJob (k : Int) (answer : PollJobReply)
  | getTask (order : IterOrder) (now : Int) (r : GetTaskReply)
  | finishTask (argp : FinishTaskRequest)

def Event.HandsOut (k t : Int) (reduce : Bool) : Event → Prop
  | .getTask _ _ r => r.wait = false ∧ r.jobId = k ∧ r.task = t ∧ r.reduce = reduce
  | _ => False

def Event.Reports (k t : Int) (reduce : Bool) : Event → Prop
  | .finishTask argp => argp = ⟨k,t,reduce,true⟩
  | _ => False

def Event.NotAfter (now : Int) : Event → Prop
  | .getTask _ earlier _ => earlier ≤ now
  | _ => True

instance (k t : Int) (reduce : Bool) : (e : Event) → Decidable (e.HandsOut k t reduce)
  | .submitJob .. | .pollJob .. | .finishTask _ => inferInstanceAs (Decidable False)
  | .getTask _ _ r =>
    inferInstanceAs (Decidable (r.wait = false ∧ r.jobId = k ∧ r.task = t ∧ r.reduce = reduce))

instance (k t : Int) (reduce : Bool) : (e : Event) → Decidable (e.Reports k t reduce)
  | .submitJob .. | .pollJob .. | .getTask .. => inferInstanceAs (Decidable False)
  | .finishTask argp => inferInstanceAs (Decidable (argp = ⟨k,t,reduce,true⟩))

instance (now : Int) : (e : Event) → Decidable (e.NotAfter now)
  | .submitJob .. | .pollJob .. | .finishTask _ => inferInstanceAs (Decidable True)
  | .getTask _ earlier _ => inferInstanceAs (Decidable (earlier ≤ now))

def HandedOut (h : List Event) (k t : Int) (reduce : Bool) : Prop := ∃ e ∈ h, e.HandsOut k t reduce

def Reported (h : List Event) (k t : Int) (reduce : Bool) : Prop := ∃ e ∈ h, e.Reports k t reduce

instance (h : List Event) (k t : Int) (reduce : Bool) : Decidable (HandedOut h k t reduce) :=
  inferInstanceAs (Decidable (∃ e ∈ h, e.HandsOut k t reduce))

instance (h : List Event) (k t : Int) (reduce : Bool) : Decidable (Reported h k t reduce) :=
  inferInstanceAs (Decidable (∃ e ∈ h, e.Reports k t reduce))

@[simp] theorem handedOut_nil : ¬HandedOut [] k t reduce := by simp [HandedOut]
@[simp] theorem reported_nil : ¬Reported [] k t reduce := by simp [Reported]

@[simp] theorem handedOut_cons :
    HandedOut (e :: h) k t reduce ↔ e.HandsOut k t reduce ∨ HandedOut h k t reduce := by
  simp [HandedOut]

@[simp] theorem reported_cons :
    Reported (e :: h) k t reduce ↔ e.Reports k t reduce ∨ Reported h k t reduce := by
  simp [Reported]

/-- The submitted requests in order of arrival; job ids count them from zero. -/
def submissions : List Event → List SubmitJobRequest
  | [] => []
  | .submitJob argp _ _ :: h => submissions h ++ [argp]
  | _ :: h => submissions h

def submission (h : List Event) (k : Int) : Option SubmitJobRequest :=
  if 0 ≤ k then (submissions h)[k.toNat]? else none

theorem submission_cons (e : Event) (known : submission h k = some argp) :
    submission (e :: h) k = some argp := by
  unfold submission at known ⊢
  split at known
  · rename_i natural
    rw [if_pos natural]
    obtain ⟨bound,_⟩ := List.getElem?_eq_some_iff.mp known
    cases e with
    | submitJob => simpa only [submissions,List.getElem?_append_left bound] using known
    | _ => exact known
  · contradiction

/-- What the environment may do: time does not run back, and only tasks that were
handed out are reported. -/
def Event.Admissible (h : List Event) : Event → Prop
  | .getTask _ now _ => ∀ e ∈ h, e.NotAfter now
  | .finishTask argp => HandedOut h argp.jobId argp.task argp.reduce
  | _ => True

instance (h : List Event) : (e : Event) → Decidable (e.Admissible h)
  | .submitJob .. | .pollJob .. => inferInstanceAs (Decidable True)
  | .getTask _ now _ => inferInstanceAs (Decidable (∀ e ∈ h, e.NotAfter now))
  | .finishTask argp => inferInstanceAs (Decidable (HandedOut h argp.jobId argp.task argp.reduce))

def Event.Served (s s' : Coordinator) : Event → Prop
  | .submitJob argp behind answer => submitJob1Svc argp behind s = .ok (answer,s')
  | .pollJob k answer => pollJob1Svc k s = .ok (answer,s')
  | .getTask order now r => getTask1Svc order now s = .ok (r,s')
  | .finishTask argp => finishTask1Svc argp s = .ok s'

def Step (h : List Event) (s : Coordinator) (e : Event) (s' : Coordinator) : Prop :=
  e.Admissible h ∧ e.Served s s'

abbrev Run : List Event → Coordinator → Prop := Path Step [] coordinatorInit

abbrev RunWhere (condition : List Event → Coordinator → Event → Prop) :
    List Event → Coordinator → Prop :=
  Path (Guarded Step condition) [] coordinatorInit

theorem step_functional (h : List Event) (s : Coordinator) (e : Event) (s₁ s₂ : Coordinator)
    (first : Step h s e s₁) (second : Step h s e s₂) : s₁ = s₂ := by
  obtain ⟨_,first⟩ := first
  obtain ⟨_,second⟩ := second
  cases e with
  | finishTask => exact Except.ok.inj (Eq.trans (Eq.symm first) second)
  | _ => exact congrArg Prod.snd (Except.ok.inj (Eq.trans (Eq.symm first) second))

inductive JobStep (k : Int) : Event → Job → Job → Prop where
  | submitJob : JobStep k (.submitJob argp behind answer) job job
  | pollJob : JobStep k (.pollJob i answer) job job
  | wait : r.wait = true → JobStep k (.getTask order now r) job job
  | otherTask : r.jobId ≠ k → JobStep k (.getTask order now r) job job
  | handOut : job.done = false → r.Names job → r.jobId = k → HandOut now job r job' →
      JobStep k (.getTask order now r) job job'
  | otherFinish : argp.jobId ≠ k → JobStep k (.finishTask argp) job job
  | fail : argp.jobId = k → argp.success = false → JobStep k (.finishTask argp) job job.fail
  | finish : argp.jobId = k → argp.success = true → job.taskInfo.lookup argp.task = some task →
      Finished job argp.task task argp.reduce job' → JobStep k (.finishTask argp) job job'

/-- A step leaves an unknown id unknown, moves a known job by a `JobStep`, or makes the
job of a submission. -/
theorem served_lookup {e : Event} {s s' : Coordinator} (served : e.Served s s')
    (keyed : ∀ k job, s.jobInfo.lookup k = some job → job.jobID = k) (k : Int) :
    (∃ argp behind answer, e = .submitJob argp behind answer ∧ k = s.counter ∧
      s'.jobInfo.lookup k = some (newJob argp behind s.counter)) ∨
    (s.jobInfo.lookup k = none ∧ s'.jobInfo.lookup k = none) ∨
    (∃ job job', s.jobInfo.lookup k = some job ∧ s'.jobInfo.lookup k = some job' ∧
      JobStep k e job job') := by
  have same (unchanged : s'.jobInfo.lookup k = s.jobInfo.lookup k)
      (still : ∀ job, JobStep k e job job) :
      (s.jobInfo.lookup k = none ∧ s'.jobInfo.lookup k = none) ∨
      (∃ job job', s.jobInfo.lookup k = some job ∧ s'.jobInfo.lookup k = some job' ∧
        JobStep k e job job') := by
    rw [unchanged]
    cases found : s.jobInfo.lookup k with
    | none => exact .inl ⟨rfl,rfl⟩
    | some job => exact .inr ⟨job,job,rfl,rfl,still job⟩
  cases e with
  | submitJob argp behind answer =>
    obtain ⟨_,_,rfl,_⟩ := submitJob_cases served
    by_cases fresh : k = s.counter
    · exact .inl ⟨argp,behind,answer,rfl,fresh,by rw [lookup_insert_eq,if_pos fresh]⟩
    · exact .inr (same (by rw [lookup_insert_eq,if_neg fresh]) (fun _ => .submitJob))
  | pollJob i answer =>
    refine .inr (same ?_ (fun _ => .pollJob))
    rcases pollJob_cases served with ⟨_,_,rfl⟩ | ⟨_,job,_,_,rfl⟩
    · rfl
    · split <;> rfl
  | getTask order now r =>
    rcases getTask_cases served with none | ⟨id,job,job',chosen⟩
    · refine .inr (same ?_ (fun _ => .wait none.wait))
      rw [none.unchanged]
    · have stored := chosen.stored.2.2.2 k
      have key : r.jobId = id := chosen.names.jobId.trans (keyed id job chosen.found)
      by_cases own : k = id
      · subst own
        rw [if_pos rfl] at stored
        exact .inr (.inr ⟨job,job',chosen.found,stored,
          .handOut chosen.live chosen.names key chosen.handOut⟩)
      · rw [if_neg own] at stored
        refine .inr (same stored (fun _ => .otherTask ?_))
        rw [key]
        exact Ne.symm own
  | finishTask argp =>
    have other (differs : k ≠ argp.jobId) (job : Job) : JobStep k (.finishTask argp) job job :=
      .otherFinish (Ne.symm differs)
    rcases finishTask_cases served with ⟨absent,rfl⟩ | ⟨job,found,failure,rfl⟩ |
      ⟨job,task,job',found,success,atTask,finished,rfl⟩
    · by_cases own : k = argp.jobId
      · subst own
        exact .inr (.inl ⟨absent,absent⟩)
      · exact .inr (same rfl (other own))
    · by_cases own : k = argp.jobId
      · subst own
        exact .inr (.inr ⟨job,job.fail,found,by simp,.fail rfl failure⟩)
      · exact .inr (same (by simp [own]) (other own))
    · by_cases own : k = argp.jobId
      · subst own
        exact .inr (.inr ⟨job,job',found,by simp,
          .finish rfl success atTask (finish_finished finished)⟩)
      · exact .inr (same (by simp [own]) (other own))

theorem step_lookup (step : Step h s e s')
    (keyed : ∀ k job, s.jobInfo.lookup k = some job → job.jobID = k) (k : Int) :
    (∃ argp behind answer, e = .submitJob argp behind answer ∧ k = s.counter ∧
      s'.jobInfo.lookup k = some (newJob argp behind s.counter)) ∨
    (s.jobInfo.lookup k = none ∧ s'.jobInfo.lookup k = none) ∨
    (∃ job job', s.jobInfo.lookup k = some job ∧ s'.jobInfo.lookup k = some job' ∧
      JobStep k e job job') := served_lookup step.2 keyed k

inductive Request where
  | submitJob (argp : SubmitJobRequest) (behind : List UInt8)
  | pollJob (k : Int)
  | getTask (order : IterOrder) (now : Int)
  | finishTask (argp : FinishTaskRequest)

def perform : Request → Coordinator → Option (Event × Coordinator)
  | .submitJob argp behind, s => match submitJob1Svc argp behind s with
    | .ok (answer,s') => some (.submitJob argp behind answer,s')
    | .error _ => none
  | .pollJob k, s => match pollJob1Svc k s with
    | .ok (answer,s') => some (.pollJob k answer,s')
    | .error _ => none
  | .getTask order now, s => match getTask1Svc order now s with
    | .ok (r,s') => some (.getTask order now r,s')
    | .error _ => none
  | .finishTask argp, s => match finishTask1Svc argp s with
    | .ok s' => some (.finishTask argp,s')
    | .error _ => none

theorem perform_served (q : Request) (performed : perform q s = some (e,s')) : e.Served s s' := by
  cases q <;> simp only [perform] at performed <;> split at performed
  all_goals
    first
    | contradiction
    | rename_i served
      obtain ⟨rfl,rfl⟩ := Prod.mk.inj (Option.some.inj performed)
      exact served

def Answers (p : α → Prop) : Except Fault α → Prop
  | .ok out => p out
  | .error _ => False

instance (p : α → Prop) [DecidablePred p] : (x : Except Fault α) → Decidable (Answers p x)
  | .ok out => inferInstanceAs (Decidable (p out))
  | .error _ => inferInstanceAs (Decidable False)

theorem Answers.exists {p : α → Prop} {x : Except Fault α} (answers : Answers p x) :
    ∃ out, x = .ok out ∧ p out := by
  cases x with
  | error fault => exact answers.elim
  | ok out => exact ⟨out,rfl,answers⟩

theorem perform_step (h : List Event) (s : Coordinator) (q : Request) (e : Event) (s' : Coordinator)
    (performed : perform q s = some (e,s')) (admitted : e.Admissible h) : Step h s e s' :=
  ⟨admitted,perform_served q performed⟩

def outcome (requests : List Request) : List Event × Coordinator :=
  arrive perform (fun h _ e => e.Admissible h) coordinatorInit requests

theorem outcome_runWhere (condition : List Event → Coordinator → Event → Prop)
    [∀ h s e, Decidable (condition h s e)] (requests : List Request)
    (handled : (replay perform (fun h s e => e.Admissible h ∧ condition h s e) requests
      ([],coordinatorInit)).isSome = true) :
    RunWhere condition (outcome requests).1 (outcome requests).2 :=
  arrive_guarded perform_step handled

theorem outcome_run (requests : List Request)
    (handled : (replay perform (fun h _ e => e.Admissible h) requests
      ([],coordinatorInit)).isSome = true) :
    Run (outcome requests).1 (outcome requests).2 :=
  arrive_path perform_step handled

/-- The order in which the entries were last inserted. -/
def IterOrder.insertion : IterOrder := ⟨id,fun _ => .refl _⟩

end OsProj.MapReduce
