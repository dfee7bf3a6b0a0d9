import OsProj.Cluster

/-! Runs of the cluster. The coordinator's part of a run is a run of the coordinator; each task
is with one worker at a time, and a task that has been reported is with nobody who could still
write to its files. -/
namespace OsProj.Cluster

open OsProj.ByteList
open OsProj.History
open OsProj.MapReduce (AllReported Coordinator Event GetTaskReply HandedOut NoPrematureRepeats Reported Run RunWhere Step
  SubmitJobRequest coordinatorInit finishTask1Svc getTask1Svc handedOut_cons maps_reported mem_tasks_iff reported_cons
  run_consistent run_timed submission submission_cons)
open OsProj.Worker (App Fault Files)

/-- What the reply to a GET_TASK says about the submission of its job. -/
structure Handed (h : List Event) (r : GetTaskReply) (argp : SubmitJobRequest) : Prop where
  known : submission h r.jobId = some argp
  app : r.app = argp.app
  outputDir : r.outputDir = argp.outputDir
  nMap : r.nMap = argp.files.length
  nReduce : r.nReduce = argp.nReduce
  natural : 0 ≤ r.task
  file : r.reduce = false → argp.files[r.task.toNat]? = some r.file
  args : 0 ∉ argp.args.dropLast → ∀ heap, r.sentArgs heap = argp.args

theorem Handed.cons (e : Event) (handed : Handed h r argp) : Handed (e :: h) r argp :=
  { handed with known := submission_cons e handed.known }

/-- Every task that is handed out is one of its job, and not one that has been reported. -/
theorem getTask_handed (run : Run h s) (served : getTask1Svc order now s = .ok (r,s')) (assigned : r.wait = false) :
    (∃ argp, Handed h r argp) ∧ ¬Reported h r.jobId r.task r.reduce := by
  have valid := run_consistent run
  obtain ⟨job,job',chosen⟩ := valid.handsOut served assigned
  have tracked := valid.tracked r.jobId job chosen.found
  obtain ⟨natural,below,stored,_⟩ := tracked.assignment chosen.handOut
  obtain ⟨argp,behind,known,_,same⟩ := tracked.submitted
  have length : r.argsLen = argp.args.length := chosen.names.argsLen.trans same.argsLen
  have copy : r.argsVal = if argp.args = [] then none else some (MapReduce.strdup (argp.args ++ behind)) :=
    chosen.names.argsVal.trans same.argsVal
  refine ⟨⟨argp,known,chosen.names.app.trans same.app,chosen.names.outputDir.trans same.outputDir,
    chosen.names.nMap.trans (congrArg _ same.nMap),chosen.names.nReduce.trans same.nReduce,natural,?_,?_⟩,?_⟩
  · intro map
    obtain ⟨argp',known',count,files⟩ := tracked.mapTasks
    obtain rfl := Option.some.inj (known.symm.trans known')
    have small : r.task < job.nMap := by simpa [MapReduce.Job.size,map] using below
    have file := stored map
    rwa [files,if_pos ⟨natural,small⟩] at file
  · intro text
    simp only [GetTaskReply.sentArgs,length,copy]
    rw [MapReduce.sent_iff_same]
    split
    · rename_i empty
      simp [empty]
    · exact (MapReduce.strdup_holds_iff _ _).mpr text
  · intro reported
    cases chosen.handOut with
    | again task member late number kind file =>
      obtain ⟨slot,found⟩ := (mem_tasks_iff job task).mp member
      have stamped := run_timed run r.jobId job chosen.found slot task found
      rw [number,(tracked.record slot task found).1,kind] at reported
      have complete := stamped.settled reported
      simp [MapReduce.Task.timedOut,complete] at late
    | map unassigned file number kind =>
      have before := (tracked.handed _ _).mp (tracked.reported _ _ reported)
      rw [number,kind,MapReduce.Job.assigned,if_neg (by simp)] at before
      omega
    | reduce unassigned number kind =>
      have before := (tracked.handed _ _).mp (tracked.reported _ _ reported)
      rw [number,kind,MapReduce.Job.assigned,if_pos rfl] at before
      omega

/-- A reduce task is handed out after the reports of all map tasks. -/
theorem reduce_handed_maps (run : RunWhere NoPrematureRepeats h s) (handed : HandedOut h k t true) : AllReported h k false := by
  have valid := run_consistent run.unguarded
  obtain ⟨job,found⟩ := valid.handed _ _ _ handed
  have range := ((valid.tracked k job found).handed t true).mp handed
  rw [MapReduce.Job.assigned,if_pos rfl] at range
  exact maps_reported (fun _ _ _ => And.left) run k job found (by omega)

theorem reported_natural (run : Run h s) (handed : HandedOut h k t reduce) : 0 ≤ t := by
  have valid := run_consistent run
  obtain ⟨job,found⟩ := valid.handed _ _ _ handed
  exact (((valid.tracked k job found).handed t reduce).mp handed).1

theorem reported_handed (run : Run h s) (reported : Reported h k t reduce) : HandedOut h k t reduce := by
  have valid := run_consistent run
  obtain ⟨job,found⟩ := valid.reported _ _ _ reported
  exact (valid.tracked k job found).reported t reduce reported

section
variable {W : Type} {site : Site}

/-- The worker has done all it does to the files of its task. -/
def Busy.Ended (busy : Busy) : Prop := ∃ success, busy.work = .reporting success

/-- Each task that is worked on was handed out, to one worker that still runs. -/
structure Sound (c : State W) : Prop where
  run : RunWhere NoPrematureRepeats c.history c.coordinator
  handed : ∀ w, ∀ busy ∈ c.workers w, ∃ argp, Handed c.history busy.task argp ∧ ∃ heap, busy.aux = busy.task.sentArgs heap
  handedOut : ∀ w, ∀ busy ∈ c.workers w, HandedOut c.history busy.task.jobId busy.task.task busy.task.reduce
  unique : ∀ w w', ∀ busy ∈ c.workers w, ∀ busy' ∈ c.workers w',
    busy'.Holds busy.task.jobId busy.task.task busy.task.reduce → w = w'
  reported : ∀ w, ∀ busy ∈ c.workers w, Reported c.history busy.task.jobId busy.task.task busy.task.reduce → busy.Ended

theorem sound_init (disk : Nat → Files) : Sound (clusterInit disk : State W) where
  run := .refl
  handed _ _ none := absurd none (Option.not_mem_none _)
  handedOut _ _ none := absurd none (Option.not_mem_none _)
  unique _ _ _ none := absurd none (Option.not_mem_none _)
  reported _ _ none := absurd none (Option.not_mem_none _)

def Continued (workers workers' : W → Option Busy) : Prop :=
  ∀ w, ∀ busy' ∈ workers' w, ∃ busy ∈ workers w, busy'.task = busy.task ∧ busy'.aux = busy.aux ∧ (busy.Ended → busy'.Ended)

theorem continued_refl (workers : W → Option Busy) : Continued workers workers :=
  fun _ busy found => ⟨busy,found,rfl,rfl,id⟩

/-- The coordinator does nothing. -/
theorem Sound.continued {c c' : State W} (sound : Sound c) (history : c'.history = c.history)
    (coordinator : c'.coordinator = c.coordinator) (workers : Continued c.workers c'.workers) : Sound c' := by
  constructor
  · rw [history,coordinator]
    exact sound.run
  · intro w busy' found'
    obtain ⟨busy,found,task,aux,_⟩ := workers w busy' found'
    rw [history,task,aux]
    exact sound.handed w busy found
  · intro w busy' found'
    obtain ⟨busy,found,task,_,_⟩ := workers w busy' found'
    rw [history,task]
    exact sound.handedOut w busy found
  · intro w₁ w₂ busy₁' found₁' busy₂' found₂' holds
    obtain ⟨busy₁,found₁,task₁,_,_⟩ := workers w₁ busy₁' found₁'
    obtain ⟨busy₂,found₂,task₂,_,_⟩ := workers w₂ busy₂' found₂'
    rw [Busy.Holds,task₁,task₂] at holds
    exact sound.unique w₁ w₂ busy₁ found₁ busy₂ found₂ holds
  · intro w busy' found' reported
    obtain ⟨busy,found,task,_,ended⟩ := workers w busy' found'
    rw [history,task] at reported
    exact ended (sound.reported w busy found reported)

/-- The coordinator handles a request of which the workers know. -/
theorem Sound.served {c : State W} (sound : Sound c) (step : Step c.history c.coordinator e s)
    (exact_ : NoPrematureRepeats c.history c.coordinator e)
    (reports : ∀ w, ∀ busy ∈ c.workers w, e.Reports busy.task.jobId busy.task.task busy.task.reduce → busy.Ended) :
    Sound (c.served e s) where
  run := .snoc sound.run ⟨step,exact_⟩
  handed w busy found := by
    obtain ⟨argp,handed,heap,aux⟩ := sound.handed w busy found
    exact ⟨argp,handed.cons e,heap,aux⟩
  handedOut w busy found := handedOut_cons.mpr (.inr (sound.handedOut w busy found))
  unique := sound.unique
  reported w busy found reported := by
    rcases reported_cons.mp reported with now | before
    · exact reports w busy found now
    · exact sound.reported w busy found before

theorem exact_of_other (other : ∀ argp, e ≠ Event.finishTask argp) : NoPrematureRepeats h s e := by
  cases e with
  | finishTask argp => exact absurd rfl (other argp)
  | _ => exact ⟨trivial,trivial⟩

theorem silent_of_other (other : ∀ argp, e ≠ Event.finishTask argp) : ¬e.Reports k t reduce := by
  cases e with
  | finishTask argp => exact absurd rfl (other argp)
  | _ => exact id

theorem Sound.request {c : State W} (sound : Sound c) (step : Step c.history c.coordinator e s)
    (other : ∀ argp, e ≠ .finishTask argp) : Sound (c.served e s) :=
  sound.served step (exact_of_other other) fun _ _ _ reports => absurd reports (silent_of_other other)

variable [DecidableEq W]

inductive Moved (site : Site) (c : State W) : State W → Prop where
  | request : Step c.history c.coordinator e s → (∀ argp, e ≠ .finishTask argp) → Moved site c (c.served e s)
  | handOut (heap : Nat → UInt8) : c.workers w = none → Step c.history c.coordinator (.getTask order now r) s → r.wait = false →
      c.Free r.jobId r.task r.reduce →
      Moved site c ((c.served (.getTask order now r) s).setWorker w (some ⟨r,r.sentArgs heap,.received⟩))
  | work : c.workers w = some busy → advance site (c.disk (busy.place site)) busy = .ok (work,files) →
      Moved site c ((c.setFiles (busy.place site) files).setWorker w (some { busy with work := work }))
  | scribble : c.workers w = some busy → scribble (c.disk (busy.place site)) busy i content = some files →
      Moved site c (c.setFiles (busy.place site) files)
  | failure : c.workers w = some busy → busy.work.mayFail = true →
      Moved site c (c.setWorker w (some { busy with work := .reporting false }))
  | report (again : Bool) : c.workers w = some busy → busy.work = .reporting success →
      finishTask1Svc (busy.request success) c.coordinator = .ok s →
      NoPrematureRepeats c.history c.coordinator (.finishTask (busy.request success)) →
      Moved site c ((c.served (.finishTask (busy.request success)) s).setWorker w (if again then some busy else none))
  | stop : Moved site c (c.setWorker w none)

theorem perform_moved (command : Command W) (performed : perform site c command = some c') (calm : Undisturbed c command) :
    Moved site c c' := by
  cases command with
  | submitJob argp behind =>
    simp only [perform] at performed
    split at performed
    · contradiction
    rename_i answer s served
    obtain rfl := Option.some.inj performed
    exact .request ⟨trivial,served⟩ (by simp)
  | pollJob k =>
    simp only [perform] at performed
    split at performed
    · contradiction
    rename_i answer s served
    obtain rfl := Option.some.inj performed
    exact .request ⟨trivial,served⟩ (by simp)
  | getTask w order now heap =>
    simp only [perform] at performed
    split at performed
    · rename_i allowed
      have idle : c.workers w = none := Option.isNone_iff_eq_none.mp allowed.2
      split at performed
      · contradiction
      rename_i r s served
      obtain rfl := Option.some.inj performed
      cases waits : r.wait with
      | true =>
        have same : (c.served (.getTask order now r) s).setWorker w none = c.served (.getTask order now r) s := by
          rw [State.setWorker,State.served]
          congr 1
          exact Function.update_eq_iff.mpr ⟨idle.symm,fun _ _ => rfl⟩
        rw [if_pos rfl,same]
        exact .request ⟨allowed.1,served⟩ (by simp)
      | false =>
        rw [if_neg (by simp)]
        exact .handOut heap idle ⟨allowed.1,served⟩ waits (calm r s served waits)
    · contradiction
  | lostTask order now =>
    simp only [perform] at performed
    split at performed
    · rename_i allowed
      split at performed
      · contradiction
      rename_i r s served
      obtain rfl := Option.some.inj performed
      exact .request ⟨allowed,served⟩ (by simp)
    · contradiction
  | work w =>
    simp only [perform,Option.bind_eq_bind] at performed
    obtain ⟨busy,found,performed⟩ := Option.bind_eq_some_iff.mp performed
    split at performed
    · contradiction
    rename_i work files advanced
    obtain rfl := Option.some.inj performed
    exact .work found advanced
  | scribble w i content =>
    simp only [perform,Option.bind_eq_bind] at performed
    obtain ⟨busy,found,performed⟩ := Option.bind_eq_some_iff.mp performed
    obtain ⟨files,written,performed⟩ := Option.bind_eq_some_iff.mp performed
    obtain rfl := Option.some.inj performed
    exact .scribble found written
  | failure w =>
    simp only [perform,Option.bind_eq_bind] at performed
    obtain ⟨busy,found,performed⟩ := Option.bind_eq_some_iff.mp performed
    split at performed
    · rename_i fails
      obtain rfl := Option.some.inj performed
      exact .failure found fails
    · contradiction
  | report w again =>
    simp only [perform,Option.bind_eq_bind] at performed
    obtain ⟨busy,found,performed⟩ := Option.bind_eq_some_iff.mp performed
    split at performed
    · rename_i success reporting
      split at performed
      · contradiction
      rename_i s served
      obtain rfl := Option.some.inj performed
      exact .report again found reporting served (calm busy found success)
    · contradiction
  | stop w =>
    obtain rfl := Option.some.inj performed
    exact .stop

theorem continued_setWorker {workers : W → Option Busy} (found : workers w = some busy) (work : Work)
    (ended : busy.Ended → ∃ success, work = .reporting success) :
    Continued workers (Function.update workers w (some { busy with work := work })) := by
  intro v busy' found'
  by_cases same : v = w
  · subst same
    rw [Function.update_self] at found'
    obtain rfl := Option.some.inj found'
    exact ⟨busy,found,rfl,rfl,ended⟩
  · rw [Function.update_of_ne same] at found'
    exact ⟨busy',found',rfl,rfl,id⟩

theorem continued_drop (workers : W → Option Busy) (w : W) : Continued workers (Function.update workers w none) := by
  intro v busy' found'
  by_cases same : v = w
  · subst same
    rw [Function.update_self] at found'
    contradiction
  · rw [Function.update_of_ne same] at found'
    exact ⟨busy',found',rfl,rfl,id⟩

/-- A worker that was idle receives a task that nobody else works on. -/
theorem Sound.handOut {c : State W} (sound : Sound c) (heap : Nat → UInt8)
    (step : Step c.history c.coordinator (.getTask order now r) s) (assigned : r.wait = false)
    (free : c.Free r.jobId r.task r.reduce) :
    Sound ((c.served (.getTask order now r) s).setWorker w (some ⟨r,r.sentArgs heap,.received⟩)) := by
  have before := sound.request step (by simp)
  obtain ⟨⟨argp,handed⟩,fresh⟩ := getTask_handed sound.run.unguarded step.2 assigned
  have cases_ (v : W) (busy : Busy)
      (found : busy ∈ ((c.served (.getTask order now r) s).setWorker w (some ⟨r,r.sentArgs heap,.received⟩)).workers v) :
      (v = w ∧ busy = ⟨r,r.sentArgs heap,.received⟩) ∨ busy ∈ c.workers v := by
    by_cases same : v = w
    · subst same
      rw [setWorker_self] at found
      exact .inl ⟨rfl,(Option.some.inj found).symm⟩
    · rw [setWorker_ne same] at found
      exact .inr found
  constructor
  · exact before.run
  · intro v busy found
    rcases cases_ v busy found with ⟨rfl,rfl⟩ | old
    · exact ⟨argp,handed.cons _,heap,rfl⟩
    · exact before.handed v busy old
  · intro v busy found
    rcases cases_ v busy found with ⟨rfl,rfl⟩ | old
    · exact handedOut_cons.mpr (.inl ⟨assigned,rfl,rfl,rfl⟩)
    · exact before.handedOut v busy old
  · intro v v' busy found busy' found' holds
    rcases cases_ v busy found with ⟨rfl,rfl⟩ | old
    · rcases cases_ v' busy' found' with ⟨rfl,_⟩ | old'
      · rfl
      · exact absurd holds (free v' busy' old')
    · rcases cases_ v' busy' found' with ⟨rfl,rfl⟩ | old'
      · exact absurd ⟨holds.1.symm,holds.2.1.symm,holds.2.2.symm⟩ (free v busy old)
      · exact sound.unique v v' busy old busy' old' holds
  · intro v busy found reported
    rcases cases_ v busy found with ⟨rfl,rfl⟩ | old
    · exact absurd ((reported_cons.mp reported).resolve_left id) fresh
    · exact before.reported v busy old reported

theorem advance_ended (advanced : advance site files busy = .ok (work,files')) (ended : busy.Ended) :
    ∃ success, work = .reporting success := by
  obtain ⟨success,reporting⟩ := ended
  rw [advance,reporting] at advanced
  obtain ⟨rfl,_⟩ := Prod.mk.inj (Except.ok.inj advanced)
  exact ⟨success,rfl⟩

theorem Sound.step {c c' : State W} (sound : Sound c) (moved : Moved site c c') : Sound c' := by
  cases moved with
  | request step other => exact sound.request step other
  | handOut heap idle step assigned free => exact sound.handOut heap step assigned free
  | work found advanced =>
    exact sound.continued rfl rfl (continued_setWorker found _ (advance_ended advanced))
  | scribble => exact sound.continued rfl rfl (continued_refl _)
  | failure found => exact sound.continued rfl rfl (continued_setWorker found _ fun _ => ⟨false,rfl⟩)
  | @report w busy success s again found reporting served exact_ =>
    have served_ : Sound (c.served (.finishTask (busy.request success)) s) := by
      refine sound.served ⟨sound.handedOut w busy found,served⟩ exact_ ?_
      intro v other found' reports
      obtain ⟨jobId,task,reduce,_⟩ := MapReduce.FinishTaskRequest.mk.inj reports
      obtain rfl := sound.unique v w other found' busy found ⟨jobId,task,reduce⟩
      obtain rfl := Option.some.inj (found.symm.trans found')
      exact ⟨success,reporting⟩
    cases again with
    | true => exact served_.continued rfl rfl (continued_setWorker found busy.work id)
    | false => exact served_.continued rfl rfl (continued_drop _ w)
  | stop => exact sound.continued rfl rfl (continued_drop _ _)

theorem clusterRun_sound (run : ClusterRun site disk commands c) : Sound (c : State W) := by
  refine run.invariant (fun _ c => Sound c) ?_ (sound_init disk)
  intro _ c command c' sound step
  exact sound.step (perform_moved command step.1 step.2)

end

end OsProj.Cluster
