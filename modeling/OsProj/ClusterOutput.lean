import OsProj.ClusterTasks

/-! The output directory of a job over a whole run of the cluster: a task that has been reported is
settled there. A job that is polled as done has what its tasks make when they are run one after
the other. -/
namespace OsProj.Cluster

open OsProj.ByteList
open OsProj.Faulting
open OsProj.History
open OsProj.MapReduce (AllReported Event FinishTaskRequest HandedOut NoPrematureRepeats Reported RunWhere SubmitJobRequest
  done_reported reported_cons submission submission_cons)
open OsProj.Worker (App Counts Emits Fault Files KeyValue Qsort Schedule Sorts allWords allWords_separated counts_groups emitted
  groups groups_shuffled intLimit job_reduces job_runs mapped mapped_emitted mergeQsort mergeQsort_sorts outputs reduceGroup runJob runTask tasks wcApp wcJob
  wcMap_words wc_counting wordPairs wordPairs_keys)

section
variable {W : Type} {site : Site} {k : Int} {argp : SubmitJobRequest} {app : App} {c c' : State W}

/-- Job `k` is this submission if any, and the only one with its output directory. -/
structure Own (site : Site) (h : List Event) (k : Int) (argp : SubmitJobRequest) : Prop where
  same : ∀ argp', submission h k = some argp' → argp' = argp
  alone : ∀ i argp', submission h i = some argp' → site.place argp'.outputDir = site.place argp.outputDir → i = k

theorem Own.before (own : Own site (e :: h) k argp) : Own site h k argp :=
  ⟨fun argp' known => own.same argp' (submission_cons e known),
    fun i argp' known => own.alone i argp' (submission_cons e known)⟩

def State.files (c : State W) (site : Site) (argp : SubmitJobRequest) : Files := c.disk (site.place argp.outputDir)

/-- Workers on the job have come as far as they think, and reported tasks are settled. -/
structure Filled (site : Site) (app : App) (k : Int) (argp : SubmitJobRequest) (c : State W) : Prop where
  progress : ∀ w, ∀ busy ∈ c.workers w, busy.task.jobId = k →
    Progress site.qsort (site.job app argp) (c.files site argp) busy.task.reduce busy.index busy.work
  settled : ∀ t reduce, Reported c.history k t reduce →
    Settled site.qsort (site.job app argp) (c.files site argp) t.toNat reduce

theorem filled_init (disk : Nat → Files) : Filled site app k argp (clusterInit disk : State W) where
  progress _ _ none := absurd none (Option.not_mem_none _)
  settled := by simp [clusterInit]

/-- Where the coordinator handles a request that reports nothing, the files stay as they are. -/
theorem Filled.served (filled : Filled site app k argp c) (silent : ∀ t reduce, ¬e.Reports k t reduce) :
    Filled site app k argp (c.served e s) where
  progress := filled.progress
  settled t reduce reported := filled.settled t reduce ((reported_cons.mp reported).resolve_left (silent t reduce))

theorem Filled.drop [DecidableEq W] (filled : Filled site app k argp c) (w : W) : Filled site app k argp (c.setWorker w none) where
  progress v busy found := by
    by_cases same : v = w
    · subst same
      rw [setWorker_self] at found
      contradiction
    · rw [setWorker_ne same] at found
      exact filled.progress v busy found
  settled := filled.settled

theorem Filled.setWorker [DecidableEq W] (filled : Filled site app k argp c) {w : W}
    (progress : busy.task.jobId = k →
      Progress site.qsort (site.job app argp) (c.files site argp) busy.task.reduce busy.index busy.work) :
    Filled site app k argp (c.setWorker w (some busy)) where
  progress v other found := by
    by_cases same : v = w
    · subst same
      rw [setWorker_self] at found
      obtain rfl := Option.some.inj found
      exact progress
    · rw [setWorker_ne same] at found
      exact filled.progress v other found
  settled := filled.settled

/-- What a worker may change leaves the files of every other task of the job alone. -/
theorem Sound.agree (sound : Sound c) (found : busy ∈ c.workers w) (confined : Confined files files' busy)
    (handed : HandedOut c.history busy.task.jobId t reduce) (other : busy.task.task = t → busy.task.reduce = reduce → False) :
    Agree files files' t.toNat reduce := by
  have natural := reported_natural sound.run.unguarded handed
  have natural' := reported_natural sound.run.unguarded (sound.handedOut w busy found)
  refine confined.agree ?_ ?_
  · intro kind same
    rw [Busy.index] at same
    exact other (by omega) kind
  · intro working map
    by_contra reduces
    rw [Bool.not_eq_false] at reduces
    subst reduces
    -- A reduce task was handed out, so this map task has been reported and is not worked on.
    obtain ⟨argp,known,all⟩ := reduce_handed_maps sound.run handed
    obtain ⟨argp',taken,_⟩ := sound.handed w busy found
    obtain rfl := Option.some.inj (known.symm.trans taken.known)
    have below := (List.getElem?_eq_some_iff.mp (taken.file map)).1
    have natural := taken.natural
    have size : argp.size false = argp.files.length := rfl
    have reported := all busy.task.task natural (by omega)
    rw [← map] at reported
    exact working (sound.reported w busy found reported)

/-- A worker writes to files of its task. -/
theorem Filled.write [DecidableEq W] (filled : Filled site app k argp c) (sound : Sound c) (own : Own site c.history k argp)
    (found : c.workers w = some busy) (confined : busy.task.jobId = k → Confined (c.disk (busy.place site)) files busy)
    (progress : busy.task.jobId = k →
      Progress site.qsort (site.job app argp) files busy.task.reduce busy.index work) :
    Filled site app k argp ((c.setFiles (busy.place site) files).setWorker w (some { busy with work := work })) := by
  obtain ⟨argp',taken,_⟩ := sound.handed w busy found
  by_cases here : busy.place site = site.place argp.outputDir
  · -- The directory is that of the job, and so is the task.
    have mine : busy.task.jobId = k := by
      refine own.alone _ argp' taken.known ?_
      rw [← taken.outputDir]
      exact here
    have files_ : ((c.setFiles (busy.place site) files).setWorker w (some { busy with work := work })).files site argp = files := by
      rw [State.files,here]
      exact Function.update_self ..
    have confined := confined mine
    rw [here] at confined
    have agree (t : Int) (reduce : Bool) (handed : HandedOut c.history k t reduce)
        (other : busy.task.task = t → busy.task.reduce = reduce → False) : Agree (c.files site argp) files t.toNat reduce :=
      sound.agree found confined (mine ▸ handed) other
    have work_ := progress mine
    constructor
    · intro v busy' found' mine'
      rw [files_]
      by_cases same : v = w
      · subst same
        rw [setWorker_self] at found'
        obtain rfl := Option.some.inj found'
        exact work_
      · rw [setWorker_ne same] at found'
        have handed := sound.handedOut v busy' found'
        rw [mine'] at handed
        refine (filled.progress v busy' found' mine').frame (agree _ _ handed ?_)
        intro task kind
        exact same (sound.unique w v busy found busy' found' ⟨mine'.trans mine.symm,task.symm,kind.symm⟩).symm
    · intro t reduce reported
      rw [files_]
      by_cases mineToo : busy.task.task = t ∧ busy.task.reduce = reduce
      · -- A reported task is not written any more.
        obtain ⟨rfl,rfl⟩ := mineToo
        have ended : busy.Ended := sound.reported w busy found (mine ▸ reported)
        rcases confined with same | ⟨working,_⟩
        · rw [same]
          exact filled.settled _ _ reported
        · exact absurd ended working
      · have handed := reported_handed sound.run.unguarded reported
        exact (filled.settled t reduce reported).frame (agree t reduce handed fun task kind => mineToo ⟨task,kind⟩)
  · -- The directory belongs to another job.
    have files_ : ((c.setFiles (busy.place site) files).setWorker w (some { busy with work := work })).files site argp =
        c.files site argp := Function.update_of_ne (Ne.symm here) ..
    have elsewhere : busy.task.jobId ≠ k := by
      intro mine
      obtain rfl := own.same argp' (mine ▸ taken.known)
      exact here (congrArg site.place taken.outputDir)
    constructor
    · intro v busy' found' mine'
      rw [files_]
      by_cases same : v = w
      · subst same
        rw [setWorker_self] at found'
        obtain rfl := Option.some.inj found'
        exact absurd mine' elsewhere
      · rw [setWorker_ne same] at found'
        exact filled.progress v busy' found' mine'
    · intro t reduce reported
      rw [files_]
      exact filled.settled t reduce reported

theorem Filled.at_work (filled : Filled site app k argp c) (own : Own site c.history k argp) (found : c.workers w = some busy)
    (taken : Handed c.history busy.task argp') (mine : busy.task.jobId = k) :
    Progress site.qsort (site.job app argp) (c.disk (busy.place site)) busy.task.reduce busy.index busy.work := by
  obtain rfl := own.same argp' (mine ▸ taken.known)
  have place : busy.place site = site.place argp'.outputDir := congrArg site.place taken.outputDir
  rw [place]
  exact filled.progress w busy found mine

variable [DecidableEq W]

theorem setWorker_same {w : W} (found : c.workers w = some busy) :
    c.setWorker w (some { busy with work := busy.work }) = c := by
  rw [State.setWorker]
  congr 1
  exact Function.update_eq_iff.mpr ⟨found.symm,fun _ _ => rfl⟩

theorem Moved.own (moved : Moved site c c') (own : Own site c'.history k argp) : Own site c.history k argp := by
  cases moved with
  | request | handOut | report => exact own.before
  | _ => exact own

theorem Filled.step (known : getApp site.qsort argp.app = some app) (text : 0 ∉ argp.args.dropLast)
    (filled : Filled site app k argp c) (sound : Sound c) (own : Own site c.history k argp) (moved : Moved site c c') :
    Filled site app k argp c' := by
  cases moved with
  | request step other => exact filled.served fun _ _ => silent_of_other other
  | @handOut w order now r s heap idle step assigned free =>
    have before : Filled site app k argp (c.served (.getTask order now r) s) := filled.served fun _ _ => id
    exact before.setWorker fun _ => trivial
  | @work w busy work files found advanced =>
    obtain ⟨argp',taken,heap,aux⟩ := sound.handed w busy found
    have progress (mine : busy.task.jobId = k) := filled.at_work own found taken mine
    refine filled.write sound own found (fun mine => advance_confined (progress mine) advanced) fun mine => ?_
    obtain rfl := own.same argp' (mine ▸ taken.known)
    exact advance_progress taken known (aux.trans (taken.args text heap)) (progress mine) advanced
  | @scribble w busy i content files found written =>
    obtain ⟨argp',taken,_⟩ := sound.handed w busy found
    have progress (mine : busy.task.jobId = k) := filled.at_work own found taken mine
    have next := filled.write sound own found (fun mine => scribble_confined (progress mine) written) fun mine =>
      scribble_progress (progress mine) written
    rwa [setWorker_same (by exact found)] at next
  | failure found fails => exact filled.setWorker fun _ succeeded => nomatch succeeded
  | @report w busy success s again found reporting served exact_ =>
    have served_ : Filled site app k argp (c.served (.finishTask (busy.request success)) s) := by
      refine ⟨filled.progress,fun t reduce reported => ?_⟩
      rcases reported_cons.mp reported with now | before
      · obtain ⟨rfl,rfl,rfl,rfl⟩ := FinishTaskRequest.mk.inj now
        have progress := filled.progress w busy found rfl
        rw [reporting] at progress
        exact progress rfl
      · exact filled.settled t reduce before
    cases again with
    | true => exact served_.setWorker (filled.progress w busy found)
    | false => exact served_.drop w
  | stop => exact filled.drop _

theorem clusterRun_filled (run : ClusterRun site disk commands c) (known : getApp site.qsort argp.app = some app)
    (text : 0 ∉ argp.args.dropLast) (own : Own site c.history k argp) : Filled site app k argp c := by
  induction run with
  | refl => exact filled_init disk
  | snoc front last ih =>
    have moved := perform_moved _ last.1 last.2
    have before : Own site _ k argp := moved.own own
    exact (ih before).step known text (clusterRun_sound front) before moved

/-! Jobs that are done. -/

def PolledDone (k : Int) : Event → Prop
  | .pollJob i answer => i = k ∧ answer.done = true ∧ answer.failed = false
  | _ => False

instance (k : Int) : (e : Event) → Decidable (PolledDone k e)
  | .pollJob i answer => inferInstanceAs (Decidable (i = k ∧ answer.done = true ∧ answer.failed = false))
  | .submitJob .. | .getTask .. | .finishTask _ => inferInstanceAs (Decidable False)

/-- Such a poll comes after the reports of all tasks. -/
theorem polled_reported (run : RunWhere NoPrematureRepeats h s) (member : e ∈ h) (polled : PolledDone k e) (reduce : Bool) :
    AllReported h k reduce := by
  induction run with
  | refl => cases member
  | snoc front last ih =>
    rcases List.mem_cons.mp member with rfl | before
    · cases e with
      | pollJob i answer =>
        obtain ⟨rfl,done,succeeded⟩ := polled
        rcases MapReduce.pollJob_cases last.1.2 with ⟨_,rfl,_⟩ | ⟨_,job,found,rfl,_⟩
        · contradiction
        · obtain ⟨maps,reduces⟩ := done_reported front i job found done succeeded
          cases reduce
          · exact maps.cons _
          · exact reduces.cons _
      | _ => exact polled.elim
    · exact (ih before).cons _

theorem Settled.map (settled : Settled qsort job files i false) : runTask qsort job files (.map i) = .ok files := by
  obtain ⟨file,kvs,input,mapped,written⟩ := settled
  have ran : Worker.handleMapTask job.app job.nReduce job.aux file = .ok (mapFile job kvs) := go mapped
  have same : Function.update files.tmp i (fun r => if r < job.nReduce then some (mapFile job kvs r) else files.tmp i r) =
      files.tmp := by
    refine Function.update_eq_iff.mpr ⟨funext fun r => ?_,fun _ _ => rfl⟩
    split
    · rename_i small
      exact (written r small).symm
    · rfl
  rw [runTask,input]
  dsimp only
  rw [go ran,same]
  rfl

theorem Settled.reduce (settled : Settled qsort job files r true) : runTask qsort job files (.reduce r) = .ok files := by
  obtain ⟨readers,out,column,made,written⟩ := settled
  have same : Function.update files.out r (some out) = files.out :=
    Function.update_eq_iff.mpr ⟨written.symm,fun _ _ => rfl⟩
  rw [runTask,column.mapM]
  dsimp only
  rw [go made,same]
  rfl

theorem runJob_settled {list : List Worker.Task} (each : ∀ task ∈ list, runTask qsort job files task = .ok files) :
    runJob qsort job list files = .ok files := by
  induction list with
  | nil => rfl
  | cons task list ih =>
    rw [runJob,List.foldlM_cons,go (each task (by simp))]
    exact ih fun other member => each other (by simp [member])

def eachTask (job : Worker.Job) : List Worker.Task := tasks (List.range job.inputs.length) (List.range job.nReduce)

theorem eachTask_schedule (job : Worker.Job) : Schedule job (List.range job.inputs.length) (List.range job.nReduce) :=
  ⟨fun _ => List.mem_range,fun _ => List.mem_range⟩

/-- The job was submitted with these data, alone uses its output directory, and was polled as done
and not failed. -/
structure Completed (site : Site) (c : State W) (k : Int) (argp : SubmitJobRequest) (app : App) : Prop where
  known : submission c.history k = some argp
  polled : ∃ e ∈ c.history, PolledDone k e
  alone : ∀ i argp', submission c.history i = some argp' → site.place argp'.outputDir = site.place argp.outputDir → i = k
  app : getApp site.qsort argp.app = some app
  text : 0 ∉ argp.args.dropLast

/-- Running the tasks of a completed job once more would change nothing in its directory. -/
theorem completed_settled (run : ClusterRun site disk commands c) (completed : Completed site c k argp app) :
    runJob site.qsort (site.job app argp) (eachTask (site.job app argp)) (c.files site argp) = .ok (c.files site argp) := by
  have sound := clusterRun_sound run
  have own : Own site c.history k argp :=
    ⟨fun argp' known => Option.some.inj (known.symm.trans completed.known),completed.alone⟩
  have filled := clusterRun_filled run completed.app completed.text own
  obtain ⟨e,member,polled⟩ := completed.polled
  have reported := polled_reported sound.run member polled
  have settled (reduce : Bool) (t : Nat) (below : (t : Int) < argp.size reduce) :
      Settled site.qsort (site.job app argp) (c.files site argp) t reduce := by
    obtain ⟨argp',known',all⟩ := reported reduce
    obtain rfl := Option.some.inj (completed.known.symm.trans known')
    exact filled.settled t reduce (all t (by omega) below)
  refine runJob_settled fun task member => ?_
  rcases List.mem_append.mp member with map | reduce
  · obtain ⟨i,inside,rfl⟩ := List.mem_map.mp map
    have small : i < argp.files.length := by simpa [Site.job] using inside
    exact (settled false i (Int.ofNat_lt.mpr small)).map
  · obtain ⟨r,inside,rfl⟩ := List.mem_map.mp reduce
    have small : r < argp.nReduce.toNat := List.mem_range.mp inside
    exact (settled true r (by change (r : Int) < argp.nReduce; omega)).reduce

/-- A job whose tasks have run has mapped every input. -/
theorem ran_maps (ran : runJob qsort job (eachTask job) files = .ok files') (input : file ∈ job.inputs) :
    ∃ kvs, job.app.map file job.aux = .ok kvs := by
  cases mapped : job.app.map file job.aux with
  | ok kvs => exact ⟨kvs,rfl⟩
  | error fault =>
    obtain ⟨i,small,here⟩ := List.mem_iff_getElem.mp input
    obtain ⟨fault',stopped⟩ : ∃ fault', runJob qsort job (eachTask job) files = .error fault' :=
      Worker.map_fails (List.mem_range.mpr small) ((List.getElem?_eq_getElem small).trans (congrArg some here)) mapped _ files
    cases ran.symm.trans stopped

/-- The lengths of all keys and values fit the files. -/
def Sized (qsort : Qsort) (job : Worker.Job) : Prop :=
  ∀ f, (∀ file ∈ job.inputs, job.app.map file job.aux = .ok (f file)) →
    (∀ kv ∈ emitted job (mapped job f), kv.Short) ∧
    ∀ g ∈ groups qsort job (mapped job f), ∀ kv, reduceGroup job.app job.aux g = .ok kv → kv.Short

/-- Words and counts are short. -/
theorem wc_sized (sorts : Sorts qsort) (inputs : List KeyValue) (positive : 0 < n) (aux : Bytes) :
    Sized qsort (wcJob inputs n aux) := by
  intro f maps
  have words : ∀ file ∈ inputs, file.value.length < intLimit ∧ f file = wordPairs file := by
    intro file input
    have made := (maps file input).symm.trans (wcMap_words file aux)
    split at made
    · rename_i short
      exact ⟨short,Except.ok.inj made⟩
    · cases made
  have same : mapped (wcJob inputs n aux) f = mapped (wcJob inputs n aux) wordPairs := by
    funext i
    rw [mapped,mapped]
    cases here : (wcJob inputs n aux).inputs[i]? with
    | none => rfl
    | some file => rw [Option.map_some,Option.map_some,(words file (List.mem_of_getElem? here)).2]
  rw [same]
  have counting := wc_counting (fun file input => (words file input).1) n aux
  have shuffled := groups_shuffled sorts (show 0 < (wcJob inputs n aux).nReduce from positive) counting.ordered
  refine ⟨counting.short,fun g member kv made => ?_⟩
  obtain ⟨reduced,short⟩ := counting.reduces shuffled member
  rw [reduced] at made
  split at made
  · exact Except.ok.inj made ▸ short
  · cases made

end

/-! A run with two workers of which one stops in the middle of its first task. -/

def twoFiles : Site where
  qsort := mergeQsort
  readAll name := if name = "a.txt" then some [97,98,32,99] else if name = "b.txt" then some [] else none
  place _ := 0

def work (w : Bool) (n : Nat) : List (Command Bool) := List.replicate n (.work w)

/-- The last report is sent twice. -/
def interrupted : List (Command Bool) :=
  [.submitJob MapReduce.wordCount [],.getTask true .insertion 0 (fun _ => 0),.getTask false .insertion 0 (fun _ => 0),.work true,
    .scribble true 0 [7],.stop true] ++ work false 4 ++
  [.report false false,.getTask true .insertion 10 (fun _ => 0)] ++ work true 4 ++
  [.report true false,.getTask false .insertion 11 (fun _ => 0)] ++ work false 8 ++
  [.report false true,.report false false,.pollJob 0]

def execute (command : Command Bool) (c : State Bool) : Option (Command Bool × State Bool) :=
  (perform twoFiles c command).map fun c' => (command,c')

theorem execute_step (past : List (Command Bool)) (c : State Bool) (command e : Command Bool) (c' : State Bool)
    (executed : execute command c = some (e,c')) (_ : True) : ClusterStep twoFiles past c e c' := by
  obtain ⟨_,performed,same⟩ := Option.map_eq_some_iff.mp executed
  obtain ⟨rfl,rfl⟩ := Prod.mk.inj same
  exact performed

def reached : List (Command Bool) × State Bool :=
  arrive execute (fun _ _ _ => True) (clusterInit fun _ => Worker.noFiles) interrupted

theorem reached_run : ClusterRun twoFiles (fun _ => Worker.noFiles) reached.1 reached.2 :=
  arrive_guarded execute_step (by decide +kernel)

theorem reached_submissions : MapReduce.submissions reached.2.history = [MapReduce.wordCount] := by decide +kernel

theorem reached_completed : Completed twoFiles reached.2 0 MapReduce.wordCount wcApp where
  known := by rw [submission,reached_submissions]; rfl
  polled := by decide +kernel
  alone i argp' known _ := by
    rw [submission,reached_submissions] at known
    split at known
    · have inside := (List.getElem?_eq_some_iff.mp known).1
      rw [List.length_singleton] at inside
      omega
    · contradiction
  app := rfl
  text := by decide

section
variable {W : Type} [DecidableEq W] {site : Site} {k : Int} {argp : SubmitJobRequest} {app : App} {c : State W}

end

end OsProj.Cluster
