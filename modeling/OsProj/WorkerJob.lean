import OsProj.WorkerTasks

/-! A whole job: every map task on its input file, then every reduce task on the
intermediate files of its index, in any order and on any workers. The output files
together hold one pair for each group of keys. -/
namespace OsProj.Worker

open OsProj.ByteList
open OsProj.Faulting
open OsProj.Grouping

/-- The inputs are file names with the contents of the files. -/
structure Job where
  app : App
  inputs : List KeyValue
  nReduce : Nat
  aux : Bytes

/-- The files `mr-<map>-<reduce>` and `mr-out-<reduce>` of the output directory. -/
structure Files where
  tmp : Nat → Nat → Option Bytes
  out : Nat → Option Bytes

def noFiles : Files := ⟨fun _ _ => none,fun _ => none⟩

inductive Task where
  | map (i : Nat)
  | reduce (r : Nat)
  deriving DecidableEq, Repr

section
variable (qsort : Qsort)

def runTask (job : Job) (files : Files) : Task → Except Fault Files
  | .map i =>
    match job.inputs[i]? with
    | none => .error .failed
    | some file => do
      let writers ← handleMapTask job.app job.nReduce job.aux file
      return { files with
        tmp := Function.update files.tmp i fun r => if r < job.nReduce then some (writers r) else files.tmp i r }
  | .reduce r =>
    match (List.range job.inputs.length).mapM fun i => files.tmp i r with
    | none => .error .failed
    | some readers => do
      let out ← handleReduceTask qsort job.app job.aux readers
      return { files with out := Function.update files.out r (some out) }

def runJob (job : Job) (tasks : List Task) (files : Files) : Except Fault Files := tasks.foldlM (runTask qsort job) files

def outputs (job : Job) (files : Files) : Except Fault (List KeyValue) :=
  match (List.range job.nReduce).mapM files.out with
  | none => .error .failed
  | some readers => do
    let entries ← readers.foldlM (fun entries reader => do return entries + (← ldrCount reader)) 0
    if entries % 2 = 1 then throw .failed
    if entries / 2 > 0 then readMapKvs readers (entries / 2) else return []

end

/-- Each task is run at least once, the map tasks first. -/
structure Schedule (job : Job) (maps reduces : List Nat) : Prop where
  maps : ∀ i, i ∈ maps ↔ i < job.inputs.length
  reduces : ∀ r, r ∈ reduces ↔ r < job.nReduce

def tasks (maps reduces : List Nat) : List Task := maps.map .map ++ reduces.map .reduce

section
variable {qsort : Qsort} {job : Job} {kvss : Nat → List KeyValue}

def Emits (job : Job) (kvss : Nat → List KeyValue) : Prop :=
  ∀ i file, job.inputs[i]? = some file → job.app.map file job.aux = .ok (kvss i)

def emitted (job : Job) (kvss : Nat → List KeyValue) : List KeyValue := (List.range job.inputs.length).flatMap kvss

def mapped (job : Job) (f : KeyValue → List KeyValue) (i : Nat) : List KeyValue := (job.inputs[i]?.map f).getD []

theorem mapped_emits (maps : ∀ file ∈ job.inputs, job.app.map file job.aux = .ok (f file)) : Emits job (mapped job f) := by
  intro i file here
  rw [mapped,here]
  exact maps file (List.mem_of_getElem? here)

theorem mapped_emitted (job : Job) (f : KeyValue → List KeyValue) : emitted job (mapped job f) = job.inputs.flatMap f := by
  have inputs : (List.range job.inputs.length).map (mapped job f) = job.inputs.map f := by
    refine List.ext_getElem (by simp) fun i inside _ => ?_
    rw [List.length_map,List.length_range] at inside
    simp [mapped,inside]
  rw [emitted,List.flatMap_def,inputs,List.flatMap_def]

def groups (qsort : Qsort) (job : Job) (kvss : Nat → List KeyValue) :
    List (List KeyValue) :=
  shuffle job.nReduce (reduceTask job.nReduce) (qsort byKey) sameKey (emitted job kvss)

def Written (job : Job) (kvss : Nat → List KeyValue) (files : Files) (done : List Nat) : Prop :=
  ∀ i ∈ done, ∀ r < job.nReduce,
    files.tmp i r = some (frames (bufs ((kvss i).filter fun kv => reduceTask job.nReduce kv = r)))

theorem map_written (qsort : Qsort) (emits : Emits job kvss) (inside : i < job.inputs.length) (written : Written job kvss files done) :
    ∃ files', runTask qsort job files (.map i) = .ok files' ∧ Written job kvss files' (i :: done) ∧ files'.out = files.out := by
  have file := List.getElem?_eq_getElem inside
  have mapped := emits i _ file
  refine ⟨⟨Function.update files.tmp i fun r =>
    if r < job.nReduce then some (writeMapKvs job.nReduce (fun _ => []) (kvss i) r) else files.tmp i r,files.out⟩,?_,?_,rfl⟩
  · rw [runTask,file]
    dsimp only
    rw [handleMapTask,go mapped]
    rfl
  · intro j member r small
    change Function.update files.tmp i _ j r = _
    by_cases same : j = i
    · subst same
      rw [Function.update_self,if_pos small,writeMapKvs_file (kvss j) r [] rfl,List.nil_append]
    · rw [Function.update_of_ne same]
      exact written j ((List.mem_cons.mp member).resolve_left same) r small

theorem maps_written (qsort : Qsort) (emits : Emits job kvss) (inside : ∀ i ∈ maps, i < job.inputs.length) (files : Files) (done : List Nat)
    (written : Written job kvss files done) :
    ∃ files', runJob qsort job (maps.map .map) files = .ok files' ∧ Written job kvss files' (maps ++ done) := by
  induction maps generalizing files done with
  | nil => exact ⟨files,rfl,written⟩
  | cons i maps ih =>
    obtain ⟨files₁,ran,written₁,_⟩ := map_written qsort emits (inside i (by simp)) written
    obtain ⟨files₂,ran₂,written₂⟩ := ih (fun j member => inside j (by simp [member])) files₁ (i :: done) written₁
    refine ⟨files₂,?_,?_⟩
    · rw [runJob,List.map_cons,List.foldlM_cons,go ran]
      exact ran₂
    · intro j member
      exact written₂ j (by simp only [List.mem_append,List.mem_cons] at member ⊢; tauto)

/-- The pairs a reduce task finds in its files are those of all map tasks for it. -/
theorem files_flatten (n : Nat) (r : Nat) (inputs : Nat) (kvss : Nat → List KeyValue) :
    ((List.range inputs).map fun i => (kvss i).filter fun kv => reduceTask n kv = r).flatten =
      ((List.range inputs).flatMap kvss).filter fun kv => reduceTask n kv = r := by
  rw [List.filter_flatMap]
  rfl

def taskGroups (qsort : Qsort) (job : Job) (kvss : Nat → List KeyValue) (r : Nat) : List (List KeyValue) :=
  runs sameKey (qsort byKey ((emitted job kvss).filter fun kv => reduceTask job.nReduce kv = r))

theorem reduce_runs (sorts : Sorts qsort) (short : ∀ kv ∈ emitted job kvss, kv.Short) (small : r < job.nReduce)
    (written : Written job kvss files (List.range job.inputs.length)) :
    runTask qsort job files (.reduce r) = (do
      let outs ← (taskGroups qsort job kvss r).mapM (reduceGroup job.app job.aux)
      return { files with out := Function.update files.out r (some (frames (bufs outs))) }) := by
  have readers : (List.range job.inputs.length).mapM (fun i => files.tmp i r) = some ((List.range job.inputs.length).map
      fun i => frames (bufs ((kvss i).filter fun kv => reduceTask job.nReduce kv = r))) :=
    mapM_pure_of fun i member => written i member r small
  have shortFiles : ∀ kvs ∈ (List.range job.inputs.length).map
      (fun i => (kvss i).filter fun kv => reduceTask job.nReduce kv = r), ∀ kv ∈ kvs, kv.Short := by
    intro kvs member kv inside
    obtain ⟨i,small,rfl⟩ := List.mem_map.mp member
    exact short kv (List.mem_flatMap.mpr ⟨i,small,List.mem_of_mem_filter inside⟩)
  have ran : handleReduceTask qsort job.app job.aux ((List.range job.inputs.length).map
      fun i => frames (bufs ((kvss i).filter fun kv => reduceTask job.nReduce kv = r))) = (do
        let outs ← (taskGroups qsort job kvss r).mapM (reduceGroup job.app job.aux)
        return frames (bufs outs)) := by
    have := handleReduceTask_runs sorts job.app job.aux shortFiles
    rw [List.map_map,files_flatten] at this
    exact this
  rw [runTask,readers]
  dsimp only
  rw [ran]
  cases List.mapM (reduceGroup job.app job.aux) (taskGroups qsort job kvss r) with
  | error fault => rfl
  | ok outs => rfl

def Reduced (qsort : Qsort) (job : Job) (kvss : Nat → List KeyValue) (result : List KeyValue → KeyValue) (files : Files)
    (done : List Nat) : Prop :=
  ∀ r ∈ done, files.out r = some (frames (bufs ((taskGroups qsort job kvss r).map result)))

variable {result : List KeyValue → KeyValue}

theorem reduces_run (sorts : Sorts qsort) (short : ∀ kv ∈ emitted job kvss, kv.Short) (inside : ∀ r ∈ reduces, r < job.nReduce)
    (reduced : ∀ r < job.nReduce, ∀ g ∈ taskGroups qsort job kvss r, reduceGroup job.app job.aux g = .ok (result g))
    (files : Files) (done : List Nat) (written : Written job kvss files (List.range job.inputs.length))
    (finished : Reduced qsort job kvss result files done) :
    ∃ files', runJob qsort job (reduces.map .reduce) files = .ok files' ∧
      Reduced qsort job kvss result files' (reduces ++ done) := by
  induction reduces generalizing files done with
  | nil => exact ⟨files,rfl,finished⟩
  | cons r reduces ih =>
    have small := inside r (by simp)
    have made : (taskGroups qsort job kvss r).mapM (reduceGroup job.app job.aux) =
        .ok ((taskGroups qsort job kvss r).map result) := mapM_pure_of (reduced r small)
    have ran := reduce_runs sorts short small written
    rw [go made] at ran
    let files₁ : Files := { files with
      out := Function.update files.out r (some (frames (bufs ((taskGroups qsort job kvss r).map result)))) }
    have finished₁ : Reduced qsort job kvss result files₁ (r :: done) := by
      intro s member
      change Function.update files.out r _ s = _
      by_cases same : s = r
      · subst same
        exact Function.update_self ..
      · rw [Function.update_of_ne same]
        exact finished s ((List.mem_cons.mp member).resolve_left same)
    obtain ⟨files',ran',rest⟩ := ih (fun s member => inside s (by simp [member])) files₁ (r :: done) written finished₁
    refine ⟨files',?_,?_⟩
    · rw [runJob,List.map_cons,List.foldlM_cons,go ran]
      exact ran'
    · intro s member
      exact rest s (by simp only [List.mem_append,List.mem_cons] at member ⊢; tauto)

theorem groups_tasks (qsort : Qsort) (job : Job) (kvss : Nat → List KeyValue) :
    groups qsort job kvss = (List.range job.nReduce).flatMap (taskGroups qsort job kvss) := rfl

/-- What the client reads is what the reduce function made of the groups. -/
theorem outputs_groups (short : ∀ g ∈ groups qsort job kvss, (result g).Short)
    (finished : ∀ r < job.nReduce, files.out r = some (frames (bufs ((taskGroups qsort job kvss r).map result)))) :
    outputs job files = .ok ((groups qsort job kvss).map result) := by
  have readers : (List.range job.nReduce).mapM files.out =
      some (((List.range job.nReduce).map fun r => (taskGroups qsort job kvss r).map result).map fun kvs => frames (bufs kvs)) := by
    rw [List.map_map]
    exact mapM_pure_of fun r member => finished r (List.mem_range.mp member)
  have shortFiles : ∀ kvs ∈ (List.range job.nReduce).map fun r => (taskGroups qsort job kvss r).map result,
      ∀ kv ∈ kvs, kv.Short := by
    intro kvs member kv inside
    obtain ⟨r,small,rfl⟩ := List.mem_map.mp member
    obtain ⟨g,inG,rfl⟩ := List.mem_map.mp inside
    exact short g (List.mem_flatMap.mpr ⟨r,small,inG⟩)
  have all : ((List.range job.nReduce).map fun r => (taskGroups qsort job kvss r).map result).flatten =
      (groups qsort job kvss).map result := by
    rw [groups_tasks,List.map_flatMap]
    rfl
  unfold outputs
  rw [readers]
  dsimp only
  rw [go (entries_frames shortFiles 0),Nat.zero_add,if_neg (by omega),Nat.mul_div_cancel_left _ (by decide),all]
  split
  · have read := readMapKvs_frames shortFiles [] (show [].length + _ ≤ ((groups qsort job kvss).map result).length by rw [all]; simp)
    rw [List.nil_append,all] at read
    exact read
  · rw [List.eq_nil_of_length_eq_zero (show ((groups qsort job kvss).map result).length = 0 by omega)]
    rfl

/-- Every order of the tasks ends with one pair for each group. -/
theorem job_runs (sorts : Sorts qsort) (emits : Emits job kvss) (short : ∀ kv ∈ emitted job kvss, kv.Short)
    (schedule : Schedule job maps reduces) (reduced : ∀ g ∈ groups qsort job kvss, reduceGroup job.app job.aux g = .ok (result g))
    (shortOut : ∀ g ∈ groups qsort job kvss, (result g).Short) (files : Files) :
    ∃ files', runJob qsort job (tasks maps reduces) files = .ok files' ∧
      outputs job files' = .ok ((groups qsort job kvss).map result) := by
  obtain ⟨files₁,ran₁,written⟩ := maps_written qsort emits (fun i member => (schedule.maps i).mp member) files []
    (fun i none => by cases none)
  have written' : Written job kvss files₁ (List.range job.inputs.length) := by
    intro i member
    exact written i (by simpa using (schedule.maps i).mpr (List.mem_range.mp member))
  have reduced' : ∀ r < job.nReduce, ∀ g ∈ taskGroups qsort job kvss r, reduceGroup job.app job.aux g = .ok (result g) :=
    fun r small g member => reduced g (List.mem_flatMap.mpr ⟨r,List.mem_range.mpr small,member⟩)
  obtain ⟨files₂,ran₂,finished⟩ := reduces_run sorts short (fun r member => (schedule.reduces r).mp member) reduced' files₁ []
    written' (fun r none => by cases none)
  refine ⟨files₂,?_,outputs_groups shortOut fun r small => finished r (by simpa using (schedule.reduces r).mpr small)⟩
  rw [runJob,tasks,List.foldlM_append]
  exact (go ran₁).trans ran₂

/-- A map task that fails stops the job. -/
theorem map_fails (inside : i ∈ maps) (file : job.inputs[i]? = some input) (failed : job.app.map input job.aux = .error fault)
    (reduces : List Nat) (files : Files) : ∃ fault', runJob qsort job (tasks maps reduces) files = .error fault' := by
  induction maps generalizing files with
  | nil => cases inside
  | cons j maps ih =>
    rw [runJob,tasks,List.map_cons,List.cons_append,List.foldlM_cons]
    cases here : runTask qsort job files (.map j) with
    | error fault' => exact ⟨fault',rfl⟩
    | ok files' =>
      have later : i ∈ maps := by
        rcases List.mem_cons.mp inside with rfl | later
        · rw [runTask,file] at here
          dsimp only at here
          rw [handleMapTask,failed] at here
          cases here
        · exact later
      exact ih later files'

/-- A group that cannot be reduced stops the job. -/
theorem reduce_fails {reduces : List Nat} (sorts : Sorts qsort) (short : ∀ kv ∈ emitted job kvss, kv.Short) (small : r < job.nReduce)
    (member : g ∈ taskGroups qsort job kvss r) (failed : reduceGroup job.app job.aux g = .error fault) (inside : r ∈ reduces)
    (written : Written job kvss files (List.range job.inputs.length)) :
    ∃ fault', runJob qsort job (reduces.map .reduce) files = .error fault' := by
  induction reduces generalizing files with
  | nil => cases inside
  | cons s reduces ih =>
    rw [runJob,List.map_cons,List.foldlM_cons]
    cases here : runTask qsort job files (.reduce s) with
    | error fault' => exact ⟨fault',rfl⟩
    | ok files' =>
      have later : r ∈ reduces := by
        rcases List.mem_cons.mp inside with rfl | later
        · obtain ⟨fault',stopped⟩ := mapM_error member failed
          rw [reduce_runs sorts short small written,stopped] at here
          cases here
        · exact later
      have kept : files'.tmp = files.tmp := by
        rw [runTask] at here
        split at here
        · cases here
        · rename_i readers _
          cases made : handleReduceTask qsort job.app job.aux readers with
          | error fault' =>
            rw [made] at here
            cases here
          | ok out =>
            rw [made] at here
            cases here
            rfl
      have written' : Written job kvss files' (List.range job.inputs.length) := by
        intro i done t bound
        rw [kept]
        exact written i done t bound
      exact ih later written'

/-- A job that ends has reduced every group. -/
theorem job_reduces (sorts : Sorts qsort) (emits : Emits job kvss) (short : ∀ kv ∈ emitted job kvss, kv.Short)
    (schedule : Schedule job maps reduces) (ran : runJob qsort job (tasks maps reduces) files = .ok files')
    (member : g ∈ groups qsort job kvss) : ∃ kv, reduceGroup job.app job.aux g = .ok kv := by
  cases made : reduceGroup job.app job.aux g with
  | ok kv => exact ⟨kv,rfl⟩
  | error fault =>
    obtain ⟨files₁,ran₁,written⟩ := maps_written qsort emits (fun i member => (schedule.maps i).mp member) files []
      (fun i none => by cases none)
    have written' : Written job kvss files₁ (List.range job.inputs.length) := by
      intro i done
      exact written i (by simpa using (schedule.maps i).mpr (List.mem_range.mp done))
    obtain ⟨r,bound,member⟩ := List.mem_flatMap.mp member
    have small := List.mem_range.mp bound
    obtain ⟨fault',stopped⟩ := reduce_fails sorts short small member made ((schedule.reduces r).mpr small) written'
    rw [runJob,tasks,List.foldlM_append] at ran
    cases ran.symm.trans ((go ran₁).trans stopped)

end

end OsProj.Worker
