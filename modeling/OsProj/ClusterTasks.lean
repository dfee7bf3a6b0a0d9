import OsProj.ClusterRuns

/-! A worker in the middle of a task of the cluster: what the files of the task hold by then, and
which files it may still change. -/
namespace OsProj.Cluster

open OsProj.ByteList
open OsProj.Faulting
open OsProj.MapReduce (Event SubmitJobRequest)
open OsProj.Worker (App Fault Files KeyValue Qsort handleReduceTask ldrCount openMapWriters openMapWriters_positive readLoop
  writeMapKvs writeOpenedKvs)

def Site.job (site : Site) (app : App) (argp : SubmitJobRequest) : Worker.Job where
  app := app
  inputs := argp.files.map fun name => ⟨nameBytes name,(site.readAll name).getD []⟩
  nReduce := argp.nReduce.toNat
  aux := argp.args

def mapFile (job : Worker.Job) (kvs : List KeyValue) (r : Nat) : Bytes := writeMapKvs job.nReduce (fun _ => []) kvs r

/-- The files of the first map tasks for a reduce task. -/
def Column (files : Files) (i n : Nat) (readers : List Bytes) : Prop :=
  readers.length = n ∧ ∀ j < n, files.tmp j i = readers[j]?

/-- The files of a task are what running it makes. -/
def Settled (qsort : Qsort) (job : Worker.Job) (files : Files) (i : Nat) : Bool → Prop
  | false => ∃ file kvs, job.inputs[i]? = some file ∧ job.app.map file job.aux = .ok kvs ∧
      ∀ r < job.nReduce, files.tmp i r = some (mapFile job kvs r)
  | true => ∃ readers out, Column files i job.inputs.length readers ∧
      handleReduceTask qsort job.app job.aux readers = .ok out ∧ files.out i = some out

def countAll (readers : List Bytes) : Except Fault Nat :=
  readers.foldlM (fun entries reader => do return entries + (← ldrCount reader)) 0

def readSome (length : Nat) (readers : List Bytes) : Except Fault (List KeyValue) :=
  readers.foldlM (fun kvs reader => readLoop length (reader.length + 1) reader kvs) []

/-- How far a worker has come with a task of the job. -/
def Progress (qsort : Qsort) (job : Worker.Job) (files : Files) (reduce : Bool) (i : Nat) : Work → Prop
  | .received => True
  | .mapping app => reduce = false ∧ app = job.app
  | .closing writers closed => reduce = false ∧ ∃ file kvs, job.inputs[i]? = some file ∧ job.app.map file job.aux = .ok kvs ∧
      writers = (List.range job.nReduce).map (mapFile job kvs) ∧
      ∀ r < closed, r < job.nReduce → files.tmp i r = some (mapFile job kvs r)
  | .counting opened entries => reduce = true ∧ opened ≤ job.inputs.length ∧
      ∃ readers, Column files i opened readers ∧ countAll readers = .ok entries
  | .reading length read kvs => reduce = true ∧ read ≤ job.inputs.length ∧ ∃ readers entries,
      Column files i job.inputs.length readers ∧ countAll readers = .ok entries ∧ entries % 2 ≠ 1 ∧
      length = entries / 2 ∧ readSome length (readers.take read) = .ok kvs
  | .writing out => reduce = true ∧ ∃ readers, Column files i job.inputs.length readers ∧
      handleReduceTask qsort job.app job.aux readers = .ok out
  | .reporting success => success = true → Settled qsort job files i reduce

def Agree (files files' : Files) (i : Nat) : Bool → Prop
  | false => ∀ r, files'.tmp i r = files.tmp i r
  | true => (∀ j, files'.tmp j i = files.tmp j i) ∧ files'.out i = files.out i

theorem Agree.refl (files : Files) (i : Nat) (reduce : Bool) : Agree files files i reduce := by
  cases reduce
  · exact fun _ => rfl
  · exact ⟨fun _ => rfl,rfl⟩

section
variable {qsort : Qsort} {job : Worker.Job} {files files' : Files}

theorem Column.frame (column : Column files i n readers) (agree : Agree files files' i true) : Column files' i n readers :=
  ⟨column.1,fun j small => (agree.1 j).trans (column.2 j small)⟩

theorem Column.mapM (column : Column files i n readers) : (List.range n).mapM (fun j => files.tmp j i) = some readers := by
  have read : (List.range n).mapM (fun j => files.tmp j i) = some ((List.range n).map fun j => readers.getD j []) := by
    refine mapM_pure_of fun j member => ?_
    have small : j < n := List.mem_range.mp member
    rw [column.2 j small,List.getD_eq_getElem?_getD,List.getElem?_eq_getElem (column.1 ▸ small),Option.getD_some]
    rfl
  rw [read]
  congr 1
  refine List.ext_getElem (by simp [column.1]) fun j _ inside => ?_
  rw [List.getElem_map,List.getElem_range,List.getD_eq_getElem?_getD,List.getElem?_eq_getElem inside,Option.getD_some]

theorem Column.snoc (column : Column files i n readers) (next : files.tmp n i = some reader) :
    Column files i (n + 1) (readers ++ [reader]) := by
  refine ⟨by rw [List.length_append,column.1]; rfl,fun j small => ?_⟩
  rcases Nat.lt_succ_iff_lt_or_eq.mp small with before | rfl
  · rw [column.2 j before,List.getElem?_append_left (column.1 ▸ before)]
  · rw [next,← column.1,List.getElem?_concat_length]

theorem Settled.frame (settled : Settled qsort job files i reduce) (agree : Agree files files' i reduce) :
    Settled qsort job files' i reduce := by
  cases reduce with
  | false =>
    obtain ⟨file,kvs,input,mapped,written⟩ := settled
    exact ⟨file,kvs,input,mapped,fun r small => (agree r).trans (written r small)⟩
  | true =>
    obtain ⟨readers,out,read,made,written⟩ := settled
    exact ⟨readers,out,read.frame agree,made,agree.2.trans written⟩

theorem Progress.frame (progress : Progress qsort job files reduce i work) (agree : Agree files files' i reduce) :
    Progress qsort job files' reduce i work := by
  cases work with
  | received => trivial
  | mapping app => exact progress
  | closing writers closed =>
    obtain ⟨rfl,file,kvs,input,mapped,same,written⟩ := progress
    exact ⟨rfl,file,kvs,input,mapped,same,fun r before small => (agree r).trans (written r before small)⟩
  | counting opened entries =>
    obtain ⟨rfl,bound,readers,read,count⟩ := progress
    exact ⟨rfl,bound,readers,read.frame agree,count⟩
  | reading length read kvs =>
    obtain ⟨rfl,bound,readers,entries,all,rest⟩ := progress
    exact ⟨rfl,bound,readers,entries,all.frame agree,rest⟩
  | writing out =>
    obtain ⟨rfl,readers,all,made⟩ := progress
    exact ⟨rfl,readers,all.frame agree,made⟩
  | reporting success => exact fun succeeded => (progress succeeded).frame agree

/-! One task. -/

theorem writeOpened_files (range : MapReduce.intMin ≤ n ∧ n ≤ MapReduce.intMax) (kvs : List KeyValue)
    (written : writeOpenedKvs n (openMapWriters n) kvs = some writers) :
    writers = (List.range n.toNat).map (writeMapKvs n.toNat (fun _ => []) kvs) := by
  by_cases positive : 0 < n
  · exact (Option.some.inj ((openMapWriters_positive range positive kvs).symm.trans written)).symm
  · have none_ : openMapWriters n = [] := by
      rw [openMapWriters,show n.toNat = 0 by omega]
      rfl
    have zero : n.toNat = 0 := by omega
    rw [zero,List.range_zero,List.map_nil]
    cases kvs with
    | nil =>
      rw [none_] at written
      exact (Option.some.inj written).symm
    | cons kv kvs =>
      rw [none_,writeOpenedKvs,List.foldlM_cons] at written
      cases chosen : Worker.partitionIndex n kv.key with
      | none => simp [chosen] at written
      | some r => simp [chosen] at written

theorem countAll_snoc (readers : List Bytes) (reader : Bytes) (before : countAll readers = .ok entries)
    (count : ldrCount reader = .ok more) : countAll (readers ++ [reader]) = .ok (entries + more) := by
  rw [countAll,List.foldlM_append]
  exact (go before).trans (by rw [List.foldlM_cons,count]; rfl)

theorem readSome_snoc (readers : List Bytes) (reader : Bytes) (before : readSome length readers = .ok kvs)
    (more : readLoop length (reader.length + 1) reader kvs = .ok kvs') : readSome length (readers ++ [reader]) = .ok kvs' := by
  rw [readSome,List.foldlM_append]
  exact (go before).trans (by rw [List.foldlM_cons,more]; rfl)

/-- The files of a whole column are read twice, to count and to take the pairs. -/
theorem handleReduceTask_read (qsort : Qsort) (app : App) (aux : Bytes) (counted : countAll readers = .ok entries) (even : entries % 2 ≠ 1) :
    handleReduceTask qsort app aux readers = if entries / 2 = 0 then .ok [] else (do
      let kvs ← readSome (entries / 2) readers
      Worker.reduceKvs qsort app aux kvs) := by
  unfold countAll at counted
  rw [handleReduceTask,go counted]
  dsimp only
  rw [if_neg even]
  by_cases empty : entries / 2 = 0
  · rw [if_pos empty,if_neg (by omega)]
    rfl
  · rw [if_neg empty,if_pos (by omega)]
    rfl

variable {site : Site}

/-! One step of a worker, by how far it has come. -/

section
variable (handed : Handed h busy.task argp) (known : getApp site.qsort argp.app = some app) (aux : busy.aux = argp.args)
  (advanced : advance site files busy = .ok (work,files'))

include handed in
theorem inputs_length (site : Site) (app : App) : busy.task.nMap.toNat = (site.job app argp).inputs.length := by
  rw [handed.nMap,Site.job,List.length_map,Int.toNat_natCast]

include handed known advanced in
theorem progress_received (here : busy.work = .received) :
    Progress site.qsort (site.job app argp) files' busy.task.reduce busy.index work := by
  have named : getApp site.qsort busy.task.app = some app := by rw [handed.app,known]
  unfold advance at advanced
  rw [here] at advanced
  dsimp only at advanced
  split at advanced
  · rename_i reduce
    obtain ⟨rfl,rfl⟩ := Prod.mk.inj (Except.ok.inj advanced)
    exact ⟨reduce,Nat.zero_le _,[],⟨rfl,by simp⟩,rfl⟩
  · rename_i map
    rw [named] at advanced
    obtain ⟨rfl,rfl⟩ := Prod.mk.inj (Except.ok.inj advanced)
    exact ⟨Bool.eq_false_iff.mpr map,rfl⟩

include handed aux advanced in
theorem progress_mapping (here : busy.work = .mapping app) (map : busy.task.reduce = false) :
    Progress site.qsort (site.job app argp) files' busy.task.reduce busy.index work := by
  unfold advance at advanced
  rw [here] at advanced
  dsimp only at advanced
  split at advanced
  · obtain ⟨rfl,rfl⟩ := Prod.mk.inj (Except.ok.inj advanced)
    nofun
  rename_i contents read
  have input : (site.job app argp).inputs[busy.index]? = some ⟨nameBytes busy.task.file,contents⟩ := by
    rw [Site.job,List.getElem?_map,Busy.index,handed.file map,Option.map_some,read,Option.getD_some]
  cases mapped : app.map ⟨nameBytes busy.task.file,contents⟩ busy.aux with
  | error fault =>
    rw [mapped] at advanced
    cases advanced
  | ok kvs =>
    rw [go mapped] at advanced
    split at advanced
    · cases advanced
    rename_i writers written
    obtain ⟨rfl,rfl⟩ := Prod.mk.inj (Except.ok.inj advanced)
    rw [handed.nReduce] at written
    rw [aux] at mapped
    exact ⟨map,_,kvs,input,mapped,writeOpened_files argp.nReduce_range kvs written,nofun⟩

include advanced in
theorem progress_closing (here : busy.work = .closing writers closed)
    (progress : Progress site.qsort (site.job app argp) files busy.task.reduce busy.index (.closing writers closed)) :
    Progress site.qsort (site.job app argp) files' busy.task.reduce busy.index work := by
  obtain ⟨map,file,kvs,input,mapped,same,written⟩ := progress
  unfold advance at advanced
  rw [here] at advanced
  dsimp only at advanced
  split at advanced
  · rename_i ended
    obtain ⟨rfl,rfl⟩ := Prod.mk.inj (Except.ok.inj advanced)
    rw [List.getElem?_eq_none_iff,same,List.length_map,List.length_range] at ended
    rw [map]
    exact fun _ => ⟨file,kvs,input,mapped,fun r small => written r (by omega) small⟩
  · rename_i content next
    obtain ⟨rfl,rfl⟩ := Prod.mk.inj (Except.ok.inj advanced)
    refine ⟨map,file,kvs,input,mapped,same,fun r before small => ?_⟩
    change Function.update files.tmp busy.index (Function.update (files.tmp busy.index) closed (some content)) busy.index r = _
    rw [Function.update_self]
    by_cases last : r = closed
    · subst last
      rw [Function.update_self,← next,same,List.getElem?_map,List.getElem?_range small]
      rfl
    · rw [Function.update_of_ne last]
      exact written r (by omega) small

include handed advanced in
theorem progress_counting (here : busy.work = .counting opened entries)
    (progress : Progress site.qsort (site.job app argp) files busy.task.reduce busy.index (.counting opened entries)) :
    Progress site.qsort (site.job app argp) files' busy.task.reduce busy.index work := by
  obtain ⟨reduce,bound,readers,column,counted⟩ := progress
  have maps := inputs_length handed site app
  unfold advance at advanced
  rw [here] at advanced
  dsimp only at advanced
  split at advanced
  · rename_i more
    split at advanced
    · obtain ⟨rfl,rfl⟩ := Prod.mk.inj (Except.ok.inj advanced)
      nofun
    rename_i reader next
    cases count : ldrCount reader with
    | error fault =>
      rw [count] at advanced
      cases advanced
    | ok n =>
      rw [go count] at advanced
      obtain ⟨rfl,rfl⟩ := Prod.mk.inj (Except.ok.inj advanced)
      exact ⟨reduce,by omega,_,column.snoc next,countAll_snoc readers reader counted count⟩
  · rename_i all
    obtain rfl : opened = (site.job app argp).inputs.length := by omega
    split at advanced
    · obtain ⟨rfl,rfl⟩ := Prod.mk.inj (Except.ok.inj advanced)
      nofun
    rename_i even
    obtain ⟨rfl,rfl⟩ := Prod.mk.inj (Except.ok.inj advanced)
    exact ⟨reduce,Nat.zero_le _,readers,entries,column,counted,even,rfl,rfl⟩

include handed known aux advanced in
theorem progress_reading (here : busy.work = .reading length opened kvs)
    (progress : Progress site.qsort (site.job app argp) files busy.task.reduce busy.index (.reading length opened kvs)) :
    Progress site.qsort (site.job app argp) files' busy.task.reduce busy.index work := by
  obtain ⟨reduce,bound,readers,entries,column,counted,even,rfl,taken⟩ := progress
  have named : getApp site.qsort busy.task.app = some app := by rw [handed.app,known]
  have maps := inputs_length handed site app
  have task := handleReduceTask_read site.qsort app argp.args counted even
  unfold advance at advanced
  rw [here] at advanced
  dsimp only at advanced
  split at advanced
  · rename_i empty
    obtain ⟨rfl,rfl⟩ := Prod.mk.inj (Except.ok.inj advanced)
    rw [if_pos empty] at task
    exact ⟨reduce,readers,column,task⟩
  rename_i some_
  rw [if_neg some_] at task
  split at advanced
  · rename_i more
    split at advanced
    · cases advanced
    rename_i reader next
    have here : readers[opened]? = some reader := (column.2 opened (by omega)).symm.trans next
    cases got : readLoop (entries / 2) (reader.length + 1) reader kvs with
    | error fault =>
      rw [got] at advanced
      cases advanced
    | ok kvs' =>
      rw [go got] at advanced
      obtain ⟨rfl,rfl⟩ := Prod.mk.inj (Except.ok.inj advanced)
      refine ⟨reduce,by omega,readers,entries,column,counted,even,rfl,?_⟩
      rw [List.take_add_one,here]
      exact readSome_snoc _ reader taken got
  · rename_i all
    rw [named] at advanced
    dsimp only at advanced
    rw [List.take_of_length_le (by rw [column.1]; omega)] at taken
    rw [go taken,← aux] at task
    cases made : Worker.reduceKvs site.qsort app busy.aux kvs with
    | error fault =>
      rw [made] at advanced
      cases advanced
    | ok out =>
      rw [go made] at advanced
      obtain ⟨rfl,rfl⟩ := Prod.mk.inj (Except.ok.inj advanced)
      rw [made,aux] at task
      exact ⟨reduce,readers,column,task⟩

include advanced in
theorem progress_writing (here : busy.work = .writing out)
    (progress : Progress site.qsort (site.job app argp) files busy.task.reduce busy.index (.writing out)) :
    Progress site.qsort (site.job app argp) files' busy.task.reduce busy.index work := by
  obtain ⟨reduce,readers,column,made⟩ := progress
  unfold advance at advanced
  rw [here] at advanced
  obtain ⟨rfl,rfl⟩ := Prod.mk.inj (Except.ok.inj advanced)
  rw [reduce]
  exact fun _ => ⟨readers,out,column,made,Function.update_self ..⟩

include advanced in
theorem progress_reporting (here : busy.work = .reporting success)
    (progress : Progress site.qsort (site.job app argp) files busy.task.reduce busy.index (.reporting success)) :
    Progress site.qsort (site.job app argp) files' busy.task.reduce busy.index work := by
  unfold advance at advanced
  rw [here] at advanced
  obtain ⟨rfl,rfl⟩ := Prod.mk.inj (Except.ok.inj advanced)
  exact progress

end

/-- A step of a worker keeps what is known about its task. -/
theorem advance_progress (handed : Handed h busy.task argp) (known : getApp site.qsort argp.app = some app)
    (aux : busy.aux = argp.args)
    (progress : Progress site.qsort (site.job app argp) files busy.task.reduce busy.index busy.work)
    (advanced : advance site files busy = .ok (work,files')) :
    Progress site.qsort (site.job app argp) files' busy.task.reduce busy.index work := by
  cases here : busy.work with
  | received => exact progress_received handed known advanced here
  | mapping app' =>
    rw [here] at progress
    obtain ⟨map,rfl⟩ := progress
    exact progress_mapping handed aux advanced here map
  | closing writers closed => exact progress_closing advanced here (here ▸ progress)
  | counting opened entries => exact progress_counting handed advanced here (here ▸ progress)
  | reading length read kvs => exact progress_reading handed known aux advanced here (here ▸ progress)
  | writing out => exact progress_writing advanced here (here ▸ progress)
  | reporting success => exact progress_reporting advanced here (here ▸ progress)

/-- A file that is open may show anything without harm to its task. -/
theorem scribble_progress (progress : Progress qsort job files reduce busy.index busy.work)
    (written : scribble files busy r content = some files') : Progress qsort job files' reduce busy.index busy.work := by
  unfold scribble at written
  cases here : busy.work with
  | mapping app =>
    rw [here] at progress
    exact progress
  | closing writers closed =>
    rw [here] at written progress
    obtain ⟨map,file,kvs,input,mapped,same,before⟩ := progress
    dsimp only at written
    split at written
    · rename_i open_
      obtain rfl := Option.some.inj written
      refine ⟨map,file,kvs,input,mapped,same,fun t small inside => ?_⟩
      change Function.update files.tmp busy.index (Function.update (files.tmp busy.index) r (some content)) busy.index t = _
      rw [Function.update_self,Function.update_of_ne (by omega)]
      exact before t small inside
    · contradiction
  | reading | writing =>
    rw [here] at written progress
    obtain rfl := Option.some.inj written
    exact progress
  | _ =>
    rw [here] at written
    contradiction

/-- Only the files of the task change, and none after its end. -/
def Confined (files files' : Files) (busy : Busy) : Prop :=
  files' = files ∨ ¬busy.Ended ∧ ((busy.task.reduce = false ∧ ∃ r content, files' = files.writeTmp busy.index r content) ∨
    (busy.task.reduce = true ∧ ∃ content, files' = files.writeOut busy.index content))

theorem not_ended {busy : Busy} {work : Work} (here : busy.work = work) (working : ∀ success, work ≠ .reporting success) : ¬busy.Ended :=
  fun ⟨success,reporting⟩ => working success (here.symm.trans reporting)

theorem advance_confined (progress : Progress qsort job files busy.task.reduce busy.index busy.work)
    (advanced : advance site files busy = .ok (work,files')) : Confined files files' busy := by
  unfold advance at advanced
  dsimp only at advanced
  cases here : busy.work with
  | received =>
    rw [here] at advanced
    dsimp only at advanced
    split at advanced
    · exact .inl (Prod.mk.inj (Except.ok.inj advanced)).2.symm
    · split at advanced <;> exact .inl (Prod.mk.inj (Except.ok.inj advanced)).2.symm
  | mapping app =>
    rw [here] at advanced
    dsimp only at advanced
    split at advanced
    · exact .inl (Prod.mk.inj (Except.ok.inj advanced)).2.symm
    rename_i contents _
    cases mapped : app.map ⟨nameBytes busy.task.file,contents⟩ busy.aux with
    | error fault =>
      rw [mapped] at advanced
      cases advanced
    | ok kvs =>
      rw [go mapped] at advanced
      split at advanced
      · cases advanced
      · exact .inl (Prod.mk.inj (Except.ok.inj advanced)).2.symm
  | closing writers closed =>
    rw [here] at advanced progress
    dsimp only at advanced
    split at advanced
    · exact .inl (Prod.mk.inj (Except.ok.inj advanced)).2.symm
    · exact .inr ⟨not_ended here (by simp),.inl ⟨progress.1,_,_,(Prod.mk.inj (Except.ok.inj advanced)).2.symm⟩⟩
  | counting opened entries =>
    rw [here] at advanced progress
    dsimp only at advanced
    split at advanced
    · split at advanced
      · exact .inl (Prod.mk.inj (Except.ok.inj advanced)).2.symm
      rename_i reader _
      cases count : ldrCount reader with
      | error fault =>
        rw [count] at advanced
        cases advanced
      | ok n =>
        rw [go count] at advanced
        exact .inl (Prod.mk.inj (Except.ok.inj advanced)).2.symm
    · split at advanced
      · exact .inl (Prod.mk.inj (Except.ok.inj advanced)).2.symm
      · exact .inr ⟨not_ended here (by simp),.inr ⟨progress.1,_,(Prod.mk.inj (Except.ok.inj advanced)).2.symm⟩⟩
  | reading length read kvs =>
    rw [here] at advanced
    dsimp only at advanced
    split at advanced
    · exact .inl (Prod.mk.inj (Except.ok.inj advanced)).2.symm
    split at advanced
    · split at advanced
      · cases advanced
      rename_i reader _
      cases got : readLoop length (reader.length + 1) reader kvs with
      | error fault =>
        rw [got] at advanced
        cases advanced
      | ok kvs' =>
        rw [go got] at advanced
        exact .inl (Prod.mk.inj (Except.ok.inj advanced)).2.symm
    · split at advanced
      · cases advanced
      rename_i app _
      cases made : Worker.reduceKvs site.qsort app busy.aux kvs with
      | error fault =>
        rw [made] at advanced
        cases advanced
      | ok out =>
        rw [go made] at advanced
        exact .inl (Prod.mk.inj (Except.ok.inj advanced)).2.symm
  | writing out =>
    rw [here] at advanced progress
    exact .inr ⟨not_ended here (by simp),.inr ⟨progress.1,_,(Prod.mk.inj (Except.ok.inj advanced)).2.symm⟩⟩
  | reporting success =>
    rw [here] at advanced
    exact .inl (Prod.mk.inj (Except.ok.inj advanced)).2.symm

theorem scribble_confined (progress : Progress qsort job files busy.task.reduce busy.index busy.work)
    (written : scribble files busy r content = some files') : Confined files files' busy := by
  unfold scribble at written
  cases here : busy.work with
  | mapping | closing =>
    rw [here] at written progress
    dsimp only at written
    split at written
    · exact .inr ⟨not_ended here (by simp),.inl ⟨progress.1,_,_,(Option.some.inj written).symm⟩⟩
    · contradiction
  | reading | writing =>
    rw [here] at written progress
    exact .inr ⟨not_ended here (by simp),.inr ⟨progress.1,_,(Option.some.inj written).symm⟩⟩
  | _ =>
    rw [here] at written
    contradiction

/-- A map task's files are seen by the reduce tasks and by itself, a reduce task's file by itself. -/
theorem Confined.agree (confined : Confined files files' busy) (other : busy.task.reduce = reduce → busy.index ≠ i)
    (noReader : ¬busy.Ended → busy.task.reduce = false → reduce = false) : Agree files files' i reduce := by
  rcases confined with rfl | ⟨working,⟨map,r,content,rfl⟩ | ⟨kind,content,rfl⟩⟩
  · exact .refl _ _ _
  · obtain rfl := noReader working map
    intro t
    exact congrFun (Function.update_of_ne (Ne.symm (other map)) ..) t
  · cases reduce with
    | false => exact fun _ => rfl
    | true => exact ⟨fun _ => rfl,Function.update_of_ne (Ne.symm (other kind)) ..⟩

end

end OsProj.Cluster
