import OsProj.CoordinatorService
import OsProj.WorkerWc

/-! The reduce task that a map task chooses for a key in hw-map-reduce. The divisor is the signed
`n_reduce` of the submission, which the coordinator passes on unchecked. -/
namespace OsProj.Worker

open OsProj.ByteList
open OsProj.MapReduce (intMin intMax)

/-- An `int` divisor beside an `unsigned` dividend is converted first. -/
def partitionIndex (nReduce : Int) (key : Bytes) : Option UInt32 :=
  let divisor := UInt32.ofInt nReduce
  if divisor = 0 then none else some (ihash key % divisor)

/-- The files that the opened writers start with; none for a negative count. -/
def openMapWriters (nReduce : Int) : List Bytes := List.replicate nReduce.toNat []

def writeOpenedKvs (nReduce : Int) (writers : List Bytes) (kvs : List KeyValue) : Option (List Bytes) :=
  kvs.foldlM (fun writers kv => do
    let reduceTask ← partitionIndex nReduce kv.key
    let writer ← writers[reduceTask.toNat]?
    return writers.set reduceTask.toNat (ldwWrite (ldwWrite writer kv.key) kv.value)) writers

theorem ofInt_toNat (range : intMin ≤ n ∧ n ≤ intMax) (positive : 0 < n) : (UInt32.ofInt n).toNat = n.toNat := by
  rw [UInt32.ofInt,UInt32.toNat_ofNat']
  have top : n ≤ 2147483647 := range.2
  omega

/-- A positive count chooses as the count itself would. -/
theorem partitionIndex_positive (range : intMin ≤ n ∧ n ≤ intMax) (positive : 0 < n) (key : Bytes) :
    ∃ i, partitionIndex n key = some i ∧ i.toNat = (ihash key).toNat % n.toNat := by
  have same := ofInt_toNat range positive
  have nonzero : UInt32.ofInt n ≠ 0 := by
    intro zero
    rw [zero] at same
    have zero : n.toNat = 0 := same.symm
    omega
  refine ⟨ihash key % UInt32.ofInt n,if_neg nonzero,?_⟩
  rw [UInt32.toNat_mod,same]

theorem partitionIndex_within_iff (range : intMin ≤ n ∧ n ≤ intMax) (key : Bytes) :
    (∃ i, partitionIndex n key = some i ∧ (i.toNat : Int) < n) ↔ 0 < n := by
  constructor
  · rintro ⟨i,_,small⟩
    omega
  · intro positive
    obtain ⟨i,chosen,same⟩ := partitionIndex_positive range positive key
    have small := Nat.mod_lt (ihash key).toNat (show 0 < n.toNat by omega)
    exact ⟨i,chosen,by omega⟩

/-- With a positive count every pair reaches an opened writer, and the files are those of `writeMapKvs`. -/
theorem writeOpenedKvs_positive (range : intMin ≤ n ∧ n ≤ intMax) (positive : 0 < n) (writers : Nat → Bytes)
    (kvs : List KeyValue) :
    writeOpenedKvs n ((List.range n.toNat).map writers) kvs =
      some ((List.range n.toNat).map (writeMapKvs n.toNat writers kvs)) := by
  induction kvs generalizing writers with
  | nil => rfl
  | cons kv kvs ih =>
    obtain ⟨i,chosen,same⟩ := partitionIndex_positive range positive kv.key
    have small : i.toNat < n.toNat := same ▸ Nat.mod_lt _ (by omega)
    have opened : ((List.range n.toNat).map writers)[i.toNat]? = some (writers i.toNat) := by simp [small]
    have written : ((List.range n.toNat).map writers).set i.toNat (ldwWrite (ldwWrite (writers i.toNat) kv.key) kv.value) =
        (List.range n.toNat).map (Function.update writers i.toNat
          (ldwWrite (ldwWrite (writers i.toNat) kv.key) kv.value)) := by
      apply List.ext_getElem (by simp)
      intro j bound bound'
      by_cases here : i.toNat = j
      · subst here
        simp
      · simp [here,Function.update_of_ne (Ne.symm here)]
    have rest := ih (Function.update writers i.toNat (ldwWrite (ldwWrite (writers i.toNat) kv.key) kv.value))
    rw [← written] at rest
    rw [writeMapKvs,List.foldl_cons,← same]
    rw [writeOpenedKvs,List.foldlM_cons]
    simp only [chosen,opened,Option.bind_eq_bind,Option.bind_some,Option.pure_def]
    exact rest

theorem openMapWriters_positive (range : intMin ≤ n ∧ n ≤ intMax) (positive : 0 < n) (kvs : List KeyValue) :
    writeOpenedKvs n (openMapWriters n) kvs = some ((List.range n.toNat).map (writeMapKvs n.toNat (fun _ => []) kvs)) := by
  have opened : openMapWriters n = (List.range n.toNat).map fun _ => [] := by simp [openMapWriters]
  rw [opened]
  exact writeOpenedKvs_positive range positive _ kvs

end OsProj.Worker

namespace OsProj.MapReduce

open OsProj.ByteList
open OsProj.Worker

/-- A task's keys have a reduce task exactly if the job was submitted with a positive count. -/
theorem partition_index_iff (run : Serving h s) (served : getTask1Svc order now s = .ok (r,s')) (handed : r.wait = false)
    (key : Bytes) :
    ∃ argp, submission h r.jobId = some argp ∧
      ((∃ i, partitionIndex r.nReduce key = some i ∧ (i.toNat : Int) < r.nReduce) ↔ 0 < argp.nReduce) := by
  have orderly := serving_orderly run
  rcases getTask_cases served with none | ⟨id,job,job',chosen⟩
  · rw [none.wait] at handed
    contradiction
  obtain ⟨argp,behind,known,_,same⟩ := (orderly.faithful id job chosen.found).submitted
  have key : r.jobId = id := chosen.names.jobId.trans (orderly.keyed id job chosen.found)
  have count : r.nReduce = argp.nReduce := chosen.names.nReduce.trans same.nReduce
  refine ⟨argp,key ▸ known,?_⟩
  rw [count]
  exact partitionIndex_within_iff argp.nReduce_range _

theorem partition_index_iff_one :
    let reached := outcome [.submitJob wordCount []]
    ∃ r s', getTask1Svc .insertion 0 reached.2 = .ok (r,s') ∧ ∃ argp, submission reached.1 r.jobId = some argp ∧
      ((∃ i, partitionIndex r.nReduce [97,98] = some i ∧ (i.toNat : Int) < r.nReduce) ↔ 0 < argp.nReduce) := by
  intro reached
  have run : Run reached.1 reached.2 := outcome_run _ (by decide)
  have answers : Answers (fun out => out.1.wait = false) (getTask1Svc .insertion 0 reached.2) := by decide +kernel
  obtain ⟨⟨r,s'⟩,served,handed⟩ := answers.exists
  exact ⟨r,s',served,partition_index_iff run.serving served handed _⟩

theorem zero_range : intMin ≤ 0 ∧ 0 ≤ intMax := by decide

def noReduce : SubmitJobRequest := { wordCount with nReduce := 0, nReduce_range := zero_range }

/-- The job is accepted, its map task is handed out, and its first word has no reduce task. -/
theorem no_reduce_divides_by_zero :
    (∃ s, submitJob1Svc noReduce [] coordinatorInit = .ok (0,s)) ∧
    let reached := outcome [.submitJob noReduce []]
    Run reached.1 reached.2 ∧ ∃ r s', getTask1Svc .insertion 0 reached.2 = .ok (r,s') ∧ r.wait = false ∧ r.reduce = false ∧
      r.app = "wc" ∧ submission reached.1 r.jobId = some noReduce ∧
      wcApp.map ⟨r.file.toUTF8.data.toList,[97,98]⟩ [] = .ok [⟨[97,98],one⟩] ∧ partitionIndex r.nReduce [97,98] = none := by
  refine ⟨?_,?_⟩
  · have answers : Answers (fun out => out.1 = 0) (submitJob1Svc noReduce [] coordinatorInit) := by decide +kernel
    obtain ⟨⟨answer,s⟩,served,accepted⟩ := answers.exists
    exact ⟨s,accepted ▸ served⟩
  intro reached
  have run : Run reached.1 reached.2 := outcome_run _ (by decide)
  have answers : Answers (fun out => out.1.wait = false ∧ out.1.reduce = false ∧ out.1.app = "wc" ∧
      submission reached.1 out.1.jobId = some noReduce ∧ partitionIndex out.1.nReduce [97,98] = none)
      (getTask1Svc .insertion 0 reached.2) := by decide +kernel
  obtain ⟨⟨r,s'⟩,served,handed,mapping,app,submitted,undefined⟩ := answers.exists
  exact ⟨run,r,s',served,handed,mapping,app,submitted,by rfl,undefined⟩

end OsProj.MapReduce
