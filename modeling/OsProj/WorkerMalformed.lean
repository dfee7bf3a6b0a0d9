import OsProj.WorkerTasks

/-! Intermediate files with a key that has no value. A reduce task counts the records of all
its files together, while it takes the pairs from one file after the other. -/
namespace OsProj.Worker

open OsProj.ByteList
open OsProj.Faulting
open OsProj.Grouping

/-- What is asked of a reduce task on files with these records: a key without a value in one
of them makes it fail for every application, and without any the application gets every pair
of every file once. -/
structure Checked (qsort : Qsort) (files : List Bytes) (records : List (List Bytes)) : Prop where
  refused : (∃ bufs ∈ records, bufs.length % 2 = 1) → ∀ app aux, handleReduceTask qsort app aux files = .error .failed
  delivered : (∀ bufs ∈ records, bufs.length % 2 = 0) →
    ∃ groups : List (List KeyValue), groups.flatten.Perm (records.flatMap pairsOf) ∧
      ∀ app aux, handleReduceTask qsort app aux files = (do
        let outs ← groups.mapM (reduceGroup app aux)
        return frames (bufs outs))

def echo : App := ⟨fun file _ => .ok [file],fun key _ _ => .ok ⟨key,[]⟩⟩

theorem echo_reduces {groups : List (List KeyValue)} (nonempty : ∀ group ∈ groups, group ≠ []) (aux : Bytes) :
    groups.mapM (reduceGroup echo aux) = .ok (groups.map fun group => ⟨(group.headD ⟨[],[]⟩).key,[]⟩) := by
  refine mapM_pure_of ?_
  intro group inside
  cases group with
  | nil => exact absurd rfl (nonempty [] inside)
  | cons kv group => rfl

theorem flatten_even {records : List (List Bytes)} (even : ∀ bufs ∈ records, bufs.length % 2 = 0) :
    records.flatten.length % 2 = 0 := by
  induction records with
  | nil => rfl
  | cons bufs records ih =>
    have first := even bufs (by simp)
    have rest := ih (fun b inside => even b (by simp [inside]))
    rw [List.flatten_cons,List.length_append]
    omega

theorem all_hold (files : List Bytes) : ∃ records, List.Forall₂ Holds files records := by
  induction files with
  | nil => exact ⟨[],.nil⟩
  | cons file files ih =>
    obtain ⟨bufs,first⟩ := holds_some file
    obtain ⟨records,rest⟩ := ih
    exact ⟨bufs :: records,.cons first rest⟩

/-- Every list of files is checked as it should be exactly when no file has a key without a
value or the odd ones among them do not make up for each other. -/
theorem malformed_files_refused (sorts : Sorts qsort) (files : List Bytes) :
    ∃ records, List.Forall₂ Holds files records ∧
      (Checked qsort files records ↔
        (∀ bufs ∈ records, bufs.length % 2 = 0) ∨ records.flatten.length % 2 = 1) := by
  obtain ⟨records,holds⟩ := all_hold files
  have ran := fun app aux => handleReduceTask_holds sorts app aux holds
  refine ⟨records,holds,?_,?_⟩
  · intro checked
    by_contra neither
    rw [not_or] at neither
    obtain ⟨odd,total⟩ := neither
    push Not at odd
    obtain ⟨bufs,inside,odd⟩ := odd
    have failed := checked.refused ⟨bufs,inside,by omega⟩ echo []
    have reduced := echo_reduces (runs_nonempty sameKey (qsort byKey (records.flatMap pairsOf))) []
    rw [ran,if_neg total,reduced] at failed
    cases failed
  · intro either
    constructor
    · rintro ⟨bufs,inside,odd⟩ app aux
      rcases either with even | total
      · rw [even bufs inside] at odd
        cases odd
      · rw [ran,if_pos total]
    · intro even
      have total := flatten_even even
      refine ⟨runs sameKey (qsort byKey (records.flatMap pairsOf)),?_,?_⟩
      · rw [runs_flatten]
        exact sorts.perm byKey _
      · intro app aux
        rw [ran,if_neg (by omega)]

/-- Two files with one record each: the task succeeds with an empty output. -/
theorem two_odd_files_accepted :
    List.Forall₂ Holds [frames [[97]],frames [[98]]] [[[97]],[[98]]] ∧
    handleReduceTask mergeQsort echo [] [frames [[97]],frames [[98]]] = .ok [] ∧
    ¬Checked mergeQsort [frames [[97]],frames [[98]]] [[[97]],[[98]]] := by
  have holds : List.Forall₂ Holds [frames [[97]],frames [[98]]] [[[97]],[[98]]] :=
    .cons (Holds.frames (by simp [Short])) (.cons (Holds.frames (by simp [Short])) .nil)
  have accepted : handleReduceTask mergeQsort echo [] [frames [[97]],frames [[98]]] = .ok [] := by
    rw [handleReduceTask_holds mergeQsort_sorts echo [] holds,if_neg (by decide)]
    change (runs sameKey (mergeQsort byKey [])).mapM _ >>= _ = _
    rw [List.perm_nil.mp (mergeQsort_sorts.perm byKey [])]
    rfl
  refine ⟨holds,accepted,?_⟩
  intro checked
  have failed := checked.refused ⟨[[97]],by simp,rfl⟩ echo []
  rw [accepted] at failed
  cases failed

theorem malformed_files_refused_one :
    ∃ records, List.Forall₂ Holds [frames [[97]]] records ∧
      (Checked mergeQsort [frames [[97]]] records ↔
        (∀ bufs ∈ records, bufs.length % 2 = 0) ∨ records.flatten.length % 2 = 1) :=
  malformed_files_refused mergeQsort_sorts _

end OsProj.Worker
