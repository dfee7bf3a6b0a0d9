import Mathlib.Data.List.Lex
import OsProj.WorkerJob

/-! The order of `by_key`. Keys are compared as C strings: on keys of one length, and on
keys without zero bytes, the comparison is the lexicographic order of the bytes before the
first zero. Keys that agree there fall into one group. -/
namespace OsProj.Worker

open OsProj.ByteList
open OsProj.Grouping

def cstr (key : Bytes) : List Nat := (key.takeWhile fun b => b ≠ 0).map UInt8.toNat

/-- The keys for which the comparison is an order. -/
def Comparable (a b : Bytes) : Prop := (0 ∉ a ∧ 0 ∉ b) ∨ a.length = b.length

def compareKeys (a b : Bytes) : Int :=
  let ret := strncmp a b (min a.length b.length)
  if ret = 0 then toInt (a.length - b.length) else ret

theorem toInt_small (low : -2147483648 ≤ x) (high : x < 2147483648) : toInt x = x :=
  Int.bmod_eq_of_le (by omega) (by omega)

theorem cstr_cons (zero : x ≠ 0) (a : Bytes) : cstr (x :: a) = x.toNat :: cstr a := by
  simp [cstr,zero]

theorem cstr_zero (a : Bytes) : cstr (0 :: a) = [] := by
  simp [cstr]

theorem strncmp_zero (a b : Bytes) : strncmp a b 0 = 0 := by
  cases a <;> cases b <;> rfl

/-- A key that is out of bytes first. -/
theorem compareKeys_nil (a b : Bytes) (out : a = [] ∨ b = []) : compareKeys a b = toInt (a.length - b.length) := by
  have none : min a.length b.length = 0 := by
    rcases out with rfl | rfl <;> simp
  rw [compareKeys,none,strncmp_zero,if_pos rfl]

/-- Equal bytes in front do not matter. -/
theorem compareKeys_cons (zero : x ≠ 0) (a b : Bytes) : compareKeys (x :: a) (x :: b) = compareKeys a b := by
  have lengths : ((x :: a).length : Int) - (x :: b).length = a.length - b.length := by
    simp only [List.length_cons]
    omega
  have prefixes : strncmp (x :: a) (x :: b) (min (x :: a).length (x :: b).length) = strncmp a b (min a.length b.length) := by
    rw [List.length_cons,List.length_cons,Nat.add_min_add_right,strncmp,if_neg (by simp),if_neg zero]
  rw [compareKeys,compareKeys,prefixes,lengths]

theorem compareKeys_differ (different : x ≠ y) (a b : Bytes) : compareKeys (x :: a) (y :: b) = x.toNat - y.toNat := by
  have first : strncmp (x :: a) (y :: b) (min (x :: a).length (y :: b).length) = x.toNat - y.toNat := by
    rw [List.length_cons,List.length_cons,Nat.add_min_add_right,strncmp,if_pos different]
  have nonzero : (x.toNat : Int) - y.toNat ≠ 0 := by
    intro same
    exact different (UInt8.toNat_inj.mp (by omega))
  rw [compareKeys,first,if_neg nonzero]

/-- The bytes decide as the C strings do. -/
theorem cstr_differ (different : x ≠ y) (a b : Bytes) :
    (cstr (x :: a) < cstr (y :: b) ↔ x.toNat < y.toNat) ∧ cstr (x :: a) ≠ cstr (y :: b) := by
  have other : x.toNat ≠ y.toNat := fun same => different (UInt8.toNat_inj.mp same)
  by_cases zeroX : x = 0
  · subst zeroX
    have zeroY : y ≠ 0 := different.symm
    have pos : 0 < y.toNat := Nat.pos_of_ne_zero fun none => zeroY (UInt8.toNat_inj.mp none)
    rw [cstr_zero,cstr_cons zeroY]
    simp [pos]
  · by_cases zeroY : y = 0
    · subst zeroY
      rw [cstr_zero,cstr_cons zeroX]
      simp
    · rw [cstr_cons zeroX,cstr_cons zeroY,List.cons_lt_cons_iff]
      simp [other]

theorem compareKeys_order (comparable : Comparable a b) (shortA : a.length < 2147483648) (shortB : b.length < 2147483648) :
    (compareKeys a b < 0 ↔ cstr a < cstr b) ∧ (compareKeys a b = 0 ↔ cstr a = cstr b) := by
  induction a generalizing b with
  | nil =>
    cases b with
    | nil => decide
    | cons y b =>
      have clean : y ≠ 0 := by
        rcases comparable with ⟨_,none⟩ | same
        · intro zero
          exact none (by simp [zero])
        · cases same
      rw [List.length_cons] at shortB
      have value : compareKeys [] (y :: b) = -(b.length + 1 : Int) := by
        rw [compareKeys_nil _ _ (.inl rfl),toInt_small (by simp; omega) (by simp; omega)]
        simp
      rw [value,cstr_cons clean]
      simp [cstr]
      omega
  | cons x a ih =>
    cases b with
    | nil =>
      have clean : x ≠ 0 := by
        rcases comparable with ⟨none,_⟩ | same
        · intro zero
          exact none (by simp [zero])
        · cases same
      rw [List.length_cons] at shortA
      have value : compareKeys (x :: a) [] = (a.length + 1 : Int) := by
        rw [compareKeys_nil _ _ (.inr rfl),toInt_small (by simp; omega) (by simp; omega)]
        simp
      rw [value,cstr_cons clean]
      simp [cstr]
      omega
    | cons y b =>
      by_cases same : x = y
      · subst same
        by_cases zero : x = 0
        · subst zero
          have lengths : a.length = b.length := by
            rcases comparable with ⟨none,_⟩ | same
            · exact absurd (List.mem_cons_self ..) none
            · simpa using same
          have value : compareKeys (0 :: a) (0 :: b) = 0 := by
            rw [compareKeys,List.length_cons,List.length_cons,Nat.add_min_add_right,strncmp,lengths]
            simp [toInt]
          rw [value,cstr_zero,cstr_zero]
          simp
        · have rest : Comparable a b := by
            rcases comparable with ⟨noneA,noneB⟩ | same
            · exact .inl ⟨fun inside => noneA (by simp [inside]),fun inside => noneB (by simp [inside])⟩
            · exact .inr (by simpa using same)
          rw [List.length_cons] at shortA shortB
          obtain ⟨less,equal⟩ := ih rest (by omega) (by omega)
          rw [compareKeys_cons zero,cstr_cons zero,cstr_cons zero,List.cons_lt_cons_iff,less,equal]
          simp
      · obtain ⟨less,other⟩ := cstr_differ same a b
        rw [compareKeys_differ same,less]
        refine ⟨by omega,?_⟩
        constructor
        · intro zero
          exact absurd (UInt8.toNat_inj.mp (by omega)) same
        · intro equal
          exact absurd equal other

def keyRank (kv : KeyValue) : List Nat := cstr kv.key

theorem byKey_le (comparable : Comparable kv1.key kv2.key) (short1 : kv1.key.length < 2147483648)
    (short2 : kv2.key.length < 2147483648) :
    (byKey kv1 kv2 ≤ 0 ↔ keyRank kv1 ≤ keyRank kv2) ∧ (sameKey kv1 kv2 = true ↔ keyRank kv1 = keyRank kv2) := by
  obtain ⟨less,equal⟩ := compareKeys_order comparable short1 short2
  have same : byKey kv1 kv2 = compareKeys kv1.key kv2.key := rfl
  constructor
  · have order : keyRank kv1 ≤ keyRank kv2 ↔ cstr kv1.key < cstr kv2.key ∨ cstr kv1.key = cstr kv2.key := le_iff_lt_or_eq
    rw [same,order,← less,← equal]
    omega
  · rw [sameKey,same,beq_iff_eq,equal]
    rfl

def Ordered (kvs : List KeyValue) : Prop :=
  (∀ a ∈ kvs, ∀ b ∈ kvs, Comparable a.key b.key) ∧ ∀ a ∈ kvs, a.key.length < 2147483648

theorem Ordered.sorted (ordered : Ordered kvs) (sorts : Sorts qsort) (sub : ∀ a ∈ part, a ∈ kvs) :
    (qsort byKey part).Pairwise fun a b => keyRank a ≤ keyRank b := by
  have rank : ∀ a ∈ part, ∀ b ∈ part, (byKey a b ≤ 0 ↔ keyRank a ≤ keyRank b) := fun a inA b inB =>
    (byKey_le (ordered.1 a (sub a inA) b (sub b inB)) (ordered.2 a (sub a inA)) (ordered.2 b (sub b inB))).1
  have sorted := sorts.sorted byKey part ?_ ?_
  · refine List.Pairwise.imp_of_mem ?_ sorted
    intro a b inA inB before
    exact (rank a ((sorts.perm byKey part).mem_iff.mp inA) b ((sorts.perm byKey part).mem_iff.mp inB)).mp before
  · intro a inA b inB
    rw [rank a inA b inB,rank b inB a inA]
    exact le_total _ _
  · intro a inA b inB c inC
    rw [rank a inA b inB,rank b inB c inC,rank a inA c inC]
    exact le_trans

/-- One group for each reduce task and each C string that occurs there. -/
theorem groups_shuffled (sorts : Sorts qsort) (positive : 0 < job.nReduce) (ordered : Ordered (emitted job kvss)) :
    Shuffled (reduceTask job.nReduce) keyRank (emitted job kvss) (groups qsort job kvss) := by
  apply shuffle_shuffled
  · intro kv _
    exact Nat.mod_lt _ positive
  · intro r _
    exact sorts.perm byKey _
  · intro r _
    exact ordered.sorted sorts fun a inside => List.mem_of_mem_filter inside
  · intro a inA b inB
    exact (byKey_le (ordered.1 a inA b inB) (ordered.2 a inA) (ordered.2 b inB)).2

end OsProj.Worker
