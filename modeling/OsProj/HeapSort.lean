import Mathlib.Algebra.Group.Nat.Defs
import Mathlib.Data.Nat.Init
import OsProj.HeapOrder

/-! The sort of lib/stdlib.c over an array of bytes, whose elements are numbered from 1. A `size_t`
has 32 bits. A function fails where it would read or write outside the array. -/
namespace OsProj.HeapSort

open HeapOrder

inductive Fault
  | assertion
  | outside
  /-- The given number of rounds did not suffice. -/
  | running
  deriving DecidableEq, Repr

abbrev Bytes := List UInt8

abbrev Element (size : Nat) := {bytes : Bytes // bytes.length = size}

/-- A comparison function, and the element order that its results mean. -/
abbrev Compare (size : Nat) (Aux : Type) := Element size → Element size → Aux → Int

/-- `(idx - 1) * size` -/
def offset (idx size : Nat) : Nat := (idx + (2 ^ 32 - 1)) % 2 ^ 32 * size % 2 ^ 32

def element (array : Bytes) (idx size : Nat) : Except Fault (Element size) :=
  if inside : offset idx size + size ≤ array.length then
    .ok ⟨(array.drop (offset idx size)).take size,by rw [List.length_take,List.length_drop]; omega⟩
  else .error .outside

def swapBytes (a b : Nat) : Nat → Nat → Bytes → Except Fault Bytes
  | 0, _, array => .ok array
  | n + 1, i, array =>
    match array[a + i]?,array[b + i]? with
    | some t,some u => swapBytes a b n (i + 1) ((array.set (a + i) u).set (b + i) t)
    | _,_ => .error .outside

def do_swap (array : Bytes) (a_idx b_idx size : Nat) : Except Fault Bytes :=
  swapBytes (offset a_idx size) (offset b_idx size) size 0 array

def do_compare (array : Bytes) (a_idx b_idx size : Nat) (compare : Compare size Aux) (aux : Aux) : Except Fault Int := do
  return compare (← element array a_idx size) (← element array b_idx size) aux

/-- `if (child <= cnt && do_compare(array, child, max, size, compare, aux) > 0) max = child;` -/
def larger (array : Bytes) (child max cnt size : Nat) (compare : Compare size Aux) (aux : Aux) : Except Fault Nat :=
  if child ≤ cnt then do
    return if (← do_compare array child max size compare aux) > 0 then child else max
  else return max

def heapify : Nat → Bytes → Nat → Nat → (size : Nat) → Compare size Aux → Aux → Except Fault Bytes
  | 0, _, _, _, _, _, _ => .error .running
  | fuel + 1, array, i, cnt, size, compare, aux => do
    let left := 2 * i % 2 ^ 32
    let right := (2 * i + 1) % 2 ^ 32
    let max ← larger array left i cnt size compare aux
    let max ← larger array right max cnt size compare aux
    if max = i then return array
    heapify fuel (← do_swap array i max size) max cnt size compare aux

def buildHeap (fuel : Nat) (cnt size : Nat) (compare : Compare size Aux) (aux : Aux) : Nat → Bytes → Except Fault Bytes
  | 0, array => .ok array
  | i + 1, array => do
    buildHeap fuel cnt size compare aux i (← heapify fuel array (i + 1) cnt size compare aux)

def sortHeap (fuel : Nat) (size : Nat) (compare : Compare size Aux) (aux : Aux) : Nat → Bytes → Except Fault Bytes
  | 0, array => .ok array
  | 1, array => .ok array
  | i + 2, array => do
    let array ← do_swap array 1 (i + 2) size
    sortHeap fuel size compare aux (i + 1) (← heapify fuel array 1 (i + 1) size compare aux)

def sort (fuel : Nat) (array : Bytes) (cnt size : Nat) (compare : Compare size Aux) (aux : Aux) : Except Fault Bytes := do
  if size = 0 then throw .assertion
  let array ← buildHeap fuel cnt size compare aux (cnt / 2) array
  sortHeap fuel size compare aux cnt array

def compare_thunk (a b : Element size) (aux : Element size → Element size → Int) : Int := aux a b

def qsort (fuel : Nat) (array : Bytes) (cnt size : Nat) (compare : Element size → Element size → Int) : Except Fault Bytes :=
  sort fuel array cnt size compare_thunk compare

/-! The elements of an array. -/

def elements (array : Bytes) (cnt size : Nat) : Option (List (Element size)) :=
  (List.range' 1 cnt).mapM fun idx => (element array idx size).toOption

structure Holds (array : Bytes) (cnt size : Nat) (f : Nat → Element size) : Prop where
  length : array.length = cnt * size
  bytes : ∀ i, 1 ≤ i → i ≤ cnt → ∀ k < size, array[(i - 1) * size + k]? = (f i).val[k]?

theorem offset_eq (some_ : 1 ≤ idx) (idx_in : idx ≤ cnt) (size_some : 0 < size) (fits : cnt * size < 2 ^ 32) :
    offset idx size = (idx - 1) * size := by
  have small : idx < 2 ^ 32 := by
    calc idx ≤ cnt * 1 := by omega
      _ ≤ cnt * size := Nat.mul_le_mul_left cnt size_some
      _ < 2 ^ 32 := fits
  have less : (idx - 1) * size < 2 ^ 32 := Nat.lt_of_le_of_lt (Nat.mul_le_mul_right size (by omega)) fits
  unfold offset
  rw [show (idx + (2 ^ 32 - 1)) % 2 ^ 32 = idx - 1 by omega]
  exact Nat.mod_eq_of_lt less

theorem place_end (some_ : 1 ≤ i) (i_in : i ≤ j) : (i - 1) * size + size ≤ j * size := by
  calc (i - 1) * size + size = (i - 1 + 1) * size := (Nat.succ_mul ..).symm
    _ ≤ j * size := Nat.mul_le_mul_right size (by omega)

theorem Holds.element {f : Nat → Element size} (holds : Holds array cnt size f) (size_some : 0 < size) (fits : cnt * size < 2 ^ 32)
    (some_ : 1 ≤ i) (i_in : i ≤ cnt) : element array i size = .ok (f i) := by
  have start := offset_eq some_ i_in size_some fits
  have inside : offset i size + size ≤ array.length := by
    rw [start,holds.length]
    exact place_end some_ i_in
  unfold HeapSort.element
  rw [dif_pos inside]
  congr 1
  apply Subtype.ext
  apply List.ext_getElem?
  intro k
  rw [List.getElem?_take,List.getElem?_drop,start]
  split
  · exact holds.bytes i some_ i_in k ‹_›
  · rw [List.getElem?_eq_none (by rw [(f i).property]; omega)]

/-- The loop over the bytes exchanges two elements that do not overlap. -/
theorem swapBytes_spec (apart : a + size ≤ b ∨ b + size ≤ a) (n i : Nat) (array : Bytes) (whole : i + n = size)
    (a_in : a + size ≤ array.length) (b_in : b + size ≤ array.length) :
    ∃ result, swapBytes a b n i array = .ok result ∧ result.length = array.length ∧
      ∀ k, result[k]? = if a + i ≤ k ∧ k < a + size then array[b + (k - a)]?
        else if b + i ≤ k ∧ k < b + size then array[a + (k - b)]? else array[k]? := by
  induction n generalizing i array with
  | zero =>
    refine ⟨array,rfl,rfl,fun k => ?_⟩
    rw [if_neg (by omega),if_neg (by omega)]
  | succ n ih =>
    have first := List.getElem?_eq_getElem (show a + i < array.length by omega)
    have second := List.getElem?_eq_getElem (show b + i < array.length by omega)
    have exchanged : ∀ x, ((array.set (a + i) array[b + i]).set (b + i) array[a + i])[x]? =
        if x = b + i then array[a + i]? else if x = a + i then array[b + i]? else array[x]? := by
      intro x
      rw [List.getElem?_set,List.getElem?_set,first,second]
      simp only [List.length_set,eq_comm (a := x)]
      rw [if_pos (show b + i < array.length by omega),if_pos (show a + i < array.length by omega)]
    obtain ⟨result,run,same,values⟩ := ih (i + 1) ((array.set (a + i) array[b + i]).set (b + i) array[a + i]) (by omega) (by simpa) (by simpa)
    refine ⟨result,?_,by simpa using same,fun k => ?_⟩
    · rw [swapBytes,first,second]
      exact run
    · rw [values k,exchanged,exchanged,exchanged]
      by_cases at_a : k = a + i
      · subst at_a
        rw [if_neg (by omega),if_neg (by omega),if_neg (by omega),if_pos rfl,if_pos (by omega),Nat.add_sub_cancel_left]
      · by_cases at_b : k = b + i
        · subst at_b
          rw [if_neg (by omega),if_neg (by omega),if_pos rfl,if_neg (by omega),if_pos (by omega),Nat.add_sub_cancel_left]
        · by_cases in_a : a + i ≤ k ∧ k < a + size
          · rw [if_pos (by omega),if_pos in_a,if_neg (by omega),if_neg (by omega)]
          · rw [if_neg (by omega),if_neg in_a]
            by_cases in_b : b + i ≤ k ∧ k < b + size
            · rw [if_pos (by omega),if_pos in_b,if_neg (by omega),if_neg (by omega)]
            · rw [if_neg (by omega),if_neg in_b,if_neg at_b,if_neg at_a]

theorem Holds.do_swap {f : Nat → Element size} (holds : Holds array cnt size f) (size_some : 0 < size) (fits : cnt * size < 2 ^ 32)
    (a_some : 1 ≤ a) (a_in : a ≤ cnt) (b_some : 1 ≤ b) (b_in : b ≤ cnt) (other : a ≠ b) :
    ∃ result, do_swap array a b size = .ok result ∧ Holds result cnt size (f ∘ Equiv.swap a b) := by
  have places : ∀ i j, 1 ≤ i → i < j → (i - 1) * size + size ≤ (j - 1) * size := fun i j some_ less => place_end some_ (by omega)
  have apart : (a - 1) * size + size ≤ (b - 1) * size ∨ (b - 1) * size + size ≤ (a - 1) * size := by
    rcases Nat.lt_or_gt_of_ne other with less | more
    · exact .inl (places a b a_some less)
    · exact .inr (places b a b_some more)
  obtain ⟨result,run,length,values⟩ := swapBytes_spec apart size 0 array (Nat.zero_add size)
    (by rw [holds.length]; exact place_end a_some a_in) (by rw [holds.length]; exact place_end b_some b_in)
  refine ⟨result,?_,length.trans holds.length,?_⟩
  · unfold HeapSort.do_swap
    rw [offset_eq a_some a_in size_some fits,offset_eq b_some b_in size_some fits]
    exact run
  · intro i some_ i_in k k_in
    rw [values]
    by_cases at_a : i = a
    · subst at_a
      rw [if_pos (by omega),Nat.add_sub_cancel_left,holds.bytes b b_some b_in k k_in]
      exact congrArg (fun e : Element size => e.val[k]?) (congrArg f (Equiv.swap_apply_left i b).symm)
    · have out_a : ¬ ((a - 1) * size + 0 ≤ (i - 1) * size + k ∧ (i - 1) * size + k < (a - 1) * size + size) := by
        rcases Nat.lt_or_gt_of_ne at_a with less | more
        · have := places i a some_ less
          omega
        · have := places a i a_some more
          omega
      rw [if_neg out_a]
      by_cases at_b : i = b
      · subst at_b
        rw [if_pos (by omega),Nat.add_sub_cancel_left,holds.bytes a a_some a_in k k_in]
        exact congrArg (fun e : Element size => e.val[k]?) (congrArg f (Equiv.swap_apply_right a i).symm)
      · have out_b : ¬ ((b - 1) * size + 0 ≤ (i - 1) * size + k ∧ (i - 1) * size + k < (b - 1) * size + size) := by
          rcases Nat.lt_or_gt_of_ne at_b with less | more
          · have := places i b some_ less
            omega
          · have := places b i b_some more
            omega
        rw [if_neg out_b,holds.bytes i some_ i_in k k_in]
        exact congrArg (fun e : Element size => e.val[k]?) (congrArg f (Equiv.swap_apply_of_ne_of_ne at_a at_b).symm)

/-! The sort. -/

def AtMost (compare : Compare size Aux) (aux : Aux) (a b : Element size) : Prop := compare a b aux ≤ 0

section
variable {compare : Compare size Aux} {aux : Aux} {f : Nat → Element size}

theorem larger_run {max : Nat} (holds : Holds array total size f) (size_some : 0 < size) (fits : total * size < 2 ^ 32) (limit : cnt ≤ total)
    (child_some : 1 ≤ child) (max_some : 1 ≤ max) (max_in : max ≤ total) :
    larger array child max cnt size compare aux = .ok (if child ≤ cnt ∧ compare (f child) (f max) aux > 0 then child else max) := by
  unfold larger
  by_cases child_in : child ≤ cnt
  · rw [if_pos child_in,do_compare,holds.element size_some fits child_some (by omega),holds.element size_some fits max_some max_in]
    simp only [child_in,true_and]
    rfl
  · rw [if_neg child_in,if_neg (fun both => child_in both.1)]
    rfl

theorem larger_spec {max : Nat} (order : TotalPreorder (AtMost compare aux)) (holds : Holds array total size f) (size_some : 0 < size)
    (fits : total * size < 2 ^ 32) (limit : cnt ≤ total) (child_some : 1 ≤ child) (max_some : 1 ≤ max) (max_in : max ≤ cnt) :
    ∃ m, larger array child max cnt size compare aux = .ok m ∧ (m = max ∨ m = child ∧ child ≤ cnt) ∧
      AtMost compare aux (f max) (f m) ∧ (child ≤ cnt → AtMost compare aux (f child) (f m)) := by
  refine ⟨_,larger_run holds size_some fits limit child_some max_some (by omega),?_⟩
  split
  · rename_i greater
    refine ⟨.inr ⟨rfl,greater.1⟩,?_,fun _ => order.refl _⟩
    exact (order.total (f max) (f child)).resolve_right (Int.not_le.mpr greater.2)
  · rename_i not_greater
    exact ⟨.inl rfl,order.refl _,fun child_in => Int.not_lt.mp fun greater => not_greater ⟨child_in,greater⟩⟩

theorem heapify_spec (order : TotalPreorder (AtMost compare aux)) (size_some : 0 < size) (fits : total * size < 2 ^ 32) (small : cnt < 2 ^ 31)
    (limit : cnt ≤ total) (fuel : Nat) (array : Bytes) (f : Nat → Element size) (i : Nat) (holds : Holds array total size f)
    (sinking : Sinking (AtMost compare aux) f lowest cnt i) (lowest_some : 1 ≤ lowest) (from_ : lowest ≤ i) (i_in : i ≤ cnt)
    (enough : cnt < i + fuel) :
    ∃ result g, heapify fuel array i cnt size compare aux = .ok result ∧ Holds result total size g ∧ Shuffled cnt f g ∧
      HeapFrom (AtMost compare aux) g lowest cnt := by
  induction fuel generalizing array f i with
  | zero => omega
  | succ fuel ih =>
    have left : 2 * i % 2 ^ 32 = 2 * i := Nat.mod_eq_of_lt (by omega)
    have right : (2 * i + 1) % 2 ^ 32 = 2 * i + 1 := Nat.mod_eq_of_lt (by omega)
    obtain ⟨m,first,m_is,m_i,m_left⟩ := larger_spec order holds size_some fits limit (show 1 ≤ 2 * i by omega) (show 1 ≤ i by omega) i_in
    obtain ⟨m',second,m_is',m_m,m_right⟩ :=
      larger_spec order holds size_some fits limit (show 1 ≤ 2 * i + 1 by omega) (show 1 ≤ m by omega) (by omega)
    have most : ∀ c ≤ cnt, c / 2 = i → AtMost compare aux (f c) (f m') := by
      intro c c_in child
      obtain rfl | rfl : c = 2 * i ∨ c = 2 * i + 1 := by omega
      · exact order.trans _ _ _ (m_left c_in) m_m
      · exact m_right c_in
    unfold heapify
    simp only [left,right,first,second,Bind.bind,Except.bind,Pure.pure,Except.pure]
    by_cases done : m' = i
    · rw [if_pos done]
      subst done
      exact ⟨array,f,rfl,holds,Shuffled.refl _ _,sinking.stop most⟩
    · rw [if_neg done]
      have m_some : 1 ≤ m' := by omega
      have m_in : m' ≤ cnt := by omega
      obtain ⟨array',swapped,holds'⟩ := holds.do_swap size_some fits (show 1 ≤ i by omega) (by omega) m_some (by omega) (Ne.symm done)
      have down := sinking.down (by omega) from_ m_in (by omega) most (order.trans _ _ _ m_i m_m)
      obtain ⟨result,g,run,holds'',shuffled,heap⟩ := ih array' _ m' holds' down (by omega) m_in (by omega)
      rw [swapped]
      exact ⟨result,g,run,holds'',(Shuffled.swap f (by omega) i_in m_some m_in).trans shuffled,heap⟩

theorem buildHeap_spec (order : TotalPreorder (AtMost compare aux)) (size_some : 0 < size) (fits : cnt * size < 2 ^ 32) (small : cnt < 2 ^ 31)
    (enough : cnt ≤ fuel) (i : Nat) (array : Bytes) (f : Nat → Element size) (holds : Holds array cnt size f)
    (heap : HeapFrom (AtMost compare aux) f (i + 1) cnt) (i_in : i ≤ cnt) :
    ∃ result g, buildHeap fuel cnt size compare aux i array = .ok result ∧ Holds result cnt size g ∧ Shuffled cnt f g ∧
      HeapFrom (AtMost compare aux) g 1 cnt := by
  induction i generalizing array f with
  | zero => exact ⟨array,f,rfl,holds,Shuffled.refl _ _,heap⟩
  | succ i ih =>
    obtain ⟨array',g,run,holds',shuffled,heap'⟩ := heapify_spec order size_some fits small (Nat.le_refl cnt) fuel array f (i + 1) holds
      (heap.sinking (by omega)) (by omega) (Nat.le_refl _) i_in (by omega)
    obtain ⟨result,h,rest,holds'',shuffled',heap''⟩ := ih array' g holds' heap' (by omega)
    refine ⟨result,h,?_,holds'',shuffled.trans shuffled',heap''⟩
    rw [buildHeap,run]
    exact rest

theorem sortHeap_spec (order : TotalPreorder (AtMost compare aux)) (size_some : 0 < size) (fits : cnt * size < 2 ^ 32) (small : cnt < 2 ^ 31)
    (enough : cnt ≤ fuel) (i : Nat) (array : Bytes) (f : Nat → Element size) (holds : Holds array cnt size f)
    (sorting : Sorting (AtMost compare aux) f cnt i) (i_in : i ≤ cnt) :
    ∃ result g, sortHeap fuel size compare aux i array = .ok result ∧ Holds result cnt size g ∧ Shuffled cnt f g ∧
      ((List.range' 1 cnt).map g).Pairwise (AtMost compare aux) := by
  induction i using Nat.twoStepInduction generalizing array f with
  | zero => exact ⟨array,f,rfl,holds,Shuffled.refl _ _,sorting.pairwise (by omega)⟩
  | one => exact ⟨array,f,rfl,holds,Shuffled.refl _ _,sorting.pairwise (Nat.le_refl 1)⟩
  | more i _ ih =>
    have one : 1 ≤ cnt := by omega
    obtain ⟨array',swapped,holds'⟩ := holds.do_swap size_some fits (Nat.le_refl 1) one (show 1 ≤ i + 2 by omega) i_in (by omega)
    obtain ⟨array'',g,run,holds'',shuffled,heap⟩ := heapify_spec order size_some fits (show i + 1 < 2 ^ 31 by omega) (by omega) fuel array' _ 1
      holds' (sorting.swapped (by omega)) (Nat.le_refl 1) (Nat.le_refl 1) (by omega) (by omega)
    obtain ⟨result,h,rest,last,shuffled',sorted⟩ := ih array'' g holds'' (sorting.step order (by omega) shuffled heap) (by omega)
    refine ⟨result,h,?_,last,?_,sorted⟩
    · rw [sortHeap,swapped]
      simp only [Bind.bind,Except.bind]
      rw [run]
      exact rest
    · exact (Shuffled.swap f (Nat.le_refl 1) one (by omega) i_in).trans ((shuffled.mono (by omega)).trans shuffled')

end
theorem mapM_some {g : α → Option β} {h : α → β} (l : List α) (each : ∀ x ∈ l, g x = some (h x)) : l.mapM g = some (l.map h) := by
  induction l with
  | nil => rfl
  | cons x l ih =>
    rw [List.mapM_cons,each x (List.mem_cons_self ..),ih fun y member => each y (List.mem_cons_of_mem _ member)]
    rfl

theorem Holds.elements {f : Nat → Element size} (holds : Holds array cnt size f) (size_some : 0 < size) (fits : cnt * size < 2 ^ 32) :
    elements array cnt size = some ((List.range' 1 cnt).map f) := by
  apply mapM_some
  intro i member
  rw [List.mem_range'_1] at member
  rw [holds.element size_some fits member.1 (by omega)]
  rfl

theorem exists_holds (length : array.length = cnt * size) : ∃ f : Nat → Element size, Holds array cnt size f := by
  refine ⟨fun i => if inside : (i - 1) * size + size ≤ array.length then
    ⟨(array.drop ((i - 1) * size)).take size,by rw [List.length_take,List.length_drop]; omega⟩
    else ⟨List.replicate size 0,List.length_replicate⟩,length,?_⟩
  intro i some_ i_in k k_in
  have inside : (i - 1) * size + size ≤ array.length := by
    rw [length]
    exact place_end some_ i_in
  rw [dif_pos inside,List.getElem?_take,if_pos k_in,List.getElem?_drop]

def Sorted (le : Element size → Element size → Prop) (cnt : Nat) (array result : Bytes) : Prop :=
  result.length = array.length ∧ ∃ before after, elements array cnt size = some before ∧ elements result cnt size = some after ∧
    after.Perm before ∧ after.Pairwise le

theorem sort_spec {compare : Compare size Aux} (order : TotalPreorder (AtMost compare aux)) (size_some : 0 < size)
    (fits : cnt * size < 2 ^ 32) (small : cnt < 2 ^ 31) (length : array.length = cnt * size) :
    ∃ result, sort cnt array cnt size compare aux = .ok result ∧ Sorted (AtMost compare aux) cnt array result := by
  obtain ⟨f,holds⟩ := exists_holds length
  have leaves : HeapFrom (AtMost compare aux) f (cnt / 2 + 1) cnt := fun c c_in from_ => by omega
  obtain ⟨array',g,built,holds',shuffled,heap⟩ :=
    buildHeap_spec order size_some fits small (Nat.le_refl cnt) (cnt / 2) array f holds leaves (by omega)
  obtain ⟨result,h,run,holds'',shuffled',sorted⟩ :=
    sortHeap_spec order size_some fits small (Nat.le_refl cnt) cnt array' g holds' heap.sorting (Nat.le_refl cnt)
  refine ⟨result,?_,holds''.length.trans length.symm,_,_,holds.elements size_some fits,holds''.elements size_some fits,
    (shuffled.trans shuffled').perm,sorted⟩
  rw [sort,if_neg (by omega)]
  simp only [Bind.bind,Except.bind]
  rw [built]
  exact run

/-- Both sorts are right for every array of less than 2^31 bytes, which is more than the memory of the machine. -/
theorem sort_sorts (cnt size : Nat) (size_some : 0 < size) (fits : cnt * size < 2 ^ 31) :
    (∀ (Aux : Type) (compare : Compare size Aux) (aux : Aux) (array : Bytes), TotalPreorder (AtMost compare aux) →
      array.length = cnt * size →
      ∃ result, sort cnt array cnt size compare aux = .ok result ∧ Sorted (AtMost compare aux) cnt array result) ∧
    ∀ (compare : Element size → Element size → Int) (array : Bytes), TotalPreorder (fun a b => compare a b ≤ 0) →
      array.length = cnt * size →
      ∃ result, qsort cnt array cnt size compare = .ok result ∧ Sorted (fun a b => compare a b ≤ 0) cnt array result := by
  have small : cnt < 2 ^ 31 := Nat.lt_of_le_of_lt (Nat.le_mul_of_pos_right cnt size_some) fits
  have inside : cnt * size < 2 ^ 32 := Nat.lt_trans fits (by decide)
  constructor
  · intro Aux compare aux array order length
    exact sort_spec order size_some inside small length
  · intro compare array order length
    exact @sort_spec _ _ compare _ _ compare_thunk order size_some inside small length

theorem sort_sorts_three :
    (∀ (Aux : Type) (compare : Compare 2 Aux) (aux : Aux) (array : Bytes), TotalPreorder (AtMost compare aux) →
      array.length = 3 * 2 →
      ∃ result, sort 3 array 3 2 compare aux = .ok result ∧ Sorted (AtMost compare aux) 3 array result) ∧
    ∀ (compare : Element 2 → Element 2 → Int) (array : Bytes), TotalPreorder (fun a b => compare a b ≤ 0) →
      array.length = 3 * 2 →
      ∃ result, qsort 3 array 3 2 compare = .ok result ∧ Sorted (fun a b => compare a b ≤ 0) 3 array result :=
  sort_sorts 3 2 (by decide) (by decide)

def compareBytes (a b : Element 1) : Int := ((a.val.headD 0).toNat : Int) - (b.val.headD 0).toNat

example : (qsort 5 [3,1,2,1,0] 5 1 compareBytes).toOption = some [0,1,1,2,3] := by decide +kernel

end OsProj.HeapSort
