import Mathlib.Data.List.Basic

/-! Bitmaps with the first-fit scan for a run of equal bits, over a bit function. -/
namespace OsProj.Bitmap

def contains (bits : Nat → Bool) (start cnt : Nat) (value : Bool) : Bool :=
  (List.range cnt).any fun i => bits (start + i) == value

def all (bits : Nat → Bool) (start cnt : Nat) : Bool := !contains bits start cnt false

def setMultiple (bits : Nat → α) (start cnt : Nat) (value : α) : Nat → α :=
  fun i => if start ≤ i ∧ i < start + cnt then value else bits i

theorem setMultiple_inside {bits : Nat → α} (low : start ≤ i) (high : i < start + cnt) :
    setMultiple bits start cnt value i = value := if_pos ⟨low,high⟩

theorem setMultiple_outside {bits : Nat → α} (outside : ¬ (start ≤ i ∧ i < start + cnt)) :
    setMultiple bits start cnt value i = bits i := if_neg outside

/-- The first group of `cnt` bits that all have the value. -/
def scan (bits : Nat → Bool) (bitCnt start cnt : Nat) (value : Bool) : Option Nat :=
  if cnt ≤ bitCnt then
    (List.range' start (bitCnt - cnt + 1 - start)).find? fun i => !contains bits i cnt (!value)
  else none

theorem contains_eq_false : contains bits start cnt value = false ↔
    ∀ i, start ≤ i → i < start + cnt → bits i = !value := by
  simp only [contains,List.any_eq_false,List.mem_range,beq_iff_eq]
  constructor
  · intro none i low high
    have other := none (i - start) (by omega)
    rw [Nat.add_sub_cancel' low] at other
    exact Bool.eq_not.mpr other
  · intro other i inside same
    have opposite := other (start + i) (by omega) (by omega)
    rw [same] at opposite
    cases value <;> contradiction

theorem all_iff : all bits start cnt = true ↔ ∀ i, start ≤ i → i < start + cnt → bits i = true := by
  simp [all,contains_eq_false]

theorem scan_some (found : scan bits bitCnt start cnt value = some idx) :
    start ≤ idx ∧ idx + cnt ≤ bitCnt ∧ ∀ i, idx ≤ i → i < idx + cnt → bits i = value := by
  unfold scan at found
  split at found
  · rename_i fits
    have free := List.find?_some found
    have member := List.mem_of_find?_eq_some found
    simp only [List.mem_range'_1] at member
    refine ⟨member.1,by omega,?_⟩
    intro i low high
    have none : contains bits idx cnt (!value) = false := by simpa using free
    rw [contains_eq_false.mp none i low high,Bool.not_not]
  · contradiction

theorem scan_none (absent : scan bits bitCnt start cnt value = none) (low : start ≤ idx)
    (high : idx + cnt ≤ bitCnt) : ∃ i, idx ≤ i ∧ i < idx + cnt ∧ bits i = !value := by
  unfold scan at absent
  split at absent
  · rw [List.find?_eq_none] at absent
    have taken := absent idx (by simp only [List.mem_range'_1]; omega)
    by_contra none
    refine taken ?_
    rw [Bool.not_eq_true',contains_eq_false]
    intro i low' high'
    rw [Bool.not_not]
    by_contra other
    exact none ⟨i,low',high',Bool.eq_not.mpr other⟩
  · omega

/-- No group begins before the one that a scan finds. -/
theorem scan_least (found : scan bits bitCnt start cnt value = some idx) (low : start ≤ i) (before : i < idx) :
    ∃ j, i ≤ j ∧ j < i + cnt ∧ bits j = !value := by
  unfold scan at found
  split at found
  · rw [List.find?_range'_eq_some] at found
    have taken := found.2.2 i low before
    rw [Bool.not_eq_true',Bool.not_eq_false'] at taken
    by_contra none
    refine absurd taken (Bool.not_eq_true _ ▸ contains_eq_false.mpr fun j low' high' => ?_)
    by_contra other
    rw [Bool.not_not] at other
    exact none ⟨j,low',high',Bool.eq_not.mpr other⟩
  · contradiction

/-- Where the bits of the value are those from `used` on, the scan finds the first of them. -/
theorem scan_first {bits : Nat → Bool} (low : ∀ i < used, bits i = !value) (high : ∀ i, used ≤ i → i < bitCnt → bits i = value)
    (some_ : 0 < cnt) (room : used + cnt ≤ bitCnt) : scan bits bitCnt 0 cnt value = some used := by
  unfold scan
  rw [if_pos (by omega),List.find?_range'_eq_some]
  refine ⟨?_,by simp only [List.mem_range'_1]; omega,fun j _ before => ?_⟩
  · rw [Bool.not_eq_true',contains_eq_false]
    intro i above below
    rw [Bool.not_not]
    exact high i above (by omega)
  · rw [Bool.not_eq_true',Bool.not_eq_false',contains,List.any_eq_true]
    exact ⟨0,List.mem_range.mpr some_,by simp [low j before]⟩

/-- The number whose first binary digits are the bits. -/
def digits (bits : Nat → Bool) : Nat → Nat
  | 0 => 0
  | n + 1 => (if bits n then 1 <<< n else 0) + digits bits n

theorem testBit_digits (bits : Nat → Bool) (n : Nat) :
    digits bits n < 1 <<< n ∧ ∀ j < n, (digits bits n).testBit j = bits j := by
  induction n with
  | zero => simp [digits]
  | succ n ih =>
    obtain ⟨small,same⟩ := ih
    rw [digits]
    rw [Nat.one_shiftLeft] at *
    have power : 2 ^ (n + 1) = 2 ^ n + 2 ^ n := by omega
    cases top : bits n with
    | false =>
      simp only [Bool.false_eq_true,↓reduceIte,Nat.zero_add]
      refine ⟨by omega,fun j below => ?_⟩
      by_cases last : j = n
      · rw [last,top]
        exact Nat.testBit_lt_two_pow small
      · exact same j (by omega)
    | true =>
      simp only [↓reduceIte]
      refine ⟨by omega,fun j below => ?_⟩
      by_cases last : j = n
      · rw [last,top,Nat.testBit_two_pow_add_eq,Nat.testBit_lt_two_pow small]
        rfl
      · rw [Nat.testBit_two_pow_add_gt (by omega)]
        exact same j (by omega)

end OsProj.Bitmap
