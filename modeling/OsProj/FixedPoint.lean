import Mathlib.Algebra.Order.Field.Rat
import Mathlib.Tactic.Ring
import OsProj.Faulting
import OsProj.Rounding

/-! The fixed-point numbers of threads/fixed-point.h, with 16 bits before the point and 16 behind it.
An `int` has 32 bits and a `long long` 64. -/
namespace OsProj.FixedPoint

open OsProj.Faulting
open OsProj.Rounding

inductive Fault
  /-- An `ASSERT` fails. -/
  | assertion
  /-- The result of an operation does not fit in its type. -/
  | overflow
  deriving DecidableEq, Repr

def int (r : Int) : Except Fault Int32 := if -2 ^ 31 ≤ r ∧ r < 2 ^ 31 then .ok (Int32.ofInt r) else .error .overflow

def longLong (r : Int) : Except Fault Int64 := if -2 ^ 63 ≤ r ∧ r < 2 ^ 63 then .ok (Int64.ofInt r) else .error .overflow

def FIX_P : Nat := 16

def FIX_Q : Nat := 16

def FIX_F : Int := 2 ^ FIX_Q

def FIX_MAX_INT : Int := 2 ^ FIX_P - 1

def FIX_MIN_INT : Int := -FIX_MAX_INT

structure FixedPointT where
  f : Int32
  deriving DecidableEq, Repr

def InRange (n : Int) : Prop := n ≥ FIX_MIN_INT ∧ n ≤ FIX_MAX_INT

instance (n : Int) : Decidable (InRange n) := inferInstanceAs (Decidable (_ ∧ _))

def fix_int (n : Int32) : Except Fault FixedPointT := do
  if ¬ InRange n.toInt then throw .assertion
  return ⟨← int (n.toInt * FIX_F)⟩

def fix_frac (n d : Int32) : Except Fault FixedPointT := do
  if ¬ d.toInt ≠ 0 then throw .assertion
  if ¬ InRange (← int (n.toInt.tdiv d.toInt)).toInt then throw .assertion
  let product ← longLong (n.toInt * FIX_F)
  let quotient ← longLong (product.toInt.tdiv d.toInt)
  -- the argument of `__mk_fix` is converted to `int`
  return ⟨quotient.toInt32⟩

def fix_round (x : FixedPointT) : Except Fault Int32 := do
  let sum ← int (x.f.toInt + FIX_F / 2)
  int (sum.toInt.tdiv FIX_F)

def fix_trunc (x : FixedPointT) : Except Fault Int32 := int (x.f.toInt.tdiv FIX_F)

def FixedPointT.value (x : FixedPointT) : ℚ := x.f.toInt / FIX_F

def FracAdmitted (n d : Int32) : Prop := d.toInt ≠ 0 ∧ InRange (n.toInt.tdiv d.toInt)

instance (n d : Int32) : Decidable (FracAdmitted n d) := inferInstanceAs (Decidable (_ ∧ _))

section
variable {n d : Int32} {x : FixedPointT} {r : Int}

theorem int_of_fits (fits : -2 ^ 31 ≤ r ∧ r < 2 ^ 31) : int r = .ok (Int32.ofInt r) ∧ (Int32.ofInt r).toInt = r :=
  ⟨if_pos fits,Int32.toInt_ofInt_of_le fits.1 fits.2⟩

theorem longLong_of_fits (fits : -2 ^ 63 ≤ r ∧ r < 2 ^ 63) :
    longLong r = .ok (Int64.ofInt r) ∧ (Int64.ofInt r).toInt = r :=
  ⟨if_pos fits,Int64.toInt_ofInt_of_le fits.1 fits.2⟩

theorem toInt_fits (n : Int32) : -2 ^ 31 ≤ n.toInt ∧ n.toInt < 2 ^ 31 := ⟨n.le_toInt,n.toInt_lt⟩

/-- The units of the last place in a whole. -/
theorem units_positive : (0 : ℚ) < 65536 := by norm_num

/-- What fits in the integer bits beside the sign comes back. -/
theorem trunc_int_iff (admitted : InRange n.toInt) :
    (do fix_trunc (← fix_int n)) = .ok n ↔ -2 ^ 15 ≤ n.toInt ∧ n.toInt < 2 ^ 15 := by
  have product : n.toInt * FIX_F = n.toInt * 65536 := rfl
  by_cases fits : -2 ^ 31 ≤ n.toInt * FIX_F ∧ n.toInt * FIX_F < 2 ^ 31
  · obtain ⟨result,value⟩ := int_of_fits fits
    have fixed : fix_int n = .ok ⟨Int32.ofInt (n.toInt * FIX_F)⟩ := by
      rw [fix_int,if_neg (not_not_intro admitted),result]
      rfl
    have back : fix_trunc ⟨Int32.ofInt (n.toInt * FIX_F)⟩ = .ok n := by
      rw [fix_trunc,value,Int.mul_tdiv_cancel n.toInt (show FIX_F ≠ 0 by decide),(int_of_fits (toInt_fits n)).1,Int32.ofInt_toInt]
    rw [go fixed,back]
    rw [product] at fits
    exact iff_of_true rfl (by omega)
  · have fault : fix_int n = .error .overflow := by
      rw [fix_int,if_neg (not_not_intro admitted),int,if_neg fits]
      rfl
    rw [fault]
    rw [product] at fits
    exact iff_of_false (fun same => nomatch same) (by omega)

/-- The quotient that is converted to `int`. -/
theorem fix_frac_eq (admitted : FracAdmitted n d) :
    ∃ y, fix_frac n d = .ok y ∧ y.f.toInt = ((n.toInt * FIX_F).tdiv d.toInt).bmod (2 ^ 32) := by
  obtain ⟨some_,range⟩ := admitted
  have n_fits := toInt_fits n
  have product : n.toInt * FIX_F = n.toInt * 65536 := rfl
  have smaller := Int.natAbs_tdiv_le_natAbs (n.toInt * FIX_F) d.toInt
  obtain ⟨quotient,quotient_value⟩ := int_of_fits (r := n.toInt.tdiv d.toInt) (by
    change -65535 ≤ _ ∧ _ ≤ 65535 at range
    omega)
  obtain ⟨wide,wide_value⟩ := longLong_of_fits (r := n.toInt * FIX_F) (by omega)
  obtain ⟨wide_quotient,wide_quotient_value⟩ := longLong_of_fits (r := (n.toInt * FIX_F).tdiv d.toInt) (by omega)
  refine ⟨⟨(Int64.ofInt ((n.toInt * FIX_F).tdiv d.toInt)).toInt32⟩,?_,?_⟩
  · rw [fix_frac,if_neg (not_not_intro some_)]
    simp only [go quotient,quotient_value]
    rw [if_neg (not_not_intro range)]
    simp only [go wide,wide_value,go wide_quotient]
    rfl
  · rw [Int64.toInt_toInt32,wide_quotient_value]

/-- A number that was reduced to 32 bits is not near any more. -/
theorem bmod_near_iff {e : ℚ} {q : Int} (near : |e - q| < 1) :
    |(q.bmod (2 ^ 32) : ℚ) - e| ≤ 1 ↔ -2 ^ 31 ≤ q ∧ q < 2 ^ 31 := by
  have low := Int.le_bmod (x := q) (show 0 < 2 ^ 32 by decide)
  have high := Int.bmod_lt (x := q) (show 0 < 2 ^ 32 by decide)
  have same := Int.bmod_emod (x := q) (m := 2 ^ 32)
  generalize q.bmod (2 ^ 32) = y at *
  constructor
  · intro close
    by_contra outside
    have apart : (2 : Int) ≤ |y - q| := by
      rw [Int.abs_eq_natAbs]
      omega
    have apart' : (2 : ℚ) ≤ |(y : ℚ) - q| := by exact_mod_cast apart
    have path := abs_sub_le (y : ℚ) e q
    linarith
  · intro inside
    obtain rfl : y = q := by omega
    rw [abs_sub_comm]
    exact le_of_lt near

/-- The bounds of an `int`, in units of the last place and in wholes. -/
theorem bounds_iff {e : ℚ} : ((-2 ^ 31 : Int) - 1 < e * 65536 ∧ e * 65536 < (2 ^ 31 : Int)) ↔
    -2 ^ 15 - 1 / 2 ^ 16 < e ∧ e < 2 ^ 15 := by
  push_cast
  constructor
  · rintro ⟨low,high⟩
    constructor
    · linarith
    · linarith
  · rintro ⟨low,high⟩
    constructor
    · linarith
    · linarith

/-- One unit of the last place is the error of a quotient between the bounds of an `int`. -/
theorem frac_near_iff (admitted : FracAdmitted n d) :
    (∃ y, fix_frac n d = .ok y ∧ |y.value - n.toInt / d.toInt| ≤ 1 / 2 ^ 16) ↔
      (-2 ^ 15 - 1 / 2 ^ 16 : ℚ) < n.toInt / d.toInt ∧ (n.toInt / d.toInt : ℚ) < 2 ^ 15 := by
  obtain ⟨y,result,value⟩ := fix_frac_eq admitted
  have some_ := admitted.1
  have scaled : ((n.toInt * FIX_F : Int) / d.toInt : ℚ) = n.toInt / d.toInt * 65536 := by
    rw [Int.cast_mul,mul_div_right_comm]
    rfl
  have error : y.value - n.toInt / d.toInt = ((y.f.toInt : ℚ) - n.toInt / d.toInt * 65536) / 65536 := by
    rw [FixedPointT.value,show (FIX_F : ℚ) = 65536 from rfl]
    ring
  have near := bmod_near_iff (abs_div_sub_tdiv_lt (K := ℚ) some_ (n.toInt * FIX_F))
  rw [le_tdiv_iff (K := ℚ) some_ _ (by decide),tdiv_lt_iff (K := ℚ) some_ _ (by decide),← value,scaled] at near
  have unit : |y.value - n.toInt / d.toInt| ≤ 1 / 2 ^ 16 ↔ |(y.f.toInt : ℚ) - n.toInt / d.toInt * 65536| ≤ 1 := by
    rw [error,abs_div,abs_of_pos units_positive,show (2 : ℚ) ^ 16 = 65536 by norm_num]
    exact div_le_div_iff_of_pos_right (by norm_num)
  rw [exists_ok_iff result,unit,near]
  exact bounds_iff

theorem value_lt_iff (x : FixedPointT) (j : Int) : x.value < (j / 65536 : ℚ) ↔ x.f.toInt < j :=
  (div_lt_div_iff_of_pos_right units_positive).trans Int.cast_lt

theorem le_value_iff (x : FixedPointT) (j : Int) : (j / 65536 : ℚ) ≤ x.value ↔ j ≤ x.f.toInt :=
  (div_le_div_iff_of_pos_right units_positive).trans Int.cast_le

theorem value_eq_iff (x : FixedPointT) (j : Int) : x.value = (j / 65536 : ℚ) ↔ x.f.toInt = j :=
  (div_left_inj' (ne_of_gt units_positive)).trans Int.cast_inj

theorem halfway_iff (x : FixedPointT) : (∃ j : Int, x.value = j + 1 / 2) ↔ 65536 ∣ x.f.toInt + 32768 := by
  have place : ∀ j : Int, (j + 1 / 2 : ℚ) = ((65536 * j + 32768 : Int) / 65536 : ℚ) := by
    intro j
    push_cast
    ring
  constructor
  · rintro ⟨j,same⟩
    rw [place,value_eq_iff] at same
    exact ⟨j + 1,by omega⟩
  · rintro ⟨j,same⟩
    refine ⟨j - 1,?_⟩
    rw [place,value_eq_iff]
    omega

/-- Half a unit is added and the sum truncated, which moves a negative number up. -/
theorem fix_round_eq (x : FixedPointT) (fits : x.f.toInt + 32768 < 2 ^ 31) :
    ∃ k, fix_round x = .ok k ∧ k.toInt = (x.f.toInt + 32768).tdiv (2 * 32768) := by
  have half : FIX_F / 2 = 32768 := rfl
  have f_fits := toInt_fits x.f
  obtain ⟨sum,sum_value⟩ := int_of_fits (r := x.f.toInt + 32768) ⟨by omega,fits⟩
  obtain ⟨quotient,value⟩ := int_of_fits (r := (x.f.toInt + 32768).tdiv (2 * 32768)) (by
    have towards := Int.tdiv_mul_self (x.f.toInt + 32768) (2 * 32768)
    have small := Int.tmod_lt_of_pos (x.f.toInt + 32768) (show 0 < 2 * 32768 by decide)
    have small' := Int.lt_tmod_of_pos (x.f.toInt + 32768) (show 0 < 2 * 32768 by decide)
    omega)
  refine ⟨_,?_,value⟩
  rw [fix_round,half,go sum,sum_value]
  exact quotient

theorem round_nearest_iff (x : FixedPointT) :
    (∃ k, fix_round x = .ok k ∧ Nearest x.value k.toInt) ↔
      x.value < 2 ^ 15 - 1 / 2 ∧ (-(1 / 2) ≤ x.value ∨ ∃ j : Int, x.value = j + 1 / 2) := by
  have top : (2 ^ 15 - 1 / 2 : ℚ) = ((2 ^ 31 - 32768 : Int) / 65536 : ℚ) := by norm_num
  have bottom : (-(1 / 2) : ℚ) = ((-32768 : Int) / 65536 : ℚ) := by norm_num
  rw [top,bottom,value_lt_iff,le_value_iff,halfway_iff]
  by_cases fits : x.f.toInt + 32768 < 2 ^ 31
  · obtain ⟨k,result,rounded⟩ := fix_round_eq x fits
    have nearest : Nearest x.value k.toInt ↔ -32768 ≤ x.f.toInt ∨ 65536 ∣ x.f.toInt + 32768 := by
      rw [rounded]
      exact nearest_tdiv_iff (K := ℚ) (h := 32768) (by decide) x.f.toInt
    rw [exists_ok_iff result,nearest]
    exact (and_iff_right (show x.f.toInt < 2 ^ 31 - 32768 by omega)).symm
  · have fault : fix_round x = .error .overflow := by
      rw [fix_round,int,if_neg (fun inside => fits inside.2)]
      rfl
    rw [fault]
    constructor
    · rintro ⟨k,⟨⟩,-⟩
    · rintro ⟨less,-⟩
      omega

/-- When the conversions do what they should, for each of them. -/
theorem conversions_iff (n m d : Int32) (x : FixedPointT) :
    (InRange n.toInt → ((do fix_trunc (← fix_int n)) = .ok n ↔ -2 ^ 15 ≤ n.toInt ∧ n.toInt < 2 ^ 15)) ∧
    (FracAdmitted m d → ((∃ y, fix_frac m d = .ok y ∧ |y.value - m.toInt / d.toInt| ≤ 1 / 2 ^ 16) ↔
      (-2 ^ 15 - 1 / 2 ^ 16 : ℚ) < m.toInt / d.toInt ∧ (m.toInt / d.toInt : ℚ) < 2 ^ 15)) ∧
    ((∃ k, fix_round x = .ok k ∧ Nearest x.value k.toInt) ↔
      x.value < 2 ^ 15 - 1 / 2 ∧ (-(1 / 2) ≤ x.value ∨ ∃ j : Int, x.value = j + 1 / 2)) :=
  ⟨trunc_int_iff,frac_near_iff,round_nearest_iff x⟩

/-- 7, -22 / 7 and -3.5. -/
theorem conversions_iff_small :
    (do fix_trunc (← fix_int 7)) = .ok 7 ∧ (∃ y, fix_frac (-22) 7 = .ok y ∧ |y.value - (-22 : Int) / (7 : Int)| ≤ 1 / 2 ^ 16) ∧
    ∃ k, fix_round ⟨-229376⟩ = .ok k ∧ Nearest (FixedPointT.mk (-229376)).value k.toInt := by
  obtain ⟨seven,quotient,half⟩ := conversions_iff 7 (-22) 7 ⟨-229376⟩
  have value : (FixedPointT.mk (-229376)).value = ((-229376 : Int) / 65536 : ℚ) := (value_eq_iff _ _).mpr rfl
  refine ⟨(seven (by decide)).mpr (by decide),(quotient (by decide)).mpr ?_,half.mpr ⟨?_,.inr ⟨-4,?_⟩⟩⟩
  · change (-2 ^ 15 - 1 / 2 ^ 16 : ℚ) < (-22 : Int) / (7 : Int) ∧ ((-22 : Int) / (7 : Int) : ℚ) < 2 ^ 15
    norm_num
  · rw [value]
    norm_num
  · rw [value]
    norm_num

/-- 40000 does not come back, 65535 / 1 becomes -1, and -1 is rounded to 0. -/
theorem conversions_wrong :
    (¬ ∀ n : Int32, InRange n.toInt → (do fix_trunc (← fix_int n)) = .ok n) ∧
    (¬ ∀ n d, FracAdmitted n d → ∃ y, fix_frac n d = .ok y ∧ |y.value - n.toInt / d.toInt| ≤ 1 / 2 ^ 16) ∧
    ¬ ∀ x, ∃ k, fix_round x = .ok k ∧ Nearest x.value k.toInt := by
  refine ⟨?_,?_,?_⟩
  · intro all
    have fits := (trunc_int_iff (n := 40000) (by decide)).mp (all 40000 (by decide))
    exact absurd fits.2 (by decide)
  · intro all
    have high := ((frac_near_iff (n := 65535) (d := 1) (by decide)).mp (all 65535 1 (by decide))).2
    change ((65535 : Int) / (1 : Int) : ℚ) < 2 ^ 15 at high
    norm_num at high
  · intro all
    have value : (FixedPointT.mk (-65536)).value = ((-65536 : Int) / 65536 : ℚ) := (value_eq_iff _ _).mpr rfl
    rcases ((round_nearest_iff ⟨-65536⟩).mp (all ⟨-65536⟩)).2 with low | halfway
    · rw [value] at low
      norm_num at low
    · exact absurd ((halfway_iff _).mp halfway) (by decide)

end

end OsProj.FixedPoint
