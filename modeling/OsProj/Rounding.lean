import Mathlib.Algebra.Order.Field.Basic
import Mathlib.Data.Int.Cast.Lemmas
import Mathlib.Tactic.FieldSimp
import Mathlib.Tactic.Linarith

/-! Integers near a quotient: the truncated quotient, and the nearest integers. -/
namespace OsProj.Rounding

section
variable {K : Type} [Field K] [LinearOrder K] [IsStrictOrderedRing K] {b h k z : Int}

/-- No integer is closer. -/
def Nearest (v : K) (k : Int) : Prop := ∀ j : Int, |v - k| ≤ |v - j|

theorem nearest_iff {v : K} : Nearest v k ↔ |v - k| ≤ 1 / 2 := by
  constructor
  · intro nearest
    have below := nearest (k - 1)
    have above := nearest (k + 1)
    push_cast at below above
    rcases abs_cases (v - k) with ⟨size,sign⟩ | ⟨size,sign⟩
    · rcases abs_cases (v - (k + 1)) with ⟨other,_⟩ | ⟨other,_⟩
      · linarith
      · linarith
    · rcases abs_cases (v - (k - 1)) with ⟨other,_⟩ | ⟨other,_⟩
      · linarith
      · linarith
  · intro close j
    by_cases same : j = k
    · rw [same]
    · -- the two integers are at least one apart
      have apart : (1 : K) ≤ |(k : K) - j| := by
        exact_mod_cast Int.one_le_abs (sub_ne_zero.mpr (Ne.symm same))
      have path := abs_sub_le (k : K) v j
      rw [abs_sub_comm (k : K) v] at path
      linarith

/-! Truncation. -/

theorem div_sub_tdiv (some_ : b ≠ 0) (a : Int) : (a / b : K) - a.tdiv b = a.tmod b / b := by
  have b_some : (b : K) ≠ 0 := Int.cast_ne_zero.mpr some_
  have split : (a.tmod b + b * a.tdiv b : K) = a := by exact_mod_cast Int.tmod_add_mul_tdiv a b
  field_simp
  linarith

theorem abs_div_sub_tdiv_lt (some_ : b ≠ 0) (a : Int) : |(a / b : K) - a.tdiv b| < 1 := by
  have small : |a.tmod b| < |b| := by
    rw [Int.abs_eq_natAbs,Int.abs_eq_natAbs,Int.natAbs_tmod]
    exact_mod_cast Nat.mod_lt _ (Int.natAbs_pos.mpr some_)
  rw [div_sub_tdiv some_,abs_div,div_lt_one (abs_pos.mpr (Int.cast_ne_zero.mpr some_))]
  exact_mod_cast small

/-- Truncation goes towards zero. -/
theorem abs_tdiv_le (some_ : b ≠ 0) (a : Int) : |(a.tdiv b : K)| ≤ |(a / b : K)| := by
  have small : |a.tdiv b| * |b| ≤ |a| := by
    rw [Int.abs_eq_natAbs,Int.abs_eq_natAbs,Int.abs_eq_natAbs,Int.natAbs_tdiv]
    exact_mod_cast Nat.div_mul_le_self a.natAbs b.natAbs
  rw [abs_div,le_div_iff₀ (abs_pos.mpr (Int.cast_ne_zero.mpr some_))]
  exact_mod_cast small

theorem tdiv_lt_iff (some_ : b ≠ 0) (a : Int) (positive : 0 < z) : a.tdiv b < z ↔ (a / b : K) < z := by
  have near := abs_lt.mp (abs_div_sub_tdiv_lt (K := K) some_ a)
  have towards := abs_tdiv_le (K := K) some_ a
  constructor
  · intro less
    have less' : (a.tdiv b : K) + 1 ≤ z := by exact_mod_cast less
    linarith
  · intro less
    by_contra more
    have more' : (z : K) ≤ a.tdiv b := by exact_mod_cast not_lt.mp more
    have positive' : (1 : K) ≤ z := by exact_mod_cast positive
    rw [abs_of_nonneg (by linarith),abs_of_nonneg (by linarith)] at towards
    linarith

theorem le_tdiv_iff (some_ : b ≠ 0) (a : Int) (negative : z ≤ 0) : z ≤ a.tdiv b ↔ (z : K) - 1 < a / b := by
  have near := abs_lt.mp (abs_div_sub_tdiv_lt (K := K) some_ a)
  have towards := abs_tdiv_le (K := K) some_ a
  constructor
  · intro more
    have more' : (z : K) ≤ a.tdiv b := by exact_mod_cast more
    linarith
  · intro more
    by_contra less
    have less' : (a.tdiv b : K) ≤ z - 1 := by exact_mod_cast Int.le_sub_one_of_lt (not_le.mp less)
    have negative' : (z : K) ≤ 0 := by exact_mod_cast negative
    rw [abs_of_nonpos (by linarith),abs_of_nonpos (by linarith)] at towards
    linarith

/-- Half a unit is added and the sum truncated. -/
theorem nearest_tdiv_iff (positive : 0 < h) (f : Int) :
    Nearest (f / (2 * h : Int) : K) ((f + h).tdiv (2 * h)) ↔ -h ≤ f ∨ 2 * h ∣ f + h := by
  have positive' : (0 : K) < h := by exact_mod_cast positive
  have whole := Int.tmod_add_mul_tdiv (f + h) (2 * h)
  -- what the division leaves, in units of `1 / (2 * h)`
  have left : (f / (2 * h : Int) : K) - (f + h).tdiv (2 * h) = ((f + h).tmod (2 * h) - h : Int) / (2 * h) := by
    have whole' : ((f + h).tmod (2 * h) + 2 * h * (f + h).tdiv (2 * h) : K) = f + h := by exact_mod_cast whole
    push_cast
    field_simp
    linarith
  have close : Nearest (f / (2 * h : Int) : K) ((f + h).tdiv (2 * h)) ↔ |(f + h).tmod (2 * h) - h| ≤ h := by
    rw [nearest_iff,left,abs_div,abs_of_pos (show (0 : K) < 2 * h by linarith),div_le_div_iff₀ (by linarith) (by norm_num)]
    constructor
    · intro small
      have small' : (|(f + h).tmod (2 * h) - h| : K) ≤ h := by
        push_cast at small
        linarith
      exact_mod_cast small'
    · intro small
      have small' : (|(f + h).tmod (2 * h) - h| : K) ≤ h := by exact_mod_cast small
      push_cast
      linarith
  have less := Int.tmod_lt_of_pos (f + h) (show 0 < 2 * h by omega)
  rw [close,abs_le,Int.dvd_iff_tmod_eq_zero]
  constructor
  · rintro ⟨low,-⟩
    by_contra both
    obtain ⟨negative,some_⟩ := not_or.mp both
    -- the remainder of a negative number is not positive
    have sign := Int.tmod_nonneg (2 * h) (show 0 ≤ -(f + h) by omega)
    rw [Int.neg_tmod] at sign
    omega
  · rintro (nonneg | divides)
    · have sign := Int.tmod_nonneg (2 * h) (show 0 ≤ f + h by omega)
      omega
    · rw [divides]
      omega

end

end OsProj.Rounding
