import Mathlib.Tactic.Ring
import Mathlib.Tactic.Linarith
import Mathlib.Algebra.Order.Ring.Nat

/-! Division of numbers of two digits, for any base: by one digit, with the two quotients added,
and by two digits, with a quotient that is estimated from the first digits of the divisor. -/
namespace OsProj.WideDivision

/-- The quotient of the first digit and that of what it leaves. -/
theorem two_digits (b n₁ n₀ : Nat) (some_ : 0 < d) :
    (b * n₁ + n₀) / d = (b * (n₁ % d) + n₀) / d + b * (n₁ / d) := by
  have split : b * n₁ + n₀ = (b * (n₁ % d) + n₀) + d * (b * (n₁ / d)) := by
    calc b * n₁ + n₀ = b * (n₁ % d + d * (n₁ / d)) + n₀ := by rw [Nat.mod_add_div]
      _ = (b * (n₁ % d) + n₀) + d * (b * (n₁ / d)) := by ring
  rw [split,Nat.add_mul_div_left _ _ some_]

theorem low_digit_lt (some_ : 0 < d) (digit : n₀ < b) : (b * (n₁ % d) + n₀) / d < b := by
  rw [Nat.div_lt_iff_lt_mul some_]
  have less := Nat.mod_lt n₁ some_
  calc b * (n₁ % d) + n₀ < b * (n₁ % d) + b := Nat.add_lt_add_left digit _
    _ = b * (n₁ % d + 1) := by ring
    _ ≤ b * d := Nat.mul_le_mul_left b less

/-- A divisor that was rounded down gives a quotient that is not too low. -/
theorem estimate_low (n d k : Nat) (some_ : 0 < d / k * k) : n / d ≤ n / (d / k * k) :=
  Nat.div_le_div_left (Nat.div_mul_le_self d k) some_

/-- Where the rounded divisor keeps a normalised digit, the quotient is at most one too high. If it
were two too high the dividend would have more than two digits. -/
theorem estimate_high {n d k b : Nat} (several : 2 ≤ k) (normal : b ≤ 2 * (d / k)) (fits : n < b * b) :
    n / (d / k * k) ≤ n / d + 1 := by
  by_contra far
  have v_some : 0 < d / k := by
    rcases Nat.eq_zero_or_pos b with rfl | pos
    · simp at fits
    · omega
  have d_some : 0 < d := Nat.pos_of_ne_zero fun zero => by simp [zero] at v_some
  have rounded : d < d / k * k + k := by
    have mod := Nat.mod_lt d (show 0 < k by omega)
    have whole := Nat.div_add_mod' d k
    omega
  generalize v_def : d / k = v at *
  generalize q_def : n / d = q at *
  have low : (q + 2) * (v * k) ≤ n := by
    have two : q + 2 ≤ n / (v * k) := by omega
    exact (Nat.le_div_iff_mul_le (Nat.mul_pos v_some (by omega))).mp two
  have high : n < (q + 1) * d := by
    rw [← q_def]
    exact Nat.lt_mul_of_div_lt (Nat.lt_succ_self _) d_some |>.trans_le (by rw [Nat.mul_comm])
  obtain ⟨j,rfl⟩ : ∃ j, k = j + 1 := ⟨k - 1,by omega⟩
  have close : v * (j + 1) < (q + 1) * j := by
    have step : (q + 1) * d ≤ (q + 1) * (v * (j + 1) + j) := Nat.mul_le_mul_left _ (by omega)
    nlinarith only [low,high,step]
  have wide : b * b * j ≤ (v * (j + 1)) * (v * (j + 1)) := by
    have squares : b * b ≤ (2 * v) * (2 * v) := Nat.mul_le_mul normal normal
    have fours : 4 * j ≤ (j + 1) * (j + 1) := by nlinarith only [sq_nonneg (j : Int),several]
    calc b * b * j ≤ (2 * v) * (2 * v) * j := Nat.mul_le_mul_right j squares
      _ = v * v * (4 * j) := by ring
      _ ≤ v * v * ((j + 1) * (j + 1)) := Nat.mul_le_mul_left _ fours
      _ = (v * (j + 1)) * (v * (j + 1)) := by ring
  have product : (v * (j + 1)) * (v * (j + 1)) ≤ n * j := by
    calc (v * (j + 1)) * (v * (j + 1)) ≤ (v * (j + 1)) * ((q + 1) * j) := Nat.mul_le_mul_left _ close.le
      _ ≤ (v * (j + 1)) * ((q + 2) * j) := Nat.mul_le_mul_left _ (Nat.mul_le_mul_right j (by omega))
      _ = (q + 2) * (v * (j + 1)) * j := by ring
      _ ≤ n * j := Nat.mul_le_mul_right j low
  have j_some : 0 < j := by omega
  have bound := Nat.le_of_mul_le_mul_right (wide.trans product) j_some
  omega

/-- An estimate that is right or one too high is corrected by the remainder of its predecessor. -/
theorem corrected (some_ : 0 < d) (least : d ≤ n) (low : n / d ≤ q) (high : q ≤ n / d + 1) :
    (q - 1) * d ≤ n ∧ (if n - (q - 1) * d < d then q - 1 else q) = n / d := by
  have one : 1 ≤ n / d := (Nat.one_le_div_iff some_).mpr least
  have whole := Nat.div_add_mod' n d
  have left := Nat.mod_lt n some_
  obtain rfl | rfl : q = n / d ∨ q = n / d + 1 := by omega
  · have split : n / d * d = (n / d - 1) * d + d := by
      rw [← Nat.succ_mul]
      congr 1
      omega
    refine ⟨by omega,if_neg ?_⟩
    omega
  · rw [Nat.add_sub_cancel]
    exact ⟨by omega,if_pos (by omega)⟩

end OsProj.WideDivision
