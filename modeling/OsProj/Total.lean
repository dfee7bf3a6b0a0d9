import Mathlib.Algebra.BigOperators.Group.Finset.Piecewise
import Mathlib.Algebra.Order.BigOperators.Group.Finset

/-! A weight summed over finitely many places, and what changing one place does to the sum. -/
namespace OsProj.Total

section
variable {ι : Type} [Fintype ι] {w : α → Nat} {f : ι → α}

def total (w : α → Nat) (f : ι → α) : Nat := ∑ i, w (f i)

theorem le_total (w : α → Nat) (f : ι → α) (i : ι) : w (f i) ≤ total w f :=
  Finset.single_le_sum (f := fun j => w (f j)) (fun _ _ => Nat.zero_le _) (Finset.mem_univ i)

theorem total_pos : 0 < total w f ↔ ∃ i, 0 < w (f i) := by
  rw [total,Finset.sum_pos_iff]
  simp

theorem total_zero (none : ∀ i, w (f i) = 0) : total w f = 0 := Finset.sum_eq_zero fun i _ => none i

variable [DecidableEq ι]

theorem total_update (w : α → Nat) (f : ι → α) (i : ι) (a : α) :
    total w (Function.update f i a) + w (f i) = total w f + w a := by
  have others : ∑ j ∈ Finset.univ.erase i, w (Function.update f i a j) = ∑ j ∈ Finset.univ.erase i, w (f j) := by
    apply Finset.sum_congr rfl
    intro j member
    rw [Function.update_of_ne (Finset.ne_of_mem_erase member)]
  have after := Finset.add_sum_erase Finset.univ (fun j => w (Function.update f i a j)) (Finset.mem_univ i)
  have before := Finset.add_sum_erase Finset.univ (fun j => w (f j)) (Finset.mem_univ i)
  simp only [Function.update_self] at after
  rw [total,total,← after,← before,others]
  omega

end

end OsProj.Total
