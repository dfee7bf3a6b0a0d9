import OsProj.ByteMemory

/-! Blocks of memory in lib/string.c. A pointer is an address, and the null pointer is 0. -/
namespace OsProj.LibString

open OsProj.ByteMemory

inductive Fault
  /-- An `ASSERT` fails. -/
  | assertion
  deriving DecidableEq, Repr

/-- `while (size-- > 0) *dst++ = *src++;` -/
def copyForward (memory : Memory) (dst src : Nat) : Nat → Memory × Nat
  | 0 => (memory,dst)
  | size + 1 => copyForward (fill memory dst 1 (memory src)) (dst + 1) (src + 1) size

/-- `while (size-- > 0) *--dst = *--src;` -/
def copyBackward (memory : Memory) (dst src : Nat) : Nat → Memory × Nat
  | 0 => (memory,dst)
  | size + 1 => copyBackward (fill memory (dst - 1) 1 (memory (src - 1))) (dst - 1) (src - 1) size

/-- The memory afterwards, and the pointer `dst` as the loop has left it. -/
def memmove (memory : Memory) (dst src size : Nat) : Except Fault (Memory × Nat) :=
  if ¬ (dst ≠ 0 ∨ size = 0) then .error .assertion
  else if ¬ (src ≠ 0 ∨ size = 0) then .error .assertion
  else if dst < src then .ok (copyForward memory dst src size)
  else .ok (copyBackward memory (dst + size) (src + size) size)

/-- The destination holds what the source held, and nothing else has changed. -/
structure Moved (memory : Memory) (dst src size : Nat) (after : Memory) : Prop where
  moved : ∀ i < size, after (dst + i) = memory (src + i)
  kept : ∀ a, a < dst ∨ dst + size ≤ a → after a = memory a

def Admitted (dst src size : Nat) : Prop := size = 0 ∨ dst ≠ 0 ∧ src ≠ 0

section
variable {memory : Memory} {dst src size : Nat}

theorem moved_copy (memory : Memory) (dst src size : Nat) : Moved memory dst src size (copy memory dst src size) where
  moved i inside := by
    rw [copy,if_pos (by omega),Nat.add_sub_cancel_left]
  kept a outside := if_neg (by omega)

/-- No byte is read after it was overwritten. -/
theorem copyForward_eq (memory : Memory) (lower : dst ≤ src) (size : Nat) :
    copyForward memory dst src size = (copy memory dst src size,dst + size) := by
  induction size generalizing memory dst src with
  | zero =>
    have same : copy memory dst src 0 = memory := funext fun c => if_neg (by omega)
    rw [copyForward,same,Nat.add_zero]
  | succ size ih =>
    rw [copyForward,fill_byte,ih (copy memory dst src 1) (Nat.add_le_add_right lower 1),copy_up memory lower,
      Nat.add_comm 1 size,Nat.add_assoc,Nat.add_comm 1 size]

theorem copyBackward_eq (memory : Memory) (higher : src ≤ dst) (size : Nat) :
    copyBackward memory (dst + size) (src + size) size = (copy memory dst src size,dst) := by
  induction size generalizing memory with
  | zero =>
    have same : copy memory dst src 0 = memory := funext fun c => if_neg (by omega)
    rw [Nat.add_zero,copyBackward,same]
  | succ size ih =>
    have dst' : dst + (size + 1) - 1 = dst + size := by omega
    have src' : src + (size + 1) - 1 = src + size := by omega
    rw [copyBackward,dst',src',fill_byte,ih (copy memory (dst + size) (src + size) 1),copy_down memory higher]

/-- The pointer that is returned has moved with the forward loop. -/
theorem memmove_eq (admitted : Admitted dst src size) :
    memmove memory dst src size = .ok (copy memory dst src size,if dst < src then dst + size else dst) := by
  unfold Admitted at admitted
  rw [memmove,if_neg (by omega),if_neg (by omega)]
  split
  · rename_i lower
    rw [copyForward_eq memory (Nat.le_of_lt lower)]
  · rename_i higher
    rw [copyBackward_eq memory (Nat.le_of_not_lt higher)]

/-- The bytes are always moved; the destination is returned unless it lies below the source. -/
theorem memmove_returns_iff (memory : Memory) (dst src size : Nat) (admitted : Admitted dst src size) :
    (∃ after returned, memmove memory dst src size = .ok (after,returned) ∧ Moved memory dst src size after) ∧
    ((∃ after, memmove memory dst src size = .ok (after,dst) ∧ Moved memory dst src size after) ↔
      size = 0 ∨ src ≤ dst) := by
  have moved := moved_copy memory dst src size
  rw [memmove_eq admitted]
  refine ⟨⟨_,_,rfl,moved⟩,?_,?_⟩
  · rintro ⟨after,same,-⟩
    have returned := (Prod.mk.inj (Except.ok.inj same)).2
    split at returned
    · omega
    · omega
  · intro stays
    refine ⟨copy memory dst src size,?_,moved⟩
    split
    · obtain rfl : size = 0 := by omega
      rfl
    · rfl

/-- Overlapping ranges, moved up. -/
theorem memmove_returns_iff_up :
    ∃ after, memmove UInt8.ofNat 2 1 3 = .ok (after,2) ∧ Moved UInt8.ofNat 2 1 3 after :=
  (memmove_returns_iff UInt8.ofNat 2 1 3 (.inr (by decide))).2.mpr (.inr (by decide))

/-- One byte moved down by one place. -/
theorem memmove_returns_end : ¬ ∀ memory dst src size, Admitted dst src size →
    ∃ after, memmove memory dst src size = .ok (after,dst) ∧ Moved memory dst src size after := by
  intro all
  obtain ⟨after,same,-⟩ := all (fun _ => 0) 1 2 1 (.inr (by decide))
  rw [memmove_eq (.inr (by decide))] at same
  exact absurd (Prod.mk.inj (Except.ok.inj same)).2 (by decide)

end

end OsProj.LibString
