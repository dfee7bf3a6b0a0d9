import Mathlib.Algebra.Group.Nat.Defs
import Mathlib.Data.Nat.Basic
import Mathlib.Data.List.Basic

/-! Numbers as lists of bytes, least significant byte first. -/
namespace OsProj.ByteList

abbrev Bytes := List UInt8

/-- The lowest `k` bytes of a number. -/
def leBytes : Nat → Nat → Bytes
  | 0,_ => []
  | k + 1,n => UInt8.ofNat n :: leBytes k (n / 256)

def leValue : Bytes → Nat
  | [] => 0
  | b :: bs => b.toNat + 256 * leValue bs

@[simp] theorem leBytes_length (k n : Nat) : (leBytes k n).length = k := by
  induction k generalizing n with
  | zero => rfl
  | succ k ih => rw [leBytes,List.length_cons,ih]

theorem leValue_leBytes (k n : Nat) : leValue (leBytes k n) = n % 256 ^ k := by
  induction k generalizing n with
  | zero => rw [leBytes,leValue,Nat.pow_zero,Nat.mod_one]
  | succ k ih =>
    rw [leBytes,leValue,ih,Nat.pow_succ',Nat.mod_mul]
    simp

theorem leValue_leBytes_of_lt (fits : n < 256 ^ k) : leValue (leBytes k n) = n := by
  rw [leValue_leBytes,Nat.mod_eq_of_lt fits]

theorem leBytes_injective (left : n < 256 ^ k) (right : n' < 256 ^ k) (same : leBytes k n = leBytes k n') : n = n' := by
  rw [← leValue_leBytes_of_lt left,← leValue_leBytes_of_lt right,same]

end OsProj.ByteList
