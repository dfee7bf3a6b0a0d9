import Mathlib.Algebra.Group.Nat.Defs
import Mathlib.Data.Nat.Basic

/-! Byte-addressed memory with little-endian numbers. What an update does to a later read
is decided by the two byte ranges: equal, or apart. -/
namespace OsProj.ByteMemory

abbrev Memory := Nat → UInt8

/-- The byte ranges `[a,a+n)` and `[b,b+m)` do not meet. -/
def Apart (a n b m : Nat) : Prop := a + n ≤ b ∨ b + m ≤ a

instance (a n b m : Nat) : Decidable (Apart a n b m) := inferInstanceAs (Decidable (_ ∨ _))

theorem Apart.symm (apart : Apart a n b m) : Apart b m a n := Or.symm apart

/-- Smaller ranges inside are apart too. -/
theorem Apart.mono (apart : Apart a n b m) (left : a ≤ a' ∧ a' + n' ≤ a + n)
    (right : b ≤ b' ∧ b' + m' ≤ b + m) : Apart a' n' b' m' := by
  unfold Apart at *
  omega

def Agree (m m' : Memory) (a n : Nat) : Prop := ∀ b, a ≤ b → b < a + n → m b = m' b

theorem Agree.mono (agree : Agree m m' a n) (inside : a ≤ a' ∧ a' + n' ≤ a + n) :
    Agree m m' a' n' := by
  intro b low high
  exact agree b (by omega) (by omega)

/-- The number in `n` bytes at `a`, least significant byte first. -/
def load (m : Memory) (a : Nat) : Nat → Nat
  | 0 => 0
  | n + 1 => (m a).toNat + 256 * load m (a + 1) n

def store (m : Memory) (a n v : Nat) : Memory :=
  fun b => if a ≤ b ∧ b < a + n then UInt8.ofNat (v / 256 ^ (b - a)) else m b

def fill (m : Memory) (a n : Nat) (v : UInt8) : Memory :=
  fun b => if a ≤ b ∧ b < a + n then v else m b

def copy (m : Memory) (a b n : Nat) : Memory :=
  fun c => if a ≤ c ∧ c < a + n then m (b + (c - a)) else m c

/-- The bytes `[b,b+n)` of another memory, put at `a`. -/
def paste (m : Memory) (a : Nat) (src : Memory) (b n : Nat) : Memory :=
  fun c => if a ≤ c ∧ c < a + n then src (b + (c - a)) else m c

theorem load_congr (agree : Agree m m' a n) : load m a n = load m' a n := by
  induction n generalizing a with
  | zero => rfl
  | succ n ih =>
    have first : m a = m' a := agree a (by omega) (by omega)
    have rest := ih (a := a + 1) (agree.mono (by omega))
    rw [load,load,first,rest]

/-- The same bytes at another place. -/
theorem load_shift (same : ∀ i < n, m (a + i) = m' (b + i)) : load m a n = load m' b n := by
  induction n generalizing a b with
  | zero => rfl
  | succ n ih =>
    have first : m a = m' b := same 0 (by omega)
    have rest : load m (a + 1) n = load m' (b + 1) n := by
      apply ih
      intro i inside
      have next := same (i + 1) (by omega)
      rwa [Nat.add_comm i,← Nat.add_assoc,← Nat.add_assoc] at next
    rw [load,load,first,rest]

theorem load_lt (m : Memory) (a n : Nat) : load m a n < 256 ^ n := by
  induction n generalizing a with
  | zero => simp [load]
  | succ n ih =>
    have first := (m a).toNat_lt
    have rest := ih (a + 1)
    rw [load,Nat.pow_succ']
    omega

theorem store_agree (apart : Apart a n b k) (m : Memory) (v : Nat) : Agree (store m a n v) m b k := by
  intro c low high
  unfold Apart at apart
  exact if_neg (by omega)

theorem fill_agree (apart : Apart a n b k) (m : Memory) (v : UInt8) : Agree (fill m a n v) m b k := by
  intro c low high
  unfold Apart at apart
  exact if_neg (by omega)

theorem fill_fill (m : Memory) (a n k : Nat) (v : UInt8) : fill (fill m a n v) (a + n) k v = fill m a (n + k) v := by
  funext c
  simp only [fill]
  by_cases first : a ≤ c ∧ c < a + n
  · rw [if_pos first,ite_self,if_pos (by omega)]
  · rw [if_neg first]
    by_cases second : a + n ≤ c ∧ c < a + n + k
    · rw [if_pos second,if_pos (by omega)]
    · rw [if_neg second,if_neg (by omega)]

theorem copy_agree (apart : Apart a n b k) (m : Memory) (c : Nat) : Agree (copy m a c n) m b k := by
  intro d low high
  unfold Apart at apart
  exact if_neg (by omega)

/-- A copy to a lower place may be made from the front. -/
theorem copy_up (m : Memory) (lower : a ≤ b) (k n : Nat) :
    copy (copy m a b k) (a + k) (b + k) n = copy m a b (k + n) := by
  funext c
  simp only [copy]
  by_cases second : a + k ≤ c ∧ c < a + k + n
  · -- the byte that is read lies behind everything written
    rw [if_pos second,if_neg (by omega),if_pos (by omega)]
    congr 1
    omega
  · rw [if_neg second]
    by_cases first : a ≤ c ∧ c < a + k
    · rw [if_pos first,if_pos (by omega)]
    · rw [if_neg first,if_neg (by omega)]

/-- A copy to a higher place may be made from the back. -/
theorem copy_down (m : Memory) (higher : b ≤ a) (n k : Nat) :
    copy (copy m (a + n) (b + n) k) a b n = copy m a b (n + k) := by
  funext c
  simp only [copy]
  by_cases first : a ≤ c ∧ c < a + n
  · rw [if_pos first,if_neg (by omega),if_pos (by omega)]
  · rw [if_neg first]
    by_cases second : a + n ≤ c ∧ c < a + n + k
    · rw [if_pos second,if_pos (by omega)]
      congr 1
      omega
    · rw [if_neg second,if_neg (by omega)]

theorem fill_byte (m : Memory) (a b : Nat) : fill m a 1 (m b) = copy m a b 1 := by
  funext c
  simp only [fill,copy]
  by_cases here : a ≤ c ∧ c < a + 1
  · rw [if_pos here,if_pos here,show c - a = 0 by omega,Nat.add_zero]
  · rw [if_neg here,if_neg here]

theorem paste_inside (m : Memory) (a : Nat) (src : Memory) (b : Nat) (inside : i < n) :
    paste m a src b n (a + i) = src (b + i) := by
  rw [paste,if_pos (by omega),Nat.add_sub_cancel_left]

theorem paste_outside (m : Memory) (src : Memory) (b : Nat) (outside : c < a ∨ a + n ≤ c) : paste m a src b n c = m c :=
  if_neg (by omega)

/-- Two pieces that follow each other. -/
theorem paste_paste (m : Memory) (a : Nat) (src : Memory) (b n k : Nat) :
    paste (paste m a src b n) (a + n) src (b + n) k = paste m a src b (n + k) := by
  funext c
  simp only [paste]
  by_cases second : a + n ≤ c ∧ c < a + n + k
  · rw [if_pos second,if_pos (by omega)]
    congr 1
    omega
  · rw [if_neg second]
    by_cases first : a ≤ c ∧ c < a + n
    · rw [if_pos first,if_pos (by omega)]
    · rw [if_neg first,if_neg (by omega)]

/-- A window of `n` bytes read, changed in `k` bytes from `i` on and put back. -/
theorem paste_window (m : Memory) (a : Nat) (src : Memory) (b : Nat) (inside : i + k ≤ n) (buffer : Memory) :
    paste m a (paste (paste buffer 0 m a n) i src b k) 0 n = paste m (a + i) src b k := by
  funext c
  simp only [paste]
  by_cases changed : a + i ≤ c ∧ c < a + i + k
  · rw [if_pos changed,if_pos (by omega),if_pos (by omega)]
    congr 1
    omega
  · rw [if_neg changed]
    by_cases window : a ≤ c ∧ c < a + n
    · rw [if_pos window,if_neg (by omega),if_pos (by omega)]
      congr 1
      omega
    · rw [if_neg window]

/-- Bytes that go through a buffer. -/
theorem paste_through (m : Memory) (a : Nat) (src : Memory) (b : Nat) (inside : i + k ≤ n) (buffer : Memory) :
    paste m a (paste buffer 0 src b n) i k = paste m a src (b + i) k := by
  funext c
  simp only [paste]
  by_cases changed : a ≤ c ∧ c < a + k
  · rw [if_pos changed,if_pos changed,if_pos (by omega)]
    congr 1
    omega
  · rw [if_neg changed,if_neg changed]

theorem paste_over (m : Memory) (a : Nat) (src src' : Memory) (b b' n : Nat) :
    paste (paste m a src b n) a src' b' n = paste m a src' b' n := by
  funext c
  simp only [paste]
  split <;> rfl

/-- Bytes that are there already. -/
theorem paste_same (m : Memory) (a : Nat) (src : Memory) (b n : Nat)
    (same : ∀ i < n, m (a + i) = src (b + i)) : paste m a src b n = m := by
  funext c
  simp only [paste]
  split
  · rename_i inside
    rw [← same (c - a) (by omega),Nat.add_sub_cancel' inside.1]
  · rfl

@[simp] theorem paste_zero (m : Memory) (a : Nat) (src : Memory) (b : Nat) : paste m a src b 0 = m := by
  funext c
  exact if_neg (by omega)

theorem load_store_apart (apart : Apart a n b k) (m : Memory) (v : Nat) :
    load (store m a n v) b k = load m b k := load_congr (store_agree apart m v)

theorem store_comm (apart : Apart a n b k) (m : Memory) (v w : Nat) :
    store (store m a n v) b k w = store (store m b k w) a n v := by
  funext c
  unfold Apart at apart
  simp only [store]
  split
  · rw [if_neg (by omega)]
  · rfl

/-- A stored number is read back modulo the width of the field. -/
theorem load_store_same (m : Memory) (a n v : Nat) : load (store m a n v) a n = v % 256 ^ n := by
  induction n generalizing a v with
  | zero => simp [load,Nat.mod_one]
  | succ n ih =>
    have first : (store m a (n + 1) v a).toNat = v % 256 := by
      simp [store]
    have shift : Agree (store m a (n + 1) v) (store m (a + 1) n (v / 256)) (a + 1) n := by
      intro b low high
      have exponent : b - a = (b - (a + 1)) + 1 := by omega
      have inside : a ≤ b ∧ b < a + (n + 1) := by omega
      have inside' : a + 1 ≤ b ∧ b < a + 1 + n := by omega
      simp only [store,inside,inside',and_self,↓reduceIte,exponent,Nat.pow_succ',Nat.div_div_eq_div_mul]
    rw [load,first,load_congr shift,ih,Nat.pow_succ',Nat.mod_mul]

end OsProj.ByteMemory
