import Mathlib.Algebra.Order.Group.Unbundled.Int
import OsProj.WideDivision

/-! The 64-bit division of lib/arithmetic.c, out of 32-bit divisions. A function gives nothing where
a division instruction traps; signed values are in two's complement. -/
namespace OsProj.Arithmetic

/-- The DIVL instruction, which traps where the quotient does not fit in 32 bits. -/
def divl (n : UInt64) (d : UInt32) : Option UInt32 :=
  let n1 := (n >>> 32).toUInt32
  let n0 := n.toUInt32
  let dividend := n1.toNat * 2 ^ 32 + n0.toNat
  if d ≠ 0 ∧ dividend / d.toNat < 2 ^ 32 then some (UInt32.ofNat (dividend / d.toNat)) else none

/-- `if (x <= limit) { n += bits; x <<= bits; }` -/
def nlzStep (limit bits : UInt32) (n : UInt32) (x : UInt32) : UInt32 × UInt32 :=
  if x ≤ limit then (n + bits,x <<< bits) else (n,x)

def nlz (x : UInt32) : UInt32 :=
  let (n,x) := nlzStep 0x0000FFFF 16 0 x
  let (n,x) := nlzStep 0x00FFFFFF 8 n x
  let (n,x) := nlzStep 0x0FFFFFFF 4 n x
  let (n,x) := nlzStep 0x3FFFFFFF 2 n x
  if x ≤ 0x7FFFFFFF then n + 1 else n

def udiv64 (n d : UInt64) : Option UInt64 :=
  if d >>> 32 = 0 then
    let b := (1 : UInt64) <<< 32
    let n1 := (n >>> 32).toUInt32
    let n0 := n.toUInt32
    let d0 := d.toUInt32
    if d0 = 0 then none
    else do
      let low ← divl (b * (n1 % d0).toUInt64 + n0.toUInt64) d0
      return low.toUInt64 + b * (n1 / d0).toUInt64
  else if n < d then some 0
  else do
    let d1 := (d >>> 32).toUInt32
    let s := nlz d1
    let estimate ← divl (n >>> 1) ((d <<< s.toUInt64) >>> 32).toUInt32
    let q := (estimate >>> (31 - s)).toUInt64
    return if n - (q - 1) * d < d then q - 1 else q

/-- The remainder, which is returned as a `uint32_t`. -/
def umod64 (n d : UInt64) : Option UInt32 := do
  return (n - d * (← udiv64 n d)).toUInt32

def sdiv64 (n d : Int64) : Option Int64 := do
  let nAbs := if n ≥ 0 then n.toUInt64 else -n.toUInt64
  let dAbs := if d ≥ 0 then d.toUInt64 else -d.toUInt64
  let qAbs ← udiv64 nAbs dAbs
  return if decide (n < 0) == decide (d < 0) then qAbs.toInt64 else -qAbs.toInt64

/-- The remainder, which is returned as an `int32_t`. -/
def smod64 (n d : Int64) : Option Int32 := do
  return (n - d * (← sdiv64 n d)).toInt32

def divdi3 (n d : Int64) : Option Int64 := sdiv64 n d

def moddi3 (n d : Int64) : Option Int64 := do return (← smod64 n d).toInt64

def udivdi3 (n d : UInt64) : Option UInt64 := udiv64 n d

def umoddi3 (n d : UInt64) : Option UInt64 := do return (← umod64 n d).toUInt64

/-! The parts of a division. -/

theorem divl_run (some_ : d ≠ 0) (fits : n.toNat / d.toNat < 2 ^ 32) :
    ∃ q, divl n d = some q ∧ q.toNat = n.toNat / d.toNat := by
  have joined : (n >>> 32).toUInt32.toNat * 2 ^ 32 + n.toUInt32.toNat = n.toNat := by
    have small := n.toNat_lt
    simp only [UInt64.toNat_toUInt32,UInt64.toNat_shiftRight,Nat.shiftRight_eq_div_pow]
    change n.toNat / 2 ^ 32 % 2 ^ 32 * 2 ^ 32 + n.toNat % 2 ^ 32 = n.toNat
    omega
  refine ⟨_,if_pos ⟨some_,by rwa [joined]⟩,?_⟩
  rw [joined]
  exact UInt32.toNat_ofNat_of_lt' fits

/-- What is left of a word after `n` of its leading zeros were shifted away, of which there are fewer
than `left` more. -/
structure Counted (x n y : UInt32) (left : Nat) : Prop where
  shifted : y.toNat = x.toNat * 2 ^ n.toNat
  low : 2 ^ (32 - left) ≤ y.toNat
  few : n.toNat + left ≤ 32

theorem Counted.start (some_ : x ≠ 0) : Counted x 0 x 32 where
  shifted := (Nat.mul_one _).symm
  low := Nat.pos_of_ne_zero fun zero => some_ (UInt32.toNat_inj.mp zero)
  few := Nat.le_refl 32

theorem Counted.step (counted : Counted x n y (2 * k)) (limit bits : UInt32) (limit_ : limit.toNat = 2 ^ (32 - k) - 1)
    (bits_ : bits.toNat = k) (some_ : 0 < k) : Counted x (nlzStep limit bits n y).1 (nlzStep limit bits n y).2 k := by
  have few := counted.few
  unfold nlzStep
  split
  · rename_i below
    rw [UInt32.le_iff_toNat_le,limit_] at below
    have whole : (2 : Nat) ^ (32 - k) * 2 ^ k = 2 ^ 32 := by rw [← Nat.pow_add]; congr 1; omega
    have half : (2 : Nat) ^ (32 - 2 * k) * 2 ^ k = 2 ^ (32 - k) := by rw [← Nat.pow_add]; congr 1; omega
    have positive := Nat.two_pow_pos (32 - k)
    have value : (y <<< bits).toNat = y.toNat * 2 ^ k := by
      rw [UInt32.toNat_shiftLeft,bits_,Nat.mod_eq_of_lt (show k < 32 by omega),Nat.shiftLeft_eq]
      apply Nat.mod_eq_of_lt
      calc y.toNat * 2 ^ k < 2 ^ (32 - k) * 2 ^ k := Nat.mul_lt_mul_of_pos_right (by omega) (Nat.two_pow_pos k)
        _ = 2 ^ 32 := whole
    have added : (n + bits).toNat = n.toNat + k := by
      rw [UInt32.toNat_add,bits_]
      apply Nat.mod_eq_of_lt
      omega
    constructor
    · rw [value,added,counted.shifted,Nat.mul_assoc,Nat.pow_add]
    · rw [value,← half]
      exact Nat.mul_le_mul_right _ counted.low
    · rw [added]
      omega
  · rename_i above
    rw [UInt32.le_iff_toNat_le,limit_] at above
    exact ⟨counted.shifted,by simp only; omega,by simp only; omega⟩

/-- The shift by the leading zeros brings the highest bit to the top. -/
theorem nlz_spec (some_ : x ≠ 0) :
    (nlz x).toNat ≤ 31 ∧ 2 ^ 31 ≤ x.toNat * 2 ^ (nlz x).toNat ∧ x.toNat * 2 ^ (nlz x).toNat < 2 ^ 32 := by
  have step₁ := Counted.step (k := 16) (.start some_) 0x0000FFFF 16 rfl rfl (by decide)
  have step₂ := Counted.step (k := 8) step₁ 0x00FFFFFF 8 rfl rfl (by decide)
  have step₃ := Counted.step (k := 4) step₂ 0x0FFFFFFF 4 rfl rfl (by decide)
  have step₄ := Counted.step (k := 2) step₃ 0x3FFFFFFF 2 rfl rfl (by decide)
  unfold nlz
  simp only
  generalize nlzStep 0x3FFFFFFF 2 _ _ = p at *
  obtain ⟨n,y⟩ := p
  simp only at step₄ ⊢
  have few := step₄.few
  have low := step₄.low
  have small := y.toNat_lt
  split
  · rename_i below
    rw [UInt32.le_iff_toNat_le] at below
    change y.toNat ≤ 2147483647 at below
    have added : (n + 1).toNat = n.toNat + 1 := by
      rw [UInt32.toNat_add]
      apply Nat.mod_eq_of_lt
      change n.toNat + 1 < _
      omega
    have doubled : x.toNat * 2 ^ (n.toNat + 1) = y.toNat * 2 := by rw [step₄.shifted,Nat.pow_succ,Nat.mul_assoc]
    rw [added,doubled]
    omega
  · rename_i above
    rw [UInt32.le_iff_toNat_le] at above
    change ¬ y.toNat ≤ 2147483647 at above
    rw [← step₄.shifted]
    omega

/-- A divisor of one digit. -/
theorem udiv64_narrow (some_ : d ≠ 0) (narrow : d.toNat < 2 ^ 32) :
    ∃ q, udiv64 n d = some q ∧ q.toNat = n.toNat / d.toNat := by
  have small := n.toNat_lt
  have d_some : 0 < d.toNat := Nat.pos_of_ne_zero fun zero => some_ (UInt64.toNat_inj.mp zero)
  have top : d >>> 32 = 0 := by
    apply UInt64.toNat_inj.mp
    rw [UInt64.toNat_shiftRight,Nat.shiftRight_eq_div_pow]
    exact Nat.div_eq_of_lt narrow
  have d₀ : d.toUInt32.toNat = d.toNat := by
    rw [UInt64.toNat_toUInt32]
    exact Nat.mod_eq_of_lt narrow
  have d₀_some : d.toUInt32 ≠ 0 := fun zero => by
    rw [zero] at d₀
    exact absurd d₀.symm (Nat.ne_of_gt d_some)
  have n₁ : (n >>> 32).toUInt32.toNat = n.toNat / 2 ^ 32 := by
    rw [UInt64.toNat_toUInt32,UInt64.toNat_shiftRight,Nat.shiftRight_eq_div_pow]
    change n.toNat / 2 ^ 32 % 2 ^ 32 = _
    omega
  have n₀ : n.toUInt32.toNat = n.toNat % 2 ^ 32 := UInt64.toNat_toUInt32 n
  have whole : 2 ^ 32 * (n.toNat / 2 ^ 32) + n.toNat % 2 ^ 32 = n.toNat := Nat.div_add_mod ..
  have dividend : ((1 : UInt64) <<< 32 * ((n >>> 32).toUInt32 % d.toUInt32).toUInt64 + n.toUInt32.toUInt64).toNat =
      2 ^ 32 * (n.toNat / 2 ^ 32 % d.toNat) + n.toNat % 2 ^ 32 := by
    have less := Nat.mod_lt (n.toNat / 2 ^ 32) d_some
    rw [UInt64.toNat_add,UInt64.toNat_mul,UInt32.toNat_toUInt64,UInt32.toNat_toUInt64,UInt32.toNat_mod,n₁,n₀,d₀]
    change (2 ^ 32 * (n.toNat / 2 ^ 32 % d.toNat) % 2 ^ 64 + n.toNat % 2 ^ 32) % 2 ^ 64 = _
    omega
  have digit : n.toNat % 2 ^ 32 < 2 ^ 32 := Nat.mod_lt _ (by decide)
  obtain ⟨low,divided,value⟩ := divl_run (n := (1 : UInt64) <<< 32 * ((n >>> 32).toUInt32 % d.toUInt32).toUInt64 + n.toUInt32.toUInt64) d₀_some (by
    rw [dividend,d₀]
    exact WideDivision.low_digit_lt d_some digit)
  refine ⟨low.toUInt64 + (1 : UInt64) <<< 32 * ((n >>> 32).toUInt32 / d.toUInt32).toUInt64,?_,?_⟩
  · unfold udiv64
    rw [if_pos top,if_neg d₀_some,divided]
    rfl
  · have split := WideDivision.two_digits (2 ^ 32) (n.toNat / 2 ^ 32) (n.toNat % 2 ^ 32) d_some
    have quotient := Nat.div_le_self n.toNat d.toNat
    rw [whole] at split
    rw [dividend,d₀] at value
    rw [UInt64.toNat_add,UInt64.toNat_mul,UInt32.toNat_toUInt64,UInt32.toNat_toUInt64,UInt32.toNat_div,n₁,d₀,value]
    change (_ + 2 ^ 32 * (n.toNat / 2 ^ 32 / d.toNat) % 2 ^ 64) % 2 ^ 64 = _
    omega

/-- The rounded divisor of the wide division: its highest bit is set. -/
theorem normalised {d : UInt64} (wide : 2 ^ 32 ≤ d.toNat) : ∃ s ≤ 31, (nlz (d >>> 32).toUInt32).toNat = s ∧
    ((d <<< (nlz (d >>> 32).toUInt32).toUInt64) >>> 32).toUInt32.toNat = d.toNat / 2 ^ (32 - s) ∧
    2 ^ 31 ≤ d.toNat / 2 ^ (32 - s) := by
  have d_small := d.toNat_lt
  have d₁ : (d >>> 32).toUInt32.toNat = d.toNat / 2 ^ 32 := by
    rw [UInt64.toNat_toUInt32,UInt64.toNat_shiftRight,Nat.shiftRight_eq_div_pow]
    change d.toNat / 2 ^ 32 % 2 ^ 32 = _
    omega
  have d₁_some : (d >>> 32).toUInt32 ≠ 0 := fun zero => by
    rw [zero] at d₁
    change 0 = _ at d₁
    omega
  obtain ⟨few,low,high⟩ := nlz_spec d₁_some
  rw [d₁] at low high
  refine ⟨_,few,rfl,?_⟩
  generalize nlz (d >>> 32).toUInt32 = c at *
  generalize s_def : c.toNat = s at *
  have power : (2 : Nat) ^ 32 = 2 ^ (32 - s) * 2 ^ s := by rw [← Nat.pow_add]; congr 1; omega
  have s_some := Nat.two_pow_pos s
  -- the shift loses no bit of the divisor
  have kept : d.toNat * 2 ^ s < 2 ^ 64 := by
    have next : d.toNat / 2 ^ 32 < 2 ^ (32 - s) := by
      exact Nat.lt_of_mul_lt_mul_right (high.trans_eq power)
    have less : d.toNat < 2 ^ (32 - s) * 2 ^ 32 := Nat.lt_mul_of_div_lt next (by decide)
    calc d.toNat * 2 ^ s < 2 ^ (32 - s) * 2 ^ 32 * 2 ^ s := Nat.mul_lt_mul_of_pos_right less s_some
      _ = 2 ^ 32 * (2 ^ (32 - s) * 2 ^ s) := by ring
      _ = 2 ^ 64 := by rw [← power,← Nat.pow_add]
  have value : d.toNat * 2 ^ s / 2 ^ 32 = d.toNat / 2 ^ (32 - s) := by
    rw [power]
    exact Nat.mul_div_mul_right _ _ s_some
  have least : 2 ^ 31 ≤ d.toNat * 2 ^ s / 2 ^ 32 := by
    rw [Nat.le_div_iff_mul_le (by decide)]
    calc 2 ^ 31 * 2 ^ 32 ≤ d.toNat / 2 ^ 32 * 2 ^ s * 2 ^ 32 := Nat.mul_le_mul_right _ low
      _ = d.toNat / 2 ^ 32 * 2 ^ 32 * 2 ^ s := by ring
      _ ≤ d.toNat * 2 ^ s := Nat.mul_le_mul_right _ (Nat.div_mul_le_self ..)
  refine ⟨?_,by rwa [← value]⟩
  rw [UInt64.toNat_toUInt32,UInt64.toNat_shiftRight,UInt64.toNat_shiftLeft,UInt32.toNat_toUInt64,Nat.shiftRight_eq_div_pow,Nat.shiftLeft_eq,s_def,
    Nat.mod_eq_of_lt (show s < 64 by omega),Nat.mod_eq_of_lt kept]
  change d.toNat * 2 ^ s / 2 ^ 32 % 2 ^ 32 = _
  rw [value]
  apply Nat.mod_eq_of_lt
  rw [← value]
  exact Nat.div_lt_of_lt_mul kept

/-- The division of the halved dividend by the normalised digit does not trap, and estimates the
quotient of a divisor that is rounded down. -/
theorem estimate_run {n d : UInt64} (wide : 2 ^ 32 ≤ d.toNat) :
    ∃ e : UInt32, divl (n >>> 1) ((d <<< (nlz (d >>> 32).toUInt32).toUInt64) >>> 32).toUInt32 = some e ∧
      ∃ k, 2 ≤ k ∧ 2 ^ 31 ≤ d.toNat / k ∧ (e >>> ((31 : UInt32) - nlz (d >>> 32).toUInt32)).toUInt64.toNat = n.toNat / (d.toNat / k * k) := by
  have small := n.toNat_lt
  obtain ⟨s,few,zeros,rounded,normal⟩ := normalised wide
  generalize ((d <<< (nlz (d >>> 32).toUInt32).toUInt64) >>> 32).toUInt32 = v at *
  generalize nlz (d >>> 32).toUInt32 = c at *
  have v_some : v ≠ 0 := fun zero => by
    rw [zero] at rounded
    change 0 = _ at rounded
    omega
  have half : (n >>> 1).toNat = n.toNat / 2 := by
    rw [UInt64.toNat_shiftRight,Nat.shiftRight_eq_div_pow]
    rfl
  obtain ⟨e,divided,value⟩ := divl_run (n := n >>> 1) v_some (by
    rw [half,Nat.div_lt_iff_lt_mul (by omega),rounded]
    omega)
  rw [half,rounded] at value
  have shift : (31 - c).toNat = 31 - s := by
    rw [UInt32.toNat_sub_of_le _ _ (by rw [UInt32.le_iff_toNat_le,zeros]; exact few),zeros]
    rfl
  have positive := Nat.two_pow_pos (31 - s)
  have twice : (2 : Nat) ^ (32 - s) = 2 * 2 ^ (31 - s) := by rw [← Nat.pow_succ']; congr 1; omega
  refine ⟨e,divided,2 ^ (32 - s),by omega,normal,?_⟩
  rw [UInt32.toNat_toUInt64,UInt32.toNat_shiftRight,shift,Nat.mod_eq_of_lt (show 31 - s < 32 by omega),Nat.shiftRight_eq_div_pow,value,
    Nat.div_div_eq_div_mul,Nat.div_div_eq_div_mul]
  congr 1
  rw [twice]
  ring

/-- The correction of an estimate that is right or one too high. -/
theorem corrected_run {n d q : UInt64} (some_ : 0 < d.toNat) (least : d.toNat ≤ n.toNat) (low : n.toNat / d.toNat ≤ q.toNat)
    (high : q.toNat ≤ n.toNat / d.toNat + 1) : (if n - (q - 1) * d < d then q - 1 else q).toNat = n.toNat / d.toNat := by
  have small := n.toNat_lt
  obtain ⟨fits,exact_⟩ := WideDivision.corrected some_ least low high
  have one : 1 ≤ q.toNat := (Nat.one_le_div_iff some_).mpr least |>.trans low
  have before : (q - 1).toNat = q.toNat - 1 := UInt64.toNat_sub_of_le _ _ (by rw [UInt64.le_iff_toNat_le]; exact one)
  have product : ((q - 1) * d).toNat = (q.toNat - 1) * d.toNat := by
    rw [UInt64.toNat_mul,before]
    apply Nat.mod_eq_of_lt
    omega
  have rest : (n - (q - 1) * d).toNat = n.toNat - (q.toNat - 1) * d.toNat := by
    rw [UInt64.toNat_sub_of_le _ _ (by rw [UInt64.le_iff_toNat_le,product]; exact fits),product]
  rw [← exact_]
  simp only [UInt64.lt_iff_toNat_lt,rest]
  split
  · exact before
  · rfl

/-- A divisor of two digits. -/
theorem udiv64_wide {n d : UInt64} (wide : 2 ^ 32 ≤ d.toNat) : ∃ q, udiv64 n d = some q ∧ q.toNat = n.toNat / d.toNat := by
  have small := n.toNat_lt
  have d_small := d.toNat_lt
  have d_some : 0 < d.toNat := by omega
  have top : ¬ d >>> 32 = 0 := by
    intro zero
    have value := congrArg UInt64.toNat zero
    rw [UInt64.toNat_shiftRight,Nat.shiftRight_eq_div_pow] at value
    change d.toNat / 2 ^ 32 = 0 at value
    omega
  unfold udiv64
  rw [if_neg top]
  by_cases below : n < d
  · rw [if_pos below]
    refine ⟨0,rfl,?_⟩
    exact (Nat.div_eq_of_lt (UInt64.lt_iff_toNat_lt.mp below)).symm
  · rw [if_neg below]
    rw [UInt64.lt_iff_toNat_lt,Nat.not_lt] at below
    obtain ⟨e,divided,k,several,normal,value⟩ := estimate_run (n := n) wide
    have low := WideDivision.estimate_low n.toNat d.toNat k (Nat.mul_pos (by omega) (by omega))
    have high := WideDivision.estimate_high (n := n.toNat) (d := d.toNat) (b := 2 ^ 32) several (by omega) (by omega)
    rw [← value] at low high
    simp only [divided]
    exact ⟨_,rfl,corrected_run d_some below low high⟩

/-- The quotient is exact and no division traps. -/
theorem udiv64_spec {n d : UInt64} (some_ : d ≠ 0) : ∃ q, udiv64 n d = some q ∧ q.toNat = n.toNat / d.toNat := by
  rcases Nat.lt_or_ge d.toNat (2 ^ 32) with narrow | wide
  · exact udiv64_narrow some_ narrow
  · exact udiv64_wide wide

/-! Signed division, by the absolute values. -/

theorem toInt_toInt64 (n : UInt64) : n.toInt64.toInt = (n.toNat : Int).bmod (2 ^ 64) :=
  BitVec.toInt_eq_toNat_bmod n.toBitVec

theorem toNat_toUInt64 (n : Int64) : (n.toUInt64.toNat : Int) = n.toInt % 2 ^ 64 := by
  have value : n.toInt = (n.toUInt64.toNat : Int).bmod (2 ^ 64) := toInt_toInt64 n.toUInt64
  have small := n.toUInt64.toNat_lt
  rw [value]
  exact (Int.bmod_emod.trans (Int.emod_eq_of_lt (by omega) (by omega))).symm

theorem nonneg_iff (n : Int64) : 0 ≤ n ↔ 0 ≤ n.toInt := Int64.le_iff_toInt_le

theorem negative_iff (n : Int64) : n < 0 ↔ n.toInt < 0 := Int64.lt_iff_toInt_lt

theorem natAbs_spec (n : Int64) : (if n ≥ 0 then n.toUInt64 else -n.toUInt64).toNat = n.toInt.natAbs := by
  have value := toNat_toUInt64 n
  have low := n.le_toInt
  have high := n.toInt_lt
  split
  · rename_i positive
    rw [ge_iff_le,nonneg_iff] at positive
    omega
  · rename_i negative
    rw [ge_iff_le,nonneg_iff] at negative
    rw [UInt64.toNat_neg]
    change (2 ^ 64 - n.toUInt64.toNat) % 2 ^ 64 = _
    omega

/-- The quotient of the absolute values, with its sign. -/
theorem signed (n d : Int) :
    n.tdiv d = if decide (n < 0) == decide (d < 0) then (n.natAbs / d.natAbs : Int) else -(n.natAbs / d.natAbs : Int) := by
  rcases lt_or_ge n 0 with negative | positive <;> rcases lt_or_ge d 0 with below | above
  · obtain ⟨a,rfl⟩ : ∃ a : Nat, n = -a := ⟨n.natAbs,by omega⟩
    obtain ⟨b,rfl⟩ : ∃ b : Nat, d = -b := ⟨d.natAbs,by omega⟩
    simp [show 0 < a by omega,show 0 < b by omega,Int.tdiv_eq_ediv_of_nonneg]
  · obtain ⟨a,rfl⟩ : ∃ a : Nat, n = -a := ⟨n.natAbs,by omega⟩
    simp [show 0 < a by omega,Int.not_lt.mpr above,abs_of_nonneg above,Int.tdiv_eq_ediv_of_nonneg]
  · obtain ⟨b,rfl⟩ : ∃ b : Nat, d = -b := ⟨d.natAbs,by omega⟩
    simp [show 0 < b by omega,Int.not_lt.mpr positive,abs_of_nonneg positive,Int.tdiv_eq_ediv_of_nonneg positive]
  · simp [Int.not_lt.mpr positive,Int.not_lt.mpr above,abs_of_nonneg positive,abs_of_nonneg above,Int.tdiv_eq_ediv_of_nonneg positive]

theorem sdiv64_spec {n d : Int64} (some_ : d ≠ 0) (fits : ¬ (n = Int64.minValue ∧ d = -1)) :
    ∃ q, sdiv64 n d = some q ∧ q.toInt = n.toInt.tdiv d.toInt := by
  have n_abs := natAbs_spec n
  have d_abs := natAbs_spec d
  have low := n.le_toInt
  have high := n.toInt_lt
  have d_some : d.toInt ≠ 0 := fun zero => some_ (Int64.toInt_inj.mp zero)
  unfold sdiv64
  simp only
  generalize (if n ≥ 0 then n.toUInt64 else -n.toUInt64) = nAbs at *
  generalize (if d ≥ 0 then d.toUInt64 else -d.toUInt64) = dAbs at *
  have dAbs_some : dAbs ≠ 0 := fun zero => by
    rw [zero] at d_abs
    change 0 = _ at d_abs
    omega
  obtain ⟨qAbs,divided,value⟩ := udiv64_spec (n := nAbs) dAbs_some
  rw [n_abs,d_abs] at value
  rw [divided]
  refine ⟨_,rfl,?_⟩
  rw [signed]
  simp only [negative_iff]
  have quotient : (qAbs.toNat : Int) = (n.toInt.natAbs / d.toInt.natAbs : Int) := by rw [value,Int.natCast_ediv]
  rw [← quotient]
  have small := Nat.div_le_self n.toInt.natAbs d.toInt.natAbs
  split
  · rename_i same
    rw [toInt_toInt64]
    -- the quotient 2^63 needs the excluded pair
    have less : qAbs.toNat < 2 ^ 63 := by
      by_contra large
      rw [value,Nat.not_lt,Nat.le_div_iff_mul_le (by omega)] at large
      have one : d.toInt.natAbs = 1 := by omega
      have least : n.toInt = -2 ^ 63 := by omega
      have minus : d.toInt = -1 := by
        rw [least] at same
        have negative : d.toInt < 0 := by simpa using same
        omega
      exact fits ⟨Int64.toInt_inj.mp least,Int64.toInt_inj.mp minus⟩
    exact Int.bmod_eq_of_le (by omega) (by omega)
  · rw [Int64.toInt_neg,toInt_toInt64,Int.bmod_neg_bmod]
    exact Int.bmod_eq_of_le (by omega) (by omega)

/-- The quotients are exact, and no division traps. -/
theorem quotients_exact :
    (∀ n d : UInt64, d ≠ 0 → ∃ q, udiv64 n d = some q ∧ q.toNat = n.toNat / d.toNat) ∧
      ∀ n d : Int64, d ≠ 0 → ¬ (n = Int64.minValue ∧ d = -1) →
        ∃ q, sdiv64 n d = some q ∧ q.toInt = n.toInt.tdiv d.toInt :=
  ⟨fun _ _ some_ => udiv64_spec some_,fun _ _ some_ fits => sdiv64_spec some_ fits⟩

theorem quotients_exact_wide :
    (∃ q, udiv64 0x900000000 0x400000001 = some q ∧ q.toNat = 2) ∧
      ∃ q, sdiv64 (-0x900000000) 0x400000001 = some q ∧ q.toInt = -2 :=
  ⟨quotients_exact.1 0x900000000 0x400000001 (by decide),
    quotients_exact.2 (-0x900000000) 0x400000001 (by decide) (by decide)⟩

/-! The remainders lose their high bits. -/

theorem umoddi3_spec {n d : UInt64} (some_ : d ≠ 0) :
    ∃ r, umoddi3 n d = some r ∧ r.toNat = n.toNat % d.toNat % 2 ^ 32 := by
  obtain ⟨q,divided,value⟩ := udiv64_spec (n := n) some_
  unfold umoddi3 umod64
  rw [divided]
  refine ⟨_,rfl,?_⟩
  have small := n.toNat_lt
  have whole := Nat.div_add_mod n.toNat d.toNat
  have product : (d * q).toNat = d.toNat * (n.toNat / d.toNat) := by
    rw [UInt64.toNat_mul,value]
    exact Nat.mod_eq_of_lt (by omega)
  rw [UInt32.toNat_toUInt64,UInt64.toNat_toUInt32,UInt64.toNat_sub_of_le _ _ (by rw [UInt64.le_iff_toNat_le,product]; omega),product]
  congr 1
  omega

theorem moddi3_spec {n d : Int64} (some_ : d ≠ 0) (fits : ¬ (n = Int64.minValue ∧ d = -1)) :
    ∃ r, moddi3 n d = some r ∧ r.toInt = (n.toInt.tmod d.toInt).bmod (2 ^ 32) := by
  obtain ⟨q,divided,value⟩ := sdiv64_spec (n := n) some_ fits
  unfold moddi3 smod64
  rw [divided]
  refine ⟨_,rfl,?_⟩
  have narrow : (2 : Nat) ^ 32 ∣ 2 ^ 64 := Nat.pow_dvd_pow 2 (by decide)
  rw [Int32.toInt_toInt64,Int64.toInt_toInt32,Int64.toInt_sub,Int64.toInt_mul,Int.sub_bmod_bmod,Int.bmod_bmod_of_dvd narrow,value,Int.tmod_def]

theorem bmod_eq_iff_fits (x : Int) : x.bmod (2 ^ 32) = x ↔ -2 ^ 31 ≤ x ∧ x < 2 ^ 31 := by
  constructor
  · intro same
    have low := Int.le_bmod (x := x) (m := 2 ^ 32) (by decide)
    have high := Int.bmod_lt (x := x) (m := 2 ^ 32) (by decide)
    omega
  · rintro ⟨low,high⟩
    exact Int.bmod_eq_of_le (by omega) (by omega)

/-- A remainder is exact exactly where it fits in 32 bits. -/
theorem remainders_exact_iff (n d : UInt64) (m e : Int64) (d_some : d ≠ 0) (e_some : e ≠ 0)
    (fits : ¬ (m = Int64.minValue ∧ e = -1)) :
    ((∃ r, umoddi3 n d = some r ∧ r.toNat = n.toNat - d.toNat * (n.toNat / d.toNat)) ↔ n.toNat % d.toNat < 2 ^ 32) ∧
    ((∃ q r, divdi3 m e = some q ∧ moddi3 m e = some r ∧ r.toInt = m.toInt.tmod e.toInt ∧ q.toInt * e.toInt + r.toInt = m.toInt) ↔
      -2 ^ 31 ≤ m.toInt.tmod e.toInt ∧ m.toInt.tmod e.toInt < 2 ^ 31) := by
  constructor
  · obtain ⟨r,run,value⟩ := umoddi3_spec (n := n) d_some
    have whole := Nat.mod_def n.toNat d.toNat
    rw [run,← whole]
    simp only [Option.some.injEq,exists_eq_left',value]
    constructor
    · intro same
      rw [← same]
      exact Nat.mod_lt _ (by decide)
    · exact Nat.mod_eq_of_lt
  · obtain ⟨q,divided,quotient⟩ := sdiv64_spec (n := m) e_some fits
    obtain ⟨r,run,value⟩ := moddi3_spec (n := m) e_some fits
    rw [← bmod_eq_iff_fits,← value]
    constructor
    · rintro ⟨q',r',-,run',exact_,-⟩
      rw [run] at run'
      cases run'
      exact exact_
    · intro exact_
      refine ⟨q,r,divided,run,exact_,?_⟩
      rw [exact_,quotient]
      exact Int.tdiv_mul_add_tmod ..

theorem remainders_exact_iff_wide :
    ((∃ r, umoddi3 0x900000000 0x400000001 = some r ∧ r.toNat = 0x900000000 - 0x400000001 * (0x900000000 / 0x400000001)) ↔
      0x900000000 % 0x400000001 < 2 ^ 32) ∧
    ((∃ q r, divdi3 (-0x100000007) 2 = some q ∧ moddi3 (-0x100000007) 2 = some r ∧ r.toInt = (-0x100000007 : Int).tmod 2 ∧
        q.toInt * 2 + r.toInt = -0x100000007) ↔
      -2 ^ 31 ≤ (-0x100000007 : Int).tmod 2 ∧ (-0x100000007 : Int).tmod 2 < 2 ^ 31) :=
  remainders_exact_iff 0x900000000 0x400000001 (-0x100000007) 2 (by decide) (by decide) (by decide)

/-- The remainder 2^32 of 2^32 and 2^33 is returned as zero. -/
theorem remainders_not_exact :
    (¬ ∀ n d : UInt64, d ≠ 0 → ∃ r, umoddi3 n d = some r ∧ r.toNat = n.toNat - d.toNat * (n.toNat / d.toNat)) ∧
    ¬ ∀ n d : Int64, d ≠ 0 → ¬ (n = Int64.minValue ∧ d = -1) →
      ∃ q r, divdi3 n d = some q ∧ moddi3 n d = some r ∧ r.toInt = n.toInt.tmod d.toInt ∧
        q.toInt * d.toInt + r.toInt = n.toInt := by
  constructor
  · intro all
    obtain ⟨r,run,value⟩ := all 4294967296 8589934592 (by decide)
    rw [show umoddi3 4294967296 8589934592 = some 0 by decide] at run
    cases run
    exact absurd value (by decide)
  · intro all
    obtain ⟨q,r,-,run,value,-⟩ := all 4294967296 8589934592 (by decide) (by decide)
    rw [show moddi3 4294967296 8589934592 = some 0 by decide] at run
    cases run
    exact absurd value (by decide)

end OsProj.Arithmetic
