import OsProj.Arithmetic
import OsProj.PrintfScan

/-! Numbers that are printed in decimal and read back by `atoi` of lib/stdlib.c. -/
namespace OsProj.Printf

def isspace (c : UInt8) : Bool :=
  c = ' '.toUInt8 || c = 12 || c = '\n'.toUInt8 || c = '\r'.toUInt8 || c = '\t'.toUInt8 || c = 11

def skipSpaces (s : Nat → UInt8) : Nat → Nat → Except Fault Nat
  | 0, _ => .error .running
  | fuel + 1, i => if isspace (s i) then skipSpaces s fuel (i + 1) else .ok i

def readDigits (s : Nat → UInt8) : Nat → Nat → Int32 → Except Fault Int32
  | 0, _, _ => .error .running
  | fuel + 1, i, value =>
    if isdigit (s i) then readDigits s fuel (i + 1) (value * 10 - ((s i).toUInt32.toInt32 - 48)) else .ok value

def atoi (fuel : Nat) (s : Nat → UInt8) : Except Fault Int32 := do
  let i ← skipSpaces s fuel 0
  let negative := s i = '-'.toUInt8
  let i := if s i = '+'.toUInt8 ∨ negative then i + 1 else i
  let value ← readDigits s fuel i 0
  return if negative then value else -value

/-! Decimal digits. -/

theorem digit_value (digit : base_d.digit c = some d) : isdigit c = true ∧ c.toUInt32.toInt32 - 48 = Int32.ofNat d := by
  unfold IntegerBase.digit at digit
  split at digit
  · rename_i member
    cases digit
    have all : (decimalDigits.all fun c => isdigit c && c.toUInt32.toInt32 - 48 == Int32.ofNat (decimalDigits.idxOf c)) = true := by decide
    have known := List.all_eq_true.mp all c member
    rw [Bool.and_eq_true,beq_iff_eq] at known
    exact known
  · cases digit

/-- The digits are read as a negative number. -/
theorem readDigits_numeral {s : Nat → UInt8} (fuel : Nat) (ds : List UInt8) (i value : Nat) (denotes : base_d.numeral value ds = some total)
    (here : ∀ k < ds.length, s (i + k) = ds.getD k 0) (ended : isdigit (s (i + ds.length)) = false) (rounds : ds.length < fuel) :
    readDigits s fuel i (-Int32.ofNat value) = .ok (-Int32.ofNat total) := by
  induction ds generalizing fuel i value with
  | nil =>
    cases denotes
    obtain ⟨fuel,rfl⟩ : ∃ n, fuel = n + 1 := ⟨fuel - 1,by omega⟩
    rw [readDigits]
    simp only [List.length_nil,Nat.add_zero] at ended
    rw [ended]
    rfl
  | cons c ds ih =>
    rw [List.length_cons] at rounds ended
    obtain ⟨fuel,rfl⟩ : ∃ n, fuel = n + 1 := ⟨fuel - 1,by omega⟩
    cases digit : base_d.digit c with
    | none =>
      rw [IntegerBase.numeral,List.foldlM_cons,digit] at denotes
      cases denotes
    | some d =>
      rw [IntegerBase.numeral,List.foldlM_cons,digit] at denotes
      obtain ⟨is_digit,value_of⟩ := digit_value digit
      have first : s i = c := here 0 (Nat.succ_pos _)
      have step : -Int32.ofNat value * 10 - Int32.ofNat d = -Int32.ofNat (value * 10 + d) := by
        rw [Int32.ofNat_add,Int32.ofNat_mul]
        change _ = -(Int32.ofNat value * 10 + Int32.ofNat d)
        grind
      rw [readDigits,first,if_pos is_digit,value_of,step]
      apply ih fuel (i + 1) (value * 10 + d) denotes
      · intro k inside
        rw [Nat.add_right_comm,Nat.add_assoc]
        exact here (k + 1) (Nat.succ_lt_succ inside)
      · rwa [Nat.add_right_comm,Nat.add_assoc]
      · omega

theorem skipSpaces_none (other : isspace (s i) = false) (rounds : 0 < fuel) : skipSpaces s fuel i = .ok i := by
  obtain ⟨fuel,rfl⟩ : ∃ n, fuel = n + 1 := ⟨fuel - 1,by omega⟩
  rw [skipSpaces,other]
  rfl

theorem digit_first (denotes : base_d.numeral 0 (c :: ds) = some total) : isspace c = false ∧ c ≠ '+'.toUInt8 ∧ c ≠ '-'.toUInt8 := by
  rw [IntegerBase.numeral,List.foldlM_cons,IntegerBase.digit] at denotes
  have all : (decimalDigits.all fun c => !isspace c && c != '+'.toUInt8 && c != '-'.toUInt8) = true := by decide
  split at denotes
  · rename_i member
    have known := List.all_eq_true.mp all c member
    simp only [Bool.and_eq_true,Bool.not_eq_true',bne_iff_ne] at known
    exact ⟨known.1.1,known.1.2,known.2⟩
  · cases denotes

/-- A decimal numeral, with a sign for negative numbers, is read back. -/
theorem atoi_signed {s : Nat → UInt8} (v : Int32) (ds : List UInt8) (some_ : ds ≠ []) (denotes : base_d.numeral 0 ds = some v.toInt.natAbs)
    (here : ∀ k < (signText true (v < 0) {} ++ ds).length, s k = (signText true (v < 0) {} ++ ds).getD k 0)
    (ended : s (signText true (v < 0) {} ++ ds).length = 0) (rounds : ds.length < fuel) : atoi fuel s = .ok v := by
  unfold atoi
  by_cases negative : v < 0
  · have sign : signText true (v < 0) {} = ['-'.toUInt8] := by simp [signText,negative]
    rw [sign,List.singleton_append,List.length_cons] at here ended
    have first : s 0 = '-'.toUInt8 := here 0 (Nat.succ_pos _)
    have digits := readDigits_numeral (s := s) fuel ds 1 0 denotes (fun k inside => by
      rw [Nat.add_comm]
      exact here (k + 1) (Nat.succ_lt_succ inside)) (by rw [Nat.add_comm,ended]; decide) rounds
    have value : -Int32.ofNat v.toInt.natAbs = v := by
      rw [Int32.lt_iff_toInt_lt] at negative
      change v.toInt < 0 at negative
      rw [← Int32.ofInt_eq_ofNat,← Int32.ofInt_neg,show -(v.toInt.natAbs : Int) = v.toInt by omega,Int32.ofInt_toInt]
    rw [skipSpaces_none (by rw [first]; decide) (by omega)]
    simp only [Bind.bind,Except.bind,first,or_true,if_true]
    rw [show (0 : Nat) + 1 = 1 from rfl,show (0 : Int32) = -Int32.ofNat 0 by decide,digits]
    simp only [Pure.pure,Except.pure,value]
  · have sign : signText true (v < 0) {} = [] := by simp [signText,negative]
    rw [sign,List.nil_append] at here ended
    obtain ⟨c,ds,rfl⟩ := List.exists_cons_of_ne_nil some_
    obtain ⟨not_space,not_plus,not_minus⟩ := digit_first denotes
    have first : s 0 = c := here 0 (Nat.succ_pos _)
    have digits := readDigits_numeral (s := s) fuel (c :: ds) 0 0 denotes (fun k inside => by
      rw [Nat.zero_add]
      exact here k inside) (by rw [Nat.zero_add,ended]; decide) rounds
    have value : Int32.ofNat v.toInt.natAbs = v := by
      rw [Int32.lt_iff_toInt_lt] at negative
      change ¬v.toInt < 0 at negative
      rw [← Int32.ofInt_eq_ofNat,show (v.toInt.natAbs : Int) = v.toInt by omega,Int32.ofInt_toInt]
    rw [skipSpaces_none (by rw [first,not_space]) (by omega)]
    simp only [Bind.bind,Except.bind,first,not_plus,not_minus,or_self,if_false]
    rw [show (0 : Int32) = -Int32.ofNat 0 by decide,digits]
    simp only [Pure.pure,Except.pure,Int32.neg_neg,value]

/-! The format `%d`. -/

def magnitude (v : Int32) : UInt64 := (if v.toInt64 < 0 then -v.toInt64 else v.toInt64).toUInt64

theorem toInt64_negative (v : Int32) : v.toInt64 < 0 ↔ v < 0 := by
  rw [Arithmetic.negative_iff,Int32.toInt_toInt64,Int32.lt_iff_toInt_lt]
  rfl

theorem magnitude_toNat (v : Int32) : (magnitude v).toNat = v.toInt.natAbs := by
  have spec := Arithmetic.natAbs_spec v.toInt64
  rw [Int32.toInt_toInt64] at spec
  rw [← spec]
  unfold magnitude
  by_cases negative : v.toInt64 < 0
  · rw [if_pos negative,if_neg (Int64.not_le.mpr negative),Int64.toUInt64_neg]
  · rw [if_neg negative,if_pos (Int64.not_lt.mp negative)]

theorem vprintf_percentD (fpu : Fpu) (memory : UInt32 → UInt8) (output : UInt8 → σ → σ) (args : Args) (s : σ) :
    vprintf fpu memory output percentD args s =
      format_integer output (magnitude (args 0).toInt32) true ((args 0).toInt32.toInt64 < 0) base_d ⟨{},0,-1,.int⟩ s := by
  change ((format_integer output (magnitude (args 0).toInt32) true ((args 0).toInt32.toInt64 < 0) base_d ⟨{},0,-1,.int⟩ s).bind
    fun s => .ok (s,1)).bind (fun r => vprintfLoop fpu memory output (plainVprintf fpu memory output) percentD args 2 2 r.2 r.1) = _
  cases format_integer output (magnitude (args 0).toInt32) true ((args 0).toInt32.toInt64 < 0) base_d ⟨{},0,-1,.int⟩ s <;> rfl

/-- A sign for a negative number, and its digits. -/
theorem printed_percentD (fpu : Fpu) (memory : UInt32 → UInt8) (v : Int32) (arg : args 0 = v.toUInt32) :
    ∃ ds, printed fpu memory percentD args = .ok (signText true (v < 0) {} ++ ds) ∧ ds ≠ [] ∧ base_d.numeral 0 ds = some v.toInt.natAbs ∧
      (signText true (v < 0) {} ++ ds).length < 2 ^ 31 := by
  obtain ⟨cnt,ds,formatted,none,run⟩ := format_integer_spec (List.mem_cons_self .. : base_d ∈ bases) (magnitude v) true (v < 0) ⟨{},0,-1,.int⟩
  obtain rfl := none rfl
  have same := formatted.ungrouped rfl
  refine ⟨ds,?_,fun empty => absurd (formatted.empty empty).2 (by decide),?_,?_⟩
  · rw [printed,vprintf_percentD,arg,Int32.toInt32_toUInt32,decide_eq_decide.mpr (toInt64_negative v),run,feed_emit_text]
    simp [layout,hexText]
  · rw [← same,← magnitude_toNat]
    exact formatted.denotes
  · have sign : (signText true (v < 0) {}).length ≤ 1 := by
      unfold signText
      split_ifs <;> simp
    have fits := formatted.fits
    rw [List.length_append]
    omega

/-- Integers are formatted inside the buffer, with the digits of the value, its sign, the precision
and the width, and what is printed for an `int` with `%d` is read back. -/
theorem format_integer_correct :
    (∀ b ∈ bases, ∀ (value : UInt64) (is_signed negative : Bool) (c : PrintfConversion),
      ∃ cnt body, Formatted b value c (signText is_signed negative c.flags) (hexText value b c.flags) cnt body ∧
        ∀ {σ : Type} (output : UInt8 → σ → σ) (s : σ), format_integer output value is_signed negative b c s =
          .ok (feed output s (layout c.flags cnt (signText is_signed negative c.flags) (hexText value b c.flags) body))) ∧
    ∀ (v : Int32) (fpu : Fpu) (memory : UInt32 → UInt8) (buffer : Nat → UInt8) (buf_size : UInt32) (args : Args),
      args 0 = v.toUInt32 → buf_size.toNat ≤ 2 ^ 31 →
      ∃ n buffer', snprintf fpu memory buffer buf_size percentD args = .ok (n,buffer') ∧
        (n.toInt < buf_size.toNat → ∀ fuel : Nat, n.toInt < fuel → atoi fuel buffer' = .ok v) := by
  constructor
  · intro b member value is_signed negative c
    obtain ⟨cnt,body,formatted,_,run⟩ := format_integer_spec member value is_signed negative c
    exact ⟨cnt,body,formatted,run⟩
  · intro v fpu memory buffer buf_size args arg size
    obtain ⟨ds,all,some_,denotes,short⟩ := printed_percentD fpu memory v arg
    obtain ⟨buffer',run,_,stored⟩ := vsnprintf_spec fpu memory buffer args all short size
    refine ⟨_,buffer',run,fun fits fuel rounds => ?_⟩
    rw [Int32.toInt_ofNat_of_lt short] at fits rounds
    have truncated := stored fun zero => by
      rw [zero] at fits
      change _ < 0 at fits
      omega
    have whole : min (signText true (v < 0) {} ++ ds).length (buf_size.toNat - 1) = (signText true (v < 0) {} ++ ds).length := by omega
    apply atoi_signed v ds some_ denotes
    · intro k inside
      exact truncated.inside k (by rwa [whole])
    · rw [← whole]
      exact truncated.ended
    · rw [List.length_append] at rounds
      omega

theorem format_integer_correct_least :
    (∃ cnt body, Formatted base_x 255 ⟨{pound := true,zero := true},8,-1,.int⟩ [] ['0'.toUInt8,'x'.toUInt8] cnt body ∧
      ∀ {σ : Type} (output : UInt8 → σ → σ) (s : σ), format_integer output 255 false false base_x ⟨{pound := true,zero := true},8,-1,.int⟩ s =
        .ok (feed output s (layout {pound := true,zero := true} cnt [] ['0'.toUInt8,'x'.toUInt8] body))) ∧
    ∃ n buffer', snprintf zeroFpu (fun _ => 0) (fun _ => 1) 12 percentD (fun _ => 0x80000000) = .ok (n,buffer') ∧
      atoi 12 buffer' = .ok (-2147483648) := by
  constructor
  · exact format_integer_correct.1 base_x (by simp [bases]) 255 false false ⟨{pound := true,zero := true},8,-1,.int⟩
  · obtain ⟨n,buffer',run,back⟩ := format_integer_correct.2 (-2147483648) zeroFpu (fun _ => 0) (fun _ => 1) 12 (fun _ => 0x80000000) rfl
      (by decide)
    have length : (snprintf zeroFpu (fun _ => 0) (fun _ => 1) 12 percentD (fun _ => 0x80000000)).toOption.map Prod.fst = some 11 := by
      decide +kernel
    rw [run] at length
    obtain rfl : n = 11 := Option.some.inj length
    exact ⟨11,buffer',run,back (by decide) 12 (by decide)⟩

end OsProj.Printf
