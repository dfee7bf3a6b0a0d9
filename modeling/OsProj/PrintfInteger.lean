import OsProj.PrintfOutput

/-! The digits of a formatted integer. -/
namespace OsProj.Printf

/-! Digit strings. -/

def IntegerBase.digit (b : IntegerBase) (c : UInt8) : Option Nat := if c ∈ b.digits then some (b.digits.idxOf c) else none

/-- The number that a digit string denotes, behind digits that denote the given value. -/
def IntegerBase.numeral (b : IntegerBase) (value : Nat) (s : List UInt8) : Option Nat :=
  s.foldlM (fun value c => (b.digit c).map (value * b.base + ·)) value

def bases : List IntegerBase := [base_d,base_o,base_x,base_X]

/-- What the digit loops need of a base: its digits are told apart, and 64 bits give at most `most` of them. -/
structure IntegerBase.Valid (b : IntegerBase) (most : Nat) : Prop where
  several : 2 ≤ b.base
  digit : ∀ i < b.base, b.digit (b.digits.getD i 0) = some i
  no_comma : ∀ i < b.base, b.digits.getD i 0 ≠ ','.toUInt8
  zero : b.digit '0'.toUInt8 = some 0
  group : b.group = 3 ∨ b.group = 4
  enough : 2 ^ 64 ≤ b.base ^ most
  few : most ≤ 22

theorem bases_valid (member : b ∈ bases) : ∃ most, b.Valid most := by
  have known : b = base_d ∨ b = base_o ∨ b = base_x ∨ b = base_X := by simpa [bases] using member
  rcases known with rfl | rfl | rfl | rfl
  · exact ⟨20,by decide,by decide,by decide,by decide,.inl rfl,by decide,by decide⟩
  · exact ⟨22,by decide,by decide,by decide,by decide,.inl rfl,by decide,by decide⟩
  · exact ⟨16,by decide,by decide,by decide,by decide,.inr rfl,by decide,by decide⟩
  · exact ⟨16,by decide,by decide,by decide,by decide,.inr rfl,by decide,by decide⟩

theorem numeral_append (b : IntegerBase) (value : Nat) (s t : List UInt8) :
    b.numeral value (s ++ t) = (b.numeral value s).bind fun value => b.numeral value t :=
  List.foldlM_append

def plain (s : List UInt8) : List UInt8 := s.filter (· ≠ ','.toUInt8)

theorem plain_append (s t : List UInt8) : plain (s ++ t) = plain s ++ plain t := List.filter_append ..

theorem push_run {buf : List UInt8} (room : buf.length < 64) : push ch buf = .ok (ch :: buf) := if_pos room

/-- The comma before a digit, where there is one. -/
theorem pushComma_spec {b : IntegerBase} {buf : List UInt8} (groups : b.group = 3 ∨ b.group = 4) (few : digit_cnt ≤ 22) (group : Bool)
    (used : buf.length ≤ digit_cnt + (digit_cnt - 1) / b.group) :
    ∃ commas, pushComma b group digit_cnt buf = .ok (commas ++ buf) ∧ (commas ++ buf).length ≤ digit_cnt + digit_cnt / b.group ∧ plain commas = [] ∧ (group = false → commas = []) := by
  have bound : (digit_cnt - 1) / b.group ≤ digit_cnt / b.group := Nat.div_le_div_right (Nat.sub_le ..)
  unfold pushComma
  split
  · rename_i comma
    refine ⟨[','.toUInt8],push_run ?_,?_,rfl,fun off => ?_⟩
    · rcases groups with three | four
      · rw [three] at used
        omega
      · rw [four] at used
        omega
    · rw [List.singleton_append,List.length_cons]
      rcases groups with three | four
      · rw [three] at used comma ⊢
        omega
      · rw [four] at used comma ⊢
        omega
    · rw [off] at comma
      exact absurd comma.1 Bool.false_ne_true
  · exact ⟨[],rfl,Nat.le_trans used (Nat.add_le_add_left bound _),rfl,fun _ => rfl⟩

/-- The loop over the digits of a value prepends them, from the lowest on, with commas between groups. -/
theorem pushDigits_spec (valid : b.Valid most) (group : Bool) (fuel n value digit_cnt : Nat) (buf : List UInt8)
    (small : value < b.base ^ n) (rounds : n < fuel) (few : digit_cnt + n ≤ 22) (used : buf.length ≤ digit_cnt + (digit_cnt - 1) / b.group) :
    ∃ ds, pushDigits b group fuel value digit_cnt buf = .ok (ds ++ buf) ∧ b.numeral 0 (plain ds) = some value ∧
      (ds = [] → value = 0) ∧ (group = false → plain ds = ds) ∧ (ds ++ buf).length ≤ 29 := by
  have groups := valid.group
  induction fuel generalizing n value digit_cnt buf with
  | zero => omega
  | succ fuel ih =>
    rw [pushDigits]
    by_cases some_ : value > 0
    · rw [if_pos some_]
      obtain ⟨n,rfl⟩ : ∃ m, n = m + 1 := by
        cases n with
        | zero => rw [Nat.pow_zero] at small; omega
        | succ n => exact ⟨n,rfl⟩
      have several := valid.several
      have lowest : value % b.base < b.base := Nat.mod_lt _ (by omega)
      obtain ⟨commas,comma,length,gone,off⟩ := pushComma_spec groups (by omega) group used
      have room : (commas ++ buf).length < 64 := by
        have bound : digit_cnt / b.group ≤ digit_cnt / 3 := Nat.div_le_div_left (by omega) (by decide)
        omega
      obtain ⟨ds,run,value_of,_,ungrouped,total⟩ := ih n (value / b.base) (digit_cnt + 1) (b.digits.getD (value % b.base) 0 :: (commas ++ buf))
        (Nat.div_lt_of_lt_mul (by rwa [Nat.pow_succ'] at small)) (by omega) (by omega)
        (by rw [List.length_cons,Nat.add_sub_cancel]; omega)
      have last : plain (b.digits.getD (value % b.base) 0 :: commas) = [b.digits.getD (value % b.base) 0] := by
        rw [plain,List.filter_cons_of_pos (by simpa using valid.no_comma _ lowest)]
        exact congrArg _ gone
      have whole : value / b.base * b.base + value % b.base = value := Nat.div_add_mod' ..
      refine ⟨ds ++ b.digits.getD (value % b.base) 0 :: commas,?_,?_,fun none => by simp at none,fun single => ?_,?_⟩
      · rw [comma]
        simp only [Bind.bind,Except.bind]
        rw [push_run room]
        simp only
        rw [run,List.append_assoc]
        rfl
      · rw [plain_append,numeral_append,value_of,last]
        simp only [Option.bind_some,IntegerBase.numeral,List.foldlM_cons,List.foldlM_nil,valid.digit _ lowest]
        exact congrArg some whole
      · rw [plain_append,last,ungrouped single,off single]
      · rw [List.append_assoc]
        exact total
    · rw [if_neg some_]
      obtain rfl : value = 0 := by omega
      refine ⟨[],rfl,rfl,fun _ => rfl,fun _ => rfl,?_⟩
      rw [List.nil_append]
      rcases groups with three | four
      · rw [three] at used
        omega
      · rw [four] at used
        omega

theorem numeral_zeros {b : IntegerBase} (valid : b.Valid most) (n : Nat) (s : List UInt8) :
    b.numeral 0 (List.replicate n '0'.toUInt8 ++ s) = b.numeral 0 s := by
  induction n with
  | zero => rfl
  | succ n ih =>
    rw [List.replicate_succ,List.cons_append,IntegerBase.numeral,List.foldlM_cons,valid.zero,Option.map_some,Nat.zero_mul]
    exact ih

theorem plain_zeros (n : Nat) (s : List UInt8) : plain (List.replicate n '0'.toUInt8 ++ s) = List.replicate n '0'.toUInt8 ++ plain s := by
  rw [plain_append]
  exact congrArg (· ++ plain s) (List.filter_replicate_of_pos (by decide))

theorem pushZeros_spec (precision : Int32) (fuel : Nat) (buf : List UInt8) (used : buf.length ≤ 63) (rounds : 63 - buf.length < fuel) :
    ∃ n, pushZeros precision fuel buf = .ok (List.replicate n '0'.toUInt8 ++ buf) ∧ n + buf.length ≤ 63 ∧
      min precision.toInt 63 ≤ n + buf.length := by
  induction fuel generalizing buf with
  | zero => omega
  | succ fuel ih =>
    rw [pushZeros]
    have compare : Int32.ofNat buf.length < precision ↔ (buf.length : Int) < precision.toInt := by
      rw [Int32.lt_iff_toInt_lt,Int32.toInt_ofNat_of_lt (by omega)]
    split
    · rename_i more
      obtain ⟨n,run,room,enough⟩ := ih ('0'.toUInt8 :: buf) (by rw [List.length_cons]; omega) (by rw [List.length_cons]; omega)
      rw [List.length_cons] at room enough
      refine ⟨n + 1,?_,by omega,by omega⟩
      rw [push_run (by omega)]
      simp only [Bind.bind,Except.bind]
      rw [run,List.replicate_succ',List.append_assoc]
      rfl
    · rename_i done
      refine ⟨0,rfl,by omega,?_⟩
      rw [compare] at done
      omega

/-- The buffer holds a numeral of the value. -/
theorem integerBuffer_spec (member : b ∈ bases) (value : UInt64) (c : PrintfConversion) :
    ∃ buf, integerBuffer value b c = .ok buf ∧ b.numeral 0 (plain buf) = some value.toNat ∧ (buf = [] → value = 0 ∧ c.precision = 0) ∧
      (c.flags.group = false → plain buf = buf) ∧ min c.precision.toInt 63 ≤ buf.length ∧ buf.length ≤ 64 := by
  obtain ⟨most,valid⟩ := bases_valid member
  have few := valid.few
  obtain ⟨ds,digits,denotes,none,ungrouped,short⟩ := pushDigits_spec valid c.flags.group 65 most value.toNat 0 []
    (Nat.lt_of_lt_of_le value.toNat_lt valid.enough) (by omega) (by omega) (Nat.zero_le _)
  rw [List.append_nil] at digits short
  obtain ⟨n,zeros,room,enough⟩ := pushZeros_spec (if c.precision < 0 then 1 else c.precision) 65 ds (by omega) (by omega)
  have precise : min c.precision.toInt 63 ≤ min (if c.precision < 0 then 1 else c.precision).toInt 63 := by
    split
    · rename_i negative
      rw [Int32.lt_iff_toInt_lt] at negative
      change c.precision.toInt < 0 at negative
      change min _ 63 ≤ min 1 63
      omega
    · exact Int.le_refl _
  have empty : n + ds.length = 0 → value = 0 ∧ c.precision = 0 := by
    intro nothing
    refine ⟨UInt64.toNat_inj.mp (none (List.eq_nil_of_length_eq_zero (by omega))),Int32.toInt_inj.mp ?_⟩
    split at enough
    · change min 1 63 ≤ _ at enough
      omega
    · rename_i positive
      rw [Int32.lt_iff_toInt_lt] at positive
      change ¬ c.precision.toInt < 0 at positive
      change c.precision.toInt = 0
      omega
  have padded : ∀ k, n ≤ k → k + ds.length ≤ 64 → b.numeral 0 (plain (List.replicate k '0'.toUInt8 ++ ds)) = some value.toNat ∧
      (List.replicate k '0'.toUInt8 ++ ds = [] → value = 0 ∧ c.precision = 0) ∧
      (c.flags.group = false → plain (List.replicate k '0'.toUInt8 ++ ds) = List.replicate k '0'.toUInt8 ++ ds) ∧
      min c.precision.toInt 63 ≤ (List.replicate k '0'.toUInt8 ++ ds).length ∧ (List.replicate k '0'.toUInt8 ++ ds).length ≤ 64 := by
    intro k more most_
    rw [plain_zeros,numeral_zeros valid,List.length_append,List.length_replicate]
    refine ⟨denotes,fun nothing => empty ?_,fun off => by rw [ungrouped off],by omega,most_⟩
    have length := congrArg List.length nothing
    rw [List.length_append,List.length_replicate,List.length_nil] at length
    omega
  unfold integerBuffer
  simp only [digits,zeros,Bind.bind,Except.bind]
  split
  · rw [push_run (by rw [List.length_append,List.length_replicate]; omega)]
    exact ⟨_,rfl,padded (n + 1) (by omega) (by omega)⟩
  · exact ⟨_,rfl,padded n (Nat.le_refl n) (by omega)⟩

/-! The layout. -/

def signText (is_signed negative : Bool) (flags : Flags) : List UInt8 :=
  if !is_signed then []
  else if negative then ['-'.toUInt8]
  else if flags.plus then ['+'.toUInt8]
  else if flags.space then [' '.toUInt8]
  else []

def hexText (value : UInt64) (b : IntegerBase) (flags : Flags) : List UInt8 :=
  if flags.pound ∧ value ≠ 0 ∧ b.base = 16 then ['0'.toUInt8,b.x] else []

def layout (flags : Flags) (cnt : Nat) (sign hex body : List UInt8) : List UInt8 :=
  (if !flags.minus && !flags.zero then List.replicate cnt ' '.toUInt8 else []) ++ sign ++ hex ++
    (if flags.zero then List.replicate cnt '0'.toUInt8 else []) ++ body ++ (if flags.minus then List.replicate cnt ' '.toUInt8 else [])

theorem feed_append (output : UInt8 → σ → σ) (s : σ) (first second : List UInt8) :
    feed output s (first ++ second) = feed output (feed output s first) second := List.foldl_append

theorem output_dup_feed (output : UInt8 → σ → σ) (ch : UInt8) (cnt : Nat) (s : σ) :
    output_dup output ch cnt s = feed output s (List.replicate cnt ch) := by
  induction cnt generalizing s with
  | zero => rfl
  | succ cnt ih => exact ih _

theorem doIf_feed {output : UInt8 → σ → σ} {f : σ → σ} (same : ∀ s, f s = feed output s text) (p : Bool) (s : σ) :
    doIf p f s = feed output s (if p then text else []) := by
  cases p with
  | false => rfl
  | true => exact same s

theorem signOf_text (is_signed negative : Bool) (flags : Flags) :
    (if signOf is_signed negative flags != 0 then [signOf is_signed negative flags] else []) = signText is_signed negative flags := by
  unfold signOf signText
  cases is_signed <;> cases negative <;> cases flags.plus <;> cases flags.space <;> rfl

theorem xOf_text (member : b ∈ bases) (value : UInt64) (flags : Flags) :
    (if xOf value b flags != 0 then ['0'.toUInt8,xOf value b flags] else []) = hexText value b flags := by
  have known : b = base_d ∨ b = base_o ∨ b = base_x ∨ b = base_X := by simpa [bases] using member
  unfold xOf hexText
  by_cases given : flags.pound ∧ value ≠ 0
  · rw [if_pos given]
    rcases known with rfl | rfl | rfl | rfl
    · exact (if_neg fun all => absurd all.2.2 (by decide)).symm
    · exact (if_neg fun all => absurd all.2.2 (by decide)).symm
    · exact (if_pos ⟨given.1,given.2,rfl⟩).symm
    · exact (if_pos ⟨given.1,given.2,rfl⟩).symm
  · rw [if_neg given]
    exact (if_neg fun all => given ⟨all.1,all.2.1⟩).symm

theorem outputInteger_feed (output : UInt8 → σ → σ) (flags : Flags) (cnt : Nat) (sign x : UInt8) (buf : List UInt8) (s : σ) :
    outputInteger output flags cnt sign x buf s =
      feed output s (layout flags cnt (if sign != 0 then [sign] else []) (if x != 0 then ['0'.toUInt8,x] else []) buf) := by
  have hex : ∀ s, output x (output '0'.toUInt8 s) = feed output s ['0'.toUInt8,x] := fun _ => rfl
  have one : ∀ s, output sign s = feed output s [sign] := fun _ => rfl
  unfold outputInteger layout
  simp only [feed_append,doIf_feed (output_dup_feed output _ cnt),doIf_feed one,doIf_feed hex]
  rfl

/-- The number of pad characters, whose computation wraps only for a negative width. -/
theorem padCnt_eq (c : PrintfConversion) (buf : List UInt8) (x sign : UInt8) (short : buf.length ≤ 64) :
    padCnt c buf x sign =
      ((c.width.toInt - (buf.length + (if x ≠ 0 then 2 else 0) + (if sign ≠ 0 then 1 else 0) : Nat)).bmod (2 ^ 32)).toNat := by
  have low := c.width.le_toInt
  have two : (if x ≠ 0 then 2 else 0 : Int32).toInt = ((if x ≠ 0 then 2 else 0 : Nat) : Int) := by split <;> rfl
  have one : (if sign ≠ 0 then 1 else 0 : Int32).toInt = ((if sign ≠ 0 then 1 else 0 : Nat) : Int) := by split <;> rfl
  have value : (c.width - Int32.ofNat buf.length - (if x ≠ 0 then 2 else 0) - (if sign ≠ 0 then 1 else 0)).toInt =
      (c.width.toInt - (buf.length + (if x ≠ 0 then 2 else 0) + (if sign ≠ 0 then 1 else 0) : Nat)).bmod (2 ^ 32) := by
    rw [Int32.toInt_sub,Int32.toInt_sub,Int32.toInt_sub,Int.bmod_sub_bmod,Int.sub_sub,Int.bmod_sub_bmod,two,one,
      Int32.toInt_ofNat_of_lt (by omega)]
    congr 1
    omega
  rw [← value]
  unfold padCnt
  generalize c.width - Int32.ofNat buf.length - (if x ≠ 0 then 2 else 0) - (if sign ≠ 0 then 1 else 0) = pad_cnt
  simp only
  split
  · rename_i negative
    rw [Int32.lt_iff_toInt_lt] at negative
    change _ < 0 at negative
    omega
  · rename_i positive
    exact Int32.toNat_toUInt32_of_le (Int32.not_lt.mp positive)

/-- The pad characters fill the field. -/
theorem padCnt_fills (c : PrintfConversion) (buf : List UInt8) (x sign : UInt8) (short : buf.length ≤ 64) :
    c.width.toInt ≤ padCnt c buf x sign + (buf.length + (if x ≠ 0 then 2 else 0) + (if sign ≠ 0 then 1 else 0) : Nat) := by
  have high := c.width.toInt_lt
  rw [padCnt_eq c buf x sign short]
  have few : buf.length + (if x ≠ 0 then 2 else 0) + (if sign ≠ 0 then 1 else 0) ≤ 67 := by split <;> split <;> omega
  generalize buf.length + (if x ≠ 0 then 2 else 0) + (if sign ≠ 0 then 1 else 0) = taken at *
  by_cases negative : c.width.toInt < 0
  · omega
  · rw [Int.bmod_eq_of_le (by omega) (by omega)]
    omega

theorem padCnt_none (c : PrintfConversion) (buf : List UInt8) (x sign : UInt8) (short : buf.length ≤ 64) (none : c.width = 0) :
    padCnt c buf x sign = 0 := by
  have few : buf.length + (if x ≠ 0 then 2 else 0) + (if sign ≠ 0 then 1 else 0) ≤ 67 := by split <;> split <;> omega
  rw [padCnt_eq c buf x sign short,none]
  generalize buf.length + (if x ≠ 0 then 2 else 0) + (if sign ≠ 0 then 1 else 0) = taken at *
  change ((0 - (taken : Int)).bmod (2 ^ 32)).toNat = 0
  rw [Int.bmod_eq_of_le (by omega) (by omega)]
  omega

theorem layout_length (flags : Flags) (cnt : Nat) (sign hex body : List UInt8) :
    cnt + sign.length + hex.length + body.length ≤ (layout flags cnt sign hex body).length := by
  unfold layout
  cases flags.minus <;> cases flags.zero <;> simp <;> omega

structure Formatted (b : IntegerBase) (value : UInt64) (c : PrintfConversion) (sign hex : List UInt8) (cnt : Nat) (body : List UInt8) : Prop where
  /-- Without commas the digits denote the value. -/
  denotes : b.numeral 0 (plain body) = some value.toNat
  empty : body = [] → value = 0 ∧ c.precision = 0
  ungrouped : c.flags.group = false → plain body = body
  precise : min c.precision.toInt 63 ≤ body.length
  fits : body.length ≤ 64
  wide : c.width.toInt ≤ (layout c.flags cnt sign hex body).length

theorem format_integer_spec (member : b ∈ bases) (value : UInt64) (is_signed negative : Bool) (c : PrintfConversion) :
    ∃ cnt body, Formatted b value c (signText is_signed negative c.flags) (hexText value b c.flags) cnt body ∧ (c.width = 0 → cnt = 0) ∧
      ∀ {σ : Type} (output : UInt8 → σ → σ) (s : σ), format_integer output value is_signed negative b c s =
        .ok (feed output s (layout c.flags cnt (signText is_signed negative c.flags) (hexText value b c.flags) body)) := by
  obtain ⟨body,made,denotes,empty,ungrouped,precise,short⟩ := integerBuffer_spec member value c
  refine ⟨padCnt c body (xOf value b c.flags) (signOf is_signed negative c.flags),body,⟨denotes,empty,ungrouped,precise,short,?_⟩,
    padCnt_none _ _ _ _ short,?_⟩
  · have fills := padCnt_fills c body (xOf value b c.flags) (signOf is_signed negative c.flags) short
    have length := layout_length c.flags (padCnt c body (xOf value b c.flags) (signOf is_signed negative c.flags))
      (signText is_signed negative c.flags) (hexText value b c.flags) body
    have sign : (signText is_signed negative c.flags).length = if signOf is_signed negative c.flags ≠ 0 then 1 else 0 := by
      rw [← signOf_text]
      by_cases none : signOf is_signed negative c.flags = 0 <;> simp [none]
    have hex : (hexText value b c.flags).length = if xOf value b c.flags ≠ 0 then 2 else 0 := by
      rw [← xOf_text member]
      by_cases none : xOf value b c.flags = 0 <;> simp [none]
    omega
  · intro σ output s
    unfold format_integer
    simp only [made,Bind.bind,Except.bind]
    rw [outputInteger_feed,signOf_text,xOf_text member]
    rfl

end OsProj.Printf
