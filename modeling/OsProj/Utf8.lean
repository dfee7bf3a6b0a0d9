import Mathlib.Data.List.Basic
import Mathlib.Data.List.Infix

/-! UTF-8 on lists of bytes. The encoding is a prefix code, a byte below 128 stands for itself, and
no other character has such a byte in its encoding. -/
namespace OsProj.Utf8

def encode (chars : List Char) : List UInt8 := chars.flatMap String.utf8EncodeChar

def decode (bytes : List UInt8) : Option (List Char) := bytes.toByteArray.utf8Decode?.map Array.toList

@[simp] theorem encode_nil : encode [] = [] := rfl

theorem encode_cons (c : Char) (chars : List Char) : encode (c :: chars) = String.utf8EncodeChar c ++ encode chars := rfl

@[simp] theorem encode_append (left right : List Char) : encode (left ++ right) = encode left ++ encode right :=
  List.flatMap_append

theorem toByteArray_inj {left right : List UInt8} (same : left.toByteArray = right.toByteArray) : left = right := by
  have arrays := congrArg ByteArray.data same
  simpa using arrays

theorem decode_encode (chars : List Char) : decode (encode chars) = some chars := by
  have decoded : chars.utf8Encode.utf8Decode? = some chars.toArray := List.utf8Decode?_utf8Encode
  change Option.map Array.toList chars.utf8Encode.utf8Decode? = _
  rw [decoded]
  rfl

theorem decode_eq_some_iff {bytes : List UInt8} {chars : List Char} : decode bytes = some chars ↔ bytes = encode chars := by
  constructor
  · intro decoded
    have valid : bytes.toByteArray.utf8Decode?.isSome := by
      rw [← Option.isSome_map,show Option.map Array.toList _ = some chars from decoded]
      rfl
    obtain ⟨others,same⟩ := ByteArray.isSome_utf8Decode?_iff.mp valid
    obtain rfl : bytes = encode others := toByteArray_inj same
    rw [decode_encode] at decoded
    rw [Option.some.inj decoded]
  · rintro rfl
    exact decode_encode chars

theorem encode_prefix {front chars : List Char} {rest : List UInt8} (same : encode front ++ rest = encode chars) :
    ∃ back, chars = front ++ back ∧ rest = encode back := by
  have begins : front <+: chars := by
    apply List.isPrefix_of_utf8Encode_append_eq_utf8Encode rest.toByteArray
    rw [List.utf8Encode,List.utf8Encode,← List.toByteArray_append]
    exact congrArg List.toByteArray same
  obtain ⟨back,rfl⟩ := begins
  rw [encode_append] at same
  exact ⟨back,rfl,List.append_cancel_left same⟩

theorem decode_append {front : List UInt8} {chars : List Char} (decoded : decode front = some chars) (rest : List UInt8) :
    decode (front ++ rest) = (decode rest).map (chars ++ ·) := by
  obtain rfl := decode_eq_some_iff.mp decoded
  cases back : decode rest with
  | some others =>
    rw [decode_eq_some_iff.mp back,← encode_append,decode_encode]
    rfl
  | none =>
    rw [Option.map_none,Option.eq_none_iff_forall_ne_some]
    intro all whole
    obtain ⟨others,-,same⟩ := encode_prefix (decode_eq_some_iff.mp whole)
    rw [same,decode_encode] at back
    cases back

/-! ASCII. -/

theorem high_of_eq {n : Nat} (low : 128 ≤ n) (fits : n < 256) : (128 : UInt8) ≤ UInt8.ofNat n := by
  rw [UInt8.le_iff_toNat_le,UInt8.toNat_ofNat_of_lt' fits]
  exact low

/-- A character is one byte below 128, or several bytes that are all from 128 on. -/
theorem utf8EncodeChar_cases (c : Char) :
    (∃ b < 128,String.utf8EncodeChar c = [b] ∧ c = Char.ofNat b.toNat) ∨
      (∀ b ∈ String.utf8EncodeChar c, 128 ≤ b) ∧ 2 ≤ (String.utf8EncodeChar c).length := by
  unfold String.utf8EncodeChar
  by_cases ascii : c.val.toNat ≤ 0x7f
  · left
    have same : (UInt8.ofNat c.val.toNat).toNat = c.toNat := UInt8.toNat_ofNat_of_lt' (show c.val.toNat < 256 by omega)
    refine ⟨UInt8.ofNat c.val.toNat,?_,by simp only [if_pos ascii],?_⟩
    · rw [UInt8.lt_iff_toNat_lt,same]
      exact Nat.lt_succ_of_le ascii
    · rw [same,Char.ofNat_toNat]
  · right
    simp only [if_neg ascii]
    split
    · refine ⟨?_,Nat.le_refl _⟩
      intro b inside
      simp only [List.mem_cons,List.not_mem_nil,or_false] at inside
      rcases inside with rfl | rfl
      all_goals exact high_of_eq (by omega) (by omega)
    · split
      · refine ⟨?_,Nat.le_add_left 2 1⟩
        intro b inside
        simp only [List.mem_cons,List.not_mem_nil,or_false] at inside
        rcases inside with rfl | rfl | rfl
        all_goals exact high_of_eq (by omega) (by omega)
      · refine ⟨?_,Nat.le_add_left 2 2⟩
        intro b inside
        simp only [List.mem_cons,List.not_mem_nil,or_false] at inside
        rcases inside with rfl | rfl | rfl | rfl
        all_goals exact high_of_eq (by omega) (by omega)

theorem encode_ascii {b : UInt8} (ascii : b < 128) : encode [Char.ofNat b.toNat] = [b] := by
  have small : b.toNat < 128 := UInt8.lt_iff_toNat_lt.mp ascii
  have same : (Char.ofNat b.toNat).val.toNat = b.toNat := by
    rw [Char.ofNat,dif_pos (show b.toNat.isValidChar from .inl (by omega))]
    rfl
  rw [encode_cons,encode_nil,List.append_nil,String.utf8EncodeChar]
  simp only [same,if_pos (show b.toNat ≤ 0x7f by omega),UInt8.ofNat_toNat]

/-- A byte below 128 is a character of its own, so the bytes around it are UTF-8 each. -/
theorem encode_eq_separated {chars : List Char} {front back : List UInt8} {b : UInt8} (ascii : b < 128)
    (same : encode chars = front ++ b :: back) :
    ∃ left right, chars = left ++ Char.ofNat b.toNat :: right ∧ front = encode left ∧ back = encode right := by
  induction chars generalizing front with
  | nil => simp at same
  | cons c chars ih =>
    rw [encode_cons] at same
    rcases utf8EncodeChar_cases c with ⟨d,-,single,char⟩ | ⟨high,-⟩
    · rw [single,List.singleton_append] at same
      cases front with
      | nil =>
        obtain ⟨rfl,rfl⟩ := List.cons.inj same
        exact ⟨[],chars,by rw [char]; rfl,rfl,rfl⟩
      | cons e front =>
        obtain ⟨rfl,later⟩ := List.cons.inj same
        obtain ⟨left,right,rfl,rfl,rfl⟩ := ih later
        exact ⟨c :: left,right,rfl,by rw [encode_cons,single]; rfl,rfl⟩
    · rcases List.append_eq_append_iff.mp same with ⟨gap,rfl,rest⟩ | ⟨gap,char,rest⟩
      · obtain ⟨left,right,rfl,rfl,rfl⟩ := ih rest
        exact ⟨c :: left,right,rfl,rfl,rfl⟩
      · cases gap with
        | nil =>
          obtain ⟨left,right,rfl,empty,rfl⟩ := ih (show encode chars = [] ++ b :: back from rest.symm)
          refine ⟨c :: left,right,rfl,?_,rfl⟩
          rw [encode_cons,← empty,char,List.append_nil,List.append_nil]
        | cons d gap =>
          -- the byte would be part of the encoding of a character that has none below 128
          obtain ⟨rfl,-⟩ := List.cons.inj rest
          exact absurd ascii (UInt8.not_lt.mpr (high b (by simp [char])))

theorem decode_separated {front back : List UInt8} {b : UInt8} (ascii : b < 128) :
    decode (front ++ b :: back) =
      (decode front).bind fun left => (decode back).map fun right => left ++ Char.ofNat b.toNat :: right := by
  cases first : decode front with
  | some left =>
    rw [decode_append first,← List.singleton_append,decode_append (decode_eq_some_iff.mpr (encode_ascii ascii).symm)]
    cases decode back with
    | none => rfl
    | some right => rfl
  | none =>
    rw [Option.bind_none,Option.eq_none_iff_forall_ne_some]
    intro chars whole
    obtain ⟨left,right,-,same,-⟩ := encode_eq_separated ascii (decode_eq_some_iff.mp whole).symm
    rw [same,decode_encode] at first
    cases first

theorem decode_cons_ascii {b : UInt8} (ascii : b < 128) (bytes : List UInt8) :
    decode (b :: bytes) = (decode bytes).map (Char.ofNat b.toNat :: ·) := by
  have whole : decode ([] ++ b :: bytes) = _ := decode_separated ascii
  rwa [decode_eq_some_iff.mpr (encode_nil).symm] at whole

theorem decode_ascii {bytes : List UInt8} (ascii : ∀ b ∈ bytes, b < 128) : (decode bytes).isSome := by
  induction bytes with
  | nil => exact Option.isSome_of_eq_some (decode_encode [])
  | cons b bytes ih =>
    rw [decode_cons_ascii (ascii b (by simp)),Option.isSome_map]
    exact ih fun c inside => ascii c (by simp [inside])

/-- One byte from 128 on is not UTF-8. -/
theorem decode_high {b : UInt8} (high : 128 ≤ b) : decode [b] = none := by
  rw [Option.eq_none_iff_forall_ne_some]
  intro chars decoded
  have same := decode_eq_some_iff.mp decoded
  cases chars with
  | nil => cases same
  | cons c chars =>
    rw [encode_cons] at same
    rcases utf8EncodeChar_cases c with ⟨d,ascii,single,-⟩ | ⟨-,long⟩
    · rw [single] at same
      obtain ⟨rfl,-⟩ := List.cons.inj same
      exact absurd ascii (UInt8.not_lt.mpr high)
    · have lengths := congrArg List.length same
      rw [List.length_append,List.length_singleton] at lengths
      omega

/-- Bytes that are UTF-8 wherever they are cut off are ASCII. -/
theorem ascii_of_take {bytes : List UInt8} (valid : ∀ n, (decode (bytes.take n)).isSome) : ∀ b ∈ bytes, b < 128 := by
  induction bytes with
  | nil => simp
  | cons b bytes ih =>
    have ascii : b < 128 := by
      by_contra high
      have one := valid 1
      rw [List.take_succ_cons,List.take_zero,decode_high (UInt8.not_lt.mp high)] at one
      cases one
    have later : ∀ n, (decode (bytes.take n)).isSome := by
      intro n
      have next := valid (n + 1)
      rwa [List.take_succ_cons,decode_cons_ascii ascii,Option.isSome_map] at next
    intro c inside
    rcases List.mem_cons.mp inside with rfl | behind
    · exact ascii
    · exact ih later c behind

end OsProj.Utf8
