import Mathlib.Algebra.GroupWithZero.Nat
import Mathlib.Algebra.Order.BigOperators.Group.List
import Mathlib.Algebra.Order.Group.Nat
import Mathlib.Data.List.TakeWhile
import OsProj.FileSys

/-! Headers of ustar archives: composing one and parsing it. A header is the first 512 bytes of
a buffer. -/
namespace OsProj.Ustar

open OsProj.ByteMemory
open OsProj.FileSys (CString)

def ustarHeaderSize : Nat := 512

/-- The type of an entry that a header can be composed for, with its byte. -/
inductive UstarType where
  | regular
  | directory
  deriving DecidableEq, Repr

def UstarType.flag : UstarType → UInt8
  | .regular => 48
  | .directory => 53

/-! Strings. -/

def put (h : Memory) (ofs : Nat) (bytes : List UInt8) : Memory :=
  fun i => if ofs ≤ i ∧ i < ofs + bytes.length then bytes.getD (i - ofs) 0 else h i

/-- Also what `snprintf` does with the text that it formats. -/
def strlcpy (h : Memory) (ofs : Nat) (text : List UInt8) (size : Nat) : Memory := put h ofs (text.take (size - 1) ++ [0])

/-- The octal digits of an `unsigned`, of which there are at most eleven, without leading zeros. -/
def octalDigits : Nat → Nat → List UInt8
  | 0, _ => []
  | n + 1, value => if value = 0 then [] else octalDigits n (value / 8) ++ [UInt8.ofNat (48 + value % 8)]

def octal (width value : Nat) : List UInt8 :=
  List.replicate (width - (octalDigits 11 value).length) 48 ++ octalDigits 11 value

def bytesAt (h : Memory) (ofs len : Nat) : List UInt8 := (List.range len).map fun i => h (ofs + i)

/-- The loop of `strip_antisocial_prefixes`, which goes on behind the first slash. -/
def stripPrefixes : List UInt8 → List UInt8
  | 47 :: rest => stripPrefixes rest
  | 46 :: 47 :: rest => stripPrefixes rest
  | 46 :: 46 :: 47 :: rest => stripPrefixes rest
  | name => name

theorem stripPrefixes_suffix (name : List UInt8) : stripPrefixes name <:+ name := by
  fun_induction stripPrefixes name with
  | case1 rest ih => exact ih.trans (List.suffix_cons _ _)
  | case2 rest ih => exact ih.trans ((List.suffix_cons _ _).trans (List.suffix_cons _ _))
  | case3 rest ih => exact ih.trans ((List.suffix_cons _ _).trans ((List.suffix_cons _ _).trans (List.suffix_cons _ _)))
  | case4 name => exact List.suffix_refl name

/-- What a stripped name must not begin with: '/', './' or '../'. -/
def Antisocial (name : List UInt8) : Prop := [47] <+: name ∨ [46,47] <+: name ∨ [46,46,47] <+: name

instance (name : List UInt8) : Decidable (Antisocial name) := inferInstanceAs (Decidable (_ ∨ _ ∨ _))

theorem stripPrefixes_social (name : List UInt8) : ¬Antisocial (stripPrefixes name) := by
  fun_induction stripPrefixes name with
  | case1 rest ih => exact ih
  | case2 rest ih => exact ih
  | case3 rest ih => exact ih
  | case4 name slash dot dots =>
    rintro (⟨rest,begins⟩ | ⟨rest,begins⟩ | ⟨rest,begins⟩)
    · exact slash rest begins.symm
    · exact dot rest begins.symm
    · exact dots rest begins.symm

theorem stripPrefixes_same (social : ¬Antisocial name) : stripPrefixes name = name := by
  fun_cases stripPrefixes name with
  | case1 rest => exact absurd (.inl ⟨rest,rfl⟩) social
  | case2 rest => exact absurd (.inr (.inl ⟨rest,rfl⟩)) social
  | case3 rest => exact absurd (.inr (.inr ⟨rest,rfl⟩)) social
  | case4 => rfl

def stripAntisocialPrefixes (fileName : CString) : CString :=
  if stripPrefixes fileName.val = [] ∨ stripPrefixes fileName.val = [46,46] then ⟨[46],by decide⟩
  else ⟨stripPrefixes fileName.val,fun zero => fileName.property ((stripPrefixes_suffix _).mem zero)⟩

/-- A stripped name is a social one that is neither empty nor "..". -/
theorem stripped_name (fileName : CString) :
    (stripAntisocialPrefixes fileName).val ≠ [] ∧ (stripAntisocialPrefixes fileName).val ≠ [46,46] ∧
      ¬Antisocial (stripAntisocialPrefixes fileName).val := by
  unfold stripAntisocialPrefixes
  split
  · decide
  · rename_i kept
    rw [not_or] at kept
    exact ⟨kept.1,kept.2,stripPrefixes_social _⟩

theorem strip_stripped (fileName : CString) :
    stripAntisocialPrefixes (stripAntisocialPrefixes fileName) = stripAntisocialPrefixes fileName := by
  obtain ⟨nonempty,other,social⟩ := stripped_name fileName
  have same := stripPrefixes_same social
  apply Subtype.ext
  generalize stripAntisocialPrefixes fileName = name at *
  rw [stripAntisocialPrefixes,if_neg (by rw [same]; tauto)]
  exact same

/-! Headers. The fields are at fixed offsets: the name at 0, the mode at 100, the owners at 108 and
116, the size at 124, the time at 136, the checksum at 148, the type at 156, the magic at 257, the
version at 263, the names of the owners at 265 and 297 and the prefix at 345. -/

def chksumStart : Nat := 148

def chksumEnd : Nat := 156

/-- The checksum as if its own field were all spaces. -/
def calculateChksum (h : Memory) : Nat :=
  ((List.range ustarHeaderSize).map fun i => if chksumStart ≤ i ∧ i < chksumEnd then 32 else (h i).toNat).sum % 4294967296

def zeros : List UInt8 := [48,48,48,48,48,48,48]

def ustarMagic : List UInt8 := [117,115,116,97,114]

def root : List UInt8 := [114,111,111,116]

def fillHeader (fileName : CString) (type : UstarType) (size : Nat) : Memory :=
  let h := strlcpy (fun _ => 0) 0 fileName.val 100
  let h := strlcpy h 100 (octal 7 (if type = .regular then 420 else 493)) 8
  let h := strlcpy h 108 zeros 8
  let h := strlcpy h 116 zeros 8
  let h := strlcpy h 124 (octal 11 size) 12
  let h := strlcpy h 136 (octal 11 1136102400) 12
  let h := put h 156 [type.flag]
  let h := strlcpy h 257 ustarMagic 6
  let h := put h 263 [48,48]
  let h := strlcpy h 297 root 32
  strlcpy h 265 root 32

/-- There is no header for a name that is too long. -/
def ustarMakeHeader (fileName : CString) (type : UstarType) (size : Nat) : Option Memory :=
  let fileName := stripAntisocialPrefixes fileName
  if 99 < fileName.val.length then none
  else some (strlcpy (fillHeader fileName type size) 148 (octal 7 (calculateChksum (fillHeader fileName type size))) 8)

def ulongMax : Nat := 4294967295

/-- The loop over the field, with the offset reached and the value so far. -/
def parseOctalField : List UInt8 → Nat → Nat → Option Nat
  | [], _, _ => none
  | c :: rest, ofs, value =>
    if 48 ≤ c ∧ c ≤ 55 then
      if ulongMax / 8 < value then none else parseOctalField rest (ofs + 1) (c.toNat - 48 + value * 8)
    else if c = 32 ∨ c = 0 then if 0 < ofs then some value else none
    else none

def isAllZeros (h : Memory) (cnt : Nat) : Bool := (List.range cnt).all fun i => h i == 0

/-- What a header says: the end of the archive, or the name of an entry and the size of a file. -/
inductive Parsed where
  | eof
  | directory (fileName : CString)
  | regular (fileName : CString) (size : Nat)

def nameField (h : Memory) : CString :=
  ⟨(bytesAt h 0 100).takeWhile (· != 0),fun zero => by simpa using List.mem_takeWhile_imp zero⟩

/-- The parsed header, or the text of the error. -/
def ustarParseHeader (h : Memory) : Except String Parsed :=
  if isAllZeros h ustarHeaderSize then .ok .eof
  else if bytesAt h 257 6 ≠ ustarMagic ++ [0] then .error "not a ustar archive"
  else if h 263 ≠ 48 ∨ h 264 ≠ 48 then .error "invalid ustar version"
  else
    match parseOctalField (bytesAt h 148 8) 0 0 with
    | none => .error "corrupt chksum field"
    | some chksum =>
      if chksum ≠ calculateChksum h then .error "checksum mismatch"
      else if h 99 ≠ 0 ∨ h 345 ≠ 0 then .error "file name too long"
      else if h 156 ≠ UstarType.regular.flag ∧ h 156 ≠ UstarType.directory.flag then .error "unimplemented file type"
      else if h 156 = UstarType.regular.flag then
        match parseOctalField (bytesAt h 124 12) 0 0 with
        | none => .error "corrupt file size field"
        | some size =>
          if 2147483647 < size then .error "file too large"
          else .ok (.regular (stripAntisocialPrefixes (nameField h)) size)
      else .ok (.directory (stripAntisocialPrefixes (nameField h)))

/-! Octal fields. -/

/-- A value below `8 ^ width` has no more than `width` digits. -/
theorem octalDigits_width (small : value < 8 ^ width) : (octalDigits n value).length ≤ width := by
  induction n generalizing value width with
  | zero => simp [octalDigits]
  | succ n ih =>
    rw [octalDigits]
    split
    · simp
    · cases width with
      | zero => omega
      | succ width =>
        have smaller : value / 8 < 8 ^ width := by
          rw [Nat.pow_succ] at small
          omega
        have shorter := ih smaller
        simp only [List.length_append,List.length_singleton]
        omega

theorem octal_length (small : value < 8 ^ width) : (octal width value).length = width := by
  have shorter : (octalDigits 11 value).length ≤ width := octalDigits_width small
  simp only [octal,List.length_append,List.length_replicate]
  omega

theorem parse_digit (d : Nat) (digit : d < 8) (small : value ≤ ulongMax / 8) :
    parseOctalField (UInt8.ofNat (48 + d) :: rest) ofs value = parseOctalField rest (ofs + 1) (d + value * 8) := by
  have byte : (UInt8.ofNat (48 + d)).toNat = 48 + d := by
    rw [UInt8.toNat_ofNat']
    omega
  have low : (48 : UInt8) ≤ UInt8.ofNat (48 + d) := by
    rw [UInt8.le_iff_toNat_le,byte]
    simp
  have high : UInt8.ofNat (48 + d) ≤ 55 := by
    rw [UInt8.le_iff_toNat_le,byte]
    simp only [UInt8.reduceToNat]
    omega
  rw [parseOctalField,if_pos ⟨low,high⟩,if_neg (by omega),byte,Nat.add_sub_cancel_left]

theorem parse_zeros (n : Nat) : parseOctalField (List.replicate n 48 ++ rest) ofs 0 = parseOctalField rest (ofs + n) 0 := by
  induction n generalizing ofs with
  | zero => rfl
  | succ n ih =>
    have first : parseOctalField (UInt8.ofNat (48 + 0) :: (List.replicate n 48 ++ rest)) ofs 0 =
        parseOctalField (List.replicate n 48 ++ rest) (ofs + 1) (0 + 0 * 8) := parse_digit 0 (by omega) (by decide)
    rw [List.replicate_succ,List.cons_append]
    refine first.trans ?_
    rw [ih]
    congr 1
    omega

theorem parse_digits (small : value ≤ ulongMax) (enough : value < 8 ^ n) :
    parseOctalField (octalDigits n value ++ rest) ofs 0 =
      parseOctalField rest (ofs + (octalDigits n value).length) value := by
  induction n generalizing value rest with
  | zero =>
    have zero : value = 0 := by simpa using enough
    simp [octalDigits,zero]
  | succ n ih =>
    rw [octalDigits]
    split
    · rename_i zero
      simp [zero]
    · have smaller : value / 8 < 8 ^ n := by
        rw [Nat.pow_succ] at enough
        omega
      have quotient : value / 8 ≤ ulongMax / 8 := Nat.div_le_div_right small
      rw [List.append_assoc,ih (by omega) smaller,List.singleton_append,parse_digit _ (Nat.mod_lt _ (by decide)) quotient]
      have digits : value % 8 + value / 8 * 8 = value := by omega
      rw [digits,List.length_append,List.length_singleton,Nat.add_assoc]

/-- A formatted field is parsed back. -/
theorem parse_octal (value width : Nat) (small : value ≤ ulongMax) (positive : 0 < width) (fits : value < 8 ^ width) :
    parseOctalField (octal width value ++ [0]) 0 0 = some value := by
  have enough : value < 8 ^ 11 := by
    simp only [ulongMax] at small
    omega
  have shorter : (octalDigits 11 value).length ≤ width := octalDigits_width fits
  rw [octal,List.append_assoc,parse_zeros,parse_digits small enough,parseOctalField,if_neg (by decide),if_pos (Or.inr rfl),
    if_pos (by omega)]

/-! The fields of a header that was composed. -/

section
variable {h h' : Memory}

theorem bytesAt_congr (same : ∀ i, ofs ≤ i → i < ofs + len → h i = h' i) : bytesAt h ofs len = bytesAt h' ofs len := by
  apply List.map_congr_left
  intro i inside
  rw [List.mem_range] at inside
  exact same _ (by omega) (by omega)

theorem put_apart (bytes : List UInt8) (outside : i < a ∨ a + bytes.length ≤ i) : put h a bytes i = h i := if_neg (by omega)

theorem strlcpy_apart (text : List UInt8) (positive : 0 < size) (outside : i < a ∨ a + size ≤ i) :
    strlcpy h a text size i = h i := by
  apply put_apart
  simp only [List.length_append,List.length_take,List.length_singleton]
  omega

theorem bytesAt_put (bytes : List UInt8) (apart : Apart a bytes.length ofs len) :
    bytesAt (put h a bytes) ofs len = bytesAt h ofs len := by
  unfold Apart at apart
  exact bytesAt_congr fun i low high => put_apart bytes (by omega)

theorem bytesAt_byte (byte : UInt8) (apart : Apart a 1 ofs len) : bytesAt (put h a [byte]) ofs len = bytesAt h ofs len :=
  bytesAt_put [byte] apart

theorem bytesAt_strlcpy (text : List UInt8) (positive : 0 < size) (apart : Apart a size ofs len) :
    bytesAt (strlcpy h a text size) ofs len = bytesAt h ofs len := by
  unfold Apart at apart
  exact bytesAt_congr fun i low high => strlcpy_apart text positive (by omega)

theorem bytesAt_put_same (bytes : List UInt8) : bytesAt (put h a bytes) a bytes.length = bytes := by
  apply List.ext_getElem
  · simp [bytesAt]
  · intro i inside inside'
    simp [bytesAt,put,inside']

theorem bytesAt_strlcpy_same (text : List UInt8) (fits : text.length + 1 = size) :
    bytesAt (strlcpy h a text size) a size = text ++ [0] := by
  have whole : text.take (size - 1) = text := List.take_of_length_le (by omega)
  have copied := bytesAt_put_same (h := h) (a := a) (text ++ [0])
  rw [strlcpy,whole]
  simpa [fits] using copied

theorem calculateChksum_congr (same : ∀ i, i < ustarHeaderSize → ¬(chksumStart ≤ i ∧ i < chksumEnd) → h i = h' i) :
    calculateChksum h = calculateChksum h' := by
  have terms : ((List.range ustarHeaderSize).map fun i => if chksumStart ≤ i ∧ i < chksumEnd then 32 else (h i).toNat) =
      (List.range ustarHeaderSize).map fun i => if chksumStart ≤ i ∧ i < chksumEnd then 32 else (h' i).toNat := by
    apply List.map_congr_left
    intro i inside
    rw [List.mem_range] at inside
    split
    · rfl
    · rename_i outside
      rw [same i inside outside]
  rw [calculateChksum,terms,calculateChksum]

theorem calculateChksum_lt (h : Memory) : calculateChksum h < 8 ^ 7 := by
  have bound : ((List.range ustarHeaderSize).map fun i => if chksumStart ≤ i ∧ i < chksumEnd then 32 else (h i).toNat).sum ≤
      ((List.range ustarHeaderSize).map fun i => if chksumStart ≤ i ∧ i < chksumEnd then 32 else (h i).toNat).length * 255 := by
    apply List.sum_le_card_nsmul
    intro term member
    obtain ⟨i,-,rfl⟩ := List.mem_map.mp member
    have byte := (h i).toNat_lt
    split <;> omega
  have length : ((List.range ustarHeaderSize).map fun i =>
      if chksumStart ≤ i ∧ i < chksumEnd then 32 else (h i).toNat).length = 512 := by simp [ustarHeaderSize]
  have most : calculateChksum h ≤ _ := Nat.mod_le _ _
  rw [length] at bound
  omega

/-- Only the first 512 bytes matter. -/
theorem ustarParseHeader_congr (same : ∀ i < ustarHeaderSize, h i = h' i) : ustarParseHeader h = ustarParseHeader h' := by
  have field (ofs len : Nat) (inside : ofs + len ≤ ustarHeaderSize) : bytesAt h ofs len = bytesAt h' ofs len :=
    bytesAt_congr fun i low high => same i (by omega)
  have all : isAllZeros h ustarHeaderSize = isAllZeros h' ustarHeaderSize := by
    unfold isAllZeros
    rw [Bool.eq_iff_iff,List.all_eq_true,List.all_eq_true]
    refine forall₂_congr fun i inside => ?_
    rw [same i (List.mem_range.mp inside)]
  have name : nameField h = nameField h' := by
    apply Subtype.ext
    simp only [nameField,field 0 100 (by decide)]
  have chksum : calculateChksum h = calculateChksum h' := calculateChksum_congr fun i inside _ => same i inside
  simp only [ustarParseHeader,all,name,chksum,field 257 6 (by decide),field 148 8 (by decide),field 124 12 (by decide),
    same 263 (by decide),same 264 (by decide),same 99 (by decide),same 345 (by decide),same 156 (by decide)]

end

section
variable {fileName : CString} {type : UstarType} {size : Nat}

theorem name_byte (text : List UInt8) (behind : text.length ≤ i) : strlcpy (fun _ => 0) 0 text 100 i = 0 := by
  unfold strlcpy put
  split
  · have long : (text.take (100 - 1)).length ≤ i - 0 := by
      rw [List.length_take]
      omega
    rw [List.getD_eq_getElem?_getD,List.getElem?_append_right long]
    cases i - 0 - (text.take (100 - 1)).length <;> simp
  · rfl

/-- The name in the header, filled up with zeros. -/
theorem name_bytes (short : fileName.val.length ≤ 99) :
    bytesAt (strlcpy (fun _ => 0) 0 fileName.val 100) 0 100 =
      fileName.val ++ List.replicate (100 - fileName.val.length) 0 := by
  have whole : fileName.val.take (100 - 1) = fileName.val := List.take_of_length_le (by omega)
  apply List.ext_getElem
  · simp only [bytesAt,List.length_map,List.length_range,List.length_append,List.length_replicate]
    omega
  · intro i inside inside'
    simp only [bytesAt,List.getElem_map,List.getElem_range,Nat.zero_add]
    by_cases low : i < fileName.val.length
    · rw [List.getElem_append_left low]
      simp only [strlcpy,put,whole,List.length_append,List.length_singleton,Nat.zero_le,true_and,Nat.zero_add,Nat.sub_zero]
      rw [if_pos (by omega),List.getD_eq_getElem?_getD,List.getElem?_append_left low,List.getElem?_eq_getElem low]
      rfl
    · rw [List.getElem_append_right (by omega),List.getElem_replicate]
      exact name_byte _ (by omega)

theorem fillHeader_name (short : fileName.val.length ≤ 99) :
    bytesAt (fillHeader fileName type size) 0 100 = fileName.val ++ List.replicate (100 - fileName.val.length) 0 := by
  simp (disch := decide) only [fillHeader,bytesAt_strlcpy,bytesAt_put,bytesAt_byte]
  exact name_bytes short

theorem fillHeader_size (small : size < 8 ^ 11) : bytesAt (fillHeader fileName type size) 124 12 = octal 11 size ++ [0] := by
  simp (disch := decide) only [fillHeader,bytesAt_strlcpy,bytesAt_put,bytesAt_byte]
  exact bytesAt_strlcpy_same _ (by rw [octal_length small])

theorem fillHeader_flag : bytesAt (fillHeader fileName type size) 156 1 = [type.flag] := by
  simp (disch := decide) only [fillHeader,bytesAt_strlcpy,bytesAt_put]
  exact bytesAt_put_same [type.flag]

theorem fillHeader_magic : bytesAt (fillHeader fileName type size) 257 6 = ustarMagic ++ [0] := by
  simp (disch := decide) only [fillHeader,bytesAt_strlcpy,bytesAt_put]
  exact bytesAt_strlcpy_same ustarMagic rfl

theorem fillHeader_version : bytesAt (fillHeader fileName type size) 263 2 = [48,48] := by
  simp (disch := decide) only [fillHeader,bytesAt_strlcpy]
  exact bytesAt_put_same [48,48]

theorem fillHeader_front : bytesAt (fillHeader fileName type size) 345 1 = [0] := by
  simp (disch := decide) only [fillHeader,bytesAt_strlcpy,bytesAt_put,bytesAt_byte]
  rfl

def Parsed.fields : Parsed → Option (CString × UstarType × Nat)
  | .eof => none
  | .directory fileName => some (fileName,.directory,0)
  | .regular fileName size => some (fileName,.regular,size)

/-- What a header of an entry should say: the size of a directory is not kept. -/
def UstarType.parsed (fileName : CString) (size : Nat) : UstarType → Parsed
  | .regular => .regular fileName size
  | .directory => .directory fileName

def fullHeader (fileName : CString) (type : UstarType) (size : Nat) : Memory :=
  strlcpy (fillHeader fileName type size) 148 (octal 7 (calculateChksum (fillHeader fileName type size))) 8

/-- The header of an entry of a size that an `int` can have is parsed as one of that name, type and size. -/
theorem fullHeader_parsed (plain : stripAntisocialPrefixes fileName = fileName) (short : fileName.val.length ≤ 99)
    (small : size ≤ 2147483647) : ustarParseHeader (fullHeader fileName type size) = .ok (type.parsed fileName size) := by
  let c := calculateChksum (fillHeader fileName type size)
  have bound : c < 8 ^ 7 := calculateChksum_lt _
  change ustarParseHeader (strlcpy (fillHeader fileName type size) 148 (octal 7 c) 8) = _
  generalize header : strlcpy (fillHeader fileName type size) 148 (octal 7 c) 8 = h
  -- The checksum covers only its own field, so the others are as they were filled in.
  have other (ofs len : Nat) (apart : Apart 148 8 ofs len) :
      bytesAt h ofs len = bytesAt (fillHeader fileName type size) ofs len := by
    rw [← header]
    exact bytesAt_strlcpy _ (by decide) apart
  have one (i : Nat) : bytesAt h i 1 = [h i] := rfl
  have name := (other 0 100 (by decide)).trans (fillHeader_name short)
  have field := (other 124 12 (by decide)).trans (fillHeader_size (by omega))
  have flag := (other 156 1 (by decide)).trans fillHeader_flag
  have magic := (other 257 6 (by decide)).trans fillHeader_magic
  have version := (other 263 2 (by decide)).trans fillHeader_version
  have front := (other 345 1 (by decide)).trans fillHeader_front
  rw [one,List.cons.injEq] at flag front
  have digits : bytesAt h 148 8 = octal 7 c ++ [0] := by
    rw [← header]
    exact bytesAt_strlcpy_same _ (by rw [octal_length bound])
  have chksum : calculateChksum h = c := by
    refine calculateChksum_congr fun i inside outside => ?_
    rw [← header]
    simp only [chksumStart,chksumEnd] at outside
    exact strlcpy_apart _ (by decide) (by omega)
  have nonzero : isAllZeros h ustarHeaderSize = false := by
    have first : h 257 = 117 := by
      have := congrArg (fun bytes => bytes[0]?) magic
      simpa [bytesAt,ustarMagic] using this
    rw [isAllZeros,List.all_eq_false]
    exact ⟨257,by simp [ustarHeaderSize],by simp [first]⟩
  have last : h 99 = 0 := by
    have := congrArg (fun bytes => bytes[99]?) name
    rw [List.getElem?_append_right (by omega),List.getElem?_replicate,if_pos (by omega)] at this
    simpa [bytesAt] using this
  have read : nameField h = fileName := by
    apply Subtype.ext
    change (bytesAt h 0 100).takeWhile (· != 0) = fileName.val
    rw [name]
    have clean : ∀ byte ∈ fileName.val, (byte != 0) = true := by
      intro byte member
      simp only [bne_iff_ne]
      rintro rfl
      exact fileName.property member
    rw [List.takeWhile_append_of_pos clean]
    simp
  have digit : h 263 = 48 ∧ h 264 = 48 := by simpa [bytesAt,List.range_succ] using version
  rw [ustarParseHeader,nonzero]
  cases type with
  | regular =>
    simp only [Bool.false_eq_true,↓reduceIte,magic,ne_eq,not_true_eq_false,digit,or_self,digits,chksum,last,front.1,flag.1,field,
      parse_octal c 7 (by simp only [ulongMax]; omega) (by decide) bound,
      parse_octal size 11 (by simp only [ulongMax]; omega) (by decide) (by omega),read,plain,false_and]
    rw [if_neg (by omega)]
    rfl
  | directory =>
    have unlike : UstarType.directory.flag ≠ UstarType.regular.flag := by decide
    simp only [Bool.false_eq_true,↓reduceIte,magic,ne_eq,not_true_eq_false,digit,or_self,digits,chksum,last,front.1,flag.1,
      parse_octal c 7 (by simp only [ulongMax]; omega) (by decide) bound,read,plain,and_false,unlike]
    rfl

theorem ustar_round_trip (plain : stripAntisocialPrefixes fileName = fileName) (short : fileName.val.length ≤ 99)
    (small : size ≤ 2147483647) :
    ∃ h, ustarMakeHeader fileName .regular size = some h ∧ ustarParseHeader h = .ok (.regular fileName size) := by
  refine ⟨fullHeader fileName .regular size,?_,fullHeader_parsed plain short small⟩
  simp only [ustarMakeHeader,plain]
  rw [if_neg (by omega),fullHeader]

/-- A header is made for every name that is short enough once it is stripped, and for no other;
it is parsed back to the stripped name, the type, and the size of a file. -/
theorem ustar_header_round_trip (fileName : CString) (type : UstarType) (small : size ≤ 2147483647) :
    ((stripAntisocialPrefixes fileName).val.length ≤ 99 → ∃ h, ustarMakeHeader fileName type size = some h ∧
      (ustarParseHeader h).map Parsed.fields =
        .ok (some (stripAntisocialPrefixes fileName,type,if type = .regular then size else 0))) ∧
    (99 < (stripAntisocialPrefixes fileName).val.length → ustarMakeHeader fileName type size = none) ∧
    stripAntisocialPrefixes (stripAntisocialPrefixes fileName) = stripAntisocialPrefixes fileName ∧
    (stripAntisocialPrefixes fileName).val ≠ [] ∧ ¬Antisocial (stripAntisocialPrefixes fileName).val := by
  have again := strip_stripped fileName
  obtain ⟨nonempty,_,social⟩ := stripped_name fileName
  refine ⟨?_,?_,again,nonempty,social⟩
  · intro short
    refine ⟨fullHeader (stripAntisocialPrefixes fileName) type size,?_,?_⟩
    · simp only [ustarMakeHeader]
      rw [if_neg (by omega),fullHeader]
    · rw [fullHeader_parsed again short small]
      cases type <;> rfl
  · intro long
    simp only [ustarMakeHeader]
    rw [if_pos long]

/-- The name "/../a" of a directory. -/
theorem ustar_header_round_trip_directory :
    ∃ h, ustarMakeHeader ⟨[47,46,46,47,97],by decide⟩ .directory 5 = some h ∧
      (ustarParseHeader h).map Parsed.fields = .ok (some (⟨[97],by decide⟩,.directory,0)) :=
  (ustar_header_round_trip ⟨[47,46,46,47,97],by decide⟩ .directory (show 5 ≤ 2147483647 by decide)).1 (by decide)

end

end OsProj.Ustar
