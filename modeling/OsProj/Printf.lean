import Mathlib.Logic.Function.Basic

/-! The formatted output of lib/stdio.c. An `int` and a `long` have 32 bits and wrap, a pointer into
the format is an index, and output goes through any function on any state. -/
namespace OsProj.Printf

inductive Fault
  /-- The format is read behind its terminator. -/
  | outside
  /-- The buffer of a number is written behind its end. -/
  | overflow
  /-- The given number of rounds did not suffice. -/
  | running
  deriving DecidableEq, Repr

abbrev CString := {chars : List UInt8 // 0 ∉ chars}

def CString.charAt (format : CString) (i : Nat) : Except Fault UInt8 :=
  if i ≤ format.val.length then .ok (format.val.getD i 0) else .error .outside

def isdigit (c : UInt8) : Bool := '0'.toUInt8 ≤ c && c ≤ '9'.toUInt8

/-! The data model. -/

structure Flags where
  minus : Bool := false
  plus : Bool := false
  space : Bool := false
  pound : Bool := false
  zero : Bool := false
  group : Bool := false
  deriving DecidableEq, Repr

inductive ArgType
  | char
  | short
  | int
  | intmax
  | long
  | longlong
  | ptrdifft
  | sizet
  deriving DecidableEq, Repr

structure PrintfConversion where
  flags : Flags
  /-- The minimum field width. -/
  width : Int32
  /-- The numeric precision, or -1. -/
  precision : Int32
  type : ArgType
  deriving DecidableEq

structure IntegerBase where
  base : Nat
  digits : List UInt8
  /-- The `x` character to use, for base 16 only. -/
  x : UInt8
  /-- The number of digits to group. -/
  group : Nat

def decimalDigits : List UInt8 := ['0','1','2','3','4','5','6','7','8','9'].map Char.toUInt8

def base_d : IntegerBase := ⟨10,decimalDigits,0,3⟩
def base_o : IntegerBase := ⟨8,decimalDigits.take 8,0,3⟩
def base_x : IntegerBase := ⟨16,decimalDigits ++ ['a','b','c','d','e','f'].map Char.toUInt8,'x'.toUInt8,4⟩
def base_X : IntegerBase := ⟨16,decimalDigits ++ ['A','B','C','D','E','F'].map Char.toUInt8,'X'.toUInt8,4⟩

def DEFAULT_FLOAT_PRECISION : Int32 := 6
def MAX_FLOAT_PRECISION : Int32 := 9

def powers : List Int32 := [0,10,100,1000,10000,100000,1000000,10000000,100000000,1000000000]

/-- What the code does with a `double`, given by its bits. -/
structure Fpu where
  /-- `(int)d` -/
  first : UInt64 → Int32
  /-- `(int)((d - first) * power)` -/
  rest : UInt64 → Int32 → Int32 → Int32
  /-- `d < 0` -/
  negative : UInt64 → Bool

abbrev Args := Nat → UInt32

/-- An argument of two words, the low one first. -/
def Args.wide (args : Args) (ap : Nat) : UInt64 := (args (ap + 1)).toUInt64 <<< 32 ||| (args ap).toUInt64

/-! The options of a conversion. -/

def Flags.add (flags : Flags) (c : UInt8) : Option Flags :=
  if c = '-'.toUInt8 then some {flags with minus := true}
  else if c = '+'.toUInt8 then some {flags with plus := true}
  else if c = ' '.toUInt8 then some {flags with space := true}
  else if c = '#'.toUInt8 then some {flags with pound := true}
  else if c = '0'.toUInt8 then some {flags with zero := true}
  -- an apostrophe
  else if c = 39 then some {flags with group := true}
  else none

def parseFlags : Nat → CString → Nat → Flags → Except Fault (Flags × Nat)
  | 0, _, _, _ => .error .running
  | fuel + 1, format, i, flags => do
    let c ← format.charAt i
    let i := i + 1
    match flags.add c with
    | some flags => parseFlags fuel format i flags
    | none => return (flags,i - 1)

def parseDigits : Nat → CString → Nat → Int32 → Except Fault (Int32 × Nat)
  | 0, _, _, _ => .error .running
  | fuel + 1, format, i, value => do
    let c ← format.charAt i
    if isdigit c then parseDigits fuel format (i + 1) (value * 10 + c.toUInt32.toInt32 - 48)
    else return (value,i)

/-- A number in the format, or the next argument for `*`. -/
def parseNumber (args : Args) (format : CString) (i ap : Nat) : Except Fault (Int32 × Nat × Nat) := do
  if (← format.charAt i) = '*'.toUInt8 then return ((args ap).toInt32,i + 1,ap + 1)
  let (value,i) ← parseDigits (format.val.length + 1) format i 0
  return (value,i,ap)

def parsePrecision (args : Args) (format : CString) (i ap : Nat) : Except Fault (Int32 × Nat × Nat) := do
  if (← format.charAt i) = '.'.toUInt8 then
    let (precision,i,ap) ← parseNumber args format (i + 1) ap
    return (if precision < 0 then -1 else precision,i,ap)
  return (-1,i,ap)

def parseType (format : CString) (i : Nat) : Except Fault (ArgType × Nat) := do
  let c ← format.charAt i
  let i := i + 1
  if c = 'h'.toUInt8 then
    if (← format.charAt i) = 'h'.toUInt8 then return (.char,i + 1)
    else return (.short,i)
  else if c = 'j'.toUInt8 then return (.intmax,i)
  else if c = 'l'.toUInt8 then
    if (← format.charAt i) = 'l'.toUInt8 then return (.longlong,i + 1)
    else return (.long,i)
  else if c = 't'.toUInt8 then return (.ptrdifft,i)
  else if c = 'z'.toUInt8 then return (.sizet,i)
  else return (.int,i - 1)

def parse_conversion (args : Args) (format : CString) (i ap : Nat) : Except Fault (PrintfConversion × Nat × Nat) := do
  let (flags,i) ← parseFlags (format.val.length + 1) format i {}
  let flags := if flags.minus then {flags with zero := false} else flags
  let flags := if flags.plus then {flags with space := false} else flags
  let (width,i,ap) ← parseNumber args format i ap
  let flags := if width < 0 then {flags with minus := true} else flags
  let width := if width < 0 then -width else width
  let (precision,i,ap) ← parsePrecision args format i ap
  let flags := if 0 ≤ precision then {flags with zero := false} else flags
  let (type,i) ← parseType format i
  return (⟨flags,width,precision,type⟩,i,ap)

/-! Integers. -/

section
variable (output : UInt8 → σ → σ)

def output_dup (ch : UInt8) : Nat → σ → σ
  | 0, s => s
  | cnt + 1, s => output_dup ch cnt (output ch s)

def doIf (p : Bool) (f : σ → σ) (s : σ) : σ := if p then f s else s

/-- `*cp++ = ch;` with the written part of the buffer of 64 characters, the last one first. -/
def push (ch : UInt8) (buf : List UInt8) : Except Fault (List UInt8) :=
  if buf.length < 64 then .ok (ch :: buf) else .error .overflow

def pushComma (b : IntegerBase) (group : Bool) (digit_cnt : Nat) (buf : List UInt8) : Except Fault (List UInt8) :=
  if group ∧ digit_cnt > 0 ∧ digit_cnt % b.group = 0 then push ','.toUInt8 buf else .ok buf

def pushDigits (b : IntegerBase) (group : Bool) : Nat → Nat → Nat → List UInt8 → Except Fault (List UInt8)
  | 0, _, _, _ => .error .running
  | fuel + 1, value, digit_cnt, buf =>
    if value > 0 then do
      let buf ← pushComma b group digit_cnt buf
      let buf ← push (b.digits.getD (value % b.base) 0) buf
      pushDigits b group fuel (value / b.base) (digit_cnt + 1) buf
    else return buf

def pushZeros (precision : Int32) : Nat → List UInt8 → Except Fault (List UInt8)
  | 0, _ => .error .running
  | fuel + 1, buf =>
    if Int32.ofNat buf.length < precision ∧ buf.length < 63 then do pushZeros precision fuel (← push '0'.toUInt8 buf)
    else return buf

/-- The sign character, or 0 for none. -/
def signOf (is_signed negative : Bool) (flags : Flags) : UInt8 :=
  if is_signed then
    if flags.plus then if negative then '-'.toUInt8 else '+'.toUInt8
    else if flags.space then if negative then '-'.toUInt8 else ' '.toUInt8
    else if negative then '-'.toUInt8
    else 0
  else 0

/-- The `x` character, or 0 for none. -/
def xOf (value : UInt64) (b : IntegerBase) (flags : Flags) : UInt8 := if flags.pound ∧ value ≠ 0 then b.x else 0

/-- The digits, enough zeros to match the precision, and the zero of base 8. -/
def integerBuffer (value : UInt64) (b : IntegerBase) (c : PrintfConversion) : Except Fault (List UInt8) := do
  let buf ← pushDigits b c.flags.group 65 value.toNat 0 []
  let buf ← pushZeros (if c.precision < 0 then 1 else c.precision) 65 buf
  if c.flags.pound ∧ b.base = 8 ∧ buf.head? ≠ some '0'.toUInt8 then push '0'.toUInt8 buf else return buf

def padCnt (c : PrintfConversion) (buf : List UInt8) (x sign : UInt8) : Nat :=
  let pad_cnt := c.width - Int32.ofNat buf.length - (if x ≠ 0 then 2 else 0) - (if sign ≠ 0 then 1 else 0)
  if pad_cnt < 0 then 0 else pad_cnt.toUInt32.toNat

def outputInteger (flags : Flags) (cnt : Nat) (sign x : UInt8) (buf : List UInt8) (s : σ) : σ :=
  let s := doIf (!flags.minus && !flags.zero) (output_dup output ' '.toUInt8 cnt) s
  let s := doIf (sign != 0) (output sign) s
  let s := doIf (x != 0) (fun s => output x (output '0'.toUInt8 s)) s
  let s := doIf flags.zero (output_dup output '0'.toUInt8 cnt) s
  let s := buf.foldl (fun s ch => output ch s) s
  doIf flags.minus (output_dup output ' '.toUInt8 cnt) s

def format_integer (value : UInt64) (is_signed negative : Bool) (b : IntegerBase) (c : PrintfConversion) (s : σ) : Except Fault σ := do
  let sign := signOf is_signed negative c.flags
  let x := xOf value b c.flags
  let buf ← integerBuffer value b c
  return outputInteger output c.flags (padCnt c buf x sign) sign x buf s

/-! Strings. -/

def outputChars (string : Nat → UInt8) : Nat → Nat → σ → σ
  | 0, _, s => s
  | cnt + 1, i, s => outputChars string cnt (i + 1) (output (string i) s)

def format_string (string : Nat → UInt8) (length : Int32) (c : PrintfConversion) (s : σ) : σ :=
  let cnt := (c.width - length).toUInt32.toNat
  let s := doIf (c.width > length && !c.flags.minus) (output_dup output ' '.toUInt8 cnt) s
  let s := outputChars output string length.toNatClampNeg 0 s
  doIf (c.width > length && c.flags.minus) (output_dup output ' '.toUInt8 cnt) s

end

def strnlenFrom (string : Nat → UInt8) : Nat → Nat → Nat
  | 0, length => length
  | more + 1, length => if string length ≠ 0 then strnlenFrom string more (length + 1) else length

def strnlen (string : Nat → UInt8) (maxlen : Nat) : Nat := strnlenFrom string maxlen 0

def nullText : List UInt8 := ['(','n','u','l','l',')'].map Char.toUInt8

def stringAt (memory : UInt32 → UInt8) (p : UInt32) (i : Nat) : UInt8 :=
  if p = 0 then nullText.getD i 0 else memory (p + UInt32.ofNat i)

/-! Conversions. -/

def signedArg (args : Args) (ap : Nat) : ArgType → Int64 × Nat
  | .char => ((args ap).toUInt8.toInt8.toInt64,ap + 1)
  | .short => ((args ap).toUInt16.toInt16.toInt64,ap + 1)
  | .int => ((args ap).toInt32.toInt64,ap + 1)
  | .intmax => ((args.wide ap).toInt64,ap + 2)
  | .long => ((args ap).toInt32.toInt64,ap + 1)
  | .longlong => ((args.wide ap).toInt64,ap + 2)
  | .ptrdifft => ((args ap).toInt32.toInt64,ap + 1)
  | .sizet =>
    let value := (args ap).toUInt64.toInt64
    (if value > 0x7FFFFFFF then value - 0xFFFFFFFF - 1 else value,ap + 1)

def unsignedArg (args : Args) (ap : Nat) : ArgType → UInt64 × Nat
  | .char => ((args ap).toUInt8.toUInt64,ap + 1)
  | .short => ((args ap).toUInt16.toUInt64,ap + 1)
  | .int => ((args ap).toUInt64,ap + 1)
  | .intmax => (args.wide ap,ap + 2)
  | .long => ((args ap).toUInt64,ap + 1)
  | .longlong => (args.wide ap,ap + 2)
  | .ptrdifft => ((args ap).toInt32.toInt64.toUInt64 &&& 0xFFFFFFFF,ap + 1)
  | .sizet => ((args ap).toUInt64,ap + 1)

def widen (n : Int32) : UInt64 := n.toInt64.toUInt64

def noKernelText : CString :=
  ⟨['<','<','n','o',' ','%','%','%','c',' ','i','n',' ','k','e','r','n','e','l','>','>'].map Char.toUInt8,by decide⟩

def noConversionText : CString :=
  ⟨['<','<','n','o',' ','%','%','%','c',' ','c','o','n','v','e','r','s','i','o','n','>','>'].map Char.toUInt8,by decide⟩

section
variable (fpu : Fpu) (memory : UInt32 → UInt8) (output : UInt8 → σ → σ)

def format_float (c : PrintfConversion) (d : UInt64) (s : σ) : Except Fault σ := do
  let precision := if c.precision < 0 then DEFAULT_FLOAT_PRECISION else c.precision
  let precision := if precision > MAX_FLOAT_PRECISION then MAX_FLOAT_PRECISION else precision
  let first := fpu.first d
  let rest := fpu.rest d first (powers.getD precision.toNatClampNeg 0)
  let s ← format_integer output (widen (if first < 0 then -first else first)) true (fpu.negative d) base_d {c with precision := -1} s
  let s := output '.'.toUInt8 s
  format_integer output (widen (if rest < 0 then -rest else rest)) false false base_d
    {c with precision := if precision = 0 then 1 else precision} s

/-- The `switch` over the conversion character. Texts for what is not supported are printed by
`nested`. -/
def convert (nested : CString → Args → σ → Except Fault σ) (args : Args) (ch : UInt8) (c : PrintfConversion) (ap : Nat) (s : σ) :
    Except Fault (σ × Nat) :=
  if ch = 'd'.toUInt8 ∨ ch = 'i'.toUInt8 then do
    let (value,ap) := signedArg args ap c.type
    return (← format_integer output (if value < 0 then -value else value).toUInt64 true (value < 0) base_d c s,ap)
  else if ch = 'o'.toUInt8 then do
    let (value,ap) := unsignedArg args ap c.type
    return (← format_integer output value false false base_o c s,ap)
  else if ch = 'u'.toUInt8 then do
    let (value,ap) := unsignedArg args ap c.type
    return (← format_integer output value false false base_d c s,ap)
  else if ch = 'x'.toUInt8 then do
    let (value,ap) := unsignedArg args ap c.type
    return (← format_integer output value false false base_x c s,ap)
  else if ch = 'X'.toUInt8 then do
    let (value,ap) := unsignedArg args ap c.type
    return (← format_integer output value false false base_X c s,ap)
  else if ch = 'c'.toUInt8 then
    return (format_string output (fun _ => (args ap).toUInt8) 1 c s,ap + 1)
  else if ch = 's'.toUInt8 then
    let string := stringAt memory (args ap)
    return (format_string output string (UInt32.ofNat (strnlen string c.precision.toUInt32.toNat)).toInt32 c s,ap + 1)
  else if ch = 'p'.toUInt8 then do
    return (← format_integer output (args ap).toUInt64 false false base_x {c with flags := {pound := true}} s,ap + 1)
  else if ch = 'f'.toUInt8 then do
    return (← format_float fpu output c (args.wide ap) s,ap + 2)
  else if ch = 'e'.toUInt8 ∨ ch = 'E'.toUInt8 ∨ ch = 'g'.toUInt8 ∨ ch = 'G'.toUInt8 ∨ ch = 'n'.toUInt8 then do
    return (← nested noKernelText (fun _ => ch.toInt8.toInt32.toUInt32) s,ap)
  else do
    return (← nested noConversionText (fun _ => ch.toInt8.toInt32.toUInt32) s,ap)

/-- The loop of `__vprintf`, at index `i` of the format and `ap` of the arguments. -/
def vprintfLoop (nested : CString → Args → σ → Except Fault σ) (format : CString) (args : Args) : Nat → Nat → Nat → σ → Except Fault σ
  | 0, _, _, _ => .error .running
  | fuel + 1, i, ap, s => do
    let ch ← format.charAt i
    if ch = 0 then return s
    if ch ≠ '%'.toUInt8 then
      vprintfLoop nested format args fuel (i + 1) ap (output ch s)
    else
      let i := i + 1
      if (← format.charAt i) = '%'.toUInt8 then
        vprintfLoop nested format args fuel (i + 1) ap (output '%'.toUInt8 s)
      else
        let (c,i,ap) ← parse_conversion args format i ap
        let (s,ap) ← convert fpu memory output nested args (← format.charAt i) c ap s
        vprintfLoop nested format args fuel (i + 1) ap s

/-- `__vprintf` for a text without unsupported conversions. -/
def plainVprintf (format : CString) (args : Args) (s : σ) : Except Fault σ :=
  vprintfLoop fpu memory output (fun _ _ _ => .error .running) format args (format.val.length + 1) 0 0 s

def vprintf (format : CString) (args : Args) (s : σ) : Except Fault σ :=
  vprintfLoop fpu memory output (plainVprintf fpu memory output) format args (format.val.length + 1) 0 0 s

end

/-! Output to a buffer. -/

/-- `struct vsnprintf_aux`, with an index into the buffer and what the memory from there on holds. -/
structure VsnprintfAux where
  p : Nat
  length : Int32
  max_length : Int32
  buffer : Nat → UInt8

def vsnprintf_helper (ch : UInt8) (aux : VsnprintfAux) : VsnprintfAux :=
  if aux.length < aux.max_length then
    {aux with length := aux.length + 1, p := aux.p + 1, buffer := Function.update aux.buffer aux.p ch}
  else {aux with length := aux.length + 1}

/-- The returned length and the memory from the buffer on, which nothing printed overlaps. -/
def vsnprintf (fpu : Fpu) (memory : UInt32 → UInt8) (buffer : Nat → UInt8) (buf_size : UInt32) (format : CString) (args : Args) :
    Except Fault (Int32 × (Nat → UInt8)) := do
  let aux := ⟨0,0,if buf_size > 0 then (buf_size - 1).toInt32 else 0,buffer⟩
  let aux ← vprintf fpu memory vsnprintf_helper format args aux
  return (aux.length,if buf_size > 0 then Function.update aux.buffer aux.p 0 else aux.buffer)

def snprintf := vsnprintf

end OsProj.Printf
