import Mathlib.Order.Bounds.Basic
import OsProj.Bitmap

/-! lib/kernel/bitmap.c over the words that hold the bits. A word outside of the storage that
was allocated cannot be accessed; the arithmetic on sizes is that of 32 bits. -/
namespace OsProj.BitmapWords

inductive Panic where
  | assertion
  | outside
  | unending
  deriving DecidableEq, Repr

abbrev Elem := BitVec 32

def elemBits : Nat := 32

def elemSize : Nat := 4

def sizeMod : Nat := 4294967296

def bitmapError : Nat := 4294967295

structure Bitmap where
  bitCnt : Nat
  bits : List Elem
  deriving DecidableEq

def assert (condition : Bool) : Except Panic Unit := if condition then .ok () else .error .assertion

def elemIdx (bitIdx : Nat) : Nat := bitIdx / elemBits

def bitMask (bitIdx : Nat) : Elem := 1#32 <<< (bitIdx % elemBits)

def divRoundUp (x step : Nat) : Nat := (x + step - 1) % sizeMod / step

def elemCnt (bitCnt : Nat) : Nat := divRoundUp bitCnt elemBits

def byteCnt (bitCnt : Nat) : Nat := elemSize * elemCnt bitCnt

def getElem (b : Bitmap) (idx : Nat) : Except Panic Elem :=
  match b.bits[idx]? with
  | some elem => .ok elem
  | none => .error .outside

/-- One instruction that reads a word and writes it back. -/
def modifyElem (b : Bitmap) (idx : Nat) (f : Elem → Elem) : Except Panic Bitmap := do
  let elem ← getElem b idx
  return { b with bits := b.bits.set idx (f elem) }

def bitmapMark (b : Bitmap) (bitIdx : Nat) : Except Panic Bitmap :=
  modifyElem b (elemIdx bitIdx) fun elem => elem ||| bitMask bitIdx

def bitmapReset (b : Bitmap) (bitIdx : Nat) : Except Panic Bitmap :=
  modifyElem b (elemIdx bitIdx) fun elem => elem &&& ~~~bitMask bitIdx

def bitmapFlip (b : Bitmap) (bitIdx : Nat) : Except Panic Bitmap :=
  modifyElem b (elemIdx bitIdx) fun elem => elem ^^^ bitMask bitIdx

def bitmapSet (b : Bitmap) (idx : Nat) (value : Bool) : Except Panic Bitmap := do
  assert (idx < b.bitCnt)
  if value then bitmapMark b idx else bitmapReset b idx

def bitmapTest (b : Bitmap) (idx : Nat) : Except Panic Bool := do
  assert (idx < b.bitCnt)
  return (← getElem b (elemIdx idx)) &&& bitMask idx != 0

def setLoop (start : Nat) (value : Bool) : Nat → Nat → Bitmap → Except Panic Bitmap
  | 0,_,b => return b
  | n + 1,i,b => do setLoop start value n (i + 1) (← bitmapSet b ((start + i) % sizeMod) value)

def bitmapSetMultiple (b : Bitmap) (start cnt : Nat) (value : Bool) : Except Panic Bitmap := do
  assert (start ≤ b.bitCnt)
  assert ((start + cnt) % sizeMod ≤ b.bitCnt)
  setLoop start value cnt 0 b

def bitmapSize (b : Bitmap) : Nat := b.bitCnt

def bitmapSetAll (b : Bitmap) (value : Bool) : Except Panic Bitmap :=
  bitmapSetMultiple b 0 (bitmapSize b) value

def countLoop (b : Bitmap) (start : Nat) (value : Bool) : Nat → Nat → Nat → Except Panic Nat
  | 0,_,valueCnt => return valueCnt
  | n + 1,i,valueCnt => do
    if (← bitmapTest b ((start + i) % sizeMod)) = value then
      countLoop b start value n (i + 1) ((valueCnt + 1) % sizeMod)
    else countLoop b start value n (i + 1) valueCnt

def bitmapCount (b : Bitmap) (start cnt : Nat) (value : Bool) : Except Panic Nat := do
  assert (start ≤ b.bitCnt)
  assert ((start + cnt) % sizeMod ≤ b.bitCnt)
  countLoop b start value cnt 0 0

def containsLoop (b : Bitmap) (start : Nat) (value : Bool) : Nat → Nat → Except Panic Bool
  | 0,_ => return false
  | n + 1,i => do
    if (← bitmapTest b ((start + i) % sizeMod)) = value then return true
    containsLoop b start value n (i + 1)

def bitmapContains (b : Bitmap) (start cnt : Nat) (value : Bool) : Except Panic Bool := do
  assert (start ≤ b.bitCnt)
  assert ((start + cnt) % sizeMod ≤ b.bitCnt)
  containsLoop b start value cnt 0

def bitmapAny (b : Bitmap) (start cnt : Nat) : Except Panic Bool := bitmapContains b start cnt true

def bitmapNone (b : Bitmap) (start cnt : Nat) : Except Panic Bool := do
  return !(← bitmapContains b start cnt true)

def bitmapAll (b : Bitmap) (start cnt : Nat) : Except Panic Bool := do
  return !(← bitmapContains b start cnt false)

/-- The loop of `bitmap_scan`; one that has passed all values of a `size_t` does not end. -/
def scanLoop (b : Bitmap) (cnt : Nat) (value : Bool) (last : Nat) : Nat → Nat → Except Panic Nat
  | 0,_ => throw .unending
  | fuel + 1,i => do
    if i ≤ last then
      if !(← bitmapContains b i cnt (!value)) then return i
      scanLoop b cnt value last fuel ((i + 1) % sizeMod)
    else return bitmapError

def bitmapScan (b : Bitmap) (start cnt : Nat) (value : Bool) : Except Panic Nat := do
  assert (start ≤ b.bitCnt)
  if cnt ≤ b.bitCnt then scanLoop b cnt value (b.bitCnt - cnt) sizeMod start
  else return bitmapError

def bitmapScanAndFlip (b : Bitmap) (start cnt : Nat) (value : Bool) : Except Panic (Nat × Bitmap) := do
  let idx ← bitmapScan b start cnt value
  if idx ≠ bitmapError then return (idx,← bitmapSetMultiple b idx cnt (!value))
  return (idx,b)

/-- Whether the structure can be had, and the words that `malloc` gives for a number of bytes. -/
def bitmapCreate (room : Bool) (malloc : Nat → Option (List Elem)) (bitCnt : Nat) :
    Except Panic (Option Bitmap) := do
  if room then
    match malloc (byteCnt bitCnt) with
    | some bits => return some (← bitmapSetAll ⟨bitCnt,bits⟩ false)
    | none => if bitCnt = 0 then return some (← bitmapSetAll ⟨bitCnt,[]⟩ false) else return none
  else return none

def bitmapBufSize (bitCnt : Nat) : Nat := 8 + byteCnt bitCnt

/-- A bitmap in a block; its words are those behind the structure that the size counts. -/
def bitmapCreateInBuf (bitCnt : Nat) (block : List Elem) (blockSize : Nat) : Except Panic Bitmap := do
  assert (bitmapBufSize bitCnt ≤ blockSize)
  bitmapSetAll ⟨bitCnt,(block.drop 2).take (elemCnt bitCnt)⟩ false

/-! What the calls do to a vector of `n` booleans. -/

inductive Call where
  | set (idx : Nat) (value : Bool)
  | mark (bitIdx : Nat)
  | reset (bitIdx : Nat)
  | flip (bitIdx : Nat)
  | test (idx : Nat)
  | setAll (value : Bool)
  | setMultiple (start cnt : Nat) (value : Bool)
  | count (start cnt : Nat) (value : Bool)
  | contains (start cnt : Nat) (value : Bool)
  | any (start cnt : Nat)
  | none (start cnt : Nat)
  | all (start cnt : Nat)
  | scan (start cnt : Nat) (value : Bool)
  | scanAndFlip (start cnt : Nat) (value : Bool)
  deriving DecidableEq, Repr

inductive Result where
  | void
  | bool (value : Bool)
  | size (value : Nat)
  deriving DecidableEq, Repr

def Call.run (b : Bitmap) : Call → Except Panic (Result × Bitmap)
  | set idx value => do return (.void,← bitmapSet b idx value)
  | mark bitIdx => do return (.void,← bitmapMark b bitIdx)
  | reset bitIdx => do return (.void,← bitmapReset b bitIdx)
  | flip bitIdx => do return (.void,← bitmapFlip b bitIdx)
  | test idx => do return (.bool (← bitmapTest b idx),b)
  | setAll value => do return (.void,← bitmapSetAll b value)
  | setMultiple start cnt value => do return (.void,← bitmapSetMultiple b start cnt value)
  | count start cnt value => do return (.size (← bitmapCount b start cnt value),b)
  | contains start cnt value => do return (.bool (← bitmapContains b start cnt value),b)
  | any start cnt => do return (.bool (← bitmapAny b start cnt),b)
  | none start cnt => do return (.bool (← bitmapNone b start cnt),b)
  | all start cnt => do return (.bool (← bitmapAll b start cnt),b)
  | scan start cnt value => do return (.size (← bitmapScan b start cnt value),b)
  | scanAndFlip start cnt value => do
    let (idx,b) ← bitmapScanAndFlip b start cnt value
    return (.size idx,b)

def runCalls (b : Bitmap) : List Call → Except Panic (List Result × Bitmap)
  | [] => return ([],b)
  | c :: calls => do
    let (result,b) ← c.run b
    let (results,b) ← runCalls b calls
    return (result :: results,b)

def Call.Within (n : Nat) : Call → Prop
  | set idx _ | mark idx | reset idx | flip idx | test idx => idx < n
  | setAll _ => True
  | setMultiple start cnt _ | count start cnt _ | contains start cnt _
  | any start cnt | none start cnt | all start cnt => start + cnt ≤ n
  | scan start _ _ | scanAndFlip start _ _ => start ≤ n

end OsProj.BitmapWords
