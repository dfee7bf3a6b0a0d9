import OsProj.Bitmap
import OsProj.ByteMemory
import OsProj.Faulting

/-! The page allocator of proj-pregame: two pools of pages in one region, each with a bitmap of its
own in front of its pages. Calls run one after another, so the locks of the pools are left out.
The bits are kept apart from the bytes of memory; the address of a bitmap says where they lie. -/
namespace OsProj.Palloc

open OsProj.ByteMemory

inductive Panic where
  | assertion
  | notEnoughMemory (name : String)
  | outOfPages
  | notReached
  deriving DecidableEq, Repr

def pgSize : Nat := 4096

def physBase : Nat := 3221225472

def sizeMod : Nat := 4294967296

def pgOfs (va : Nat) : Nat := va % pgSize

def pgNo (va : Nat) : Nat := va / pgSize

def divRoundUp (x step : Nat) : Nat := (x + step - 1) / step

def assert (condition : Bool) : Except Panic Unit := if condition then .ok () else .error .assertion

/-! Bitmaps. -/

structure Bitmap where
  addr : Nat
  bitCnt : Nat
  bits : Nat → Bool

def bitmapBufSize (bitCnt : Nat) : Nat := 8 + 4 * divRoundUp bitCnt 32

def bitmapSet (b : Bitmap) (idx : Nat) (value : Bool) : Except Panic Bitmap := do
  assert (idx < b.bitCnt)
  return { b with bits := fun i => if i = idx then value else b.bits i }

def bitmapTest (b : Bitmap) (idx : Nat) : Except Panic Bool := do
  assert (idx < b.bitCnt)
  return b.bits idx

def setLoop (start : Nat) (value : Bool) : Nat → Nat → Bitmap → Except Panic Bitmap
  | 0, _, b => return b
  | n + 1, i, b => do setLoop start value n (i + 1) (← bitmapSet b (start + i) value)

def bitmapSetMultiple (b : Bitmap) (start cnt : Nat) (value : Bool) : Except Panic Bitmap := do
  assert (start ≤ b.bitCnt)
  assert ((start + cnt) % sizeMod ≤ b.bitCnt)
  setLoop start value cnt 0 b

def containsLoop (b : Bitmap) (start : Nat) (value : Bool) : Nat → Nat → Except Panic Bool
  | 0, _ => return false
  | n + 1, i => do
    if (← bitmapTest b (start + i)) = value then return true
    else containsLoop b start value n (i + 1)

def bitmapContains (b : Bitmap) (start cnt : Nat) (value : Bool) : Except Panic Bool := do
  assert (start ≤ b.bitCnt)
  assert ((start + cnt) % sizeMod ≤ b.bitCnt)
  containsLoop b start value cnt 0

def bitmapAll (b : Bitmap) (start cnt : Nat) : Except Panic Bool := do
  return !(← bitmapContains b start cnt false)

def scanLoop (b : Bitmap) (cnt : Nat) (value : Bool) : Nat → Nat → Except Panic (Option Nat)
  | 0, _ => return none
  | n + 1, i => do
    if ← bitmapContains b i cnt (!value) then scanLoop b cnt value n (i + 1)
    else return some i

def bitmapScan (b : Bitmap) (start cnt : Nat) (value : Bool) : Except Panic (Option Nat) := do
  assert (start ≤ b.bitCnt)
  if cnt ≤ b.bitCnt then scanLoop b cnt value (b.bitCnt - cnt + 1 - start) start
  else return none

def bitmapScanAndFlip (b : Bitmap) (start cnt : Nat) (value : Bool) : Except Panic (Option Nat × Bitmap) := do
  match ← bitmapScan b start cnt value with
  | none => return (none,b)
  | some idx => return (some idx,← bitmapSetMultiple b idx cnt (!value))

/-- A bitmap in a block of memory, over the bits that were there. -/
def bitmapCreateInBuf (stale : Nat → Bool) (bitCnt block blockSize : Nat) : Except Panic Bitmap := do
  assert (bitmapBufSize bitCnt ≤ blockSize)
  bitmapSetMultiple ⟨block,bitCnt,stale⟩ 0 bitCnt false

/-! Pools. -/

structure Pool where
  usedMap : Bitmap
  base : Nat

structure State where
  kernelPool : Pool
  userPool : Pool
  memory : Memory

abbrev M := StateT State (Except Panic)

def initPool (stale : Nat → Bool) (base pageCnt : Nat) (name : String) : Except Panic Pool := do
  let bmPages := divRoundUp (bitmapBufSize pageCnt) pgSize
  if pageCnt < bmPages then throw (.notEnoughMemory name)
  else
    let usedMap ← bitmapCreateInBuf stale (pageCnt - bmPages) base (bmPages * pgSize)
    return ⟨usedMap,base + bmPages * pgSize⟩

def ptov (paddr : Nat) : Except Panic Nat := do
  assert (paddr < physBase)
  return paddr + physBase

/-- The pages of memory, from the number of kilobytes behind the first megabyte that the BIOS
tells, capped at 64 megabytes. -/
def initRamPages (extended : UInt16) : Nat := min (extended.toNat + 1024) 65536 / 4

/-- The memory at boot, with the bits that lie where a bitmap comes to be. -/
structure Boot where
  memory : Memory
  stale : Nat → Nat → Bool

def pallocInit (boot : Boot) (ramPages userPageLimit : Nat) : Except Panic State := do
  let freeStart ← ptov (1024 * 1024)
  let freeEnd ← ptov (ramPages * pgSize % sizeMod)
  let freePages := (freeEnd - freeStart) / pgSize
  let userPages := if userPageLimit < freePages / 2 then userPageLimit else freePages / 2
  let kernelPages := freePages - userPages
  let kernelPool ← initPool (boot.stale freeStart) freeStart kernelPages "kernel pool"
  let userBase := freeStart + kernelPages * pgSize
  let userPool ← initPool (boot.stale userBase) userBase userPages "user pool"
  return ⟨kernelPool,userPool,boot.memory⟩

structure PallocFlags where
  assert : Bool
  zero : Bool
  user : Bool
  deriving DecidableEq, Repr

def State.pool (s : State) (user : Bool) : Pool := if user then s.userPool else s.kernelPool

def State.setMap (s : State) (user : Bool) (usedMap : Bitmap) : State :=
  if user then { s with userPool := { s.userPool with usedMap := usedMap } }
  else { s with kernelPool := { s.kernelPool with usedMap := usedMap } }

def pallocGetMultiple (flags : PallocFlags) (pageCnt : Nat) : M Nat := do
  if pageCnt = 0 then return 0
  else
    let pool := (← get).pool flags.user
    let (pageIdx,usedMap) ← bitmapScanAndFlip pool.usedMap 0 pageCnt false
    modify fun s => s.setMap flags.user usedMap
    let pages := match pageIdx with
      | some idx => pool.base + pgSize * idx
      | none => 0
    if pages ≠ 0 then
      if flags.zero then modify fun s => { s with memory := fill s.memory pages (pgSize * pageCnt) 0 }
      return pages
    else if flags.assert then throw .outOfPages
    else return pages

def pallocGetPage (flags : PallocFlags) : M Nat := pallocGetMultiple flags 1

def pageFromPool (pool : Pool) (page : Nat) : Bool :=
  pgNo pool.base ≤ pgNo page && pgNo page < pgNo pool.base + pool.usedMap.bitCnt

def findPool (s : State) (pages : Nat) : Except Panic Bool :=
  if pageFromPool s.kernelPool pages then .ok false
  else if pageFromPool s.userPool pages then .ok true
  else .error .notReached

def pallocFreeMultiple (pages pageCnt : Nat) : M Unit := do
  assert (pgOfs pages = 0)
  if pages = 0 ∨ pageCnt = 0 then return ()
  else
    let s ← get
    let user ← findPool s pages
    let pool := s.pool user
    let pageIdx := pgNo pages - pgNo pool.base
    modify fun s => { s with memory := fill s.memory pages (pgSize * pageCnt) 0xcc }
    assert (← bitmapAll pool.usedMap pageIdx pageCnt)
    let usedMap ← bitmapSetMultiple pool.usedMap pageIdx pageCnt false
    modify fun s => s.setMap user usedMap

def pallocFreePage (page : Nat) : M Unit := pallocFreeMultiple page 1

end OsProj.Palloc
