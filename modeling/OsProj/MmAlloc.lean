import Mathlib.Control.Basic
import OsProj.ByteMemory

/-! The allocator of hw-memory on a 64-bit machine, over a byte-addressed heap. A list
node is the first 32 bytes of a block; the process breaks off at an access to a page the
break has not reached. Each traversal of the list has a bound on its length, so a
cyclic list ends in a fault. -/
namespace OsProj.MmAlloc

open OsProj.ByteMemory

inductive Fault where
  | segmentation
  | unending
  deriving DecidableEq, Repr

/-- The heap between its start and the break, and the two list pointers. -/
structure Heap where
  mem : Memory
  start : Nat
  brk : Nat
  memHead : Nat
  memTail : Nat

def null : Nat := 0

def sbrkFailed : Nat := 18446744073709551615

def nodeSize : Nat := 32

def pageSize : Nat := 4096

/-- The end of user addresses; the break cannot pass it. -/
def addressLimit : Nat := 140737488355328

/-- An access of no bytes is no access. -/
def Heap.mapped (s : Heap) (a n : Nat) : Bool :=
  n = 0 ∨ (s.start ≤ a ∧ a + n ≤ (s.brk + pageSize - 1) / pageSize * pageSize)

abbrev M := StateT Heap (Except Fault)

def loadAt (a n : Nat) : M Nat := fun s =>
  if s.mapped a n then .ok (load s.mem a n,s) else .error .segmentation

def storeAt (a n v : Nat) : M Unit := fun s =>
  if s.mapped a n then .ok ((),{ s with mem := store s.mem a n v }) else .error .segmentation

def memset (a : Nat) (v : UInt8) (n : Nat) : M Unit := fun s =>
  if s.mapped a n then .ok ((),{ s with mem := fill s.mem a n v }) else .error .segmentation

def memcpy (a b n : Nat) : M Unit := fun s =>
  if s.mapped a n && s.mapped b n then .ok ((),{ s with mem := copy s.mem a b n })
  else .error .segmentation

/-- The break moves up by the increment, or stays when the system does not grant it. -/
def sbrk (granted : Bool) (increment : Nat) : M Nat := fun s =>
  if granted && s.brk + increment ≤ addressLimit then
    .ok (s.brk,{ s with brk := s.brk + increment })
  else .ok (sbrkFailed,s)

/-! The fields of a list node. -/

def getPrev (node : Nat) : M Nat := loadAt node 8
def getNext (node : Nat) : M Nat := loadAt (node + 8) 8
def getFree (node : Nat) : M Bool := do return (← loadAt (node + 16) 1) == 1
def getSize (node : Nat) : M Nat := loadAt (node + 20) 4
def getAllocated (node : Nat) : M Nat := loadAt (node + 24) 8

def setPrev (node v : Nat) : M Unit := storeAt node 8 v
def setNext (node v : Nat) : M Unit := storeAt (node + 8) 8 v
def setFree (node : Nat) (v : Bool) : M Unit := storeAt (node + 16) 1 v.toNat
def setSize (node v : Nat) : M Unit := storeAt (node + 20) 4 v
def setAllocated (node v : Nat) : M Unit := storeAt (node + 24) 8 v

/-- `if (node) node->prev = v;` -/
def linkBack (node v : Nat) : M Unit := if node = null then pure () else setPrev node v

/-- The outcomes of the at most two calls of `sbrk` that an allocation makes. -/
structure Grants where
  header : Bool
  payload : Bool
  deriving DecidableEq, Repr

/-- The first allocation. `mem_head` keeps what the first `sbrk` returned, whatever it is,
and `mem_tail` is set only when the second one has succeeded. -/
def mallocFirst (grants : Grants) (size : Nat) : M Nat := do
  let head ← sbrk grants.header nodeSize
  modify fun s => { s with memHead := head }
  if head = sbrkFailed then return null
  else
    setPrev head null
    setFree head false
    setNext head null
    setSize head size
    let payload ← sbrk grants.payload size
    setAllocated head payload
    if payload = sbrkFailed then return null
    else
      modify fun s => { s with memTail := head }
      memset payload 0 size
      return payload

def fits (curr size : Nat) : M Bool := do
  if size ≤ (← getSize curr) then getFree curr else return false

def findFit (size : Nat) : Nat → Nat → M Nat
  | 0, _ => throw .unending
  | fuel + 1, curr =>
    if curr = null then return null
    else do
      if ← fits curr size then return curr
      else findFit size fuel (← getNext curr)

/-- The remainder becomes a block of its own. Its payload pointer is computed on a node
pointer, so it lies 32 nodes and not 32 bytes behind the new header. -/
def splitBlock (curr size : Nat) : M Nat := do
  let oldSize ← getSize curr
  setSize curr size
  setFree curr false
  let newBlock := ((← getAllocated curr) + (← getSize curr)) % 18446744073709551616
  let oldNext ← getNext curr
  setPrev newBlock curr
  setNext newBlock oldNext
  linkBack oldNext newBlock
  setNext curr newBlock
  setSize newBlock (oldSize - nodeSize - size)
  setFree newBlock true
  setAllocated newBlock (newBlock + nodeSize * nodeSize)
  memset (← getAllocated newBlock) 0 (← getSize newBlock)
  getAllocated curr

/-- A block that is too small to be split is returned as it is, still marked free. -/
def mallocReuse (curr size : Nat) : M Nat := do
  if 1 + size + nodeSize ≤ (← getSize curr) then splitBlock curr size
  else getAllocated curr

def mallocAppend (grants : Grants) (size : Nat) : M Nat := do
  let newBlock ← sbrk grants.header nodeSize
  if newBlock = sbrkFailed then return null
  else
    let tail := (← get).memTail
    setPrev newBlock tail
    setNext tail newBlock
    setNext newBlock null
    setSize newBlock size
    setFree newBlock false
    let payload ← sbrk grants.payload size
    setAllocated newBlock payload
    if payload = sbrkFailed then return null
    else
      memset payload 0 size
      modify fun s => { s with memTail := newBlock }
      return payload

def mmMalloc (fuel : Nat) (grants : Grants) (size : Nat) : M Nat := do
  if size = 0 then return null
  else
    let head := (← get).memHead
    if head = null then mallocFirst grants size
    else if 4294967295 ≤ size then return null
    else
      let curr ← findFit size fuel head
      if curr = null then mallocAppend grants size
      else mallocReuse curr size

/-- The block in front takes over a block that has just been freed, if it is free too. -/
def mergeLeft (curr : Nat) : M Nat := do
  let prev ← getPrev curr
  if prev = null then return curr
  else
    if ← getFree prev then
      setSize prev ((← getSize prev) + (nodeSize + (← getSize curr)))
      setNext (← getPrev curr) (← getNext curr)
      linkBack (← getNext curr) (← getPrev curr)
      let curr ← getPrev curr
      memset (← getAllocated curr) 0 (← getSize curr)
      return curr
    else return curr

/-- The same with the block behind. -/
def mergeRight (curr : Nat) : M Unit := do
  let next ← getNext curr
  if next = null then return ()
  else
    if ← getFree next then
      setSize curr ((← getSize curr) + (nodeSize + (← getSize (← getNext curr))))
      linkBack (← getNext (← getNext curr)) curr
      setNext curr (← getNext (← getNext curr))
      memset (← getAllocated curr) 0 (← getSize curr)
    else return ()

def freeBlock (curr : Nat) : M Nat := do
  setFree curr true
  memset (← getAllocated curr) 0 (← getSize curr)
  let curr ← mergeLeft curr
  mergeRight curr
  return curr

/-- The loop does not stop at the block it frees. -/
def freeLoop (ptr : Nat) : Nat → Nat → M Unit
  | 0, _ => throw .unending
  | fuel + 1, curr =>
    if curr = null then return ()
    else do
      let allocated ← getAllocated curr
      let curr ← if allocated = ptr then freeBlock curr else pure curr
      freeLoop ptr fuel (← getNext curr)

def mmFree (fuel : Nat) (ptr : Nat) : M Unit := do
  if ptr = null then return ()
  else freeLoop ptr fuel (← get).memHead

def findBlock (ptr : Nat) : Nat → Nat → M Nat
  | 0, _ => throw .unending
  | fuel + 1, curr =>
    if curr = null then return null
    else do
      let allocated ← getAllocated curr
      if allocated = ptr then return curr
      else findBlock ptr fuel (← getNext curr)

def mmRealloc (fuel : Nat) (grants : Grants) (ptr size : Nat) : M Nat := do
  if size = 0 then
    mmFree fuel ptr
    return null
  else if ptr = null then mmMalloc fuel grants size
  else
    let curr ← findBlock ptr fuel (← get).memHead
    let newPtr ← mmMalloc fuel grants size
    if newPtr = null then return null
    else
      let oldSize ← getSize curr
      memcpy newPtr (← getAllocated curr) (if oldSize < size then oldSize else size)
      mmFree fuel (← getAllocated curr)
      return newPtr

end OsProj.MmAlloc
