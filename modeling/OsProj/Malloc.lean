import OsProj.KernelListCalls

/-! The kernel allocator of threads/malloc.c over byte-addressed memory. A descriptor for
each power of two keeps the free blocks of its size on a list that runs through the blocks
themselves; blocks lie in pages with a header. Bigger requests get pages of their own. -/
namespace OsProj.Malloc

open OsProj.ByteMemory
open OsProj.Faulting
open OsProj.KernelList (null sizeMod listInit listPushBack listPushFront listPopFront listRemove listEmpty)

inductive Fault where
  | assertion
  | nullDereference
  | divideByZero
  | unending
  | list (panic : KernelList.Panic)
  | palloc
  deriving DecidableEq, Repr

/-- `pages` are the groups of pages held from the page allocator, with their counts. -/
structure State where
  memory : Memory
  pages : List (Nat × Nat)
  descCnt : Nat

abbrev M := StateT State (Except Fault)

def pgSize : Nat := 4096

def arenaMagic : Nat := 0x9a548eed

def arenaSize : Nat := 12

/-- `sizeof(struct desc)`: two sizes, a list and a lock. -/
def descSize : Nat := 48

def descMax : Nat := 10

def pgOfs (va : Nat) : Nat := va % pgSize

def pgRoundDown (va : Nat) : Nat := va - va % pgSize

def assert (condition : Bool) : M Unit := if condition then pure () else throw .assertion

def field (p offset : Nat) : M Nat := fun s =>
  if p = null then .error .nullDereference else .ok (load s.memory (p + offset) 4,s)

def setField (p offset v : Nat) : M Unit := fun s =>
  if p = null then .error .nullDereference else .ok ((),{ s with memory := store s.memory (p + offset) 4 v })

/-- A list operation, which sees only the memory. -/
def onList (x : KernelList.M α) : M α := fun s =>
  match x s.memory with
  | .ok (a,m) => .ok (a,{ s with memory := m })
  | .error panic => .error (.list panic)

def magic (a : Nat) : M Nat := field a 0

def desc (a : Nat) : M Nat := field a 4

def freeCnt (a : Nat) : M Nat := field a 8

def blockSizeOf (d : Nat) : M Nat := field d 0

def blocksPerArena (d : Nat) : M Nat := field d 4

def freeList (d : Nat) : Nat := d + 8

abbrev Answers := Nat → Nat

def pallocGetMultiple (answers : Answers) (pageCnt : Nat) : M Nat := fun s =>
  if answers pageCnt = null then .ok (null,s)
  else .ok (answers pageCnt,{ s with pages := (answers pageCnt,pageCnt) :: s.pages })

/-- Only pages that were handed out can be freed; they are filled with a pattern. -/
def pallocFreeMultiple (pages pageCnt : Nat) : M Unit := fun s =>
  if (pages,pageCnt) ∈ s.pages then
    .ok ((),{ s with memory := fill s.memory pages (pgSize * pageCnt) 0xcc, pages := s.pages.erase (pages,pageCnt) })
  else .error .palloc

section
variable (descs : Nat)

def initLoop : Nat → Nat → M Unit
  | 0,_ => throw .unending
  | fuel + 1,blockSize => do
    if blockSize < pgSize / 2 then
      let cnt := (← get).descCnt
      let d := descs + descSize * cnt
      modify fun s => { s with descCnt := cnt + 1 }
      assert (cnt + 1 ≤ descMax)
      setField d 0 blockSize
      setField d 4 ((pgSize - arenaSize) / blockSize)
      onList (listInit (freeList d))
      initLoop fuel (blockSize * 2)

/-- The block size doubles, so the loop is over before it has run 32 times. -/
def mallocInit : M Unit := initLoop descs 32 16

end

def blockToArena (b : Nat) : M Nat := do
  let a := pgRoundDown b
  assert (a ≠ null)
  assert ((← magic a) = arenaMagic)
  let d ← desc a
  if d ≠ null then
    let size ← blockSizeOf d
    if size = 0 then throw .divideByZero
    assert ((pgOfs b + sizeMod - arenaSize) % sizeMod % size = 0)
  else assert (pgOfs b = arenaSize)
  return a

def arenaToBlock (a idx : Nat) : M Nat := do
  assert (a ≠ null)
  assert ((← magic a) = arenaMagic)
  let d ← desc a
  assert (idx < (← blocksPerArena d))
  return a + arenaSize + idx * (← blockSizeOf d)

def findDesc (size : Nat) (m : Memory) : Nat → Nat → Option Nat
  | 0,_ => none
  | n + 1,d => if size ≤ load m d 4 then some d else findDesc size m n (d + descSize)

def addBlocks (d a : Nat) : Nat → Nat → M Unit
  | 0,_ => throw .unending
  | fuel + 1,i => do
    if i < (← blocksPerArena d) then
      let b ← arenaToBlock a i
      onList (listPushBack (freeList d) b)
      addBlocks d a fuel (i + 1)

def removeBlocks (d a : Nat) : Nat → Nat → M Unit
  | 0,_ => throw .unending
  | fuel + 1,i => do
    if i < (← blocksPerArena d) then
      let b ← arenaToBlock a i
      let _ ← onList (listRemove b)
      removeBlocks d a fuel (i + 1)

def pageCount (size : Nat) : Nat := ((size + arenaSize) % sizeMod + (pgSize - 1)) % sizeMod / pgSize

def mallocBig (answers : Answers) (size : Nat) : M Nat := do
  let pageCnt := pageCount size
  let a ← pallocGetMultiple answers pageCnt
  if a = null then return null
  setField a 0 arenaMagic
  setField a 4 null
  setField a 8 pageCnt
  return a + arenaSize

/-- A new arena; false when there is no page for it. -/
def newArena (answers : Answers) (d : Nat) : M Bool := do
  let a ← pallocGetMultiple answers 1
  if a = null then return false
  setField a 0 arenaMagic
  setField a 4 d
  setField a 8 (← blocksPerArena d)
  addBlocks d a pgSize 0
  return true

def takeBlock (d : Nat) : M Nat := do
  let b ← onList (listPopFront (freeList d))
  let a ← blockToArena b
  setField a 8 ((← freeCnt a) + sizeMod - 1)
  return b

section
variable (descs : Nat) (answers : Answers)

def malloc (size : Nat) : M Nat := do
  if size = 0 then return null
  match findDesc size (← get).memory (← get).descCnt descs with
  | none => mallocBig answers size
  | some d =>
    if ← onList (listEmpty (freeList d)) then
      if !(← newArena answers d) then return null
    takeBlock d

def calloc (a b : Nat) : M Nat := do
  let size := a * b % sizeMod
  if size < a || size < b then return null
  let p ← malloc descs answers size
  if p ≠ null then modify fun s => { s with memory := fill s.memory p size 0 }
  return p

end

def blockSize (block : Nat) : M Nat := do
  let a ← blockToArena block
  let d ← desc a
  if d ≠ null then blockSizeOf d
  else return (pgSize * (← freeCnt a) + sizeMod - pgOfs block) % sizeMod

def freeBlock (a d b : Nat) : M Unit := do
  let size ← blockSizeOf d
  modify fun s => { s with memory := fill s.memory b size 0xcc }
  onList (listPushFront (freeList d) b)
  setField a 8 ((← freeCnt a) + 1)
  let perArena ← blocksPerArena d
  if (← freeCnt a) ≥ perArena then
    assert ((← freeCnt a) = perArena)
    removeBlocks d a pgSize 0
    pallocFreeMultiple a 1

def free (p : Nat) : M Unit := do
  if p ≠ null then
    let a ← blockToArena p
    let d ← desc a
    if d ≠ null then freeBlock a d p
    else pallocFreeMultiple a (← freeCnt a)

def realloc (descs : Nat) (answers : Answers) (oldBlock newSize : Nat) : M Nat := do
  if newSize = 0 then
    free oldBlock
    return null
  let newBlock ← malloc descs answers newSize
  if oldBlock ≠ null ∧ newBlock ≠ null then
    let oldSize ← blockSize oldBlock
    let minSize := min newSize oldSize
    modify fun s => { s with memory := copy s.memory newBlock oldBlock minSize }
    free oldBlock
  return newBlock

/-! What the single accesses do. -/

section
variable {s : State}

theorem assert_run (holds : c = true) : assert c s = .ok ((),s) := by
  subst holds
  rfl

theorem field_run (nonnull : 0 < p) : field p offset s = .ok (load s.memory (p + offset) 4,s) :=
  if_neg (by unfold null; omega)

theorem setField_run (nonnull : 0 < p) (v : Nat) :
    setField p offset v s = .ok ((),{ s with memory := store s.memory (p + offset) 4 v }) :=
  if_neg (by unfold null; omega)

theorem onList_run {x : KernelList.M α} (ran : x s.memory = .ok (a,m)) : onList x s = .ok (a,{ s with memory := m }) := by
  rw [onList,ran]

end

end OsProj.Malloc
