import Mathlib.Logic.Function.Basic
import OsProj.Bitmap
import OsProj.ByteMemory
import OsProj.Faulting

/-! The memory of a user process of hw-memory on a 32-bit machine: the user pool, the page
directory, the loading of an executable and the system call that moves the break. A failed
assertion stops the kernel. -/
namespace OsProj.UserMemory

open OsProj.Bitmap OsProj.ByteMemory

inductive Panic where
  | assertion
  | notReached
  deriving DecidableEq, Repr

def null : Nat := 0

def physBase : Nat := 3221225472

def pgSize : Nat := 4096

def pgOfs (va : Nat) : Nat := va % pgSize

def pgRoundUp (va : Nat) : Nat := (va + pgSize - 1) % 4294967296 / pgSize * pgSize

def pgRoundDown (va : Nat) : Nat := va / pgSize * pgSize

def isUserVaddr (va : Nat) : Bool := va < physBase

def displace (va : Nat) (offset : Int) : Nat := ((va + offset) % 4294967296).toNat

def signed (value : Int) : Int := value.bmod 4294967296

/-- What a frame is allocated for. The pool itself keeps one bit for each frame. -/
inductive Owner where
  | heap
  | image
  | other
  deriving DecidableEq, Repr

/-- The user pool as `palloc_init` lays it out: whole pages above the first megabyte of
memory, of which `start.S` uses 64 MB at most. -/
structure Ram where
  pages : Nat
  base : Nat
  count : Nat
  aligned : base % pgSize = 0
  low : physBase + 1048576 ≤ base
  high : base + pgSize * count ≤ physBase + pgSize * pages
  capped : pages ≤ 16384

structure Pte where
  frame : Nat
  writable : Bool
  deriving DecidableEq, Repr

abbrev PageTable := Nat → Option Pte

/-- The process with the pool and the bytes behind kernel addresses. -/
structure Process where
  pagedir : Nat → Option PageTable
  used : Nat → Option Owner
  mem : Memory
  startHeap : Nat
  segbreak : Nat

def Process.page (s : Process) (v : Nat) : Option Pte := (s.pagedir (v / 1024)).bind (· (v % 1024))

abbrev M := StateT Process (Except Panic)

def assert (condition : Bool) : M Unit := fun s =>
  if condition then .ok ((),s) else .error .assertion

section
variable (ram : Ram)

def pallocGetMultiple (owner : Owner) (zero : Bool) (pageCnt : Nat) : M Nat := fun s =>
  if pageCnt = 0 then .ok (null,s)
  else match scan (fun i => (s.used i).isSome) ram.count 0 pageCnt false with
    | some idx => .ok (ram.base + pgSize * idx,{ s with
        used := setMultiple s.used idx pageCnt (some owner)
        mem := if zero then fill s.mem (ram.base + pgSize * idx) (pgSize * pageCnt) 0 else s.mem })
    | none => .ok (null,s)

/-- Entries of user pages hold frames of the user pool, so the test for the kernel pool is
left out. -/
def pallocFreePage (page : Nat) : M Unit := do
  assert (pgOfs page == 0)
  if page = null then return ()
  else if ram.base ≤ page ∧ page < ram.base + pgSize * ram.count then
    let pageIdx := (page - ram.base) / pgSize
    modify fun s => { s with mem := fill s.mem page pgSize 204 }
    assert ((← get).used pageIdx).isSome
    modify fun s => { s with used := Function.update s.used pageIdx none }
  else throw .notReached

/-- Whether there is a page table for the address. One that is missing is created if the
kernel pool has a page for it. -/
def lookupPage (vaddr : Nat) (create granted : Bool) : M Bool := do
  assert (!create || isUserVaddr vaddr)
  if ((← get).pagedir (vaddr / pgSize / 1024)).isSome then return true
  else if create && granted then
    modify fun s => { s with pagedir := Function.update s.pagedir (vaddr / pgSize / 1024) (some fun _ => none) }
    return true
  else return false

def pagedirGetPage (uaddr : Nat) : M Nat := do
  assert (isUserVaddr uaddr)
  let _ ← lookupPage uaddr false false
  match (← get).page (uaddr / pgSize) with
  | some pte => return pte.frame + pgOfs uaddr
  | none => return null

def Process.setPage (s : Process) (v : Nat) (pte : Option Pte) : Process :=
  let table := (s.pagedir (v / 1024)).map (Function.update · (v % 1024) pte)
  { s with pagedir := Function.update s.pagedir (v / 1024) table }

def pagedirSetPage (granted : Bool) (upage kpage : Nat) (writable : Bool) : M Bool := do
  assert (pgOfs upage == 0)
  assert (pgOfs kpage == 0)
  assert (isUserVaddr upage)
  assert (physBase ≤ kpage)
  assert ((kpage - physBase) / pgSize < ram.pages)
  if ← lookupPage upage true granted then
    assert ((← get).page (upage / pgSize)).isNone
    modify (·.setPage (upage / pgSize) (some ⟨kpage,writable⟩))
    return true
  else return false

def pagedirClearPage (upage : Nat) : M Unit := do
  assert (pgOfs upage == 0)
  assert (isUserVaddr upage)
  let _ ← lookupPage upage false false
  if ((← get).page (upage / pgSize)).isSome then modify (·.setPage (upage / pgSize) none)
  else return ()

def installPage (granted : Bool) (upage kpage : Nat) (writable : Bool) : M Bool := do
  if (← pagedirGetPage upage) = null then pagedirSetPage ram granted upage kpage writable
  else return false

/-! Loading. The kernel pool's answers for page tables are given by the number of the user
page that asks for one. -/

structure Phdr where
  pType : UInt32
  pOffset : UInt32
  pVaddr : UInt32
  pFilesz : UInt32
  pMemsz : UInt32
  pFlags : UInt32
  deriving DecidableEq

structure Executable where
  length : Nat
  byte : Nat → UInt8
  phdrs : List Phdr

def validateSegment (exe : Executable) (phdr : Phdr) : Bool :=
  let vaddr := phdr.pVaddr.toNat
  let memsz := phdr.pMemsz.toNat
  pgOfs phdr.pOffset.toNat == pgOfs vaddr && phdr.pOffset.toNat ≤ exe.length &&
    phdr.pFilesz.toNat ≤ memsz && memsz != 0 && isUserVaddr vaddr &&
    isUserVaddr ((vaddr + memsz) % 4294967296) && vaddr ≤ (vaddr + memsz) % 4294967296 && pgSize ≤ vaddr

def fileRead (exe : Executable) (ofs kpage size : Nat) : M Nat := fun s =>
  let bytesRead := min size (exe.length - ofs)
  let mem a := if kpage ≤ a ∧ a < kpage + bytesRead then exe.byte (ofs + (a - kpage)) else s.mem a
  .ok (bytesRead,{ s with mem })

/-- The loop over the pages of a segment, of which there are as many as the bound says. -/
def loadPages (exe : Executable) (grants : Nat → Bool) (writable : Bool) :
    Nat → Nat → Nat → Nat → Nat → M Bool
  | 0, _, _, readBytes, zeroBytes => return readBytes == 0 && zeroBytes == 0
  | bound + 1, ofs, upage, readBytes, zeroBytes =>
    if readBytes = 0 ∧ zeroBytes = 0 then return true
    else do
      let pageReadBytes := if readBytes < pgSize then readBytes else pgSize
      let pageZeroBytes := pgSize - pageReadBytes
      let kpage ← pallocGetMultiple ram .image false 1
      if kpage = null then return false
      else
        if (← fileRead exe ofs kpage pageReadBytes) = pageReadBytes then
          modify fun s => { s with mem := fill s.mem (kpage + pageReadBytes) pageZeroBytes 0 }
          if ← installPage ram (grants (upage / pgSize)) upage kpage writable then
            loadPages exe grants writable bound (ofs + pageReadBytes) (upage + pgSize)
              (readBytes - pageReadBytes) (zeroBytes - pageZeroBytes)
          else
            pallocFreePage ram kpage
            return false
        else
          pallocFreePage ram kpage
          return false

def loadSegment (exe : Executable) (grants : Nat → Bool) (ofs upage readBytes zeroBytes : Nat)
    (writable : Bool) : M Bool := do
  assert ((readBytes + zeroBytes) % pgSize == 0)
  assert (pgOfs upage == 0)
  assert (ofs % pgSize == 0)
  loadPages ram exe grants writable ((readBytes + zeroBytes) / pgSize) ofs upage readBytes zeroBytes

/-- `ROUND_UP(page_offset + phdr.p_memsz, PGSIZE)` -/
def Phdr.bytes (phdr : Phdr) : Nat :=
  (pgOfs phdr.pVaddr.toNat + phdr.pMemsz.toNat + pgSize - 1) / pgSize * pgSize

def Phdr.readBytes (phdr : Phdr) : Nat :=
  if 0 < phdr.pFilesz.toNat then pgOfs phdr.pVaddr.toNat + phdr.pFilesz.toNat else 0

/-- The loop over the program headers. The break is set behind every loaded segment, since
the braces of the condition are missing; the start of the heap behind the last header. -/
def loadSegments (exe : Executable) (grants : Nat → Bool) : List Phdr → M Bool
  | [] => return true
  | phdr :: rest =>
    if phdr.pType = 1 then
      if validateSegment exe phdr then do
        let memPage := pgRoundDown phdr.pVaddr.toNat
        if ← loadSegment ram exe grants (pgRoundDown phdr.pOffset.toNat) memPage phdr.readBytes
            (phdr.bytes - phdr.readBytes) (phdr.pFlags.toNat / 2 % 2 == 1) then
          modify fun s => { s with
            startHeap := if rest.isEmpty then memPage + phdr.bytes else s.startHeap
            segbreak := memPage + phdr.bytes }
          loadSegments exe grants rest
        else return false
      else return false
    else if phdr.pType = 2 ∨ phdr.pType = 3 ∨ phdr.pType = 5 then return false
    else loadSegments exe grants rest

def setupStack (granted : Bool) : M Bool := do
  let kpage ← pallocGetMultiple ram .image true 1
  if kpage = null then return false
  else
    if ← installPage ram granted (physBase - pgSize) kpage true then return true
    else
      pallocFreePage ram kpage
      return false

def load (exe : Executable) (grants : Nat → Bool) : M Bool := do
  if ← loadSegments ram exe grants exe.phdrs then setupStack ram (grants (physBase / pgSize - 1))
  else return false

/-! The break. -/

def sbrkFailed : Nat := 4294967295

def pagesAdded (old new : Nat) : Nat :=
  (pgRoundUp new + 4294967296 - pgRoundUp old) % 4294967296 / pgSize

/-- The quotient is one of signed numbers. -/
def pagesRemoved (old new : Nat) : Nat :=
  ((signed (signed (pgRoundUp new - pgRoundUp old) * -1)).tdiv pgSize % 4294967296).toNat

/-- The pages of the new range. The result of `install_page` is not used. -/
def growPages (grants : Nat → Bool) (kpages : Nat) : Nat → Nat → M Unit
  | 0, _ => return ()
  | left + 1, i => do
    let upage := displace (pgRoundUp (← get).segbreak) (i * pgSize)
    let _ ← installPage ram (grants (upage / pgSize)) upage (kpages + i * pgSize) true
    growPages grants kpages left (i + 1)

/-- The pages that are given up, from that of the break on downwards. -/
def shrinkPages : Nat → Nat → M Unit
  | 0, _ => return ()
  | left + 1, i => do
    let upage := displace (pgRoundDown (← get).segbreak) (-(i * pgSize))
    let actualPage ← pagedirGetPage upage
    pagedirClearPage upage
    pallocFreePage ram actualPage
    shrinkPages left (i + 1)

def grow (grants : Nat → Bool) (old new : Nat) : M Bool := do
  if pgRoundUp new = pgRoundUp old then return true
  else
    let kpages ← pallocGetMultiple ram .heap true (pagesAdded old new)
    if kpages = null then return false
    else
      growPages ram grants kpages (pagesAdded old new) 0
      return true

def shrink (old new : Nat) : M Unit := do
  if pgRoundUp new = pgRoundUp old then return ()
  else shrinkPages ram (pagesRemoved old new) 0

def syscallSbrk (grants : Nat → Bool) (increment : Int) : M Nat := do
  let old := (← get).segbreak
  let new := displace old increment
  if increment = 0 then return old
  else if 0 < increment then
    if physBase ≤ new then return sbrkFailed
    else
      if ← grow ram grants old new then
        modify fun s => { s with segbreak := new }
        return old
      else return sbrkFailed
  else
    shrink ram old new
    modify fun s => { s with segbreak := new }
    return old

end

end OsProj.UserMemory
