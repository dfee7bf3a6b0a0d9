import OsProj.PageDir

/-! Starting a user process in proj-pregame: an executable is read from its file, its segments and
a stack are put into pages of the user pool and mapped. Numbers of the file have 32 bits. -/
namespace OsProj.Process

open OsProj.ByteMemory OsProj.PageDir OsProj.Palloc

/-- An open file. A read can get fewer bytes than there are. -/
structure File where
  length : Nat
  byte : Nat → UInt8
  served : Nat → Nat → Nat
  /-- `off_t` is a signed type. -/
  short : length < 2147483648
  served_le : ∀ pos size, served pos size ≤ min size (length - pos)

structure Phdr where
  pType : UInt32
  pOffset : UInt32
  pVaddr : UInt32
  pFilesz : UInt32
  pMemsz : UInt32
  pFlags : UInt32
  deriving DecidableEq

def pgMask : UInt32 := 0xfff

def pageSize : UInt32 := 0x1000

def roundUp (x : UInt32) : UInt32 := (x + pageSize - 1) / pageSize * pageSize

def toOff (x : UInt32) : Int := (x.toNat : Int).bmod 4294967296

def validateSegment (phdr : Phdr) (file : File) : Bool :=
  if phdr.pOffset &&& pgMask ≠ phdr.pVaddr &&& pgMask then false
  else if UInt32.ofNat file.length < phdr.pOffset then false
  else if phdr.pMemsz < phdr.pFilesz then false
  else if phdr.pMemsz = 0 then false
  else if !isUserVaddr phdr.pVaddr.toNat then false
  else if !isUserVaddr (phdr.pVaddr + phdr.pMemsz).toNat then false
  else if phdr.pVaddr + phdr.pMemsz < phdr.pVaddr then false
  else if phdr.pVaddr < pageSize then false
  else true

def Phdr.filePage (phdr : Phdr) : UInt32 := phdr.pOffset &&& ~~~pgMask

def Phdr.memPage (phdr : Phdr) : UInt32 := phdr.pVaddr &&& ~~~pgMask

def Phdr.pageOffset (phdr : Phdr) : UInt32 := phdr.pVaddr &&& pgMask

def Phdr.readBytes (phdr : Phdr) : UInt32 := if 0 < phdr.pFilesz then phdr.pageOffset + phdr.pFilesz else 0

def Phdr.zeroBytes (phdr : Phdr) : UInt32 :=
  if 0 < phdr.pFilesz then roundUp (phdr.pageOffset + phdr.pMemsz) - phdr.readBytes
  else roundUp (phdr.pageOffset + phdr.pMemsz)

def Phdr.writable (phdr : Phdr) : Bool := phdr.pFlags &&& 2 ≠ 0

def fileRead (file : File) (pos buffer size : Nat) : M Nat := fun s =>
  let bytesRead := file.served pos size
  .ok (bytesRead,{ s with memory := paste s.memory buffer file.byte pos bytesRead })

section
variable (kernel : Kernel) (pd : Nat)

def installPage (upage kpage : Nat) (writable : Bool) : M Bool := do
  if (← pagedirGetPage pd upage) = 0 then pagedirSetPage kernel pd upage kpage writable
  else return false

/-- A round of the loop of `load_segment`, with the rounds after it. -/
def loadPage (file : File) (writable : Bool) (pos upage pageReadBytes pageZeroBytes : Nat) (rest : M (Option Bool)) :
    M (Option Bool) := do
  let kpage ← pallocGetPage ⟨false,false,true⟩
  if kpage = 0 then return some false
  else
    if (← fileRead file pos kpage pageReadBytes) ≠ pageReadBytes then
      pallocFreePage kpage
      return some false
    else
      modify fun s => { s with memory := fill s.memory (kpage + pageReadBytes) pageZeroBytes 0 }
      if ← installPage kernel pd upage kpage writable then rest
      else
        pallocFreePage kpage
        return some false

/-- The loop, with a bound on its rounds; none if it is not done by then. -/
def loadPages (file : File) (writable : Bool) : Nat → Nat → Nat → UInt32 → UInt32 → M (Option Bool)
  | 0, _, _, _, _ => return none
  | bound + 1, pos, upage, readBytes, zeroBytes =>
    if 0 < readBytes ∨ 0 < zeroBytes then
      let pageReadBytes := if readBytes < pageSize then readBytes else pageSize
      let pageZeroBytes := pageSize - pageReadBytes
      loadPage kernel pd file writable pos upage pageReadBytes.toNat pageZeroBytes.toNat
        (loadPages file writable bound (pos + pageReadBytes.toNat) ((upage + pgSize) % 4294967296)
          (readBytes - pageReadBytes) (zeroBytes - pageZeroBytes))
    else return some true

def loadSegment (file : File) (bound : Nat) (ofs : Int) (upage : Nat) (readBytes zeroBytes : UInt32) (writable : Bool) :
    M (Option Bool) := do
  assert ((readBytes + zeroBytes) % pageSize = 0)
  assert (pgOfs upage = 0)
  assert (ofs.tmod pgSize = 0)
  -- the assertion of `file_seek`
  assert (0 ≤ ofs)
  loadPages kernel pd file writable bound ofs.toNat upage readBytes zeroBytes

def loadPhdr (file : File) (bound : Nat) (phdr : Phdr) : M (Option Bool) :=
  loadSegment kernel pd file bound (toOff phdr.filePage) phdr.memPage.toNat phdr.readBytes phdr.zeroBytes phdr.writable

/-! Executables. -/

/-- The first bytes of an ELF header, and the fields behind them that are checked. -/
def ehdrOk (file : File) : Bool :=
  file.served 0 52 == 52 && (List.range 7).map file.byte == [127,69,76,70,1,1,1] && load file.byte 16 2 == 2 &&
    load file.byte 18 2 == 3 && load file.byte 20 4 == 1 && load file.byte 42 2 == 32 && load file.byte 44 2 ≤ 1024

def ePhoff (file : File) : Int := toOff (UInt32.ofNat (load file.byte 28 4))

def ePhnum (file : File) : Nat := load file.byte 44 2

def readPhdr (file : File) (pos : Nat) : Phdr where
  pType := UInt32.ofNat (load file.byte pos 4)
  pOffset := UInt32.ofNat (load file.byte (pos + 4) 4)
  pVaddr := UInt32.ofNat (load file.byte (pos + 8) 4)
  pFilesz := UInt32.ofNat (load file.byte (pos + 16) 4)
  pMemsz := UInt32.ofNat (load file.byte (pos + 20) 4)
  pFlags := UInt32.ofNat (load file.byte (pos + 24) 4)

/-- No segment has as many pages. -/
def rounds : Nat := 786433

def loadPhdrs (file : File) : Nat → Int → M (Option Bool)
  | 0, _ => return some true
  | n + 1, fileOfs =>
    if fileOfs < 0 ∨ (file.length : Int) < fileOfs then return some false
    else if file.served fileOfs.toNat 32 ≠ 32 then return some false
    else
      let phdr := readPhdr file fileOfs.toNat
      let next := (fileOfs + 32).bmod 4294967296
      if phdr.pType = 1 then
        if validateSegment phdr file then do
          match ← loadPhdr kernel pd file rounds phdr with
          | some true => loadPhdrs file n next
          | failed => return failed
        else return some false
      else if phdr.pType = 2 ∨ phdr.pType = 3 ∨ phdr.pType = 5 then return some false
      else loadPhdrs file n next

/-- The stack pointer is left out. -/
def setupStack : M Bool := do
  let kpage ← pallocGetPage ⟨false,true,true⟩
  if kpage ≠ 0 then
    if ← installPage kernel pd (physBase - pgSize) kpage true then return true
    else
      pallocFreePage kpage
      return false
  else return false

def loadFile (opened : Option File) : M (Option Bool) :=
  match opened with
  | none => return some false
  | some file =>
    if ehdrOk file then do
      match ← loadPhdrs kernel pd file (ePhnum file) (ePhoff file) with
      | some true => return some (← setupStack kernel pd)
      | failed => return failed
    else return some false

end

section
variable (kernel : Kernel)

/-- Loading the file that was opened, if there is one. The directory is made first; the process has the
only pointer to it. -/
def load (opened : Option File) : M (Option Bool) := do
  let pd ← pagedirCreate kernel
  if pd = 0 then return some false
  else loadFile kernel pd opened

structure Machine where
  pages : State
  blocks : List Nat

abbrev P := StateT Machine (Except Panic)

def onPages (x : M α) : P α := fun m => do
  let (a,s) ← x m.pages
  return (a,{ m with pages := s })

/-- `malloc` with its answer, which may be null. -/
def malloc (answer : Nat) : P Nat := fun m =>
  .ok (answer,if answer = 0 then m else { m with blocks := answer :: m.blocks })

def free (block : Nat) : P Unit := modify fun m => { m with blocks := m.blocks.erase block }

/-- Up to the end of the thread after a failure, or the jump to user space. -/
def startProcess (fileName answer : Nat) (opened : Option File) : P (Option Bool) := do
  let newPcb ← malloc answer
  let pcbSuccess := newPcb ≠ 0
  let success ← if pcbSuccess then onPages (load kernel opened) else pure (some false)
  if success ≠ some true ∧ pcbSuccess then free newPcb
  onPages (pallocFreePage fileName)
  return success

end

end OsProj.Process
