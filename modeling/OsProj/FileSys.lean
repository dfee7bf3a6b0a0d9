import Mathlib.Data.Int.Init
import OsProj.Bitmap
import OsProj.ByteMemory
import OsProj.Faulting
import OsProj.Keyed

/-! The file system of proj-pregame on a block device: sectors, the free map, inodes with
contiguous data, one directory and open files. Memory allocation succeeds. A failed assertion
or an access behind the device stops the kernel. -/
namespace OsProj.FileSys

open OsProj.Bitmap OsProj.ByteMemory OsProj.Keyed

inductive Panic where
  | assertion
  | pastEnd
  | dangling
  | formatting
  deriving DecidableEq, Repr

def blockSectorSize : Nat := 512

/-- A device by its number of sectors. The driver ignores disks of a gigabyte or more. -/
structure Device where
  size : Nat
  small : size < 2097152

/-- The fields of an inode on disk that are read again. -/
structure InodeDisk where
  start : Nat
  length : Nat
  deriving DecidableEq, Repr

/-- An open inode. A pointer to it is given by its sector, of which the list has one each. -/
structure Inode where
  sector : Nat
  openCnt : Nat
  removed : Bool
  denyWriteCnt : Nat
  data : InodeDisk
  deriving DecidableEq, Repr

/-- An open file. Its identity is that of the allocated structure. -/
structure File where
  id : Nat
  inode : Nat
  pos : Nat
  denyWrite : Bool
  deriving DecidableEq, Repr

abbrev CString := { chars : List UInt8 // 0 ∉ chars }

@[ext] structure Volume where
  disk : Memory
  freeMap : Nat → Bool
  freeMapFile : Option Nat
  openInodes : List Inode
  files : List File
  nextFile : Nat

abbrev M := StateT Volume (Except Panic)

def assert (condition : Bool) : M Unit := fun v =>
  if condition then .ok ((),v) else .error .assertion

section
variable (dev : Device)

/-! Sectors. -/

def checkSector (sector : Nat) : M Unit := fun v =>
  if sector < dev.size then .ok ((),v) else .error .pastEnd

/-- The buffer with the sector in its bytes from the offset on. -/
def blockRead (sector : Nat) (buffer : Memory) (ofs : Nat) : M Memory := do
  checkSector dev sector
  return paste buffer ofs (← get).disk (blockSectorSize * sector) blockSectorSize

def blockWrite (sector : Nat) (buffer : Memory) (ofs : Nat) : M Unit := do
  checkSector dev sector
  modify fun v => { v with disk := paste v.disk (blockSectorSize * sector) buffer ofs blockSectorSize }

/-! Reading and writing inodes. -/

def findInode (sector : Nat) : M Inode := fun v =>
  match find Inode.sector sector v.openInodes with
  | some inode => .ok (inode,v)
  | none => .error .dangling

def byteToSector (data : InodeDisk) (pos : Nat) : Nat :=
  if pos < data.length then data.start + pos / blockSectorSize else 4294967295

def chunkSize (size inodeLeft sectorOfs : Nat) : Nat := min size (min inodeLeft (blockSectorSize - sectorOfs))

def inodeReadLoop (data : InodeDisk) : Nat → Memory → Nat → Nat → Nat → M (Nat × Memory)
  | 0, buffer, _, _, bytesRead => return (bytesRead,buffer)
  | bound + 1, buffer, size, offset, bytesRead => do
    let sectorOfs := offset % blockSectorSize
    let chunk := chunkSize size (data.length - offset) sectorOfs
    if chunk = 0 then return (bytesRead,buffer)
    else if sectorOfs = 0 ∧ chunk = blockSectorSize then
      let buffer ← blockRead dev (byteToSector data offset) buffer bytesRead
      inodeReadLoop data bound buffer (size - chunk) (offset + chunk) (bytesRead + chunk)
    else
      let bounce ← blockRead dev (byteToSector data offset) (fun _ => 0) 0
      inodeReadLoop data bound (paste buffer bytesRead bounce sectorOfs chunk)
        (size - chunk) (offset + chunk) (bytesRead + chunk)

def inodeReadAt (inode : Nat) (buffer : Memory) (size : Int) (offset : Nat) : M (Nat × Memory) := do
  inodeReadLoop dev (← findInode inode).data size.toNat buffer size.toNat offset 0

def inodeWriteLoop (data : InodeDisk) (buffer : Memory) : Nat → Nat → Nat → Nat → M Nat
  | 0, _, _, bytesWritten => return bytesWritten
  | bound + 1, size, offset, bytesWritten => do
    let sectorOfs := offset % blockSectorSize
    let chunk := chunkSize size (data.length - offset) sectorOfs
    if chunk = 0 then return bytesWritten
    else if sectorOfs = 0 ∧ chunk = blockSectorSize then
      blockWrite dev (byteToSector data offset) buffer bytesWritten
      inodeWriteLoop data buffer bound (size - chunk) (offset + chunk) (bytesWritten + chunk)
    else
      let bounce ← if 0 < sectorOfs ∨ chunk < blockSectorSize - sectorOfs then
          blockRead dev (byteToSector data offset) (fun _ => 0) 0
        else pure fun _ => 0
      blockWrite dev (byteToSector data offset) (paste bounce sectorOfs buffer bytesWritten chunk) 0
      inodeWriteLoop data buffer bound (size - chunk) (offset + chunk) (bytesWritten + chunk)

def inodeWriteAt (inode : Nat) (buffer : Memory) (size : Int) (offset : Nat) : M Nat := do
  let found ← findInode inode
  if found.denyWriteCnt ≠ 0 then return 0
  else inodeWriteLoop dev found.data buffer size.toNat size.toNat offset 0

/-! The free map. -/

def byteCnt (bitCnt : Nat) : Nat := 4 * ((bitCnt + 31) / 32)

def bitmapByte (bits : Nat → Bool) (i : Nat) : UInt8 :=
  UInt8.ofNat (digits (fun j => bits (8 * i + j)) 8)

def bitmapWrite (file : Nat) : M Bool := do
  let bits := (← get).freeMap
  return (← inodeWriteAt dev file (bitmapByte bits) (byteCnt dev.size) 0) == byteCnt dev.size

def bitmapRead (file : Nat) : M Bool := do
  let bits := (← get).freeMap
  let (bytesRead,buffer) ← inodeReadAt dev file (bitmapByte bits) (byteCnt dev.size) 0
  modify fun v => { v with freeMap := fun k => decide (k < dev.size) && (buffer (k / 8)).toNat.testBit (k % 8) }
  return bytesRead == byteCnt dev.size

def freeMapInit : M Unit :=
  modify fun v => { v with freeMap := fun k => k == 0 || k == 1 }

/-- Writes the free map to its file, or does something else while there is no file. -/
def freeMapWrite (absent : M Bool) : M Bool := fun v =>
  match v.freeMapFile with
  | none => absent v
  | some file => bitmapWrite dev file v

def freeMapAllocate (cnt : Nat) : M (Option Nat) := do
  let bits := (← get).freeMap
  match scan bits dev.size 0 cnt false with
  | none => return none
  | some sector =>
    modify fun v => { v with freeMap := setMultiple bits sector cnt true }
    if ← freeMapWrite dev (return true) then return some sector
    else
      modify fun v => { v with freeMap := setMultiple v.freeMap sector cnt false }
      return none

def freeMapRelease (sector cnt : Nat) : M Unit := do
  let bits := (← get).freeMap
  assert (decide (sector + cnt ≤ dev.size) && all bits sector cnt)
  modify fun v => { v with freeMap := setMultiple bits sector cnt false }
  let _ ← freeMapWrite dev (throw .dangling)

/-! Creating, opening and closing inodes. -/

/-- `DIV_ROUND_UP` of an `off_t`, as a `size_t` -/
def bytesToSectors (size : Nat) : Nat :=
  (((size + 511 : Int).bmod 4294967296).tdiv blockSectorSize % 4294967296).toNat

def inodeMagic : Nat := 1229868868

def InodeDisk.bytes (data : InodeDisk) : Memory :=
  store (store (store (fun _ => 0) 0 4 data.start) 4 4 data.length) 8 4 inodeMagic

def writeZeros (start : Nat) : Nat → M Unit
  | 0 => return ()
  | n + 1 => do
    writeZeros start n
    blockWrite dev (start + n) (fun _ => 0) 0

def inodeCreate (sector length : Nat) : M Bool := do
  let sectors := bytesToSectors length
  match ← freeMapAllocate dev sectors with
  | none => return false
  | some start =>
    blockWrite dev sector (InodeDisk.bytes ⟨start,length⟩) 0
    writeZeros dev start sectors
    return true

def Volume.updateInode (v : Volume) (sector : Nat) (f : Inode → Inode) : Volume :=
  { v with openInodes := update Inode.sector sector f v.openInodes }

def inodeReopen (sector : Nat) : M Unit :=
  modify fun v => v.updateInode sector fun inode => { inode with openCnt := inode.openCnt + 1 }

def readInodeDisk (buffer : Memory) : InodeDisk := ⟨load buffer 0 4,load buffer 4 4⟩

def inodeOpen (sector : Nat) : M Unit := do
  if (find Inode.sector sector (← get).openInodes).isSome then inodeReopen sector
  else
    let buffer ← blockRead dev sector (fun _ => 0) 0
    modify fun v => { v with openInodes := ⟨sector,1,false,0,readInodeDisk buffer⟩ :: v.openInodes }

def inodeClose (sector : Nat) : M Unit := do
  let inode ← findInode sector
  if inode.openCnt - 1 = 0 then
    modify fun v => { v with openInodes := remove Inode.sector sector v.openInodes }
    if inode.removed then
      freeMapRelease dev inode.sector 1
      freeMapRelease dev inode.data.start (bytesToSectors inode.data.length)
  else modify fun v => v.updateInode sector fun inode => { inode with openCnt := inode.openCnt - 1 }

def inodeRemove (sector : Nat) : M Unit :=
  modify fun v => v.updateInode sector fun inode => { inode with removed := true }

def inodeDenyWrite (sector : Nat) : M Unit := do
  modify fun v => v.updateInode sector fun inode => { inode with denyWriteCnt := inode.denyWriteCnt + 1 }
  let inode ← findInode sector
  assert (inode.denyWriteCnt ≤ inode.openCnt)

def inodeAllowWrite (sector : Nat) : M Unit := do
  let inode ← findInode sector
  assert (0 < inode.denyWriteCnt)
  assert (inode.denyWriteCnt ≤ inode.openCnt)
  modify fun v => v.updateInode sector fun inode => { inode with denyWriteCnt := inode.denyWriteCnt - 1 }

/-! Directories. An entry has four bytes of sector number, fifteen of name and one that says
whether it is in use. -/

def nameMax : Nat := 14

def entrySize : Nat := 20

def entrySector (e : Memory) : Nat := load e 0 4

def entryInUse (e : Memory) : Bool := e 19 != 0

/-- Whether the string in the buffer from an offset on equals the name. -/
def strcmp (e : Memory) : Nat → List UInt8 → Bool
  | ofs, [] => e ofs == 0
  | ofs, c :: rest => e ofs == c && strcmp e (ofs + 1) rest

def entryNamed (e : Memory) (name : CString) : Bool := strcmp e 4 name.val

/-- The loop over the entries that ends at one that is looked for, with its offset, or at a
short read. The bound is one more than the number of entries. -/
def scanEntries (dir : Nat) (wanted : Memory → Bool) : Nat → Memory → Nat → M (Bool × Nat × Memory)
  | 0, e, ofs => return (false,ofs,e)
  | bound + 1, e, ofs => do
    let (bytesRead,e) ← inodeReadAt dev dir e entrySize ofs
    if bytesRead = entrySize then
      if wanted e then return (true,ofs,e)
      else scanEntries dir wanted bound e (ofs + entrySize)
    else return (false,ofs,e)

def entryBound (dir : Nat) : M Nat := do
  return (← findInode dir).data.length / entrySize + 1

def lookup (dir : Nat) (name : CString) : M (Bool × Nat × Memory) := do
  scanEntries dev dir (fun e => entryInUse e && entryNamed e name) (← entryBound dir) (fun _ => 0) 0

/-- An entry that is in use, over the bytes that were read from its place. -/
def fillEntry (e : Memory) (name : CString) (sector : Nat) : Memory :=
  let named := paste e 4 (fun i => name.val.getD i 0) 0 (name.val.length + 1)
  store (store named 19 1 1) 0 4 sector

def dirAdd (dir : Nat) (name : CString) (inodeSector : Nat) : M Bool := do
  if name.val = [] ∨ nameMax < name.val.length then return false
  else
    let (taken,_,_) ← lookup dev dir name
    if taken then return false
    else
      let (_,ofs,e) ← scanEntries dev dir (fun e => !entryInUse e) (← entryBound dir) (fun _ => 0) 0
      return (← inodeWriteAt dev dir (fillEntry e name inodeSector) entrySize ofs) == entrySize

def dirRemove (dir : Nat) (name : CString) : M Bool := do
  let (found,ofs,e) ← lookup dev dir name
  if found then
    let sector := entrySector e
    inodeOpen dev sector
    if (← inodeWriteAt dev dir (store e 19 1 0) entrySize ofs) ≠ entrySize then
      inodeClose dev sector
      return false
    else
      inodeRemove sector
      inodeClose dev sector
      return true
  else return false

def dirCreate (sector entryCnt : Nat) : M Bool := inodeCreate dev sector (entryCnt * entrySize)

def freeMapSector : Nat := 0

def rootDirSector : Nat := 1

/-! Files. -/

def fileOpen (inode : Nat) : M Nat := fun v =>
  .ok (v.nextFile,{ v with files := ⟨v.nextFile,inode,0,false⟩ :: v.files, nextFile := v.nextFile + 1 })

def findFile (id : Nat) : M File := fun v =>
  match find File.id id v.files with
  | some file => .ok (file,v)
  | none => .error .dangling

def Volume.updateFile (v : Volume) (id : Nat) (f : File → File) : Volume :=
  { v with files := update File.id id f v.files }

def fileReopen (id : Nat) : M Nat := do
  let file ← findFile id
  inodeReopen file.inode
  fileOpen file.inode

def fileDenyWrite (id : Nat) : M Unit := do
  let file ← findFile id
  if file.denyWrite then return ()
  else
    modify fun v => v.updateFile id fun file => { file with denyWrite := true }
    inodeDenyWrite file.inode

def fileAllowWrite (id : Nat) : M Unit := do
  let file ← findFile id
  if file.denyWrite then
    modify fun v => v.updateFile id fun file => { file with denyWrite := false }
    inodeAllowWrite file.inode
  else return ()

def fileClose (id : Nat) : M Unit := do
  fileAllowWrite id
  let file ← findFile id
  inodeClose dev file.inode
  modify fun v => { v with files := remove File.id id v.files }

def fileRead (id : Nat) (buffer : Memory) (size : Int) : M (Nat × Memory) := do
  let file ← findFile id
  let (bytesRead,buffer) ← inodeReadAt dev file.inode buffer size file.pos
  modify fun v => v.updateFile id fun file => { file with pos := file.pos + bytesRead }
  return (bytesRead,buffer)

def fileWrite (id : Nat) (buffer : Memory) (size : Int) : M Nat := do
  let file ← findFile id
  let bytesWritten ← inodeWriteAt dev file.inode buffer size file.pos
  modify fun v => v.updateFile id fun file => { file with pos := file.pos + bytesWritten }
  return bytesWritten

/-- Offsets that callers name are not negative. -/
def fileReadAt (id : Nat) (buffer : Memory) (size : Int) (fileOfs : Nat) : M (Nat × Memory) := do
  inodeReadAt dev (← findFile id).inode buffer size fileOfs

def fileWriteAt (id : Nat) (buffer : Memory) (size : Int) (fileOfs : Nat) : M Nat := do
  inodeWriteAt dev (← findFile id).inode buffer size fileOfs

def fileLength (id : Nat) : M Nat := do
  return (← findInode (← findFile id).inode).data.length

def fileTell (id : Nat) : M Nat := do
  return (← findFile id).pos

def fileSeek (id : Nat) (newPos : Int) : M Unit := do
  let _ ← findFile id
  assert (0 ≤ newPos)
  modify fun v => v.updateFile id fun file => { file with pos := newPos.toNat }

/-! The file system. -/

def filesysCreate (name : CString) (initialSize : Int) : M Bool := do
  inodeOpen dev rootDirSector
  match ← freeMapAllocate dev 1 with
  | none =>
    inodeClose dev rootDirSector
    return false
  | some inodeSector =>
    assert (0 ≤ initialSize)
    let created ← inodeCreate dev inodeSector initialSize.toNat
    let success ← if created then dirAdd dev rootDirSector name inodeSector else pure false
    if !success && inodeSector != 0 then freeMapRelease dev inodeSector 1
    inodeClose dev rootDirSector
    return success

def filesysOpen (name : CString) : M (Option Nat) := do
  inodeOpen dev rootDirSector
  let (found,_,e) ← lookup dev rootDirSector name
  if found then
    inodeOpen dev (entrySector e)
    inodeClose dev rootDirSector
    return some (← fileOpen (entrySector e))
  else
    inodeClose dev rootDirSector
    return none

def filesysRemove (name : CString) : M Bool := do
  inodeOpen dev rootDirSector
  let success ← dirRemove dev rootDirSector name
  inodeClose dev rootDirSector
  return success

/-- The file of the free map is not one of a caller, so only its inode is kept. -/
def freeMapOpen : M Unit := do
  inodeOpen dev freeMapSector
  modify fun v => { v with freeMapFile := some freeMapSector }
  if ← bitmapRead dev freeMapSector then return () else throw .formatting

def freeMapCreate : M Unit := do
  if ← inodeCreate dev freeMapSector (byteCnt dev.size) then
    inodeOpen dev freeMapSector
    modify fun v => { v with freeMapFile := some freeMapSector }
    if ← bitmapWrite dev freeMapSector then return () else throw .formatting
  else throw .formatting

def doFormat : M Unit := do
  freeMapCreate dev
  if ← dirCreate dev rootDirSector 16 then inodeClose dev freeMapSector
  else throw .formatting

def Volume.boot (disk : Memory) : Volume := ⟨disk,fun _ => false,none,[],[],0⟩

def filesysInit (format : Bool) : M Unit := do
  freeMapInit
  if format then doFormat dev
  freeMapOpen dev

end

end OsProj.FileSys
