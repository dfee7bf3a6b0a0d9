import OsProj.Budget
import OsProj.FileSysFiles

/-! The calls on a machine whose power lasts for so many writes of sectors. Each function is the
one of the same name, with the writes counted. -/
namespace OsProj.FileSys.Power

open OsProj.Bitmap OsProj.Budget OsProj.ByteMemory

/-- What is left when the power goes off is the disk. -/
abbrev Powered := Limited Volume Panic Memory

section
variable (dev : Device)

def blockWrite (sector : Nat) (buffer : Memory) (ofs : Nat) : Powered Unit := do
  spend Volume.disk
  free (FileSys.blockWrite dev sector buffer ofs)

/-! Inodes. -/

def inodeWriteLoop (data : InodeDisk) (buffer : Memory) : Nat → Nat → Nat → Nat → Powered Nat
  | 0, _, _, bytesWritten => return bytesWritten
  | bound + 1, size, offset, bytesWritten => do
    let sectorOfs := offset % blockSectorSize
    let chunk := chunkSize size (data.length - offset) sectorOfs
    if chunk = 0 then return bytesWritten
    else if sectorOfs = 0 ∧ chunk = blockSectorSize then
      blockWrite dev (byteToSector data offset) buffer bytesWritten
      inodeWriteLoop data buffer bound (size - chunk) (offset + chunk) (bytesWritten + chunk)
    else
      let bounce ← if 0 < sectorOfs ∨ chunk < blockSectorSize - sectorOfs then
          free (blockRead dev (byteToSector data offset) (fun _ => 0) 0)
        else pure fun _ => 0
      blockWrite dev (byteToSector data offset) (paste bounce sectorOfs buffer bytesWritten chunk) 0
      inodeWriteLoop data buffer bound (size - chunk) (offset + chunk) (bytesWritten + chunk)

def inodeWriteAt (inode : Nat) (buffer : Memory) (size : Int) (offset : Nat) : Powered Nat := do
  let found ← free (findInode inode)
  if found.denyWriteCnt ≠ 0 then return 0
  else inodeWriteLoop dev found.data buffer size.toNat size.toNat offset 0

/-! The free map. -/

def bitmapWrite (file : Nat) : Powered Bool := do
  let v ← free get
  return (← inodeWriteAt dev file (bitmapByte v.freeMap) (byteCnt dev.size) 0) == byteCnt dev.size

def freeMapWrite (absent : M Bool) : Powered Bool := do
  match (← free get).freeMapFile with
  | none => free absent
  | some file => bitmapWrite dev file

def freeMapAllocate (cnt : Nat) : Powered (Option Nat) := do
  let bits := (← free get).freeMap
  match scan bits dev.size 0 cnt false with
  | none => return none
  | some sector =>
    free (modify fun v => { v with freeMap := setMultiple bits sector cnt true })
    if ← freeMapWrite dev (return true) then return some sector
    else
      free (modify fun v => { v with freeMap := setMultiple v.freeMap sector cnt false })
      return none

def freeMapRelease (sector cnt : Nat) : Powered Unit := do
  let bits := (← free get).freeMap
  free (assert (decide (sector + cnt ≤ dev.size) && all bits sector cnt))
  free (modify fun v => { v with freeMap := setMultiple bits sector cnt false })
  let _ ← freeMapWrite dev (throw .dangling)

/-! Creating and closing inodes. -/

def writeZeros (start : Nat) : Nat → Powered Unit
  | 0 => return ()
  | n + 1 => do
    writeZeros start n
    blockWrite dev (start + n) (fun _ => 0) 0

def inodeCreate (sector length : Nat) : Powered Bool := do
  let sectors := bytesToSectors length
  match ← freeMapAllocate dev sectors with
  | none => return false
  | some start =>
    blockWrite dev sector (InodeDisk.bytes ⟨start,length⟩) 0
    writeZeros dev start sectors
    return true

def inodeClose (sector : Nat) : Powered Unit := do
  let inode ← free (findInode sector)
  if inode.openCnt - 1 = 0 then
    free (modify fun v => { v with openInodes := Keyed.remove Inode.sector sector v.openInodes })
    if inode.removed then
      freeMapRelease dev inode.sector 1
      freeMapRelease dev inode.data.start (bytesToSectors inode.data.length)
  else free (modify fun v => v.updateInode sector fun inode => { inode with openCnt := inode.openCnt - 1 })

/-! Directories. -/

def dirAdd (dir : Nat) (name : CString) (inodeSector : Nat) : Powered Bool := do
  if name.val = [] ∨ nameMax < name.val.length then return false
  else
    let (taken,_,_) ← free (lookup dev dir name)
    if taken then return false
    else
      let (_,ofs,e) ← free (scanEntries dev dir (fun e => !entryInUse e) (← free (entryBound dir)) (fun _ => 0) 0)
      return (← inodeWriteAt dev dir (fillEntry e name inodeSector) entrySize ofs) == entrySize

def dirRemove (dir : Nat) (name : CString) : Powered Bool := do
  let (found,ofs,e) ← free (lookup dev dir name)
  if found then
    let sector := entrySector e
    free (inodeOpen dev sector)
    if (← inodeWriteAt dev dir (store e 19 1 0) entrySize ofs) ≠ entrySize then
      inodeClose dev sector
      return false
    else
      free (inodeRemove sector)
      inodeClose dev sector
      return true
  else return false

/-! Files. -/

def fileClose (id : Nat) : Powered Unit := do
  free (fileAllowWrite id)
  let file ← free (findFile id)
  inodeClose dev file.inode
  free (modify fun v => { v with files := Keyed.remove File.id id v.files })

def fileWrite (id : Nat) (buffer : Memory) (size : Int) : Powered Nat := do
  let file ← free (findFile id)
  let bytesWritten ← inodeWriteAt dev file.inode buffer size file.pos
  free (modify fun v => v.updateFile id fun file => { file with pos := file.pos + bytesWritten })
  return bytesWritten

def fileWriteAt (id : Nat) (buffer : Memory) (size : Int) (fileOfs : Nat) : Powered Nat := do
  inodeWriteAt dev (← free (findFile id)).inode buffer size fileOfs

/-! The file system. -/

def filesysCreate (name : CString) (initialSize : Int) : Powered Bool := do
  free (inodeOpen dev rootDirSector)
  match ← freeMapAllocate dev 1 with
  | none =>
    inodeClose dev rootDirSector
    return false
  | some inodeSector =>
    free (assert (0 ≤ initialSize))
    let created ← inodeCreate dev inodeSector initialSize.toNat
    let success ← if created then dirAdd dev rootDirSector name inodeSector else pure false
    if !success && inodeSector != 0 then freeMapRelease dev inodeSector 1
    inodeClose dev rootDirSector
    return success

def filesysOpen (name : CString) : Powered (Option Nat) := do
  free (inodeOpen dev rootDirSector)
  let (found,_,e) ← free (lookup dev rootDirSector name)
  if found then
    free (inodeOpen dev (entrySector e))
    inodeClose dev rootDirSector
    return some (← free (fileOpen (entrySector e)))
  else
    inodeClose dev rootDirSector
    return none

def filesysRemove (name : CString) : Powered Bool := do
  free (inodeOpen dev rootDirSector)
  let success ← dirRemove dev rootDirSector name
  inodeClose dev rootDirSector
  return success

def exec : Call → Powered Result
  | .filesysCreate name initialSize => do return .success (← filesysCreate dev name initialSize)
  | .filesysOpen name => do return .opened (← filesysOpen dev name)
  | .filesysRemove name => do return .success (← filesysRemove dev name)
  | .fileWrite id buffer size => do return .number (← fileWrite dev id buffer size)
  | .fileWriteAt id buffer size fileOfs => do return .number (← fileWriteAt dev id buffer size fileOfs)
  | .fileClose id => do
    fileClose dev id
    return .done
  | call => free (FileSys.exec dev call)

end

section
variable {dev : Device}

/-! Counting does not change what the functions do. -/

theorem counts_blockWrite : Counts (blockWrite dev sector buffer ofs) (FileSys.blockWrite dev sector buffer ofs) :=
  Counts.bind (m := pure ()) counts_spend fun _ => counts_free

theorem counts_inodeWriteLoop {data : InodeDisk} : Counts (inodeWriteLoop dev data buffer bound size offset done)
    (FileSys.inodeWriteLoop dev data buffer bound size offset done) := by
  induction bound generalizing size offset done with
  | zero => exact counts_pure _
  | succ bound ih =>
    unfold inodeWriteLoop FileSys.inodeWriteLoop
    refine (counts_pure _).ite (.ite ?_ ?_)
    · exact counts_blockWrite.bind fun _ => ih
    · refine .ite (counts_free.bind fun _ => ?_) ((counts_pure _).bind fun _ => ?_)
      · exact counts_blockWrite.bind fun _ => ih
      · exact counts_blockWrite.bind fun _ => ih

theorem counts_inodeWriteAt : Counts (inodeWriteAt dev i buffer size offset) (FileSys.inodeWriteAt dev i buffer size offset) :=
  counts_free.bind fun _ => (counts_pure _).ite counts_inodeWriteLoop

theorem counts_bitmapWrite : Counts (bitmapWrite dev file) (FileSys.bitmapWrite dev file) :=
  counts_free.bind fun _ => counts_inodeWriteAt.bind fun _ => counts_pure _

theorem counts_freeMapWrite : Counts (freeMapWrite dev absent) (FileSys.freeMapWrite dev absent) := by
  have counts : Counts (freeMapWrite dev absent) (do
      match (← get).freeMapFile with
      | none => absent
      | some file => FileSys.bitmapWrite dev file) := by
    refine counts_free.bind fun v => ?_
    cases v.freeMapFile with
    | none => exact counts_free
    | some file => exact counts_bitmapWrite
  refine cast (congrArg _ (funext fun v => ?_)) counts
  change (match v.freeMapFile with
    | none => absent
    | some file => FileSys.bitmapWrite dev file : M Bool) v = FileSys.freeMapWrite dev absent v
  rw [FileSys.freeMapWrite]
  cases v.freeMapFile <;> rfl

theorem counts_freeMapAllocate : Counts (freeMapAllocate dev cnt) (FileSys.freeMapAllocate dev cnt) := by
  refine counts_free.bind fun v => ?_
  dsimp only
  cases scan v.freeMap dev.size 0 cnt false with
  | none => exact counts_pure _
  | some sector =>
    refine counts_free.bind fun _ => counts_freeMapWrite.bind fun saved => (counts_pure _).ite ?_
    exact counts_free.bind fun _ => counts_pure _

theorem counts_freeMapRelease : Counts (freeMapRelease dev sector cnt) (FileSys.freeMapRelease dev sector cnt) :=
  counts_free.bind fun _ => counts_free.bind fun _ => counts_free.bind fun _ => counts_freeMapWrite.bind fun _ => counts_pure _

theorem counts_writeZeros : Counts (writeZeros dev start n) (FileSys.writeZeros dev start n) := by
  induction n with
  | zero => exact counts_pure _
  | succ n ih => exact ih.bind fun _ => counts_blockWrite

theorem counts_inodeCreate : Counts (inodeCreate dev i length) (FileSys.inodeCreate dev i length) := by
  refine counts_freeMapAllocate.bind fun found => ?_
  cases found with
  | none => exact counts_pure _
  | some start => exact counts_blockWrite.bind fun _ => counts_writeZeros.bind fun _ => counts_pure _

theorem counts_inodeClose : Counts (inodeClose dev i) (FileSys.inodeClose dev i) := by
  refine counts_free.bind fun inode => .ite (counts_free.bind fun _ => .ite ?_ (counts_pure _)) counts_free
  exact counts_freeMapRelease.bind fun _ => counts_freeMapRelease

theorem counts_dirAdd : Counts (dirAdd dev dir name i) (FileSys.dirAdd dev dir name i) := by
  refine (counts_pure _).ite (counts_free.bind fun looked => (counts_pure _).ite ?_)
  exact counts_free.bind fun _ => counts_free.bind fun _ => counts_inodeWriteAt.bind fun _ => counts_pure _

theorem counts_dirRemove : Counts (dirRemove dev dir name) (FileSys.dirRemove dev dir name) := by
  refine counts_free.bind fun looked => .ite ?_ (counts_pure _)
  refine counts_free.bind fun _ => counts_inodeWriteAt.bind fun _ => .ite ?_ ?_
  · exact counts_inodeClose.bind fun _ => counts_pure _
  · exact counts_free.bind fun _ => counts_inodeClose.bind fun _ => counts_pure _

theorem counts_fileClose : Counts (fileClose dev f) (FileSys.fileClose dev f) :=
  counts_free.bind fun _ => counts_free.bind fun _ => counts_inodeClose.bind fun _ => counts_free

theorem counts_fileWrite : Counts (fileWrite dev f buffer size) (FileSys.fileWrite dev f buffer size) :=
  counts_free.bind fun _ => counts_inodeWriteAt.bind fun _ => counts_free.bind fun _ => counts_pure _

theorem counts_fileWriteAt : Counts (fileWriteAt dev f buffer size ofs) (FileSys.fileWriteAt dev f buffer size ofs) :=
  counts_free.bind fun _ => counts_inodeWriteAt

theorem counts_filesysCreate : Counts (filesysCreate dev name initialSize) (FileSys.filesysCreate dev name initialSize) := by
  refine counts_free.bind fun _ => counts_freeMapAllocate.bind fun found => ?_
  cases found with
  | none => exact counts_inodeClose.bind fun _ => counts_pure _
  | some i =>
    refine counts_free.bind fun _ => counts_inodeCreate.bind fun created => ?_
    have finish (success : Bool) : Counts (do
          if !success && i != 0 then freeMapRelease dev i 1
          inodeClose dev rootDirSector
          return success) (do
          if !success && i != 0 then FileSys.freeMapRelease dev i 1
          FileSys.inodeClose dev rootDirSector
          return success) := by
      refine .ite (counts_freeMapRelease.bind fun _ => ?_) ?_
      · exact counts_inodeClose.bind fun _ => counts_pure _
      · exact counts_inodeClose.bind fun _ => counts_pure _
    exact .ite (counts_dirAdd.bind finish) ((counts_pure _).bind finish)

theorem counts_filesysOpen : Counts (filesysOpen dev name) (FileSys.filesysOpen dev name) := by
  refine counts_free.bind fun _ => counts_free.bind fun looked => .ite ?_ ?_
  · exact counts_free.bind fun _ => counts_inodeClose.bind fun _ => counts_free.bind fun _ => counts_pure _
  · exact counts_inodeClose.bind fun _ => counts_pure _

theorem counts_filesysRemove : Counts (filesysRemove dev name) (FileSys.filesysRemove dev name) :=
  counts_free.bind fun _ => counts_dirRemove.bind fun _ => counts_inodeClose.bind fun _ => counts_pure _

/-- With power for enough writes a call is the one that the model has without counting. -/
theorem counts_exec (call : Call) : Counts (exec dev call) (FileSys.exec dev call) := by
  cases call with
  | filesysCreate name initialSize => exact counts_filesysCreate.bind fun _ => counts_pure _
  | filesysOpen name => exact counts_filesysOpen.bind fun _ => counts_pure _
  | filesysRemove name => exact counts_filesysRemove.bind fun _ => counts_pure _
  | fileWrite f buffer size => exact counts_fileWrite.bind fun _ => counts_pure _
  | fileWriteAt f buffer size ofs => exact counts_fileWriteAt.bind fun _ => counts_pure _
  | fileClose f => exact counts_fileClose.bind fun _ => counts_pure _
  | _ => exact counts_free

end

end OsProj.FileSys.Power
