import OsProj.FileSysFiles
import OsProj.Ustar

/-! Copying files between the file system and a ustar archive on the scratch device. Memory
allocation succeeds, and what is printed is left out. -/
namespace OsProj.Fsutil

open OsProj.ByteMemory OsProj.FileSys OsProj.Ustar

inductive Panic where
  | filesys (panic : FileSys.Panic)
  | pastEnd
  | openFailed (fileName : CString)
  | nameTooLong (fileName : CString)
  | outOfSpace (fileName : CString)
  | readFailed (fileName : CString) (unread : Nat)
  | badHeader (sector : Nat) (error : String)
  | createFailed (fileName : CString)
  | writeFailed (fileName : CString) (unwritten : Nat)
  deriving DecidableEq, Repr

/-- A kernel with its file system, the bytes of the scratch device and the static positions of
`fsutil_append` and `fsutil_extract` on it. -/
structure Machine where
  volume : Volume
  scratch : Memory
  appendSector : Nat
  extractSector : Nat

abbrev F := StateT Machine (Except Panic)

def Machine.boot (volume : Volume) (scratch : Memory) : Machine := ⟨volume,scratch,0,0⟩

def onVolume (x : M α) : F α := fun m =>
  match x m.volume with
  | .ok (a,volume) => .ok (a,{ m with volume := volume })
  | .error panic => .error (.filesys panic)

section
variable (fs scratch : Device)

def scratchRead (sector : Nat) : F Memory := fun m =>
  if sector < scratch.size then .ok (paste (fun _ => 0) 0 m.scratch (blockSectorSize * sector) blockSectorSize,m)
  else .error .pastEnd

def scratchWrite (sector : Nat) (buffer : Memory) : F Unit := fun m =>
  if sector < scratch.size then
    .ok ((),{ m with scratch := paste m.scratch (blockSectorSize * sector) buffer 0 blockSectorSize })
  else .error .pastEnd

/-! Appending. -/

/-- A write to the sector `sector++`. -/
def appendWrite (buffer : Memory) : F Unit := do
  let sector := (← get).appendSector
  modify fun m => { m with appendSector := sector + 1 }
  scratchWrite scratch sector buffer

/-- The loop of `fsutil_append`. Each round moves a byte at least. -/
def appendLoop (fileName : CString) (src : Nat) : Nat → Nat → Memory → F Unit
  | 0, _, _ => return ()
  | bound + 1, size, buffer => do
    if size = 0 then return ()
    else
      let chunkSize := min size blockSectorSize
      if scratch.size ≤ (← get).appendSector then throw (.outOfSpace fileName)
      let (bytesRead,buffer) ← onVolume (fileRead fs src buffer chunkSize)
      if bytesRead ≠ chunkSize then throw (.readFailed fileName size)
      let buffer := fill buffer chunkSize (blockSectorSize - chunkSize) 0
      appendWrite scratch buffer
      appendLoop fileName src bound (size - chunkSize) buffer

/-- The end of the archive, which the next file overwrites. -/
def appendMarker : F Unit := do
  let sector := (← get).appendSector
  scratchWrite scratch sector (fun _ => 0)
  scratchWrite scratch (sector + 1) (fun _ => 0)

def fsutilAppend (fileName : CString) : F Unit := do
  match ← onVolume (filesysOpen fs fileName) with
  | none => throw (.openFailed fileName)
  | some src =>
    let size ← onVolume (fileLength src)
    match ustarMakeHeader fileName .regular size with
    | none => throw (.nameTooLong fileName)
    | some header =>
      appendWrite scratch header
      appendLoop fs scratch fileName src size size header
      appendMarker scratch
      onVolume (fileClose fs src)

def appendAll : List CString → F Unit
  | [] => return ()
  | fileName :: rest => do
    fsutilAppend fs scratch fileName
    appendAll rest

/-! Extracting. -/

def extractRead : F Memory := do
  let sector := (← get).extractSector
  modify fun m => { m with extractSector := sector + 1 }
  scratchRead scratch sector

def copyLoop (fileName : CString) (dst : Nat) : Nat → Nat → F Unit
  | 0, _ => return ()
  | bound + 1, size => do
    if size = 0 then return ()
    else
      let chunkSize := min size blockSectorSize
      let data ← extractRead scratch
      if (← onVolume (fileWrite fs dst data chunkSize)) ≠ chunkSize then throw (.writeFailed fileName size)
      copyLoop fileName dst bound (size - chunkSize)

def extractFile (fileName : CString) (size : Nat) : F Unit := do
  if ← onVolume (filesysCreate fs fileName size) then
    match ← onVolume (filesysOpen fs fileName) with
    | none => throw (.openFailed fileName)
    | some dst =>
      copyLoop fs scratch fileName dst size size
      onVolume (fileClose fs dst)
  else throw (.createFailed fileName)

/-- The loop over the headers. Each round reads another sector, so there are no more rounds than
sectors before it reads behind the end. -/
def extractLoop : Nat → F Unit
  | 0 => throw .pastEnd
  | bound + 1 => do
    let sector := (← get).extractSector
    let header ← extractRead scratch
    match ustarParseHeader header with
    | .error error => throw (.badHeader sector error)
    | .ok .eof => return ()
    | .ok (.directory _) => extractLoop bound
    | .ok (.regular fileName size) =>
      extractFile fs scratch fileName size
      extractLoop bound

/-- The archive is erased at the end. -/
def fsutilExtract : F Unit := do
  extractLoop fs scratch (scratch.size + 1)
  scratchWrite scratch 0 (fun _ => 0)
  scratchWrite scratch 1 (fun _ => 0)

end

end OsProj.Fsutil
