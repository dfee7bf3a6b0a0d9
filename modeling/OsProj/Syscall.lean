import OsProj.Stopping
import OsProj.UserMemory

/-! System calls of hw-memory: the handler with its checks of user pointers, the page fault
handler behind them, and the locks of the console and of the disk channel. A thread ends by
exiting or waits for good on a lock that another thread keeps; a panic ends the kernel. -/
namespace OsProj.Syscall

open OsProj.ByteMemory OsProj.Stopping OsProj.UserMemory

inductive Lock where
  | console
  | channel
  deriving DecidableEq, Repr

inductive Stop where
  | exited (status : Int)
  | blocked
  | panicked
  deriving DecidableEq, Repr

structure Locks where
  holder : Lock → Option Nat
  consoleLockDepth : Nat

structure OpenFile where
  length : Nat
  byte : Nat → UInt8
  pos : Nat
  denyWrite : Bool

/-- What the running thread sees of the kernel, with the user addresses it has accessed. -/
structure Kernel where
  locks : Locks
  process : Process
  openFile : Option OpenFile
  inSyscall : Bool
  accesses : List Nat

abbrev M := Run Stop Kernel

/-- A directory entry that is in use. The inode of a file that is open already is not read
again. -/
structure DirEntry where
  name : List UInt8
  file : OpenFile
  isOpen : Bool

/-- The parts of the kernel a call relies on: the entries that a scan of the root directory
reads, and the answers of the allocators. -/
structure Services where
  entries : List DirEntry
  allocates : Bool
  grants : Nat → Bool

def assert (condition : Bool) : M Unit := fun k =>
  if condition then (.ok (),k) else (.error .panicked,k)

section
variable (thread : Nat)

def lockHeldByCurrentThread (lock : Lock) : M Bool := do
  return (← get).locks.holder lock == some thread

def Locks.setHolder (l : Locks) (lock : Lock) (holder : Option Nat) : Locks :=
  { l with holder := Function.update l.holder lock holder }

def lockAcquire (lock : Lock) : M Unit := do
  assert !(← lockHeldByCurrentThread thread lock)
  if ((← get).locks.holder lock).isSome then stop .blocked
  else modify fun k => { k with locks := k.locks.setHolder lock (some thread) }

def lockRelease (lock : Lock) : M Unit := do
  assert (← lockHeldByCurrentThread thread lock)
  modify fun k => { k with locks := k.locks.setHolder lock none }

def Kernel.setDepth (k : Kernel) (depth : Nat) : Kernel :=
  { k with locks := { k.locks with consoleLockDepth := depth } }

def acquireConsole : M Unit := do
  if ← lockHeldByCurrentThread thread .console then
    modify fun k => k.setDepth (k.locks.consoleLockDepth + 1)
  else lockAcquire thread .console

def releaseConsole : M Unit := do
  if 0 < (← get).locks.consoleLockDepth then modify fun k => k.setDepth (k.locks.consoleLockDepth - 1)
  else lockRelease thread .console

/-- The text goes to devices that do their own locking. -/
def printf : M Unit := do
  acquireConsole thread
  releaseConsole thread

def syscallExit (status : Int) : M α := do
  printf thread
  stop (.exited status)

def pageFault (user : Bool) (faultAddr : Nat) : M α := do
  if !user && (← get).inSyscall && isUserVaddr faultAddr then syscallExit thread (-1)
  else if user then syscallExit thread (-1)
  else
    printf thread
    stop .panicked

variable (ram : Ram)

/-- Where the bytes of an address are. Kernel addresses map physical memory one to one, and
the processor checks the write permission of user pages in kernel mode too. -/
def translate (s : Process) (write : Bool) (a : Nat) : Option Nat :=
  if a < physBase then
    ((s.page (a / pgSize)).filter (!write || ·.writable)).map (·.frame + pgOfs a)
  else if a < physBase + pgSize * ram.pages then some a
  else none

def access (write : Bool) (a : Nat) : M Nat := do
  modify fun k => { k with accesses := a :: k.accesses }
  match translate ram (← get).process write a with
  | some place => return place
  | none => pageFault thread false a

def loadUser (a : Nat) : M UInt8 := do
  let place ← access thread ram false a
  return (← get).process.mem place

def storeUser (a : Nat) (value : UInt8) : M Unit := do
  let place ← access thread ram true a
  modify fun k => { k with process := { k.process with mem := Function.update k.process.mem place value } }

def loadWord (a : Nat) : M Nat := do
  let b0 ← loadUser thread ram a
  let b1 ← loadUser thread ram (a + 1)
  let b2 ← loadUser thread ram (a + 2)
  let b3 ← loadUser thread ram (a + 3)
  return b0.toNat + 256 * b1.toNat + 65536 * b2.toNat + 16777216 * b3.toNat

def delta (pointer : Nat) : Nat := (physBase + 4294967296 - pointer) % 4294967296

def validateBufferInUserRegion (buffer length : Nat) : M Unit :=
  if !isUserVaddr buffer || delta buffer < length then syscallExit thread (-1)
  else return ()

/-- The loop reads the next byte before it compares the length with the limit, of which the
first argument is what is left. -/
def strnlenFrom (string : Nat) : Nat → Nat → M Nat
  | 0, length => do
    let _ ← loadUser thread ram (string + length)
    return length
  | left + 1, length => do
    if (← loadUser thread ram (string + length)) = 0 then return length
    else strnlenFrom string left (length + 1)

def strnlen (string maxlen : Nat) : M Nat := strnlenFrom thread ram string maxlen 0

def validateStringInUserRegion (string : Nat) : M Unit := do
  if isUserVaddr string then
    if (← strnlen thread ram string (delta string)) = delta string then syscallExit thread (-1)
    else return ()
  else syscallExit thread (-1)

/-- Whether the string at a user address equals a name, read as far as they agree. -/
def strcmpUser : Nat → List UInt8 → M Bool
  | a, [] => return (← loadUser thread ram a) == 0
  | a, c :: rest => do
    let byte ← loadUser thread ram a
    if byte ≠ 0 ∧ byte = c then strcmpUser (a + 1) rest
    else return byte == c

/-! The disk. A transfer between a channel and memory runs with the lock of the channel. -/

def ideTransfer (sector : M Unit) : M Unit := do
  lockAcquire thread .channel
  sector
  lockRelease thread .channel

def lookup (name : Nat) : List DirEntry → M (Option DirEntry)
  | [] => return none
  | entry :: rest => do
    ideTransfer thread (return ())
    if ← strcmpUser thread ram name entry.name then return some entry
    else lookup name rest

def filesysOpen (services : Services) (name : Nat) : M (Option OpenFile) := do
  ideTransfer thread (return ())
  assert (name != null)
  match ← lookup thread ram name services.entries with
  | none => return none
  | some entry =>
    if entry.isOpen then return (if services.allocates then some entry.file else none)
    else if services.allocates then
      ideTransfer thread (return ())
      return some entry.file
    else return none

def blockSectorSize : Nat := 512

def chunkSize (size inodeLeft sectorOfs : Nat) : Nat := min size (min inodeLeft (blockSectorSize - sectorOfs))

/-- Copies between kernel memory and a user buffer, a byte at a time. -/
def copyBytes (move : Nat → Nat → M Unit) (buffer offset : Nat) : Nat → M Unit
  | 0 => return ()
  | left + 1 => do
    move buffer offset
    copyBytes move (buffer + 1) (offset + 1) left

def readByte (buffer offset : Nat) : M Unit := do
  let byte := ((← get).openFile.map (·.byte offset)).getD 0
  storeUser thread ram buffer byte

def writeByte (buffer offset : Nat) : M Unit := do
  let value ← loadUser thread ram buffer
  modify fun k => { k with
    openFile := k.openFile.map fun file => { file with byte := Function.update file.byte offset value } }

/-- A sector that is transferred whole goes to or comes from the caller's buffer. -/
def inodeReadSector (buffer offset : Nat) : M Unit :=
  ideTransfer thread (copyBytes (readByte thread ram) buffer offset blockSectorSize)

def inodeWriteSector (buffer offset : Nat) : M Unit :=
  ideTransfer thread (copyBytes (writeByte thread ram) buffer offset blockSectorSize)

/-- Part of a sector goes through a bounce buffer; `memcpy` rejects null pointers. -/
def inodeReadPart (buffer offset chunk : Nat) : M Unit := do
  ideTransfer thread (return ())
  assert (buffer != null)
  copyBytes (readByte thread ram) buffer offset chunk

def inodeWritePart (buffer offset chunk : Nat) : M Unit := do
  if 0 < offset % blockSectorSize ∨ chunk < blockSectorSize - offset % blockSectorSize then
    ideTransfer thread (return ())
  assert (buffer != null)
  copyBytes (writeByte thread ram) buffer offset chunk
  ideTransfer thread (return ())

def inodeLoop (whole : Nat → Nat → M Unit) (part : Nat → Nat → Nat → M Unit) (bounce : Bool)
    (length buffer : Nat) : Nat → Nat → Nat → Nat → M Nat
  | 0, _, _, done => return done
  | bound + 1, size, offset, done => do
    let chunk := chunkSize size (length - offset) (offset % blockSectorSize)
    if chunk = 0 then return done
    else if offset % blockSectorSize = 0 ∧ chunk = blockSectorSize then
      whole (buffer + done) offset
      inodeLoop whole part bounce length buffer bound (size - chunk) (offset + chunk) (done + chunk)
    else if bounce then
      part (buffer + done) offset chunk
      inodeLoop whole part bounce length buffer bound (size - chunk) (offset + chunk) (done + chunk)
    else return done

/-- A size as an `off_t`, of which negative ones transfer nothing. -/
def offT (size : Nat) : Nat := if size < 2147483648 then size else 0

def inodeReadAt (bounce : Bool) (file : OpenFile) (buffer size : Nat) : M Nat :=
  inodeLoop (inodeReadSector thread ram) (inodeReadPart thread ram) bounce file.length buffer
    (offT size) (offT size) file.pos 0

def inodeWriteAt (bounce : Bool) (file : OpenFile) (buffer size : Nat) : M Nat :=
  if file.denyWrite then return 0
  else inodeLoop (inodeWriteSector thread ram) (inodeWritePart thread ram) bounce file.length buffer
    (offT size) (offT size) file.pos 0

def advance (moved : Nat) : M Unit :=
  modify fun k => { k with openFile := k.openFile.map fun file => { file with pos := file.pos + moved } }

def fileRead (bounce : Bool) (file : OpenFile) (buffer size : Nat) : M Nat := do
  let bytesRead ← inodeReadAt thread ram bounce file buffer size
  advance bytesRead
  return bytesRead

def fileWrite (bounce : Bool) (file : OpenFile) (buffer size : Nat) : M Nat := do
  let bytesWritten ← inodeWriteAt thread ram bounce file buffer size
  advance bytesWritten
  return bytesWritten

/-! The console. -/

def putcharHaveLock (_ : UInt8) : M Unit := do
  assert (← lockHeldByCurrentThread thread .console)

def putchars (buffer : Nat) : Nat → M Unit
  | 0 => return ()
  | n + 1 => do
    putcharHaveLock thread (← loadUser thread ram buffer)
    putchars (buffer + 1) n

def putbuf (buffer n : Nat) : M Unit := do
  acquireConsole thread
  putchars thread ram buffer n
  releaseConsole thread

/-! The calls. -/

def failed : Nat := 4294967295

def stdoutFileno : Nat := 1

def syscallOpen (services : Services) (filename : Nat) : M Nat := do
  if (← get).openFile.isSome then return failed
  else
    let file ← filesysOpen thread ram services filename
    modify fun k => { k with openFile := file }
    return (if file.isSome then 2 else failed)

def syscallWrite (services : Services) (fd buffer size : Nat) : M Nat := do
  if fd = stdoutFileno then
    putbuf thread ram buffer size
    return size
  else if fd ≠ 2 then return failed
  else match (← get).openFile with
    | none => return failed
    | some file => fileWrite thread ram services.allocates file buffer size

def syscallRead (services : Services) (fd buffer size : Nat) : M Nat := do
  if fd ≠ 2 then return failed
  else match (← get).openFile with
    | none => return failed
    | some file => fileRead thread ram services.allocates file buffer size

def syscallClose (fd : Nat) : M Unit :=
  if fd = 2 then modify fun k => { k with openFile := none }
  else return ()

/-- The kernel after an operation on the memory of the process. -/
def Kernel.settle (k : Kernel) : Except Panic (α × Process) → Except Stop α × Kernel
  | .ok (value,process) => (.ok value,{ k with process })
  | .error _ => (.error .panicked,k)

def syscallSbrk (services : Services) (increment : Nat) : M Nat := fun k =>
  k.settle (UserMemory.syscallSbrk ram services.grants (signed increment) k.process)

def sysExit : Nat := 1
def sysOpen : Nat := 6
def sysRead : Nat := 8
def sysWrite : Nat := 9
def sysClose : Nat := 12
def sysSbrk : Nat := 14

def arg (esp i : Nat) : Nat := (esp + 4 * i) % 4294967296

/-- One call with its number and the address of its arguments, which are read once since no
other thread can change them. The result is the value stored in `eax`, if any. -/
def dispatch (services : Services) (esp number : Nat) : M (Option Nat) := do
  if number = sysExit then
    validateBufferInUserRegion thread (arg esp 1) 4
    syscallExit thread (signed (← loadWord thread ram (arg esp 1)))
  else if number = sysOpen then
    validateBufferInUserRegion thread (arg esp 1) 4
    let filename ← loadWord thread ram (arg esp 1)
    validateStringInUserRegion thread ram filename
    return some (← syscallOpen thread ram services filename)
  else if number = sysWrite ∨ number = sysRead then
    validateBufferInUserRegion thread (arg esp 1) 12
    let buffer ← loadWord thread ram (arg esp 2)
    let size ← loadWord thread ram (arg esp 3)
    validateBufferInUserRegion thread buffer size
    let fd ← loadWord thread ram (arg esp 1)
    if number = sysWrite then return some (← syscallWrite thread ram services fd buffer size)
    else return some (← syscallRead thread ram services fd buffer size)
  else if number = sysClose then
    validateBufferInUserRegion thread (arg esp 1) 4
    syscallClose (← loadWord thread ram (arg esp 1))
    return none
  else if number = sysSbrk then
    validateBufferInUserRegion thread (arg esp 1) 4
    return some (← syscallSbrk ram services (← loadWord thread ram (arg esp 1)))
  else
    printf thread
    return none

def syscallHandler (services : Services) (esp : Nat) : M (Option Nat) := do
  modify fun k => { k with inSyscall := true }
  validateBufferInUserRegion thread (arg esp 0) 4
  let number ← loadWord thread ram (arg esp 0)
  let eax ← dispatch thread ram services esp number
  modify fun k => { k with inSyscall := false }
  return eax

end

end OsProj.Syscall
