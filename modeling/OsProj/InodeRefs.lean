import OsProj.Faulting
import OsProj.FileSys
import OsProj.History

/-! References to inodes in memory, as the files, directories and calls of proj-pregame take and
give them up. Allocations may fail, and what is found on the disk or written to it is arbitrary. -/
namespace OsProj.InodeRefs

open OsProj.Keyed

/-- An inode in memory. Its identity is that of the allocated structure. -/
structure Inode where
  id : Nat
  sector : Nat
  openCnt : Nat
  removed : Bool
  data : FileSys.InodeDisk
  deriving DecidableEq, Repr

structure Handle where
  id : Nat
  inode : Nat
  deriving DecidableEq, Repr

inductive Op where
  | opened (inode : Nat)
  | reopened (inode : Nat)
  | removed (inode : Nat)
  | closed (inode : Nat) (released : List (Nat × Nat))
  deriving DecidableEq, Repr

/-- What was done to an inode, and the list of open inodes after it. -/
structure Point where
  op : Op
  openInodes : List Inode

structure State where
  openInodes : List Inode
  next : Nat
  files : List Handle
  dirs : List Handle
  nextHandle : Nat
  freeMapFile : Option Nat
  log : List Point

inductive Fault where
  | dangling
  | panic
  deriving DecidableEq, Repr

abbrev M := StateT State (Except Fault)

def State.boot : State := ⟨[],0,[],[],0,none,[]⟩

/-! Inodes. -/

def State.commit (s : State) (op : Op) (openInodes : List Inode) : State :=
  { s with openInodes := openInodes, log := ⟨op,openInodes⟩ :: s.log }

def findInode (id : Nat) : M Inode := fun s =>
  match find Inode.id id s.openInodes with
  | some inode => .ok (inode,s)
  | none => .error .dangling

def inodeReopen (id : Nat) : M Unit := do
  let _ ← findInode id
  modify fun s => s.commit (.reopened id)
    (update Inode.id id (fun inode => { inode with openCnt := inode.openCnt + 1 }) s.openInodes)

def inodeOpen (sector : Nat) (data : FileSys.InodeDisk) (memory : Bool) : M (Option Nat) := do
  let s ← get
  match find Inode.sector sector s.openInodes with
  | some inode =>
    inodeReopen inode.id
    return some inode.id
  | none =>
    if memory then
      set { s.commit (.opened s.next) (⟨s.next,sector,1,false,data⟩ :: s.openInodes) with next := s.next + 1 }
      return some s.next
    else return none

def Inode.blocks (inode : Inode) : List (Nat × Nat) :=
  [(inode.sector,1),(inode.data.start,FileSys.bytesToSectors inode.data.length)]

def inodeClose : Option Nat → M Unit
  | none => return ()
  | some id => do
    let inode ← findInode id
    if inode.openCnt - 1 = 0 then
      modify fun s => s.commit (.closed id (if inode.removed then inode.blocks else [])) (remove Inode.id id s.openInodes)
    else
      modify fun s => s.commit (.closed id [])
        (update Inode.id id (fun inode => { inode with openCnt := inode.openCnt - 1 }) s.openInodes)

def inodeRemove (id : Nat) : M Unit := do
  let _ ← findInode id
  modify fun s => s.commit (.removed id)
    (update Inode.id id (fun inode => { inode with removed := true }) s.openInodes)

/-! Files. -/

def findHandle (handles : State → List Handle) (id : Nat) : M Handle := fun s =>
  match find Handle.id id (handles s) with
  | some handle => .ok (handle,s)
  | none => .error .dangling

def fileOpen (inode : Option Nat) (memory : Bool) : M (Option Nat) := fun s =>
  match inode,memory with
  | some i,true => .ok (some s.nextHandle,{ s with files := ⟨s.nextHandle,i⟩ :: s.files, nextHandle := s.nextHandle + 1 })
  | _,_ => (do inodeClose inode; return none) s

def fileReopen (file : Nat) (memory : Bool) : M (Option Nat) := do
  let handle ← findHandle State.files file
  inodeReopen handle.inode
  fileOpen (some handle.inode) memory

def fileClose (file : Nat) : M Unit := do
  let handle ← findHandle State.files file
  inodeClose (some handle.inode)
  modify fun s => { s with files := remove Handle.id file s.files }

/-! Directories. -/

def dirOpen (inode : Option Nat) (memory : Bool) : M (Option Nat) := fun s =>
  match inode,memory with
  | some i,true => .ok (some s.nextHandle,{ s with dirs := ⟨s.nextHandle,i⟩ :: s.dirs, nextHandle := s.nextHandle + 1 })
  | _,_ => (do inodeClose inode; return none) s

/-- The inode that a sector holds and whether there is memory to open it. -/
structure Opening where
  data : FileSys.InodeDisk
  memory : Bool

def dirOpenRoot (opening : Opening) (memory : Bool) : M (Option Nat) := do
  dirOpen (← inodeOpen FileSys.rootDirSector opening.data opening.memory) memory

def dirReopen (dir : Nat) (memory : Bool) : M (Option Nat) := do
  let handle ← findHandle State.dirs dir
  inodeReopen handle.inode
  dirOpen (some handle.inode) memory

def dirClose : Option Nat → M Unit
  | none => return ()
  | some dir => do
    let handle ← findHandle State.dirs dir
    inodeClose (some handle.inode)
    modify fun s => { s with dirs := remove Handle.id dir s.dirs }

def dirLookup (found : Option Nat) (opening : Opening) : M (Option Nat) :=
  match found with
  | some sector => inodeOpen sector opening.data opening.memory
  | none => return none

def dirRemove (found : Option Nat) (opening : Opening) (written : Bool) : M Bool :=
  match found with
  | none => do
    inodeClose none
    return false
  | some sector => do
    match ← inodeOpen sector opening.data opening.memory with
    | none =>
      inodeClose none
      return false
    | some inode =>
      if written then inodeRemove inode
      inodeClose (some inode)
      return written

/-! The file system. -/

/-- What a call meets with: opening the root directory, the entry of the name and its inode, a
write to the directory, and memory for the file. -/
structure Outcomes where
  root : Opening
  dirMemory : Bool
  found : Option Nat
  file : Opening
  written : Bool
  fileMemory : Bool

/-- The steps between opening and closing the directory change no inode in memory. -/
def filesysCreate (o : Outcomes) : M Bool := do
  let dir ← dirOpenRoot o.root o.dirMemory
  dirClose dir
  return dir.isSome && o.written

def filesysOpen (o : Outcomes) : M (Option Nat) := do
  let dir ← dirOpenRoot o.root o.dirMemory
  let inode ← if dir.isSome then dirLookup o.found o.file else pure none
  dirClose dir
  fileOpen inode o.fileMemory

def filesysRemove (o : Outcomes) : M Bool := do
  let dir ← dirOpenRoot o.root o.dirMemory
  let success ← if dir.isSome then dirRemove o.found o.file o.written else pure false
  dirClose dir
  return success

/-- Opens the file of the free map, also at the end of `free_map_create`. -/
def freeMapOpen (o : Outcomes) : M Unit := do
  match ← fileOpen (← inodeOpen FileSys.freeMapSector o.file.data o.file.memory) o.fileMemory with
  | none => throw .panic
  | some file =>
    modify fun s => { s with freeMapFile := some file }
    if o.written then return () else throw .panic

def freeMapClose : M Unit := fun s =>
  match s.freeMapFile with
  | none => .ok ((),s)
  | some file => fileClose file s

inductive Call where
  | filesysCreate (o : Outcomes)
  | filesysOpen (o : Outcomes)
  | filesysRemove (o : Outcomes)
  | fileReopen (file : Nat) (memory : Bool)
  | fileClose (file : Nat)
  | dirOpenRoot (opening : Opening) (memory : Bool)
  | dirReopen (dir : Nat) (memory : Bool)
  | dirClose (dir : Nat)
  | freeMapOpen (o : Outcomes)
  | freeMapClose

def exec : Call → M Unit
  | .filesysCreate o => do let _ ← filesysCreate o
  | .filesysOpen o => do let _ ← filesysOpen o
  | .filesysRemove o => do let _ ← filesysRemove o
  | .fileReopen file memory => do let _ ← fileReopen file memory
  | .fileClose file => fileClose file
  | .dirOpenRoot opening memory => do let _ ← dirOpenRoot opening memory
  | .dirReopen dir memory => do let _ ← dirReopen dir memory
  | .dirClose dir => dirClose (some dir)
  | .freeMapOpen o => freeMapOpen o
  | .freeMapClose => freeMapClose

/-- Callers name files and directories that are open. -/
def Admissible (s : State) : Call → Prop
  | .fileReopen file _ | .fileClose file => file ∈ s.files.map Handle.id
  | .dirReopen dir _ | .dirClose dir => dir ∈ s.dirs.map Handle.id
  | .freeMapClose => ∀ file, s.freeMapFile = some file → file ∈ s.files.map Handle.id
  | _ => True

def Step (_ : List Call) (s : State) (call : Call) (s' : State) : Prop :=
  Admissible s call ∧ exec call s = .ok ((),s')

end OsProj.InodeRefs
