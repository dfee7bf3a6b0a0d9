import OsProj.FileSysFrame
import OsProj.FileSysTransfer

/-! Denying writes to an inode through its files. Callers take references to inodes and give
them up, the allocation of a file may fail, and what is on the disk and in the free map is
arbitrary. -/
namespace OsProj.FileSys

open OsProj.ByteMemory OsProj.Faulting OsProj.Keyed

/-- Only the disk and the free map differ. -/
structure SameTables (v v' : Volume) : Prop where
  openInodes : v'.openInodes = v.openInodes
  files : v'.files = v.files
  nextFile : v'.nextFile = v.nextFile

section
variable (dev : Device)

/-- `file_open` of an inode that may be null, with memory for the file or without. -/
def fileOpenWith (inode : Option Nat) (memory : Bool) : M (Option Nat) :=
  match inode,memory with
  | some sector,true => do return some (← fileOpen sector)
  | some sector,false => do
    inodeClose dev sector
    return none
  | none,_ => return none

def fileReopenWith (id : Nat) (memory : Bool) : M (Option Nat) := do
  let file ← findFile id
  inodeReopen file.inode
  fileOpenWith dev (some file.inode) memory

/-- The caller's reference to the inode is given up, unless the inode is null. -/
def given (held : Nat → Nat) : Option Nat → Nat → Nat
  | none => held
  | some sector => fewer held sector

/-- Calls that returned, from a kernel without open inodes. Beside the files, callers hold
references of their own, which they get from opening an inode and may give to a file. -/
inductive Uses : Volume → (Nat → Nat) → Prop where
  | start : v.openInodes = [] → v.files = [] → Uses v fun _ => 0
  | elsewhere : Uses v held → SameTables v v' → Uses v' held
  | inodeOpen : Uses v held → inodeOpen dev sector v = .ok ((),v') → Uses v' (more held sector)
  | inodeReopen : Uses v held → sector ∈ v.openInodes.map Inode.sector → inodeReopen sector v = .ok ((),v') →
      Uses v' (more held sector)
  | inodeRemove : Uses v held → sector ∈ v.openInodes.map Inode.sector → inodeRemove sector v = .ok ((),v') → Uses v' held
  | inodeClose : Uses v held → 0 < held sector → inodeClose dev sector v = .ok ((),v') → Uses v' (fewer held sector)
  | fileOpen : Uses v held → (∀ sector, inode = some sector → 0 < held sector) →
      fileOpenWith dev inode memory v = .ok (answer,v') → Uses v' (given held inode)
  | fileReopen : Uses v held → file ∈ v.files → fileReopenWith dev file.id memory v = .ok (answer,v') → Uses v' held
  | fileDenyWrite : Uses v held → file ∈ v.files → fileDenyWrite file.id v = .ok ((),v') → Uses v' held
  | fileAllowWrite : Uses v held → file ∈ v.files → fileAllowWrite file.id v = .ok ((),v') → Uses v' held
  | fileClose : Uses v held → file ∈ v.files → fileClose dev file.id v = .ok ((),v') → Uses v' held
  | fileWrite : Uses v held → file ∈ v.files → fileWrite dev file.id buffer size v = .ok (n,v') → Uses v' held
  | fileWriteAt : Uses v held → file ∈ v.files → fileWriteAt dev file.id buffer size ofs v = .ok (n,v') → Uses v' held
  | fileSeek : Uses v held → file ∈ v.files → fileSeek file.id newPos v = .ok ((),v') → Uses v' held
  | fileRead : Uses v held → file ∈ v.files → fileRead dev file.id buffer size v = .ok (r,v') → Uses v' held

end

section
variable {dev : Device} {v v' v'' : Volume} {extra : Nat → Nat} {file : File}

/-! Writing to the disk. -/

theorem SameTables.refl : SameTables v v := ⟨rfl,rfl,rfl⟩

theorem Accounts.same (accounts : Accounts v extra) (same : SameTables v v') : Accounts v' extra := by
  obtain ⟨openInodes,files,nextFile⟩ := same
  obtain ⟨nodup,count,used,deny,here,ids,fresh⟩ := accounts
  rw [← openInodes] at nodup count used deny here
  rw [← files] at count deny here ids fresh
  rw [← nextFile] at fresh
  exact ⟨nodup,count,used,deny,here,ids,fresh⟩

theorem sameTables_offDisk : OffDisk (SameTables v) := fun _ _ same => ⟨same.openInodes,same.files,same.nextFile⟩

theorem keeps_tables_release (sector cnt : Nat) : Keeps (SameTables v) (freeMapRelease dev sector cnt) := by
  refine keeps_get_bind fun _ _ => (keeps_assert _).bind fun _ => Keeps.bind (keeps_modify ?_) fun _ => ?_
  · exact fun _ same => ⟨same.openInodes,same.files,same.nextFile⟩
  · exact (keeps_freeMapWrite sameTables_offDisk (keeps_throw _)).bind fun _ => keeps_pure _

/-! Closing. -/

/-- Whatever is released, the table loses one reference. -/
theorem inodeClose_tables (found : find Inode.sector i v.openInodes = some inode)
    (done : inodeClose dev i v = .ok ((),v')) : SameTables { v with openInodes := closeList v.openInodes inode } v' := by
  by_cases stays : 1 < inode.openCnt ∨ inode.removed = false
  · rw [inodeClose_plain found stays] at done
    cases done
    exact .refl
  · obtain ⟨last,removed⟩ := not_or.mp stays
    rw [inodeClose_last found last (by simpa using removed)] at done
    have kept : Keeps (SameTables { v with openInodes := closeList v.openInodes inode })
        (freeMapRelease dev i 1 >>= fun _ => freeMapRelease dev inode.data.start inode.data.sectors) :=
      (keeps_tables_release i 1).bind fun _ => keeps_tables_release _ _
    exact kept _ _ _ .refl done

theorem Accounts.inodeClosed (accounts : Accounts v extra) (held : 0 < extra i)
    (done : inodeClose dev i v = .ok ((),v')) : Accounts v' (fewer extra i) := by
  obtain ⟨inode,member,rfl⟩ := List.mem_map.mp (accounts.here i (by omega))
  exact (accounts.closed member held).same (inodeClose_tables (find_member accounts.nodup member) done)

/-- Closing a file takes back its own denial first. -/
theorem Accounts.fileClose_eq (accounts : Accounts v extra) (member : file ∈ v.files) :
    ∃ v₁, fileAllowWrite file.id v = .ok ((),v₁) ∧ Accounts v₁ extra ∧ { file with denyWrite := false } ∈ v₁.files ∧
      fileClose dev file.id v = (do
        inodeClose dev file.inode
        modify fun v => { v with files := remove File.id file.id v.files } : M Unit) v₁ := by
  have allowed := accounts.fileAllowWrite_ok member
  have after : Accounts (if file.denyWrite then v.flag file false else v) extra ∧
      { file with denyWrite := false } ∈ (if file.denyWrite then v.flag file false else v).files := by
    cases denied : file.denyWrite with
    | true => exact ⟨accounts.flagged member denied,mem_update.mpr ⟨file,member,if_pos rfl⟩⟩
    | false =>
      have whole : { file with denyWrite := false } = file := by rw [← denied]
      rw [whole]
      exact ⟨accounts,member⟩
  have found : findFile file.id _ = .ok ({ file with denyWrite := false },_) := after.1.findFile_ok after.2
  exact ⟨_,allowed,after.1,after.2,(bind_go allowed).trans ((bind_go found).trans rfl)⟩

theorem Accounts.closedFile (accounts : Accounts v extra) (member : file ∈ v.files)
    (done : fileClose dev file.id v = .ok ((),v')) : Accounts v' extra := by
  obtain ⟨v₁,-,accounts₁,member₁,closing⟩ := accounts.fileClose_eq member
  rw [closing] at done
  obtain ⟨⟨⟩,v₂,shut,gone⟩ := bind_ok.mp done
  obtain rfl := (Prod.mk.inj (Except.ok.inj gone)).2
  obtain ⟨inode,here,sector,found⟩ := accounts₁.inode_of member₁
  have tables := inodeClose_tables found shut
  have sector : inode.sector = file.inode := sector
  have without := accounts₁.fileClosed member₁ rfl
  have left := without.closed here (by rw [sector]; exact more_pos)
  rw [sector,fewer_more] at left
  apply left.same
  refine ⟨tables.openInodes,?_,tables.nextFile⟩
  exact congrArg (remove File.id file.id) tables.files

/-! Opening. -/

theorem inodeReopen_eq (data : InodeDisk) (present : i ∈ v.openInodes.map Inode.sector) :
    inodeReopen i v = .ok ((),{ v with openInodes := openList v.openInodes i data }) := by
  obtain ⟨inode,found⟩ := find_of_mem present
  unfold openList
  rw [if_pos (by rw [found]; rfl)]
  rfl

/-- The reference goes to the new file, or it is closed. -/
theorem Accounts.openedFile (accounts : Accounts v extra) (held : ∀ i, inode = some i → 0 < extra i)
    (done : fileOpenWith dev inode memory v = .ok (answer,v')) : Accounts v' (given extra inode) := by
  cases inode with
  | none =>
    obtain rfl := (Prod.mk.inj (Except.ok.inj done)).2
    exact accounts
  | some i =>
    cases memory with
    | true =>
      obtain rfl := (Prod.mk.inj (Except.ok.inj done)).2
      exact accounts.fileOpened (held i rfl)
    | false =>
      obtain ⟨⟨⟩,v₁,shut,rest⟩ := bind_ok.mp done
      obtain rfl := (Prod.mk.inj (Except.ok.inj rest)).2
      exact accounts.inodeClosed (held i rfl) shut

theorem Accounts.reopenedFile (accounts : Accounts v extra) (member : file ∈ v.files)
    (done : fileReopenWith dev file.id memory v = .ok (answer,v')) : Accounts v' extra := by
  obtain ⟨inode,here,sector,-⟩ := accounts.inode_of member
  have present : file.inode ∈ v.openInodes.map Inode.sector := List.mem_map.mpr ⟨inode,here,sector⟩
  have more := accounts.opened (i := file.inode) inode.data
  have again : fileReopenWith dev file.id memory v = fileOpenWith dev (some file.inode) memory _ :=
    (bind_go (accounts.findFile_ok member)).trans (bind_go (inodeReopen_eq inode.data present))
  rw [again] at done
  have after := more.openedFile (fun i same => by cases same; exact more_pos) done
  rw [given,fewer_more] at after
  exact after

/-! Writing and moving. -/

theorem Accounts.writtenFile (accounts : Accounts v extra) (member : file ∈ v.files)
    (done : fileWriteAt dev file.id buffer size ofs v = .ok (n,v')) : Accounts v' extra := by
  have written := (bind_go (accounts.findFile_ok member)).symm.trans done
  exact accounts.same (keeps_inodeWriteAt sameTables_offDisk _ _ _ .refl written)

/-- A transfer and a new position. -/
theorem Accounts.movedFile (accounts : Accounts v extra) (same : SameTables v v') (n : Nat) (pos : File → Nat) :
    Accounts (v'.updateFile n fun file => { file with pos := pos file }) extra :=
  (accounts.same same).moved (fun _ => rfl) (fun _ => rfl) fun _ => rfl

/-! Runs. -/

theorem Uses.accounts (uses : Uses dev v held) : Accounts v held := by
  induction uses with
  | start openInodes files =>
    constructor <;> simp [openInodes,files,refs]
  | elsewhere _ same ih => exact ih.same same
  | inodeOpen _ done ih =>
    obtain rfl := inodeOpen_returned done
    exact ih.opened _
  | @inodeReopen v held i v' _ present done ih =>
    rw [inodeReopen_eq (onDisk v.disk i) present] at done
    obtain rfl := (Prod.mk.inj (Except.ok.inj done)).2
    exact ih.opened _
  | inodeRemove _ present done ih =>
    obtain rfl := (Prod.mk.inj (Except.ok.inj done)).2
    exact ih.marked present
  | inodeClose _ referred done ih => exact ih.inodeClosed referred done
  | fileOpen _ referred done ih => exact ih.openedFile referred done
  | fileReopen _ member done ih => exact ih.reopenedFile member done
  | @fileDenyWrite v held file v' _ member done ih =>
    rw [ih.fileDenyWrite_ok member] at done
    obtain rfl := (Prod.mk.inj (Except.ok.inj done)).2
    cases denied : file.denyWrite with
    | true => exact ih
    | false => exact ih.flagged member denied
  | @fileAllowWrite v held file v' _ member done ih =>
    rw [ih.fileAllowWrite_ok member] at done
    obtain rfl := (Prod.mk.inj (Except.ok.inj done)).2
    cases denied : file.denyWrite with
    | true => exact ih.flagged member denied
    | false => exact ih
  | fileClose _ member done ih => exact ih.closedFile member done
  | fileWrite _ member done ih =>
    have done := (bind_go (ih.findFile_ok member)).symm.trans done
    obtain ⟨n,v₁,written,rest⟩ := bind_ok.mp done
    obtain rfl := (Prod.mk.inj (Except.ok.inj rest)).2
    exact ih.movedFile (keeps_inodeWriteAt sameTables_offDisk _ _ _ .refl written) _ _
  | fileWriteAt _ member done ih => exact ih.writtenFile member done
  | fileSeek _ member done ih =>
    have done := (bind_go (ih.findFile_ok member)).symm.trans done
    obtain ⟨⟨⟩,v₁,asserted,rest⟩ := bind_ok.mp done
    obtain rfl := (Prod.mk.inj (Except.ok.inj rest)).2
    exact ih.movedFile (keeps_assert _ _ _ _ .refl asserted) _ _
  | fileRead _ member done ih =>
    have done := (bind_go (ih.findFile_ok member)).symm.trans done
    obtain ⟨r,v₁,read,rest⟩ := bind_ok.mp done
    obtain rfl := (Prod.mk.inj (Except.ok.inj rest)).2
    exact ih.movedFile (keeps_inodeReadAt _ _ _ .refl read) _ _

theorem update_same {f : File → File} {l : List File} (same : ∀ file ∈ l, f file = file) : update File.id n f l = l := by
  unfold update
  conv => rhs; rw [← List.map_id l]
  apply List.map_congr_left
  intro file member
  split
  · exact same file member
  · rfl

def WritesRefused (dev : Device) (v : Volume) (file : File) : Prop :=
  ∀ buffer size ofs, fileWriteAt dev file.id buffer size ofs v = .ok (0,v) ∧ fileWrite dev file.id buffer size v = .ok (0,v)

/-- A write through the file goes to the sectors of its inode, and with all of them on the device it moves
as many bytes as the file has room for. -/
def WritesDone (dev : Device) (v : Volume) (file : File) (inode : Inode) : Prop :=
  ∀ buffer size ofs, fileWriteAt dev file.id buffer size ofs v = inodeWriteLoop dev inode.data buffer size.toNat size.toNat ofs 0 v ∧
    (inode.data.Fits dev →
      (∃ (n : Nat) (disk : Memory), fileWriteAt dev file.id buffer size ofs v = .ok (n,{ v with disk := disk }) ∧
        (n : Int) = transferred inode.data.length size ofs) ∧
      ∃ (n : Nat) (v' : Volume), fileWrite dev file.id buffer size v = .ok (n,v') ∧
        (n : Int) = transferred inode.data.length size file.pos)

section
variable (accounts : Accounts v extra) (member : file ∈ v.files) (found : find Inode.sector file.inode v.openInodes = some inode)
include accounts member found

theorem Accounts.refused (denied : inode.denyWriteCnt ≠ 0) : WritesRefused dev v file := by
  intro buffer size ofs
  have refused ofs : inodeWriteAt dev file.inode buffer size ofs v = .ok (0,v) := inodeWriteAt_denied found denied
  have opened := accounts.findFile_ok member
  refine ⟨(bind_go opened).trans (refused ofs),(bind_go opened).trans ((bind_go (refused file.pos)).trans ?_)⟩
  have same : Keyed.update File.id file.id (fun f => { f with pos := f.pos + 0 }) v.files = v.files :=
    update_same fun _ _ => rfl
  change Except.ok (0,{ v with files := Keyed.update File.id file.id (fun f => { f with pos := f.pos + 0 }) v.files }) = _
  rw [same]

theorem Accounts.written (allowed : inode.denyWriteCnt = 0) : WritesDone dev v file inode := by
  intro buffer size ofs
  have opened := accounts.findFile_ok member
  constructor
  · refine (bind_go opened).trans ((bind_go (findInode_ok found)).trans ?_)
    rw [if_neg (not_not.mpr allowed)]
  · intro fits
    obtain ⟨n,disk,done,amount,-⟩ := OpenInode.write ⟨found,fits⟩ buffer size ofs
    obtain ⟨n',disk',done',amount',-⟩ := OpenInode.write ⟨found,fits⟩ buffer size file.pos
    rw [if_pos allowed] at amount amount'
    exact ⟨⟨n,disk,(bind_go opened).trans done,amount⟩,n',_,(bind_go opened).trans (bind_go done'),amount'⟩

end

/-- The counter of an inode is the number of its files that deny writes, no assertion about it
fails, and writes through any file are refused exactly while it is positive. -/
theorem write_denial_accounted (uses : Uses dev v held) :
    (∀ inode ∈ v.openInodes, inode.denyWriteCnt = denies v.files inode.sector) ∧
      ∀ file ∈ v.files, ∃ inode, find Inode.sector file.inode v.openInodes = some inode ∧
        (∃ v', fileDenyWrite file.id v = .ok ((),v')) ∧
        (∃ v', fileAllowWrite file.id v = .ok ((),v') ∧ fileClose dev file.id v = (do
          inodeClose dev file.inode
          modify fun v => { v with files := remove File.id file.id v.files } : M Unit) v') ∧
        (0 < denies v.files file.inode → WritesRefused dev v file) ∧
        (denies v.files file.inode = 0 → WritesDone dev v file inode) := by
  have accounts := uses.accounts
  refine ⟨accounts.deny,fun file member => ?_⟩
  obtain ⟨inode,here,sector,found⟩ := accounts.inode_of member
  obtain ⟨v',allowed,-,-,closing⟩ := accounts.fileClose_eq member
  have counted := accounts.deny inode here
  rw [sector] at counted
  refine ⟨inode,found,⟨_,accounts.fileDenyWrite_ok member⟩,⟨v',allowed,closing⟩,?_,?_⟩
  · exact fun positive => accounts.refused member found (by omega)
  · exact fun none => accounts.written member found (counted.trans none)

def Volume.single (openCnt denyWriteCnt : Nat) (files : List File) (nextFile : Nat) : Volume :=
  ⟨fun _ => 0,fun _ => false,none,[⟨2,openCnt,false,denyWriteCnt,onDisk (fun _ => 0) 2⟩],files,nextFile⟩

/-- One of two files denies writes, so that the other one cannot write. -/
theorem write_denial_accounted_two :
    ∃ v held, Uses smallDevice v held ∧ v.files = [⟨1,2,0,false⟩,⟨0,2,0,true⟩] ∧ WritesRefused smallDevice v ⟨1,2,0,false⟩ := by
  have start : Uses smallDevice (Volume.boot fun _ => 0) fun _ => 0 := .start rfl rfl
  have opened : Uses smallDevice (.single 1 0 [] 0) _ := start.inodeOpen (inodeOpen_ok (by decide))
  have made : fileOpenWith smallDevice (some 2) true (.single 1 0 [] 0) = .ok (some 0,.single 1 0 [⟨0,2,0,false⟩] 1) := rfl
  have first := opened.fileOpen (fun i same => by cases same; exact more_pos) made
  have again : fileReopenWith smallDevice 0 true (.single 1 0 [⟨0,2,0,false⟩] 1) =
      .ok (some 1,.single 2 0 [⟨1,2,0,false⟩,⟨0,2,0,false⟩] 2) := rfl
  have second := first.fileReopen List.mem_cons_self again
  have flagged : fileDenyWrite 0 (.single 2 0 [⟨1,2,0,false⟩,⟨0,2,0,false⟩] 2) =
      .ok ((),.single 2 1 [⟨1,2,0,false⟩,⟨0,2,0,true⟩] 2) := rfl
  have denied := second.fileDenyWrite (List.mem_cons_of_mem _ List.mem_cons_self) flagged
  obtain ⟨inode,-,-,-,refused,-⟩ := (write_denial_accounted denied).2 ⟨1,2,0,false⟩ List.mem_cons_self
  exact ⟨_,_,denied,rfl,refused (by decide)⟩

end

end OsProj.FileSys
