import OsProj.FileSysCalls

/-! Calls on open files, and runs of calls against the store. -/
namespace OsProj.FileSys

open OsProj.Bitmap OsProj.ByteMemory OsProj.Faulting OsProj.Keyed

section
variable {disk : Memory} {data : InodeDisk}

theorem content_length : (content disk data).length = data.length := by simp [content]

theorem content_getD (inside : pos < data.length) : (content disk data).getD pos 0 = disk (data.place pos) := by
  simp [content,inside]

theorem transfer_content : transfer (content disk data) size pos = min size.toNat (data.length - pos) := by
  rw [transfer,content_length]

theorem readInto_content (inside : n ≤ data.length - pos) :
    paste buffer 0 disk (data.place pos) n = readInto buffer (content disk data) pos n := by
  funext i
  unfold paste readInto
  by_cases moved : i < n
  · rw [if_pos (by omega),if_pos moved,content_getD (by omega)]
    congr 1
    simp only [InodeDisk.place]
    omega
  · rw [if_neg (by omega),if_neg moved]

theorem overwrite_length (bytes : List UInt8) (pos n : Nat) (buffer : Memory) :
    (overwrite bytes pos n buffer).length = bytes.length := by simp [overwrite]

theorem content_paste : content (paste disk (data.place pos) buffer 0 n) data = overwrite (content disk data) pos n buffer := by
  apply List.ext_getElem
  · rw [overwrite_length,content_length,content_length]
  · intro i inside inside'
    simp only [content,overwrite,List.getElem_map,List.getElem_mapIdx,List.getElem_range]
    unfold paste
    by_cases moved : pos ≤ i ∧ i < pos + n
    · rw [if_pos (by simp only [InodeDisk.place]; omega),if_pos moved]
      congr 1
      simp only [InodeDisk.place]
      omega
    · rw [if_neg (by simp only [InodeDisk.place]; omega),if_neg moved]

end

def kernelHolds : Nat → Nat := fun i => if i = 0 then 1 else 0

def exec (dev : Device) : Call → M Result
  | .filesysCreate name initialSize => do return .success (← filesysCreate dev name initialSize)
  | .filesysOpen name => do return .opened (← filesysOpen dev name)
  | .filesysRemove name => do return .success (← filesysRemove dev name)
  | .fileRead id buffer size => do
    let (bytesRead,buffer) ← fileRead dev id buffer size
    return .bytesRead bytesRead buffer
  | .fileReadAt id buffer size fileOfs => do
    let (bytesRead,buffer) ← fileReadAt dev id buffer size fileOfs
    return .bytesRead bytesRead buffer
  | .fileWrite id buffer size => do return .number (← fileWrite dev id buffer size)
  | .fileWriteAt id buffer size fileOfs => do return .number (← fileWriteAt dev id buffer size fileOfs)
  | .fileSeek id newPos => do
    fileSeek id newPos
    return .done
  | .fileTell id => do return .number (← fileTell id)
  | .fileLength id => do return .number (← fileLength id)
  | .fileClose id => do
    fileClose dev id
    return .done
  | .fileReopen id => do return .opened (some (← fileReopen id))
  | .fileDenyWrite id => do
    fileDenyWrite id
    return .done
  | .fileAllowWrite id => do
    fileAllowWrite id
    return .done

def Call.file : Call → Option Nat
  | .filesysCreate _ _ | .filesysOpen _ | .filesysRemove _ => none
  | .fileRead id _ _ | .fileReadAt id _ _ _ | .fileWrite id _ _ | .fileWriteAt id _ _ _ | .fileSeek id _ | .fileTell id
  | .fileLength id | .fileClose id | .fileReopen id | .fileDenyWrite id | .fileAllowWrite id => some id

/-- Arguments that the kernel asserts and that an `off_t` can have. -/
def Call.InRange : Call → Prop
  | .filesysCreate _ initialSize => 0 ≤ initialSize ∧ initialSize < 2147483648
  | .fileSeek _ newPos => 0 ≤ newPos
  | _ => True

/-- Callers name files that they have opened and not closed yet. -/
def Admissible (v : Volume) (call : Call) : Prop :=
  call.InRange ∧ ∀ id, call.file = some id → id ∈ v.files.map File.id

def callRoom (dev : Device) (v : Volume) : Call → Bool
  | .filesysCreate _ initialSize => hasRoom dev v.freeMap initialSize
  | _ => true

def Step (dev : Device) (_ : List Event) (v : Volume) (e : Event) (v' : Volume) : Prop :=
  Admissible v e.call ∧ exec dev e.call v = .ok (e.result,v') ∧ e.room = callRoom dev v e.call

/-- The call returns, with what the store may return, and what holds of the volume is kept. -/
def Simulated (dev : Device) (v : Volume) (s : Store) (call : Call) : Prop :=
  ∃ result v' s', exec dev call v = .ok (result,v') ∧ Inv dev v' kernelHolds ∧
    s.Step ⟨call,result,callRoom dev v call⟩ s' ∧ Refines v' s'

section
variable {dev : Device} {v v' : Volume} {s : Store} {extra : Nat → Nat} {name : CString} {initialSize : Int} {file : File}

/-! Names. -/

/-- A new file in the store. -/
theorem Made.created (made : Made dev v kernelHolds initialSize i start v₁ v₂ v₃) (inv : Inv dev v kernelHolds)
    (refines : Refines v s) (low : 0 ≤ initialSize) (placeable : Placeable v.inodeOf name) :
    ∃ v', filesysCreate dev name initialSize v = .ok (true,v') ∧ Inv dev v' kernelHolds ∧ v'.freeMap = v₃.freeMap ∧
      s.Step ⟨.filesysCreate name initialSize,.success true,true⟩
        { s with
          names := Function.update s.names name (some i)
          bytes := Function.update s.bytes i (List.replicate initialSize.toNat 0) } ∧
      Refines v'
        { s with
          names := Function.update s.names name (some i)
          bytes := Function.update s.bytes i (List.replicate initialSize.toNat 0) } := by
  obtain ⟨v',done,inv',bits,files,names,zeros,others⟩ := made.done low placeable
  rw [← refines.names] at placeable
  refine ⟨v',done,inv',bits,.created placeable (refines.unused inv made.absent),?_,?_,?_⟩
  · rw [names,refines.names]
  · intro j here map root
    by_cases new : j = i
    · subst new
      exact (Function.update_self _ _ _).trans zeros.symm
    · obtain ⟨before,same⟩ := others j here new map root
      exact (Function.update_of_ne new _ _).trans ((refines.bytes j before map root).trans same.symm)
  · intro id
    rw [files]
    exact refines.handles id

theorem filesysCreate_simulated (inv : Inv dev v kernelHolds) (refines : Refines v s)
    (low : 0 ≤ initialSize) (high : initialSize < 2147483648) : Simulated dev v s (.filesysCreate name initialSize) := by
  cases room : hasRoom dev v.freeMap initialSize with
  | false =>
    obtain ⟨v',done,inv',kept,-⟩ := inv.create_noRoom name low room
    exact ⟨_,v',s,bind_go done,inv',.refused (.inr room),refines.kept kept⟩
  | true =>
    obtain ⟨i,start,v₁,v₂,v₃,made⟩ := inv.made high room
    by_cases placeable : Placeable v.inodeOf name
    · obtain ⟨v',done,inv',-,step,refines'⟩ := made.created inv refines low placeable
      exact ⟨_,v',_,bind_go done,inv',room.symm.subst (motive := fun room => s.Step ⟨_,_,room⟩ _) step,refines'⟩
    · obtain ⟨v',done,inv',kept,-⟩ := made.refused low placeable
      rw [← refines.names] at placeable
      exact ⟨_,v',s,bind_go done,inv',.refused (.inl placeable),refines.kept kept⟩

/-- No file has the identity that the next one gets. -/
theorem Inv.next_free (inv : Inv dev v extra) : find File.id v.nextFile v.files = none := by
  apply find_none
  intro used
  obtain ⟨file,member,same⟩ := List.mem_map.mp used
  have below := inv.table.fresh file member
  omega

/-- The handles with one more file. -/
theorem Refines.opened (refines : Refines v s) (inv : Inv dev v extra) (kept : Kept 0 v v') :
    s.handles v.nextFile = none ∧
      Refines { v' with files := ⟨v.nextFile,i,0,false⟩ :: v.files, nextFile := v.nextFile + 1 }
        (s.setHandle v.nextFile (some ⟨i,0,false⟩)) := by
  have after := refines.kept kept
  refine ⟨?_,after.names,after.bytes,?_⟩
  · rw [refines.handles,inv.next_free]
    rfl
  · intro id
    rw [find_cons]
    by_cases same : v.nextFile = id
    · subst same
      rw [if_pos rfl]
      exact Function.update_self _ _ _
    · rw [if_neg same]
      exact (Function.update_of_ne (Ne.symm same) _ _).trans (refines.handles id)

theorem filesysOpen_simulated (inv : Inv dev v kernelHolds) (refines : Refines v s) :
    Simulated dev v s (.filesysOpen name) := by
  cases found : v.inodeOf name with
  | none =>
    obtain ⟨v',done,inv',kept⟩ := inv.open_absent found
    rw [← refines.names] at found
    exact ⟨_,v',s,bind_go done,inv',.notFound found,refines.kept kept⟩
  | some i =>
    obtain ⟨v',done,inv',kept,-⟩ := inv.open_found found
    obtain ⟨free,refines'⟩ := refines.opened (i := i) inv kept
    rw [← refines.names] at found
    exact ⟨_,_,_,bind_go done,inv',.opened found free,refines'⟩

theorem filesysRemove_simulated (inv : Inv dev v kernelHolds) (refines : Refines v s) :
    Simulated dev v s (.filesysRemove name) := by
  cases found : v.inodeOf name with
  | none =>
    obtain ⟨v',done,inv',kept⟩ := inv.remove_absent found
    rw [← refines.names] at found
    exact ⟨_,v',s,bind_go done,inv',.notRemoved found,refines.kept kept⟩
  | some i =>
    obtain ⟨v',done,inv',files,names,others⟩ := inv.remove_found found
    rw [← refines.names] at found
    refine ⟨_,v',_,bind_go done,inv',.removed found,?_,?_,?_⟩
    · rw [names,refines.names]
    · intro j here map root
      obtain ⟨before,same⟩ := others j here map root
      exact (refines.bytes j before map root).trans same.symm
    · intro id
      rw [files]
      exact refines.handles id

/-! Files. -/

/-- The inode that an open file refers to. -/
theorem Inv.file_inode (inv : Inv dev v extra) (member : file ∈ v.files) :
    ∃ inode ∈ v.openInodes, find Inode.sector file.inode v.openInodes = some inode ∧ inode.sector = file.inode ∧
      inode.data = onDisk v.disk file.inode ∧ file.inode ∈ v.objects := by
  obtain ⟨inode,here,same⟩ := inv.table.inode_of member
  have found := inv.table.find_ok here
  have data := inv.table.data inode here
  have object := inv.alive inode here
  rw [same] at found data object
  exact ⟨inode,here,found,same,data,object⟩

theorem Inv.findFile_ok (inv : Inv dev v extra) (member : file ∈ v.files) : findFile file.id v = .ok (file,v) :=
  inv.table.accounts.findFile_ok member

theorem Refines.handle (refines : Refines v s) (inv : Inv dev v extra) (member : file ∈ v.files) :
    s.handles file.id = some ⟨file.inode,file.pos,file.denyWrite⟩ := by
  rw [refines.handles,inv.table.find_file member]
  rfl

theorem Refines.moved (refines : Refines v s) (inv : Inv dev v extra) (member : file ∈ v.files) {f : File → File}
    (same : ∀ file, (f file).id = file.id) : Refines (v.updateFile file.id f) (s.setHandle file.id (some (f file).handle)) := by
  refine ⟨refines.names,refines.bytes,fun id => ?_⟩
  change _ = (find File.id id (update File.id file.id f v.files)).map File.handle
  by_cases here : id = file.id
  · subst here
    rw [find_update same,inv.table.find_file member]
    exact Function.update_self _ _ _
  · rw [find_update_other same here]
    exact (Function.update_of_ne here _ _).trans (refines.handles id)

/-- The bytes of the file in the store. -/
theorem Refines.file_bytes (refines : Refines v s) (inv : Inv dev v extra) (member : file ∈ v.files) :
    s.bytes file.inode = v.bytesOf file.inode := by
  obtain ⟨-,-,-,-,-,object⟩ := inv.file_inode member
  exact refines.bytes file.inode object (inv.user file member).1 (inv.user file member).2

theorem Inv.read_object (inv : Inv dev v extra) (refines : Refines v s) (member : file ∈ v.files) :
    inodeReadAt dev file.inode buffer size ofs v = .ok ((transfer (s.bytes file.inode) size ofs,
      readInto buffer (s.bytes file.inode) ofs (transfer (s.bytes file.inode) size ofs)),v) := by
  obtain ⟨inode,-,found,-,data,object⟩ := inv.file_inode member
  rw [inodeReadAt_ok found (by rw [data]; exact inv.fits object),data,refines.file_bytes inv member,Volume.bytesOf,
    transfer_content,readInto_content (Nat.min_le_right _ _)]

theorem Inv.write_object (inv : Inv dev v extra) (refines : Refines v s) (member : file ∈ v.files) (buffer : Memory)
    (size : Int) (ofs : Nat) :
    ∃ n after v', inodeWriteAt dev file.inode buffer size ofs v = .ok (n,v') ∧ Inv dev v' extra ∧
      v'.freeMap = v.freeMap ∧ v'.files = v.files ∧ s.Writes file.inode buffer size ofs n after ∧
      Refines v' { s with bytes := Function.update s.bytes file.inode after } := by
  obtain ⟨inode,here,found,sector,data,object⟩ := inv.file_inode member
  have denied := refines.denied inv here
  rw [sector] at denied
  by_cases allowed : inode.denyWriteCnt = 0
  · have written := inodeWriteAt_ok buffer size ofs found allowed
      (by rw [data]; exact inv.fits object)
    have bytes := refines.file_bytes inv member
    have moved : transfer (v.bytesOf file.inode) size ofs = _ := transfer_content
    rw [data] at written
    generalize amount : min size.toNat ((onDisk v.disk file.inode).length - ofs) = n at written moved
    -- behind the end nothing is transferred, at whatever place
    have changed : Inv dev { v with disk := paste v.disk ((onDisk v.disk file.inode).place ofs) buffer 0 n } extra ∧
        Kept file.inode v { v with disk := paste v.disk ((onDisk v.disk file.inode).place ofs) buffer 0 n } := by
      by_cases some : n = 0
      · rw [some,paste_zero]
        exact ⟨inv,Kept.refl⟩
      · exact inv.write object (inv.user file member) (by omega)
    obtain ⟨inv',kept⟩ := changed
    have inode' : onDisk (paste v.disk ((onDisk v.disk file.inode).place ofs) buffer 0 n) file.inode =
        onDisk v.disk file.inode := by
      have after := inv'.table.data inode here
      rw [sector] at after
      exact after.symm.trans data
    refine ⟨n,overwrite (s.bytes file.inode) ofs n buffer,_,written,inv',rfl,rfl,
      .inr ⟨fun some => denied.mp some allowed,?_,rfl⟩,?_⟩
    · rw [bytes]
      exact moved.symm
    · refine ⟨refines.names.trans (funext fun name => (kept.names name).symm),?_,refines.handles⟩
      intro j there map root
      by_cases same : j = file.inode
      · subst same
        rw [Volume.bytesOf,inode',content_paste]
        refine (Function.update_self _ _ _).trans ?_
        rw [bytes]
        rfl
      · rw [kept.bytes j there same]
        exact (Function.update_of_ne same _ _).trans (refines.bytes j (kept.objects j there) map root)
  · refine ⟨0,s.bytes file.inode,v,inodeWriteAt_denied found allowed,inv,rfl,rfl,.inl ⟨denied.mpr allowed,rfl,rfl⟩,?_⟩
    rw [Function.update_eq_self]
    exact refines

section
variable (inv : Inv dev v kernelHolds) (refines : Refines v s) (member : file ∈ v.files)
include inv refines member

theorem fileRead_ok (buffer : Memory) (size : Int) : ∃ v', fileRead dev file.id buffer size v =
      .ok ((transfer (s.bytes file.inode) size file.pos,
        readInto buffer (s.bytes file.inode) file.pos (transfer (s.bytes file.inode) size file.pos)),v') ∧
    Inv dev v' kernelHolds ∧ v'.freeMap = v.freeMap ∧ Refines v' (s.setHandle file.id
      (some ⟨file.inode,file.pos + transfer (s.bytes file.inode) size file.pos,file.denyWrite⟩)) := by
  refine ⟨_,(bind_go (inv.findFile_ok member)).trans (bind_go (inv.read_object refines member)),
    inv.moved (fun _ => rfl) (fun _ => rfl) fun _ => rfl,rfl,?_⟩
  exact refines.moved inv member (f := fun f => { f with pos := f.pos + transfer (s.bytes file.inode) size file.pos })
    fun _ => rfl

theorem fileRead_simulated : Simulated dev v s (.fileRead file.id buffer size) := by
  obtain ⟨v',read,inv',-,refines'⟩ := fileRead_ok inv refines member buffer size
  exact ⟨_,_,_,bind_go read,inv',.read (refines.handle inv member) rfl,refines'⟩

theorem fileReadAt_simulated : Simulated dev v s (.fileReadAt file.id buffer size ofs) :=
  ⟨_,v,s,bind_go ((bind_go (inv.findFile_ok member)).trans (inv.read_object refines member)),inv,
    .readAt (refines.handle inv member) rfl,refines⟩

/-- The write with its file moved on; the free map stays. -/
theorem fileWrite_ok (buffer : Memory) (size : Int) : ∃ n after v', fileWrite dev file.id buffer size v = .ok (n,v') ∧
    Inv dev v' kernelHolds ∧ v'.freeMap = v.freeMap ∧ s.Writes file.inode buffer size file.pos n after ∧
    Refines v' ({ s with bytes := Function.update s.bytes file.inode after }.setHandle file.id
      (some ⟨file.inode,file.pos + n,file.denyWrite⟩)) := by
  obtain ⟨n,after,v',written,inv',bits,files,writes,refines'⟩ :=
    inv.write_object refines member buffer size file.pos
  have member' : file ∈ v'.files := by
    rw [files]
    exact member
  have write : fileWrite dev file.id buffer size v = .ok (n,v'.updateFile file.id fun f => { f with pos := f.pos + n }) :=
    (bind_go (inv.findFile_ok member)).trans (bind_go written)
  refine ⟨n,after,_,write,inv'.moved (fun _ => rfl) (fun _ => rfl) fun _ => rfl,bits,writes,?_⟩
  exact refines'.moved inv' member' (f := fun f => { f with pos := f.pos + n }) fun _ => rfl

theorem fileWrite_simulated : Simulated dev v s (.fileWrite file.id buffer size) := by
  obtain ⟨n,after,v',write,inv',-,writes,refines'⟩ := fileWrite_ok inv refines member buffer size
  exact ⟨_,_,_,bind_go write,inv',.write (refines.handle inv member) writes,refines'⟩

theorem fileWriteAt_simulated : Simulated dev v s (.fileWriteAt file.id buffer size ofs) := by
  obtain ⟨n,after,v',written,inv',-,-,writes,refines'⟩ :=
    inv.write_object refines member buffer size ofs
  exact ⟨_,v',_,bind_go ((bind_go (inv.findFile_ok member)).trans written),inv',
    .writeAt (refines.handle inv member) writes,refines'⟩

theorem fileSeek_simulated (low : 0 ≤ newPos) : Simulated dev v s (.fileSeek file.id newPos) := by
  have asserted : assert (0 ≤ newPos) v = .ok ((),v) := if_pos (by simpa using low)
  have seek : fileSeek file.id newPos v = .ok ((),v.updateFile file.id fun f => { f with pos := newPos.toNat }) :=
    (bind_go (inv.findFile_ok member)).trans (bind_go asserted)
  refine ⟨_,_,_,bind_go seek,inv.moved (fun _ => rfl) (fun _ => rfl) fun _ => rfl,.seek (refines.handle inv member),?_⟩
  exact refines.moved inv member (f := fun f => { f with pos := newPos.toNat }) fun _ => rfl

theorem fileTell_simulated : Simulated dev v s (.fileTell file.id) :=
  ⟨_,v,s,bind_go (bind_go (inv.findFile_ok member)),inv,.tell (refines.handle inv member),refines⟩

theorem fileLength_ok : fileLength file.id v = .ok ((s.bytes file.inode).length,v) := by
  obtain ⟨inode,-,found,-,data,-⟩ := inv.file_inode member
  have length : fileLength file.id v = .ok (inode.data.length,v) :=
    (bind_go (inv.findFile_ok member)).trans (bind_go (findInode_ok found))
  rw [length,refines.file_bytes inv member,Volume.bytesOf,content_length,← data]

theorem fileLength_simulated : Simulated dev v s (.fileLength file.id) :=
  ⟨_,v,s,bind_go (fileLength_ok inv refines member),inv,.length (refines.handle inv member),refines⟩

theorem fileReopen_simulated : Simulated dev v s (.fileReopen file.id) := by
  obtain ⟨inode,-,found,-,-,object⟩ := inv.file_inode member
  obtain ⟨-,inv',kept⟩ := inv.inodeOpen object
  have again : inodeReopen file.inode v =
      .ok ((),{ v with openInodes := openList v.openInodes file.inode (onDisk v.disk file.inode) }) := by
    unfold openList
    rw [if_pos (by rw [found]; rfl)]
    rfl
  have inv'' := inv'.fileOpened more_pos (inv.user file member)
  rw [fewer_more] at inv''
  obtain ⟨free,refines'⟩ := refines.opened (i := file.inode) inv kept
  exact ⟨_,_,_,bind_go ((bind_go (inv.findFile_ok member)).trans (bind_go again)),inv'',
    .reopen (refines.handle inv member) free,refines'⟩

theorem setHandle_same : s.setHandle file.id (some file.handle) = s := by
  have same : Function.update s.handles file.id (some file.handle) = s.handles := by
    rw [Function.update_eq_self_iff,refines.handle inv member]
    rfl
  rw [Store.setHandle,same]

theorem Refines.flagged : Refines (v.flag file value) (s.setHandle file.id (some ⟨file.inode,file.pos,value⟩)) := by
  have moved := refines.moved inv member (f := fun file => { file with denyWrite := value }) fun _ => rfl
  refine ⟨moved.names,?_,moved.handles⟩
  have removed : removedInodes (v.flag file value).openInodes = removedInodes v.openInodes :=
    removed_update (fun _ => rfl) fun _ => rfl
  intro j here
  unfold Volume.objects at here
  rw [removed] at here
  exact refines.bytes j here

theorem fileDenyWrite_simulated : Simulated dev v s (.fileDenyWrite file.id) := by
  have done := inv.table.accounts.fileDenyWrite_ok member
  refine ⟨_,_,_,bind_go done,?_,.denyWrite (refines.handle inv member),?_⟩
  all_goals cases denied : file.denyWrite
  · exact inv.flagged member denied
  · exact inv
  · exact refines.flagged inv member
  · have same : s.setHandle file.id (some ⟨file.inode,file.pos,file.denyWrite⟩) = s := setHandle_same inv refines member
    rw [denied] at same
    rw [same]
    exact refines

/-- The call allows writes again if the file had denied them. -/
theorem fileAllowWrite_ok : ∃ v', fileAllowWrite file.id v = .ok ((),v') ∧ Inv dev v' kernelHolds ∧
    Refines v' (s.setHandle file.id (some ⟨file.inode,file.pos,false⟩)) ∧ { file with denyWrite := false } ∈ v'.files ∧
    v'.freeMap = v.freeMap ∧ removedInodes v'.openInodes = removedInodes v.openInodes := by
  refine ⟨_,inv.table.accounts.fileAllowWrite_ok member,?_⟩
  cases denied : file.denyWrite with
  | false =>
    have same : s.setHandle file.id (some ⟨file.inode,file.pos,file.denyWrite⟩) = s := setHandle_same inv refines member
    have whole : { file with denyWrite := false } = file := by rw [← denied]
    rw [denied] at same
    rw [same,whole]
    exact ⟨inv,refines,member,rfl,rfl⟩
  | true =>
    refine ⟨inv.flagged member denied,refines.flagged inv member,?_,rfl,removed_update (fun _ => rfl) fun _ => rfl⟩
    exact mem_update.mpr ⟨file,member,if_pos rfl⟩

theorem fileAllowWrite_simulated : Simulated dev v s (.fileAllowWrite file.id) := by
  obtain ⟨v',done,inv',refines',-⟩ := fileAllowWrite_ok inv refines member
  exact ⟨_,v',_,bind_go done,inv',.allowWrite (refines.handle inv member),refines'⟩

omit inv member in
theorem Refines.closed : Refines { v with files := remove File.id file.id v.files } (s.setHandle file.id none) := by
  refine ⟨refines.names,refines.bytes,fun id => ?_⟩
  by_cases same : id = file.id
  · subst same
    rw [find_remove_self]
    exact Function.update_self _ _ _
  · rw [find_remove_other same]
    exact (Function.update_of_ne same _ _).trans (refines.handles id)

/-- Closing a file that was not removed leaves the free map alone. -/
theorem fileClose_ok : ∃ v', fileClose dev file.id v = .ok ((),v') ∧ Inv dev v' kernelHolds ∧
    Refines v' (s.setHandle file.id none) ∧ (file.inode ∉ removedInodes v.openInodes → v'.freeMap = v.freeMap) := by
  obtain ⟨v₁,allowed,inv₁,refines₁,member₁,bits₁,removed₁⟩ := fileAllowWrite_ok inv refines member
  have inv₂ := inv₁.fileClosed member₁ rfl
  have refines₂ : Refines { v₁ with files := remove File.id file.id v₁.files } _ := refines₁.closed
  obtain ⟨v₃,closed,inv₃,kept,same⟩ := inv₂.inodeClose_files (inv.user file member).1 more_pos
  rw [fewer_more] at inv₃
  have done : fileClose dev file.id v = .ok ((),v₃) := by
    refine (bind_go allowed).trans ((bind_go (inv₁.findFile_ok member₁)).trans ((bind_go (closed v₁.files)).trans ?_))
    change Except.ok ((),{ v₃ with files := remove File.id file.id v₁.files }) = _
    have files : remove File.id file.id v₁.files = v₃.files := kept.files.symm
    rw [files]
  have again : (s.setHandle file.id (some ⟨file.inode,file.pos,false⟩)).setHandle file.id none = s.setHandle file.id none := by
    simp [Store.setHandle]
  rw [again] at refines₂
  refine ⟨v₃,done,inv₃,refines₂.kept kept,fun stays => ?_⟩
  rw [← removed₁] at stays
  exact (same stays).2.trans bits₁

theorem fileClose_simulated : Simulated dev v s (.fileClose file.id) := by
  obtain ⟨v',done,inv',refines',-⟩ := fileClose_ok inv refines member
  exact ⟨_,v',_,bind_go done,inv',.close (refines.handle inv member),refines'⟩

end

/-! Runs. -/

/-- Every call that a caller may make returns as the store says. -/
theorem simulated (inv : Inv dev v kernelHolds) (refines : Refines v s) (admissible : Admissible v call) :
    Simulated dev v s call := by
  obtain ⟨range,files⟩ := admissible
  have file id (named : call.file = some id) : ∃ file ∈ v.files, file.id = id := by
    obtain ⟨file,member,same⟩ := List.mem_map.mp (files id named)
    exact ⟨file,member,same⟩
  cases call with
  | filesysCreate name initialSize => exact filesysCreate_simulated inv refines range.1 range.2
  | filesysOpen name => exact filesysOpen_simulated inv refines
  | filesysRemove name => exact filesysRemove_simulated inv refines
  | fileRead id buffer size =>
    obtain ⟨file,member,rfl⟩ := file id rfl
    exact fileRead_simulated inv refines member
  | fileReadAt id buffer size ofs =>
    obtain ⟨file,member,rfl⟩ := file id rfl
    exact fileReadAt_simulated inv refines member
  | fileWrite id buffer size =>
    obtain ⟨file,member,rfl⟩ := file id rfl
    exact fileWrite_simulated inv refines member
  | fileWriteAt id buffer size ofs =>
    obtain ⟨file,member,rfl⟩ := file id rfl
    exact fileWriteAt_simulated inv refines member
  | fileSeek id newPos =>
    obtain ⟨file,member,rfl⟩ := file id rfl
    exact fileSeek_simulated inv refines member range
  | fileTell id =>
    obtain ⟨file,member,rfl⟩ := file id rfl
    exact fileTell_simulated inv refines member
  | fileLength id =>
    obtain ⟨file,member,rfl⟩ := file id rfl
    exact fileLength_simulated inv refines member
  | fileClose id =>
    obtain ⟨file,member,rfl⟩ := file id rfl
    exact fileClose_simulated inv refines member
  | fileReopen id =>
    obtain ⟨file,member,rfl⟩ := file id rfl
    exact fileReopen_simulated inv refines member
  | fileDenyWrite id =>
    obtain ⟨file,member,rfl⟩ := file id rfl
    exact fileDenyWrite_simulated inv refines member
  | fileAllowWrite id =>
    obtain ⟨file,member,rfl⟩ := file id rfl
    exact fileAllowWrite_simulated inv refines member

theorem step_refines (inv : Inv dev v kernelHolds) (refines : Refines v s) (step : Step dev h v e v') :
    Inv dev v' kernelHolds ∧ ∃ s', s.Step e s' ∧ Refines v' s' := by
  obtain ⟨admissible,ran,room⟩ := step
  obtain ⟨result,v'',s',done,inv',abstract,refines'⟩ := simulated inv refines admissible
  obtain ⟨rfl,rfl⟩ := Prod.mk.inj (Except.ok.inj (ran.symm.trans done))
  rw [← room] at abstract
  exact ⟨inv',s',abstract,refines'⟩

def StoreStep (_ : List Event) (s : Store) (e : Event) (s' : Store) : Prop := s.Step e s'

theorem run_refines (inv : Inv dev v kernelHolds) (refines : Refines v s) (run : History.Path (Step dev) [] v h v') :
    Inv dev v' kernelHolds ∧ ∃ s', History.Path StoreStep [] s h s' ∧ Refines v' s' := by
  induction run with
  | refl => exact ⟨inv,s,.refl,refines⟩
  | snoc front last ih =>
    obtain ⟨inv',s',path,refines'⟩ := ih
    obtain ⟨inv'',s'',step,refines''⟩ := step_refines inv' refines' last
    exact ⟨inv'',s'',.snoc path step,refines''⟩

end

end OsProj.FileSys
