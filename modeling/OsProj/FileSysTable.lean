import OsProj.FileSysCreate

/-! The table of open inodes against the open files: an inode is open as often as files and
directories refer to it. -/
namespace OsProj.FileSys

open OsProj.Bitmap OsProj.ByteMemory OsProj.Faulting OsProj.Keyed

def refs (files : List File) (i : Nat) : Nat := files.countP (·.inode == i)

def denies (files : List File) (i : Nat) : Nat := files.countP fun f => f.inode == i && f.denyWrite

/-- Beside the files, the kernel refers to some inodes itself. -/
structure Table (v : Volume) (extra : Nat → Nat) : Prop where
  nodup : (v.openInodes.map Inode.sector).Nodup
  data : ∀ inode ∈ v.openInodes, inode.data = onDisk v.disk inode.sector
  count : ∀ inode ∈ v.openInodes, inode.openCnt = refs v.files inode.sector + extra inode.sector
  used : ∀ inode ∈ v.openInodes, 0 < inode.openCnt
  deny : ∀ inode ∈ v.openInodes, inode.denyWriteCnt = denies v.files inode.sector
  here : ∀ i, 0 < refs v.files i + extra i → i ∈ v.openInodes.map Inode.sector
  ids : (v.files.map File.id).Nodup
  fresh : ∀ f ∈ v.files, f.id < v.nextFile

/-- The table without what is on the disk. -/
structure Accounts (v : Volume) (extra : Nat → Nat) : Prop where
  nodup : (v.openInodes.map Inode.sector).Nodup
  count : ∀ inode ∈ v.openInodes, inode.openCnt = refs v.files inode.sector + extra inode.sector
  used : ∀ inode ∈ v.openInodes, 0 < inode.openCnt
  deny : ∀ inode ∈ v.openInodes, inode.denyWriteCnt = denies v.files inode.sector
  here : ∀ i, 0 < refs v.files i + extra i → i ∈ v.openInodes.map Inode.sector
  ids : (v.files.map File.id).Nodup
  fresh : ∀ f ∈ v.files, f.id < v.nextFile

/-- One more reference of the kernel. -/
def more (extra : Nat → Nat) (i : Nat) : Nat → Nat := fun j => if j = i then extra j + 1 else extra j

def fewer (extra : Nat → Nat) (i : Nat) : Nat → Nat := fun j => if j = i then extra j - 1 else extra j

def openList (l : List Inode) (i : Nat) (data : InodeDisk) : List Inode :=
  if (find Inode.sector i l).isSome then update Inode.sector i (fun inode => { inode with openCnt := inode.openCnt + 1 }) l
  else ⟨i,1,false,0,data⟩ :: l

section
variable {dev : Device} {v v' : Volume} {extra : Nat → Nat}

theorem inodeOpen_ok (on : i < dev.size) : inodeOpen dev i v =
    .ok ((),{ v with openInodes := openList v.openInodes i (onDisk v.disk i) }) := by
  refine (bind_go rfl).trans ?_
  unfold openList
  split
  · rfl
  · refine (bind_go (blockRead_ok on)).trans ?_
    rw [readInodeDisk_onDisk]
    rfl

theorem inodeOpen_returned (done : inodeOpen dev i v = .ok ((),v')) :
    v' = { v with openInodes := openList v.openInodes i (onDisk v.disk i) } := by
  by_cases on : i < dev.size
  · rw [inodeOpen_ok on] at done
    exact (Prod.mk.inj (Except.ok.inj done)).2.symm
  · have next := get_bind.mp done
    unfold openList
    split at next
    · rename_i found
      rw [if_pos found]
      exact (Prod.mk.inj (Except.ok.inj next)).2.symm
    · obtain ⟨buffer,_,read,_⟩ := bind_ok.mp next
      obtain ⟨_,_,checked,_⟩ := bind_ok.mp read
      cases (if_neg on).symm.trans checked

theorem Table.accounts (table : Table v extra) : Accounts v extra :=
  ⟨table.nodup,table.count,table.used,table.deny,table.here,table.ids,table.fresh⟩

theorem Accounts.table (accounts : Accounts v extra)
    (data : ∀ inode ∈ v.openInodes, inode.data = onDisk v.disk inode.sector) : Table v extra :=
  ⟨accounts.nodup,data,accounts.count,accounts.used,accounts.deny,accounts.here,accounts.ids,accounts.fresh⟩

theorem Table.find_ok (table : Table v extra) (member : inode ∈ v.openInodes) :
    find Inode.sector inode.sector v.openInodes = some inode := find_member table.nodup member

theorem Accounts.find_file (accounts : Accounts v extra) (member : file ∈ v.files) :
    find File.id file.id v.files = some file := find_member accounts.ids member

theorem Table.find_file (table : Table v extra) (member : file ∈ v.files) :
    find File.id file.id v.files = some file := table.accounts.find_file member

/-- The inode of an open file is open. -/
theorem Accounts.inode_of (accounts : Accounts v extra) (member : file ∈ v.files) :
    ∃ inode ∈ v.openInodes, inode.sector = file.inode ∧ find Inode.sector file.inode v.openInodes = some inode := by
  have counted : 0 < refs v.files file.inode := by
    rw [refs,List.countP_pos_iff]
    exact ⟨file,member,by simp⟩
  obtain ⟨inode,here,same⟩ := List.mem_map.mp (accounts.here file.inode (by omega))
  refine ⟨inode,here,same,?_⟩
  rw [← same]
  exact find_member accounts.nodup here

theorem Table.inode_of (table : Table v extra) (member : file ∈ v.files) :
    ∃ inode ∈ v.openInodes, inode.sector = file.inode := by
  obtain ⟨inode,here,same,-⟩ := table.accounts.inode_of member
  exact ⟨inode,here,same⟩

/-- Other bytes on disk, with the same inodes. -/
theorem Table.frame (table : Table v extra)
    (same : ∀ inode ∈ v.openInodes, onDisk disk inode.sector = onDisk v.disk inode.sector) :
    Table { v with disk := disk, freeMap := bits } extra where
  nodup := table.nodup
  data inode member := (table.data inode member).trans (same inode member).symm
  count := table.count
  used := table.used
  deny := table.deny
  here := table.here
  ids := table.ids
  fresh := table.fresh

theorem refs_zero (accounts : Accounts v extra) (absent : i ∉ v.openInodes.map Inode.sector) :
    refs v.files i = 0 ∧ extra i = 0 := by
  by_contra some
  exact absent (accounts.here i (by omega))

theorem denies_le (files : List File) (i : Nat) : denies files i ≤ refs files i := by
  apply List.countP_mono_left
  intro file _ both
  simp only [Bool.and_eq_true] at both
  exact both.1

/-- What changing the counters of the inodes must keep. -/
theorem Accounts.update (accounts : Accounts v extra) {f : Inode → Inode} (sector : ∀ inode, (f inode).sector = inode.sector)
    (deny : ∀ inode, (f inode).denyWriteCnt = inode.denyWriteCnt)
    (count : ∀ inode ∈ v.openInodes, inode.sector = i → (f inode).openCnt = refs v.files i + extra' i)
    (used : ∀ inode ∈ v.openInodes, inode.sector = i → 0 < (f inode).openCnt)
    (others : ∀ j, j ≠ i → extra' j = extra j) (present : i ∈ v.openInodes.map Inode.sector) :
    Accounts (v.updateInode i f) extra' where
  nodup := by
    change ((Keyed.update Inode.sector i f v.openInodes).map Inode.sector).Nodup
    rw [update_keys sector]
    exact accounts.nodup
  count inode member := by
    obtain ⟨old,here,rfl⟩ := mem_update.mp member
    split
    · rename_i same
      rw [count old here same,sector,same]
      rfl
    · rename_i other
      rw [others _ other]
      exact accounts.count old here
  used inode member := by
    obtain ⟨old,here,rfl⟩ := mem_update.mp member
    split
    · rename_i same
      exact used old here same
    · exact accounts.used old here
  deny inode member := by
    obtain ⟨old,here,rfl⟩ := mem_update.mp member
    split
    · rw [deny,sector]
      exact accounts.deny old here
    · exact accounts.deny old here
  here j counted := by
    change j ∈ (Keyed.update Inode.sector i f v.openInodes).map Inode.sector
    rw [update_keys sector]
    by_cases same : j = i
    · rw [same]
      exact present
    · rw [others j same] at counted
      exact accounts.here j counted
  ids := accounts.ids
  fresh := accounts.fresh

/-- Changing the counters leaves the data alone. -/
theorem Table.data_update (table : Table v extra) {f : Inode → Inode}
    (member : inode ∈ Keyed.update Inode.sector i f v.openInodes) (sector : ∀ inode, (f inode).sector = inode.sector)
    (data : ∀ inode, (f inode).data = inode.data) : inode.data = onDisk v.disk inode.sector := by
  obtain ⟨old,here,rfl⟩ := mem_update.mp member
  split
  · rw [data,sector]
    exact table.data old here
  · exact table.data old here

theorem more_self : more extra i i = extra i + 1 := if_pos rfl

theorem more_pos : 0 < more extra i i := by
  rw [more_self]
  exact Nat.succ_pos _

theorem more_other (other : j ≠ i) : more extra i j = extra j := if_neg other

theorem fewer_self : fewer extra i i = extra i - 1 := if_pos rfl

theorem fewer_other (other : j ≠ i) : fewer extra i j = extra j := if_neg other

theorem fewer_more : fewer (more extra i) i = extra := by
  funext j
  unfold fewer more
  split <;> rfl

/-! Opening and closing. -/

theorem Accounts.opened (accounts : Accounts v extra) (data : InodeDisk) :
    Accounts { v with openInodes := openList v.openInodes i data } (more extra i) := by
  unfold openList
  split
  · rename_i found
    obtain ⟨inode,found⟩ := Option.isSome_iff_exists.mp found
    obtain ⟨member,same⟩ := find_key found
    refine accounts.update (fun _ => rfl) (fun _ => rfl) (fun old here match_ => ?_) (fun _ _ _ => Nat.succ_pos _)
      (fun j other => more_other other) (List.mem_map.mpr ⟨inode,member,same⟩)
    have counted := accounts.count old here
    rw [match_] at counted
    rw [more_self,counted]
    rfl
  · rename_i absent
    have absent : i ∉ v.openInodes.map Inode.sector := by
      intro here
      obtain ⟨inode,found⟩ := find_of_mem here
      exact absent (by rw [found]; rfl)
    have unused := refs_zero accounts absent
    have other inode (member : inode ∈ v.openInodes) : inode.sector ≠ i :=
      fun same => absent (List.mem_map.mpr ⟨inode,member,same⟩)
    refine ⟨List.nodup_cons.mpr ⟨absent,accounts.nodup⟩,?_,?_,?_,?_,accounts.ids,accounts.fresh⟩
    · intro inode member
      rcases List.mem_cons.mp member with rfl | member
      · rw [more_self,unused.1,unused.2]
      · rw [more_other (other inode member)]
        exact accounts.count inode member
    · intro inode member
      rcases List.mem_cons.mp member with rfl | member
      · exact Nat.one_pos
      · exact accounts.used inode member
    · intro inode member
      rcases List.mem_cons.mp member with rfl | member
      · have none := denies_le v.files i
        dsimp only
        omega
      · exact accounts.deny inode member
    · intro j counted
      by_cases same : j = i
      · exact List.mem_cons.mpr (.inl same)
      · rw [more_other same] at counted
        exact List.mem_cons_of_mem _ (accounts.here j counted)

theorem Table.opened (table : Table v extra) :
    Table { v with openInodes := openList v.openInodes i (onDisk v.disk i) } (more extra i) := by
  apply (table.accounts.opened _).table
  intro inode member
  change inode ∈ openList v.openInodes i (onDisk v.disk i) at member
  unfold openList at member
  split at member
  · exact table.data_update member (fun _ => rfl) fun _ => rfl
  · rcases List.mem_cons.mp member with rfl | member
    · rfl
    · exact table.data inode member

def closeList (l : List Inode) (inode : Inode) : List Inode :=
  if 1 < inode.openCnt then
    update Inode.sector inode.sector (fun inode => { inode with openCnt := inode.openCnt - 1 }) l
  else remove Inode.sector inode.sector l

theorem Accounts.closed (accounts : Accounts v extra) (member : inode ∈ v.openInodes) (referred : 0 < extra inode.sector) :
    Accounts { v with openInodes := closeList v.openInodes inode } (fewer extra inode.sector) := by
  have counted := accounts.count inode member
  unfold closeList
  split
  · rename_i shared
    refine accounts.update (fun _ => rfl) (fun _ => rfl) (fun old here match_ => ?_) (fun old here match_ => ?_)
      (fun j other => fewer_other other) (List.mem_map_of_mem member)
    · have counted := accounts.count old here
      rw [match_] at counted
      rw [fewer_self]
      dsimp only
      omega
    · have counted' := accounts.count old here
      rw [match_] at counted'
      dsimp only
      omega
  · rename_i last
    have unused : refs v.files inode.sector = 0 ∧ extra inode.sector = 1 := by
      have used := accounts.used inode member
      omega
    refine ⟨accounts.nodup.sublist (List.filter_sublist.map _),?_,?_,?_,?_,accounts.ids,accounts.fresh⟩
    · intro other here
      rw [fewer_other (mem_remove.mp here).2]
      exact accounts.count other (mem_remove.mp here).1
    · exact fun other here => accounts.used other (mem_remove.mp here).1
    · exact fun other here => accounts.deny other (mem_remove.mp here).1
    · intro j more
      have different : j ≠ inode.sector := by
        rintro rfl
        rw [fewer_self,unused.1,unused.2] at more
        exact absurd more (by decide)
      rw [fewer_other different] at more
      obtain ⟨other,here,rfl⟩ := List.mem_map.mp (accounts.here j more)
      exact List.mem_map.mpr ⟨other,mem_remove.mpr ⟨here,different⟩,rfl⟩

theorem Table.closed (table : Table v extra) (member : inode ∈ v.openInodes) (referred : 0 < extra inode.sector) :
    Table { v with openInodes := closeList v.openInodes inode } (fewer extra inode.sector) := by
  apply (table.accounts.closed member referred).table
  intro other here
  change other ∈ closeList v.openInodes inode at here
  unfold closeList at here
  split at here
  · exact table.data_update here (fun _ => rfl) fun _ => rfl
  · exact table.data other (mem_remove.mp here).1

/-- The inode is marked, for its last reference to give its sectors back. -/
theorem Accounts.marked (accounts : Accounts v extra) (present : i ∈ v.openInodes.map Inode.sector) :
    Accounts (v.updateInode i fun inode => { inode with removed := true }) extra := by
  refine accounts.update (fun _ => rfl) (fun _ => rfl) (fun inode member same => ?_)
    (fun inode member _ => accounts.used inode member) (fun _ _ => rfl) present
  rw [← same]
  exact accounts.count inode member

theorem Table.marked (table : Table v extra) (present : i ∈ v.openInodes.map Inode.sector) :
    Table (v.updateInode i fun inode => { inode with removed := true }) extra :=
  (table.accounts.marked present).table fun _ here => table.data_update here (fun _ => rfl) fun _ => rfl

/-! Files. -/

theorem refs_cons (file : File) (files : List File) (i : Nat) :
    refs (file :: files) i = refs files i + if file.inode = i then 1 else 0 := by
  unfold refs
  rw [List.countP_cons]
  simp

/-- A reference of the kernel becomes one of a new file. -/
theorem Accounts.fileOpened (accounts : Accounts v extra) (referred : 0 < extra i) :
    Accounts { v with files := ⟨v.nextFile,i,0,false⟩ :: v.files, nextFile := v.nextFile + 1 } (fewer extra i) where
  nodup := accounts.nodup
  count inode member := by
    have counted := accounts.count inode member
    rw [refs_cons]
    by_cases same : inode.sector = i
    · rw [same,fewer_self]
      rw [same] at counted
      simp only [↓reduceIte]
      omega
    · rw [fewer_other same]
      simp only [Ne.symm same,↓reduceIte]
      exact counted
  used := accounts.used
  deny inode member := by
    refine (accounts.deny inode member).trans ?_
    unfold denies
    rw [List.countP_cons]
    simp
  here j counted := by
    apply accounts.here
    rw [refs_cons] at counted
    by_cases same : j = i
    · rw [same]
      omega
    · rw [fewer_other same] at counted
      simpa [Ne.symm same] using counted
  ids := by
    refine List.nodup_cons.mpr ⟨?_,accounts.ids⟩
    intro used
    obtain ⟨file,member,same⟩ := List.mem_map.mp used
    have low := accounts.fresh file member
    rw [same] at low
    exact Nat.lt_irrefl _ low
  fresh file member := by
    rcases List.mem_cons.mp member with rfl | member
    · exact Nat.lt_succ_self _
    · exact Nat.lt_succ_of_lt (accounts.fresh file member)

theorem Table.fileOpened (table : Table v extra) (referred : 0 < extra i) :
    Table { v with files := ⟨v.nextFile,i,0,false⟩ :: v.files, nextFile := v.nextFile + 1 } (fewer extra i) :=
  (table.accounts.fileOpened referred).table table.data

theorem refs_remove (accounts : Accounts v extra) (member : file ∈ v.files) :
    refs (remove File.id file.id v.files) i + (if file.inode = i then 1 else 0) = refs v.files i := by
  have counted := countP_remove (p := fun f => f.inode == i) accounts.ids member
  simpa [refs] using counted

/-- The reference of a file that is closed, until its inode is closed. -/
theorem Accounts.fileClosed (accounts : Accounts v extra) (member : file ∈ v.files) (allowed : file.denyWrite = false) :
    Accounts { v with files := remove File.id file.id v.files } (more extra file.inode) where
  nodup := accounts.nodup
  count inode here := by
    have removed := refs_remove (i := inode.sector) accounts member
    have counted := accounts.count inode here
    by_cases same : inode.sector = file.inode
    · rw [same,more_self]
      rw [same] at removed counted
      simp only [↓reduceIte] at removed
      dsimp only
      omega
    · rw [more_other same]
      simp only [Ne.symm same,↓reduceIte] at removed
      dsimp only
      omega
  used := accounts.used
  deny inode here := by
    have counted := countP_remove (p := fun f => f.inode == inode.sector && f.denyWrite) accounts.ids member
    have same := accounts.deny inode here
    simp only [allowed,Bool.and_false,Bool.false_eq_true,↓reduceIte] at counted
    exact same.trans counted.symm
  here j counted := by
    apply accounts.here
    have removed := refs_remove (i := j) accounts member
    by_cases same : j = file.inode
    · rw [same] at removed ⊢
      simp only [↓reduceIte] at removed
      omega
    · rw [more_other same] at counted
      simp only [Ne.symm same,↓reduceIte] at removed
      dsimp only at counted
      omega
  ids := accounts.ids.sublist (List.filter_sublist.map _)
  fresh other here := accounts.fresh other (mem_remove.mp here).1

theorem Table.fileClosed (table : Table v extra) (member : file ∈ v.files) (allowed : file.denyWrite = false) :
    Table { v with files := remove File.id file.id v.files } (more extra file.inode) :=
  (table.accounts.fileClosed member allowed).table table.data

theorem countP_updateFile {p : File → Bool} {f : File → File} (same : ∀ file, p (f file) = p file) :
    (Keyed.update File.id n f files).countP p = files.countP p := by
  rw [Keyed.update,List.countP_map]
  congr 1
  funext file
  simp only [Function.comp]
  split
  · exact same file
  · rfl

/-- Positions are of no interest to the table. -/
theorem Accounts.moved (accounts : Accounts v extra) {f : File → File} (id_ : ∀ file, (f file).id = file.id)
    (inode_ : ∀ file, (f file).inode = file.inode) (deny_ : ∀ file, (f file).denyWrite = file.denyWrite) :
    Accounts (v.updateFile n f) extra where
  nodup := accounts.nodup
  count inode member := by
    refine (accounts.count inode member).trans ?_
    unfold refs Volume.updateFile
    rw [countP_updateFile]
    intro file
    rw [inode_]
  used := accounts.used
  deny inode member := by
    refine (accounts.deny inode member).trans ?_
    unfold denies Volume.updateFile
    rw [countP_updateFile]
    intro file
    rw [inode_,deny_]
  here j counted := by
    apply accounts.here
    unfold refs Volume.updateFile at *
    rwa [countP_updateFile (fun file => by rw [inode_])] at counted
  ids := by
    change ((Keyed.update File.id n f v.files).map File.id).Nodup
    rw [update_keys id_]
    exact accounts.ids
  fresh file member := by
    obtain ⟨old,here,rfl⟩ := mem_update.mp member
    split
    · rw [id_]
      exact accounts.fresh old here
    · exact accounts.fresh old here

theorem Table.moved (table : Table v extra) {f : File → File} (id_ : ∀ file, (f file).id = file.id)
    (inode_ : ∀ file, (f file).inode = file.inode) (deny_ : ∀ file, (f file).denyWrite = file.denyWrite) :
    Table (v.updateFile n f) extra :=
  (table.accounts.moved id_ inode_ deny_).table table.data

def Volume.flag (v : Volume) (file : File) (value : Bool) : Volume :=
  (v.updateFile file.id fun file => { file with denyWrite := value }).updateInode file.inode fun inode =>
    { inode with denyWriteCnt := if value then inode.denyWriteCnt + 1 else inode.denyWriteCnt - 1 }

theorem refs_flag : refs (v.flag file value).files i = refs v.files i := by
  unfold refs Volume.flag Volume.updateInode Volume.updateFile
  rw [countP_updateFile]
  intro file
  rfl

theorem denies_flag (accounts : Accounts v extra) (member : file ∈ v.files) (changed : file.denyWrite = !value) :
    denies (v.flag file value).files i + (if file.inode = i ∧ value = false then 1 else 0) =
      denies v.files i + if file.inode = i ∧ value = true then 1 else 0 := by
  have counted := countP_update (p := fun f => f.inode == i && f.denyWrite) (f := fun file => { file with denyWrite := value })
    accounts.ids member
  simp only [changed,Bool.and_eq_true,beq_iff_eq,Bool.not_eq_true'] at counted
  exact counted

theorem Accounts.flagged (accounts : Accounts v extra) (member : file ∈ v.files) (changed : file.denyWrite = !value) :
    Accounts (v.flag file value) extra where
  nodup := by
    change ((Keyed.update Inode.sector file.inode _ v.openInodes).map Inode.sector).Nodup
    rw [update_keys]
    · exact accounts.nodup
    · exact fun _ => rfl
  count inode here := by
    obtain ⟨old,there,rfl⟩ := mem_update.mp here
    have count := accounts.count old there
    rw [refs_flag]
    split
    · exact count
    · exact count
  used inode here := by
    obtain ⟨old,there,rfl⟩ := mem_update.mp here
    have used := accounts.used old there
    split
    · exact used
    · exact used
  deny inode here := by
    obtain ⟨old,there,rfl⟩ := mem_update.mp here
    have before := accounts.deny old there
    have counted := denies_flag (i := old.sector) accounts member changed
    split
    · rename_i same
      change (if value then old.denyWriteCnt + 1 else old.denyWriteCnt - 1) = denies (v.flag file value).files old.sector
      cases value with
      | true =>
        simp only [same,Bool.true_eq_false,and_false,and_true,↓reduceIte] at counted ⊢
        rw [← same] at counted ⊢
        omega
      | false =>
        simp only [same,Bool.false_eq_true,and_false,and_true,↓reduceIte] at counted ⊢
        rw [← same] at counted ⊢
        omega
    · rename_i other
      simp only [Ne.symm other,false_and,↓reduceIte] at counted
      exact before.trans counted.symm
  here j counted := by
    change j ∈ (Keyed.update Inode.sector file.inode _ v.openInodes).map Inode.sector
    rw [update_keys]
    · rw [refs_flag] at counted
      exact accounts.here j counted
    · exact fun _ => rfl
  ids := by
    change ((Keyed.update File.id file.id _ v.files).map File.id).Nodup
    rw [update_keys]
    · exact accounts.ids
    · exact fun _ => rfl
  fresh other here := by
    obtain ⟨old,there,rfl⟩ := mem_update.mp here
    have fresh := accounts.fresh old there
    split
    · exact fresh
    · exact fresh

theorem Table.flagged (table : Table v extra) (member : file ∈ v.files) (changed : file.denyWrite = !value) :
    Table (v.flag file value) extra :=
  (table.accounts.flagged member changed).table fun _ here => table.data_update here (fun _ => rfl) fun _ => rfl

/-- An inode is denied writes at most as often as it is open, and by each file that says so. -/
theorem Accounts.deny_le (accounts : Accounts v extra) (member : inode ∈ v.openInodes) :
    inode.denyWriteCnt ≤ inode.openCnt := by
  have denied := accounts.deny inode member
  have counted := accounts.count inode member
  have less := denies_le v.files inode.sector
  omega

theorem Accounts.deny_pos (accounts : Accounts v extra) (member : inode ∈ v.openInodes) :
    inode.denyWriteCnt = 0 ↔ ∀ file ∈ v.files, file.inode = inode.sector → file.denyWrite = false := by
  rw [accounts.deny inode member,denies,List.countP_eq_zero]
  simp only [Bool.and_eq_true,beq_iff_eq,not_and,Bool.not_eq_true]

/-! Denying writes, which never fails an assertion. -/

theorem Accounts.findFile_ok (accounts : Accounts v extra) (member : file ∈ v.files) :
    findFile file.id v = .ok (file,v) := by
  simp only [findFile,accounts.find_file member]

theorem Accounts.fileDenyWrite_ok (accounts : Accounts v extra) (member : file ∈ v.files) :
    fileDenyWrite file.id v = .ok ((),if file.denyWrite then v else v.flag file true) := by
  refine (bind_go (accounts.findFile_ok member)).trans ?_
  cases denied : file.denyWrite with
  | true => rfl
  | false =>
    obtain ⟨inode,-,-,found⟩ := accounts.inode_of member
    have found' : find Inode.sector file.inode (v.flag file true).openInodes =
        some { inode with denyWriteCnt := inode.denyWriteCnt + 1 } := by
      have updated : find Inode.sector file.inode (v.flag file true).openInodes =
          (find Inode.sector file.inode v.openInodes).map _ := find_update fun _ => rfl
      rw [found] at updated
      exact updated
    have flagged : Accounts (v.flag file true) extra := accounts.flagged member denied
    have bound := flagged.deny_le (find_key found').1
    have asserted : assert (inode.denyWriteCnt + 1 ≤ inode.openCnt) (v.flag file true) = .ok ((),v.flag file true) :=
      if_pos (by simpa using bound)
    exact (bind_go rfl).trans ((bind_go rfl).trans ((bind_go (findInode_ok found')).trans asserted))

theorem Accounts.fileAllowWrite_ok (accounts : Accounts v extra) (member : file ∈ v.files) :
    fileAllowWrite file.id v = .ok ((),if file.denyWrite then v.flag file false else v) := by
  refine (bind_go (accounts.findFile_ok member)).trans ?_
  cases denied : file.denyWrite with
  | false => rfl
  | true =>
    obtain ⟨inode,here,sector,found⟩ := accounts.inode_of member
    have positive : 0 < inode.denyWriteCnt := by
      by_contra none
      have allowed := (accounts.deny_pos here).mp (by omega) file member sector.symm
      rw [denied] at allowed
      exact Bool.false_ne_true allowed.symm
    have bound := accounts.deny_le here
    let v₁ := v.updateFile file.id fun file => { file with denyWrite := false }
    have found' : findInode file.inode v₁ = .ok (inode,v₁) := findInode_ok found
    have first : assert (0 < inode.denyWriteCnt) v₁ = .ok ((),v₁) := if_pos (by simpa using positive)
    have second : assert (inode.denyWriteCnt ≤ inode.openCnt) v₁ = .ok ((),v₁) := if_pos (by simpa using bound)
    exact (bind_go rfl).trans ((bind_go found').trans ((bind_go first).trans (bind_go second)))

end

end OsProj.FileSys
