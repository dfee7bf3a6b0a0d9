import OsProj.InodeRefsCount

/-! Every call keeps the counts: what it opens it hands to a file or a directory or closes again,
on all ways through it. -/
namespace OsProj.InodeRefs

open OsProj.Keyed OsProj.Faulting
open OsProj.FileSys (more fewer more_self more_other more_pos fewer_self fewer_other fewer_more)

/-- The references to an inode: from files, from directories and from the call that runs. -/
def State.held (s : State) (extra : Nat → Nat) : Nat → Nat :=
  fun id => s.files.countP (·.inode == id) + s.dirs.countP (·.inode == id) + extra id

structure Inv (s : State) (extra : Nat → Nat) : Prop where
  counted : Counted s (s.held extra)
  fileIds : (s.files.map Handle.id).Nodup
  dirIds : (s.dirs.map Handle.id).Nodup
  freshFiles : ∀ h ∈ s.files, h.id < s.nextHandle
  freshDirs : ∀ h ∈ s.dirs, h.id < s.nextHandle

/-- The reference that a pointer is, unless it is null. -/
def take (extra : Nat → Nat) : Option Nat → Nat → Nat
  | none => extra
  | some id => more extra id

section
variable {s s' : State} {extra : Nat → Nat} {id file dir sector : Nat} {data : FileSys.InodeDisk} {memory : Bool}
  {handle : Handle}

theorem Only.held (only : Only s s') : s'.held extra = s.held extra := by
  unfold State.held
  rw [only.files,only.dirs]

theorem Inv.only (inv : Inv s extra) (only : Only s s') (counted : Counted s' (s.held extra')) : Inv s' extra' := by
  refine ⟨?_,?_,?_,?_,?_⟩
  · rw [only.held]
    exact counted
  · rw [only.files]
    exact inv.fileIds
  · rw [only.dirs]
    exact inv.dirIds
  · rw [only.files,only.nextHandle]
    exact inv.freshFiles
  · rw [only.dirs,only.nextHandle]
    exact inv.freshDirs

theorem held_more : more (s.held extra) id = s.held (more extra id) := by
  funext j
  by_cases same : j = id
  · subst same
    rw [more_self,State.held,State.held,more_self]
    omega
  · rw [more_other same,State.held,State.held,more_other same]

theorem held_fewer (held : 0 < extra id) : fewer (s.held extra) id = s.held (fewer extra id) := by
  funext j
  by_cases same : j = id
  · subst same
    rw [fewer_self,State.held,State.held,fewer_self]
    omega
  · rw [fewer_other same,State.held,State.held,fewer_other same]

/-! References of the call. -/

theorem Inv.reopen (inv : Inv s extra) (referred : 0 < s.held extra id) :
    ∃ s', inodeReopen id s = .ok ((),s') ∧ Inv s' (more extra id) ∧ Only s s' := by
  obtain ⟨inode,member,rfl,-⟩ := inv.counted.member referred
  obtain ⟨s',done,counted,only⟩ := inv.counted.inodeReopen member
  rw [held_more] at counted
  exact ⟨s',done,inv.only only counted,only⟩

theorem Inv.inodeOpen (inv : Inv s extra) (sector : Nat) (data : FileSys.InodeDisk) (memory : Bool) :
    ∃ r s', inodeOpen sector data memory s = .ok (r,s') ∧ Inv s' (take extra r) ∧ Only s s' := by
  cases found : find Inode.sector sector s.openInodes with
  | some inode =>
    obtain ⟨s',done,counted,only⟩ := inv.counted.inodeReopen (find_key found).1
    rw [held_more] at counted
    refine ⟨some inode.id,s',?_,inv.only only counted,only⟩
    refine (bind_go rfl).trans ?_
    rw [found]
    exact bind_go done
  | none =>
    have absent : sector ∉ s.openInodes.map Inode.sector := by
      intro here
      obtain ⟨inode,some⟩ := find_of_mem here
      rw [found] at some
      contradiction
    cases memory with
    | true =>
      let s' : State :=
        { s.commit (.opened s.next) (⟨s.next,sector,1,false,data⟩ :: s.openInodes) with next := s.next + 1 }
      have counted : Counted s' (more (s.held extra) s.next) := inv.counted.opened absent
      have only : Only s s' := ⟨rfl,rfl,rfl,rfl⟩
      rw [held_more] at counted
      refine ⟨some s.next,s',?_,inv.only only counted,only⟩
      refine (bind_go rfl).trans ?_
      rw [found]
      rfl
    | false =>
      refine ⟨none,s,?_,inv,Only.refl⟩
      refine (bind_go rfl).trans ?_
      rw [found]
      rfl

theorem Inv.inodeClose (inv : Inv s (take extra r)) : ∃ s', inodeClose r s = .ok ((),s') ∧ Inv s' extra ∧ Only s s' := by
  cases r with
  | none => exact ⟨s,rfl,inv,Only.refl⟩
  | some id =>
    have referred : 0 < s.held (more extra id) id := Nat.add_pos_right _ more_pos
    obtain ⟨s',done,counted,only⟩ := inv.counted.inodeClose referred
    have same : fewer (s.held (take extra (some id))) id = s.held extra := by
      rw [take,held_fewer more_pos,fewer_more]
    rw [same] at counted
    exact ⟨s',done,inv.only only counted,only⟩

theorem Inv.inodeRemove (id : Nat) (inv : Inv s (more extra id)) :
    ∃ s', inodeRemove id s = .ok ((),s') ∧ Inv s' (more extra id) ∧ Only s s' := by
  have referred : 0 < s.held (more extra id) id := Nat.add_pos_right _ more_pos
  obtain ⟨inode,member,rfl,-⟩ := inv.counted.member referred
  obtain ⟨s',done,counted,only⟩ := inv.counted.inodeRemove member
  exact ⟨s',done,inv.only only counted,only⟩

/-! Files and directories. -/

theorem findHandle_ok {handles : State → List Handle} (found : find Handle.id id (handles s) = some handle) :
    findHandle handles id s = .ok (handle,s) := by
  simp only [findHandle,found]

theorem countP_cons_inode {l : List Handle} (h : Handle) (j : Nat) :
    (h :: l).countP (·.inode == j) = l.countP (·.inode == j) + if h.inode = j then 1 else 0 := by
  rw [List.countP_cons]
  simp

theorem fresh_nodup {l : List Handle} {next : Nat} (id : Nat) (nodup : (l.map Handle.id).Nodup) (fresh : ∀ h ∈ l, h.id < next) :
    ((⟨next,id⟩ :: l : List Handle).map Handle.id).Nodup ∧ ∀ h ∈ (⟨next,id⟩ :: l : List Handle), h.id < next + 1 := by
  constructor
  · refine List.nodup_cons.mpr ⟨?_,nodup⟩
    intro used
    obtain ⟨h,member,same⟩ := List.mem_map.mp used
    have below := fresh h member
    rw [same] at below
    exact Nat.lt_irrefl _ below
  · intro h member
    rcases List.mem_cons.mp member with rfl | member
    · exact Nat.lt_succ_self _
    · exact Nat.lt_succ_of_lt (fresh h member)

/-- The counts are of inodes, whatever handles there are. -/
theorem Counted.handles {held : Nat → Nat} (counted : Counted s held) :
    Counted { s with files := files, dirs := dirs, nextHandle := next } held := by
  obtain ⟨always,current,accounted,released,ids,new,flags,holds⟩ := counted
  exact ⟨always,current,accounted,released,ids,new,flags,holds⟩

/-- A reference of the call becomes one of a new handle. -/
theorem countP_opened (extra : Nat → Nat) (l : List Handle) (next id j : Nat) :
    (⟨next,id⟩ :: l : List Handle).countP (·.inode == j) + extra j = l.countP (·.inode == j) + more extra id j := by
  rw [countP_cons_inode]
  by_cases here : j = id
  · subst here
    rw [more_self]
    simp only [↓reduceIte]
    omega
  · rw [more_other here]
    simp only [Ne.symm here,↓reduceIte,Nat.add_zero]

theorem Inv.fileOpen (inv : Inv s (take extra r)) (memory : Bool) :
    ∃ r' s', fileOpen r memory s = .ok (r',s') ∧ Inv s' extra ∧ s'.dirs = s.dirs := by
  have failed (falls : ∀ s, InodeRefs.fileOpen r memory s = (InodeRefs.inodeClose r >>= fun _ => pure none) s) :
      ∃ r' s', InodeRefs.fileOpen r memory s = .ok (r',s') ∧ Inv s' extra ∧ s'.dirs = s.dirs := by
    obtain ⟨s',closed,inv',only⟩ := inv.inodeClose
    exact ⟨none,s',(falls s).trans (bind_go closed),inv',only.dirs⟩
  cases r with
  | none => exact failed fun s => rfl
  | some id =>
    cases memory with
    | false => exact failed fun s => rfl
    | true =>
      have fresh := fresh_nodup id inv.fileIds inv.freshFiles
      refine ⟨some s.nextHandle,_,rfl,⟨?_,fresh.1,inv.dirIds,fresh.2,?_⟩,rfl⟩
      · have same : ({ s with files := ⟨s.nextHandle,id⟩ :: s.files, nextHandle := s.nextHandle + 1 } : State).held extra =
            s.held (more extra id) := by
          funext j
          have counts := countP_opened extra s.files s.nextHandle id j
          unfold State.held
          dsimp only
          omega
        rw [same]
        exact inv.counted.handles
      · exact fun h member => Nat.lt_succ_of_lt (inv.freshDirs h member)

theorem Inv.dirOpen (inv : Inv s (take extra r)) (memory : Bool) :
    ∃ r' s', dirOpen r memory s = .ok (r',s') ∧ Inv s' extra ∧ ∀ dir, r' = some dir → dir ∈ s'.dirs.map Handle.id := by
  have failed (falls : ∀ s, InodeRefs.dirOpen r memory s = (InodeRefs.inodeClose r >>= fun _ => pure none) s) :
      ∃ r' s', InodeRefs.dirOpen r memory s = .ok (r',s') ∧ Inv s' extra ∧ ∀ dir, r' = some dir → dir ∈ s'.dirs.map Handle.id := by
    obtain ⟨s',closed,inv',-⟩ := inv.inodeClose
    exact ⟨none,s',(falls s).trans (bind_go closed),inv',fun _ none => nomatch none⟩
  cases r with
  | none => exact failed fun s => rfl
  | some id =>
    cases memory with
    | false => exact failed fun s => rfl
    | true =>
      have fresh := fresh_nodup id inv.dirIds inv.freshDirs
      refine ⟨some s.nextHandle,_,rfl,⟨?_,inv.fileIds,fresh.1,?_,fresh.2⟩,fun dir same => ?_⟩
      · have same : ({ s with dirs := ⟨s.nextHandle,id⟩ :: s.dirs, nextHandle := s.nextHandle + 1 } : State).held extra =
            s.held (more extra id) := by
          funext j
          have counts := countP_opened extra s.dirs s.nextHandle id j
          unfold State.held
          dsimp only
          omega
        rw [same]
        exact inv.counted.handles
      · exact fun h member => Nat.lt_succ_of_lt (inv.freshFiles h member)
      · rw [← Option.some.inj same]
        exact List.mem_cons_self

theorem find_handle {l : List Handle} (nodup : (l.map Handle.id).Nodup) (here : id ∈ l.map Handle.id) :
    ∃ handle ∈ l, handle.id = id ∧ find Handle.id id l = some handle := by
  obtain ⟨handle,member,rfl⟩ := List.mem_map.mp here
  exact ⟨handle,member,rfl,find_member nodup member⟩

theorem countP_pos {l : List Handle} (member : handle ∈ l) : 0 < l.countP (·.inode == handle.inode) :=
  List.countP_pos_iff.mpr ⟨handle,member,by simp⟩

/-- The references that are left when one handle is gone. -/
theorem countP_gone {l : List Handle} (nodup : (l.map Handle.id).Nodup) (member : handle ∈ l) (j : Nat) :
    (remove Handle.id handle.id l).countP (·.inode == j) + (if j = handle.inode then 1 else 0) =
      l.countP (·.inode == j) := by
  have counted := countP_remove (p := fun h => h.inode == j) nodup member
  simp only [beq_iff_eq] at counted
  rw [← counted]
  simp only [eq_comm]

/-- What a handle refers to has one reference less without it. -/
theorem countP_closed {l : List Handle} {held rest : Nat → Nat} (nodup : (l.map Handle.id).Nodup) (member : handle ∈ l)
    (split : ∀ j, held j = l.countP (·.inode == j) + rest j) (j : Nat) :
    (remove Handle.id handle.id l).countP (·.inode == j) + rest j = fewer held handle.inode j := by
  have gone := countP_gone nodup member j
  have whole := split j
  unfold fewer
  split
  · rename_i this
    simp only [this,↓reduceIte] at gone whole ⊢
    omega
  · rename_i other
    simp only [other,↓reduceIte] at gone
    omega

theorem Inv.fileClose (inv : Inv s extra) (here : file ∈ s.files.map Handle.id) :
    ∃ s', fileClose file s = .ok ((),s') ∧ Inv s' extra := by
  obtain ⟨handle,member,rfl,found⟩ := find_handle inv.fileIds here
  have some := countP_pos member
  have referred : 0 < s.held extra handle.inode := by
    unfold State.held
    omega
  obtain ⟨s',closed,counted,only⟩ := inv.counted.inodeClose referred
  refine ⟨_,(bind_go (findHandle_ok found)).trans (bind_go closed),?_,?_,?_,?_,?_⟩
  · have same : ({ s' with files := remove Handle.id handle.id s'.files } : State).held extra =
        fewer (s.held extra) handle.inode := by
      funext j
      have split j : s.held extra j = s.files.countP (·.inode == j) + (s.dirs.countP (·.inode == j) + extra j) :=
        Nat.add_assoc ..
      rw [← countP_closed inv.fileIds member split j]
      unfold State.held
      dsimp only
      rw [only.files,only.dirs]
      exact Nat.add_assoc ..
    rw [same]
    exact counted.handles
  · change ((remove Handle.id handle.id s'.files).map Handle.id).Nodup
    rw [only.files]
    exact inv.fileIds.sublist (List.filter_sublist.map _)
  · change (s'.dirs.map Handle.id).Nodup
    rw [only.dirs]
    exact inv.dirIds
  · intro h member'
    have old := (mem_remove.mp member').1
    rw [only.files] at old
    change h.id < s'.nextHandle
    rw [only.nextHandle]
    exact inv.freshFiles h old
  · change ∀ h ∈ s'.dirs, h.id < s'.nextHandle
    rw [only.dirs,only.nextHandle]
    exact inv.freshDirs

theorem Inv.dirClose (inv : Inv s extra) (here : ∀ dir, r = some dir → dir ∈ s.dirs.map Handle.id) :
    ∃ s', dirClose r s = .ok ((),s') ∧ Inv s' extra := by
  cases r with
  | none => exact ⟨s,rfl,inv⟩
  | some dir =>
    obtain ⟨handle,member,rfl,found⟩ := find_handle inv.dirIds (here dir rfl)
    have some := countP_pos member
    have referred : 0 < s.held extra handle.inode := by
      unfold State.held
      omega
    obtain ⟨s',closed,counted,only⟩ := inv.counted.inodeClose referred
    refine ⟨_,(bind_go (findHandle_ok found)).trans (bind_go closed),?_,?_,?_,?_,?_⟩
    · have same : ({ s' with dirs := remove Handle.id handle.id s'.dirs } : State).held extra =
          fewer (s.held extra) handle.inode := by
        funext j
        have split j : s.held extra j = s.dirs.countP (·.inode == j) + (s.files.countP (·.inode == j) + extra j) := by
          unfold State.held
          omega
        rw [← countP_closed inv.dirIds member split j]
        unfold State.held
        dsimp only
        rw [only.files,only.dirs]
        omega
      rw [same]
      exact counted.handles
    · change (s'.files.map Handle.id).Nodup
      rw [only.files]
      exact inv.fileIds
    · change ((remove Handle.id handle.id s'.dirs).map Handle.id).Nodup
      rw [only.dirs]
      exact inv.dirIds.sublist (List.filter_sublist.map _)
    · change ∀ h ∈ s'.files, h.id < s'.nextHandle
      rw [only.files,only.nextHandle]
      exact inv.freshFiles
    · intro h member'
      have old := (mem_remove.mp member').1
      rw [only.dirs] at old
      change h.id < s'.nextHandle
      rw [only.nextHandle]
      exact inv.freshDirs h old

/-! Calls. -/

theorem Inv.dirOpenRoot (inv : Inv s extra) (opening : Opening) (memory : Bool) :
    ∃ r s', dirOpenRoot opening memory s = .ok (r,s') ∧ Inv s' extra ∧ ∀ dir, r = some dir → dir ∈ s'.dirs.map Handle.id := by
  obtain ⟨r,s₁,opened,inv₁,-⟩ := inv.inodeOpen FileSys.rootDirSector opening.data opening.memory
  obtain ⟨r',s₂,done,inv₂,here⟩ := inv₁.dirOpen memory
  exact ⟨r',s₂,(bind_go opened).trans done,inv₂,here⟩

theorem Inv.dirLookup (inv : Inv s extra) (found : Option Nat) (opening : Opening) :
    ∃ r s', dirLookup found opening s = .ok (r,s') ∧ Inv s' (take extra r) ∧ Only s s' := by
  cases found with
  | none => exact ⟨none,s,rfl,inv,Only.refl⟩
  | some sector => exact inv.inodeOpen sector opening.data opening.memory

/-- On every way out the inode that was opened is closed. -/
theorem Inv.dirRemove (inv : Inv s extra) (found : Option Nat) (opening : Opening) (written : Bool) :
    ∃ success s', dirRemove found opening written s = .ok (success,s') ∧ Inv s' extra ∧ Only s s' := by
  cases found with
  | none => exact ⟨false,s,rfl,inv,Only.refl⟩
  | some sector =>
    obtain ⟨r,s₁,opened,inv₁,only₁⟩ := inv.inodeOpen sector opening.data opening.memory
    cases r with
    | none => exact ⟨false,s₁,bind_go opened,inv₁,only₁⟩
    | some id =>
      cases written with
      | false =>
        obtain ⟨s₂,closed,inv₂,only₂⟩ := Inv.inodeClose (r := some id) inv₁
        exact ⟨false,s₂,(bind_go opened).trans (bind_go closed),inv₂,only₁.trans only₂⟩
      | true =>
        obtain ⟨s₂,removed,inv₂,only₂⟩ := Inv.inodeRemove id inv₁
        obtain ⟨s₃,closed,inv₃,only₃⟩ := Inv.inodeClose (r := some id) inv₂
        exact ⟨true,s₃,(bind_go opened).trans ((bind_go removed).trans (bind_go closed)),inv₃,
          only₁.trans (only₂.trans only₃)⟩

theorem Inv.filesysCreate (inv : Inv s extra) (o : Outcomes) :
    ∃ r s', filesysCreate o s = .ok (r,s') ∧ Inv s' extra := by
  obtain ⟨dir,s₁,opened,inv₁,here⟩ := inv.dirOpenRoot o.root o.dirMemory
  obtain ⟨s₂,closed,inv₂⟩ := inv₁.dirClose here
  exact ⟨_,s₂,(bind_go opened).trans (bind_go closed),inv₂⟩

theorem Inv.filesysOpen (inv : Inv s extra) (o : Outcomes) :
    ∃ r s', filesysOpen o s = .ok (r,s') ∧ Inv s' extra := by
  obtain ⟨dir,s₁,opened,inv₁,here⟩ := inv.dirOpenRoot o.root o.dirMemory
  cases dir with
  | none =>
    obtain ⟨r,s₂,done,inv₂,-⟩ := Inv.fileOpen (r := none) inv₁ o.fileMemory
    exact ⟨r,s₂,(bind_go opened).trans done,inv₂⟩
  | some dir =>
    obtain ⟨r,s₂,found,inv₂,only⟩ := inv₁.dirLookup o.found o.file
    have still d (same : some dir = some d) : d ∈ s₂.dirs.map Handle.id := by
      rw [only.dirs]
      exact here d same
    obtain ⟨s₃,closed,inv₃⟩ := inv₂.dirClose still
    obtain ⟨r',s₄,done,inv₄,-⟩ := inv₃.fileOpen o.fileMemory
    exact ⟨r',s₄,(bind_go opened).trans ((bind_go found).trans ((bind_go closed).trans done)),inv₄⟩

theorem Inv.filesysRemove (inv : Inv s extra) (o : Outcomes) :
    ∃ r s', filesysRemove o s = .ok (r,s') ∧ Inv s' extra := by
  obtain ⟨dir,s₁,opened,inv₁,here⟩ := inv.dirOpenRoot o.root o.dirMemory
  cases dir with
  | none => exact ⟨false,s₁,bind_go opened,inv₁⟩
  | some dir =>
    obtain ⟨r,s₂,removed,inv₂,only⟩ := inv₁.dirRemove o.found o.file o.written
    have still d (same : some dir = some d) : d ∈ s₂.dirs.map Handle.id := by
      rw [only.dirs]
      exact here d same
    obtain ⟨s₃,closed,inv₃⟩ := inv₂.dirClose still
    exact ⟨r,s₃,(bind_go opened).trans ((bind_go removed).trans (bind_go closed)),inv₃⟩

theorem Inv.fileReopen (inv : Inv s extra) (here : file ∈ s.files.map Handle.id) (memory : Bool) :
    ∃ r s', fileReopen file memory s = .ok (r,s') ∧ Inv s' extra := by
  obtain ⟨handle,member,rfl,found⟩ := find_handle inv.fileIds here
  have some := countP_pos member
  have referred : 0 < s.held extra handle.inode := by
    unfold State.held
    omega
  obtain ⟨s₁,opened,inv₁,-⟩ := inv.reopen referred
  obtain ⟨r,s₂,done,inv₂,-⟩ := Inv.fileOpen (r := Option.some handle.inode) inv₁ memory
  exact ⟨r,s₂,(bind_go (findHandle_ok found)).trans ((bind_go opened).trans done),inv₂⟩

theorem Inv.dirReopen (inv : Inv s extra) (here : dir ∈ s.dirs.map Handle.id) (memory : Bool) :
    ∃ r s', dirReopen dir memory s = .ok (r,s') ∧ Inv s' extra := by
  obtain ⟨handle,member,rfl,found⟩ := find_handle inv.dirIds here
  have some := countP_pos member
  have referred : 0 < s.held extra handle.inode := by
    unfold State.held
    omega
  obtain ⟨s₁,opened,inv₁,-⟩ := inv.reopen referred
  obtain ⟨r,s₂,done,inv₂,-⟩ := Inv.dirOpen (r := Option.some handle.inode) inv₁ memory
  exact ⟨r,s₂,(bind_go (findHandle_ok found)).trans ((bind_go opened).trans done),inv₂⟩

/-- The free map is opened, or the kernel stops. -/
theorem Inv.freeMapOpen (inv : Inv s extra) (o : Outcomes) :
    freeMapOpen o s = .error .panic ∨ ∃ s', freeMapOpen o s = .ok ((),s') ∧ Inv s' extra := by
  obtain ⟨r,s₁,opened,inv₁,-⟩ := inv.inodeOpen FileSys.freeMapSector o.file.data o.file.memory
  obtain ⟨r',s₂,done,inv₂,-⟩ := inv₁.fileOpen o.fileMemory
  have run : InodeRefs.freeMapOpen o s = _ := (bind_go opened).trans (bind_go done)
  rw [run]
  cases r' with
  | none => exact .inl rfl
  | some file =>
    cases written : o.written with
    | false => exact .inl rfl
    | true =>
      refine .inr ⟨{ s₂ with freeMapFile := some file },rfl,?_⟩
      obtain ⟨counted,fileIds,dirIds,freshFiles,freshDirs⟩ := inv₂
      obtain ⟨always,current,accounted,released,ids,new,flags,holds⟩ := counted
      exact ⟨⟨always,current,accounted,released,ids,new,flags,holds⟩,fileIds,dirIds,freshFiles,freshDirs⟩

/-- A call returns with the references as it found them, or the kernel stops at boot. -/
theorem Inv.exec (inv : Inv s extra) (admissible : Admissible s call) :
    exec call s = .error .panic ∨ ∃ s', exec call s = .ok ((),s') ∧ Inv s' extra := by
  cases call with
  | filesysCreate o =>
    obtain ⟨r,s',done,inv'⟩ := inv.filesysCreate o
    exact .inr ⟨s',bind_go done,inv'⟩
  | filesysOpen o =>
    obtain ⟨r,s',done,inv'⟩ := inv.filesysOpen o
    exact .inr ⟨s',bind_go done,inv'⟩
  | filesysRemove o =>
    obtain ⟨r,s',done,inv'⟩ := inv.filesysRemove o
    exact .inr ⟨s',bind_go done,inv'⟩
  | fileReopen file memory =>
    obtain ⟨r,s',done,inv'⟩ := inv.fileReopen admissible memory
    exact .inr ⟨s',bind_go done,inv'⟩
  | fileClose file => exact .inr (inv.fileClose admissible)
  | dirOpenRoot opening memory =>
    obtain ⟨r,s',done,inv',-⟩ := inv.dirOpenRoot opening memory
    exact .inr ⟨s',bind_go done,inv'⟩
  | dirReopen dir memory =>
    obtain ⟨r,s',done,inv'⟩ := inv.dirReopen admissible memory
    exact .inr ⟨s',bind_go done,inv'⟩
  | dirClose dir => exact .inr (inv.dirClose fun d same => Option.some.inj same ▸ admissible)
  | freeMapOpen o => exact inv.freeMapOpen o
  | freeMapClose =>
    right
    change ∃ s', InodeRefs.freeMapClose s = _ ∧ _
    unfold InodeRefs.freeMapClose
    split
    · exact ⟨s,rfl,inv⟩
    · rename_i file open_
      exact inv.fileClose (admissible file open_)

theorem boot_inv : Inv State.boot fun _ => 0 := by
  refine ⟨⟨trivial,rfl,⟨List.nodup_nil,?_,?_,fun _ _ => rfl⟩,fun id => ?_,List.nodup_nil,fun id _ => ⟨rfl,rfl,?_⟩,?_,fun _ => rfl⟩,
    List.nodup_nil,List.nodup_nil,?_,?_⟩
  · exact fun _ here => absurd here List.not_mem_nil
  · exact fun _ here => absurd here List.not_mem_nil
  · rw [if_neg fun both => absurd both.1 (by simp [wasRemoved,State.boot])]
    rfl
  · simp [wasRemoved,State.boot]
  · exact fun _ here => absurd here List.not_mem_nil
  · exact fun _ here => absurd here List.not_mem_nil
  · exact fun _ here => absurd here List.not_mem_nil

theorem run_inv (run : History.Path Step [] State.boot h s) : Inv s fun _ => 0 := by
  refine run.invariant (fun _ s => Inv s fun _ => 0) (fun h s call s' inv step => ?_) boot_inv
  obtain ⟨admissible,ran⟩ := step
  rcases inv.exec admissible with stopped | ⟨s'',done,inv'⟩
  · exact nomatch stopped.symm.trans ran
  · obtain ⟨-,rfl⟩ := Prod.mk.inj (Except.ok.inj (ran.symm.trans done))
    exact inv'

/-- After every operation on an inode, in all runs of calls: one inode for each sector, opened as
often as it says, and its sectors given back once and only when it was removed and is not referred
to any more. No call uses an inode that is gone. -/
theorem inode_table_accounted (run : History.Path Step [] State.boot h s) :
    History.Always PointOk s.log ∧ ∀ call, Admissible s call → exec call s ≠ .error .dangling := by
  have inv := run_inv run
  refine ⟨inv.counted.always,fun call admissible failed => ?_⟩
  rcases inv.exec admissible with stopped | ⟨s',done,-⟩
  · rw [stopped] at failed
    exact absurd (Except.error.inj failed) (by decide)
  · rw [done] at failed
    contradiction

def fileFive : Outcomes := ⟨⟨⟨3,320⟩,true⟩,true,some 5,⟨⟨9,600⟩,true⟩,true,true⟩

/-- A file is opened, removed and closed. -/
theorem inode_table_accounted_removed :
    ∃ s, History.Path Step [] State.boot [.fileClose 1,.filesysRemove fileFive,.filesysOpen fileFive] s ∧ releases s.log 1 = 1 ∧
      History.Always PointOk s.log ∧ ∀ call, Admissible s call → exec call s ≠ .error .dangling := by
  have run : ∃ s, History.Path Step [] State.boot [.fileClose 1,.filesysRemove fileFive,.filesysOpen fileFive] s ∧
      releases s.log 1 = 1 :=
    ⟨_,.snoc (.snoc (.snoc .refl ⟨trivial,rfl⟩) ⟨trivial,rfl⟩) ⟨List.mem_singleton_self 1,rfl⟩,rfl⟩
  obtain ⟨s,path,once⟩ := run
  exact ⟨s,path,once,inode_table_accounted path⟩

end

end OsProj.InodeRefs
