import OsProj.FileSysFrame
import OsProj.FileSysSteps
import OsProj.InodeRefsCount

/-! The table of open inodes in the volume of the file system and in the model of the references: the operations
on inodes do the same to both. -/
namespace OsProj.InodeRefs

open OsProj.Keyed OsProj.Faulting
open OsProj.FileSys (Volume Device InodeDisk OffDisk onDisk openList closeList)

abbrev Entry := Nat × Nat × Bool × InodeDisk

def Inode.entry (inode : Inode) : Entry := (inode.sector,inode.openCnt,inode.removed,inode.data)

def entryOf (inode : FileSys.Inode) : Entry := (inode.sector,inode.openCnt,inode.removed,inode.data)

theorem Inode.entry_sector (inode : Inode) : inode.entry.1 = inode.sector := rfl

theorem entryOf_sector (inode : FileSys.Inode) : (entryOf inode).1 = inode.sector := rfl

def refOf (file : FileSys.File) : Nat × Nat := (file.id,file.inode)

def State.At (s : State) (id sector : Nat) : Prop := ∃ inode ∈ s.openInodes, inode.id = id ∧ inode.sector = sector

def Same (v : Volume) (s : State) : Prop := v.openInodes.map entryOf = s.openInodes.map Inode.entry

/-- Identities are given out once, each for one sector. -/
structure Placed (s s' : State) : Prop where
  next : s.next ≤ s'.next
  sectors : ∀ inode ∈ s'.openInodes, s.next ≤ inode.id ∨ s.At inode.id inode.sector

structure Moved (v v' : Volume) (s s' : State) : Prop where
  same : Same v' s'
  refs : v'.files.map refOf = v.files.map refOf
  placed : Placed s s'
  only : Only s s'

/-- Nothing that the references are about has changed. -/
def Alike (v v' : Volume) : Prop := v'.openInodes.map entryOf = v.openInodes.map entryOf ∧ v'.files.map refOf = v.files.map refOf

/-! What the file system does beside opening and closing. -/

section
variable {dev : Device} {v : Volume}

theorem Alike.refl (v : Volume) : Alike v v := ⟨rfl,rfl⟩

theorem alike_offDisk : OffDisk (Alike v) := fun _ _ alike => alike

theorem alike_updateFile {f : FileSys.File → FileSys.File} (kept : ∀ x, refOf (f x) = refOf x) :
    Keeps (Alike v) (modify (fun w => w.updateFile i f) : FileSys.M Unit) :=
  keeps_modify fun _ alike => ⟨alike.1,(map_update kept).trans alike.2⟩

theorem alike_updateInode {f : FileSys.Inode → FileSys.Inode} (kept : ∀ x, entryOf (f x) = entryOf x) :
    Keeps (Alike v) (modify (fun w => w.updateInode i f) : FileSys.M Unit) :=
  keeps_modify fun _ alike => ⟨(map_update kept).trans alike.1,alike.2⟩

theorem alike_allocate : Keeps (Alike v) (FileSys.freeMapAllocate dev cnt) := by
  refine keeps_get_bind fun w _ => ?_
  dsimp only
  cases Bitmap.scan w.freeMap dev.size 0 cnt false with
  | none => exact keeps_pure _
  | some start =>
    refine Keeps.bind (keeps_modify ?_) fun _ => ?_
    · exact fun _ alike => alike
    refine (FileSys.keeps_freeMapWrite alike_offDisk (keeps_pure _)).bind fun saved => (keeps_pure _).ite ?_
    refine Keeps.bind (keeps_modify ?_) fun _ => keeps_pure _
    exact fun _ alike => alike

theorem alike_release : Keeps (Alike v) (FileSys.freeMapRelease dev start cnt) := by
  refine keeps_get_bind fun w _ => (FileSys.keeps_assert _).bind fun _ => ?_
  refine Keeps.bind (keeps_modify ?_) fun _ => ?_
  · exact fun _ alike => alike
  exact (FileSys.keeps_freeMapWrite alike_offDisk (keeps_throw _)).bind fun _ => keeps_pure _

theorem alike_create : Keeps (Alike v) (FileSys.inodeCreate dev i length) := by
  refine alike_allocate.bind fun found => ?_
  cases found with
  | none => exact keeps_pure _
  | some start =>
    refine (FileSys.keeps_blockWrite alike_offDisk).bind fun _ => ?_
    exact (FileSys.keeps_writeZeros alike_offDisk).bind fun _ => keeps_pure _

theorem alike_denyWrite : Keeps (Alike v) (FileSys.fileDenyWrite f) := by
  refine FileSys.keeps_findFile.bind fun file => (keeps_pure _).ite (.bind (alike_updateFile ?_) fun _ => ?_)
  · exact fun _ => rfl
  refine Keeps.bind (alike_updateInode ?_) fun _ => FileSys.keeps_findInode.bind fun _ => FileSys.keeps_assert _
  exact fun _ => rfl

theorem alike_allowWrite : Keeps (Alike v) (FileSys.fileAllowWrite f) := by
  refine FileSys.keeps_findFile.bind fun file => .ite (.bind (alike_updateFile ?_) fun _ => ?_) (keeps_pure _)
  · exact fun _ => rfl
  refine FileSys.keeps_findInode.bind fun _ => (FileSys.keeps_assert _).bind fun _ => (FileSys.keeps_assert _).bind fun _ => ?_
  exact alike_updateInode fun _ => rfl

end

/-! The operations on inodes, in both models. -/

section
variable {dev : Device} {v v' : Volume} {s s' : State} {extra held : Nat → Nat} {id sector : Nat} {inode : Inode}

theorem Same.alike (same : Same v s) (alike : Alike v v') : Same v' s := alike.1.trans same

theorem Placed.refl : Placed s s := ⟨Nat.le_refl _,fun inode here => .inr ⟨inode,here,rfl,rfl⟩⟩

theorem Placed.trans (first : Placed s s') (second : Placed s' s'') : Placed s s'' := by
  refine ⟨Nat.le_trans first.next second.next,fun inode here => ?_⟩
  rcases second.sectors inode here with new | ⟨old,there,same,place⟩
  · exact .inl (Nat.le_trans first.next new)
  · rw [← same,← place]
    exact first.sectors old there

theorem placed_update {f : Inode → Inode} (id_ : ∀ x, (f x).id = x.id) (sector_ : ∀ x, (f x).sector = x.sector) :
    Placed s (s.commit op (update Inode.id k f s.openInodes)) := by
  refine ⟨Nat.le_refl _,fun inode here => .inr ?_⟩
  obtain ⟨old,there,rfl⟩ := mem_update.mp here
  split
  · exact ⟨old,there,(id_ old).symm,(sector_ old).symm⟩
  · exact ⟨old,there,rfl,rfl⟩

theorem placed_remove : Placed s (s.commit op (remove Inode.id k s.openInodes)) :=
  ⟨Nat.le_refl _,fun inode here => .inr ⟨inode,(mem_remove.mp here).1,rfl,rfl⟩⟩

/-- An inode that is still open is where it was. -/
theorem State.At.step (located : s.At id sector) (counted : Counted s held) (placed : Placed s s')
    (here : id ∈ s'.openInodes.map Inode.id) : s'.At id sector := by
  obtain ⟨inode,member,rfl,rfl⟩ := located
  obtain ⟨inode',member',same⟩ := List.mem_map.mp here
  refine ⟨inode',member',same,?_⟩
  rcases placed.sectors inode' member' with new | ⟨old,there,again,place⟩
  · have below := counted.fresh_id member
    omega
  · rw [← place,List.inj_on_of_nodup_map counted.ids there member (again.trans same)]

theorem Counted.sector_iff (counted : Counted s held) (member : inode ∈ s.openInodes) :
    ∀ x ∈ s.openInodes, x.id = inode.id ↔ x.sector = inode.sector := by
  intro x there
  constructor
  · exact fun same => congrArg Inode.sector (List.inj_on_of_nodup_map counted.ids there member same)
  · exact fun same => congrArg Inode.id (List.inj_on_of_nodup_map counted.accounted.sectors there member same)

theorem Same.find (same : Same v s) (sector : Nat) :
    (find FileSys.Inode.sector sector v.openInodes).map entryOf = (find Inode.sector sector s.openInodes).map Inode.entry := by
  rw [← find_map Prod.fst entryOf_sector,← find_map Prod.fst Inode.entry_sector,same]

/-- One inode changes in both lists. -/
theorem Same.update (same : Same v s) (counted : Counted s held) (member : inode ∈ s.openInodes)
    {f : FileSys.Inode → FileSys.Inode} {g : Inode → Inode} {h : Entry → Entry} (left : ∀ x, entryOf (f x) = h (entryOf x))
    (right : ∀ x, (g x).entry = h x.entry) :
    (Keyed.update FileSys.Inode.sector inode.sector f v.openInodes).map entryOf =
      (Keyed.update Inode.id inode.id g s.openInodes).map Inode.entry := by
  rw [update_by (counted.sector_iff member),update_map Prod.fst entryOf_sector left,
    update_map Prod.fst Inode.entry_sector right,same]

theorem Same.remove (same : Same v s) (counted : Counted s held) (member : inode ∈ s.openInodes) :
    (Keyed.remove FileSys.Inode.sector inode.sector v.openInodes).map entryOf =
      (Keyed.remove Inode.id inode.id s.openInodes).map Inode.entry := by
  rw [remove_by (counted.sector_iff member),remove_map Prod.fst entryOf_sector,
    remove_map Prod.fst Inode.entry_sector,same]

theorem Same.inodeReopen (same : Same v s) (counted : Counted s held) (located : s.At id sector)
    (here : inodeReopen id s = .ok ((),s')) :
    Moved v (v.updateInode sector fun inode => { inode with openCnt := inode.openCnt + 1 }) s s' ∧ s'.At id sector := by
  obtain ⟨inode,member,rfl,rfl⟩ := located
  have run : InodeRefs.inodeReopen inode.id s = _ := bind_go (findInode_ok (find_member counted.ids member))
  obtain ⟨-,rfl⟩ := Prod.mk.inj (Except.ok.inj (here.symm.trans run))
  refine ⟨⟨?_,rfl,placed_update (fun _ => rfl) fun _ => rfl,⟨rfl,rfl,rfl,rfl⟩⟩,?_⟩
  · exact same.update (h := fun e => (e.1,e.2.1 + 1,e.2.2)) counted member (fun _ => rfl) fun _ => rfl
  · exact ⟨_,mem_update.mpr ⟨inode,member,if_pos rfl⟩,rfl,rfl⟩

theorem Same.inodeRemove (same : Same v s) (counted : Counted s held) (located : s.At id sector)
    (here : inodeRemove id s = .ok ((),s')) :
    Moved v (v.updateInode sector fun inode => { inode with removed := true }) s s' ∧ s'.At id sector := by
  obtain ⟨inode,member,rfl,rfl⟩ := located
  have run : InodeRefs.inodeRemove inode.id s = _ := bind_go (findInode_ok (find_member counted.ids member))
  obtain ⟨-,rfl⟩ := Prod.mk.inj (Except.ok.inj (here.symm.trans run))
  refine ⟨⟨?_,rfl,placed_update (fun _ => rfl) fun _ => rfl,⟨rfl,rfl,rfl,rfl⟩⟩,?_⟩
  · exact same.update (h := fun e => (e.1,e.2.1,true,e.2.2.2)) counted member (fun _ => rfl) fun _ => rfl
  · exact ⟨_,mem_update.mpr ⟨inode,member,if_pos rfl⟩,rfl,rfl⟩

theorem Same.inodeOpen (same : Same v s) (counted : Counted s held) (there : FileSys.inodeOpen dev sector v = .ok ((),v'))
    (here : inodeOpen sector (onDisk v.disk sector) true s = .ok (r,s')) :
    ∃ id, r = some id ∧ Moved v v' s s' ∧ s'.At id sector := by
  obtain rfl := FileSys.inodeOpen_returned there
  have both := same.find sector
  have next := get_bind.mp here
  cases found : Keyed.find Inode.sector sector s.openInodes with
  | some inode =>
    rw [found] at both next
    obtain ⟨inode',theirs,-⟩ := Option.map_eq_some_iff.mp both
    have opened : openList v.openInodes sector (onDisk v.disk sector) = _ := if_pos (by rw [theirs]; rfl)
    obtain ⟨member,rfl⟩ := find_key found
    obtain ⟨_,s₁,reopened,done⟩ := bind_ok.mp next
    obtain ⟨rfl,rfl⟩ := Prod.mk.inj (pure_ok.mp done)
    obtain ⟨moved,located⟩ := same.inodeReopen counted ⟨inode,member,rfl,rfl⟩ reopened
    refine ⟨inode.id,rfl,⟨?_,rfl,moved.placed,moved.only⟩,located⟩
    unfold Same
    rw [opened]
    exact moved.same
  | none =>
    rw [found] at both next
    have absent := Option.map_eq_none_iff.mp both
    have opened : openList v.openInodes sector (onDisk v.disk sector) = _ := if_neg (by rw [absent]; exact Bool.false_ne_true)
    obtain ⟨rfl,rfl⟩ := Prod.mk.inj (Except.ok.inj next.symm)
    refine ⟨s.next,rfl,⟨?_,rfl,⟨Nat.le_succ _,fun inode here => ?_⟩,⟨rfl,rfl,rfl,rfl⟩⟩,_,List.mem_cons_self,rfl,rfl⟩
    · unfold Same
      rw [opened]
      exact congrArg _ same
    · rcases List.mem_cons.mp here with rfl | old
      · exact .inl (Nat.le_refl _)
      · exact .inr ⟨inode,old,rfl,rfl⟩

theorem inodeClose_run (found : find Inode.id id s.openInodes = some inode) : inodeClose (some id) s =
    .ok ((),if inode.openCnt - 1 = 0 then
        s.commit (.closed id (if inode.removed then inode.blocks else [])) (remove Inode.id id s.openInodes)
      else s.commit (.closed id [])
        (update Inode.id id (fun inode => { inode with openCnt := inode.openCnt - 1 }) s.openInodes)) := by
  refine (bind_go (findInode_ok found)).trans ?_
  split
  · rfl
  · rfl

/-- Closing an inode of the volume takes it from the list, or a reference from it, and may give sectors back. -/
theorem inodeClose_alike (found : find FileSys.Inode.sector sector v.openInodes = some inode')
    (there : FileSys.inodeClose dev sector v = .ok ((),v')) :
    Alike { v with openInodes := closeList v.openInodes inode' } v' := by
  by_cases plain : 1 < inode'.openCnt ∨ inode'.removed = false
  · rw [FileSys.inodeClose_plain found plain] at there
    obtain ⟨-,rfl⟩ := Prod.mk.inj (Except.ok.inj there)
    exact Alike.refl _
  · obtain ⟨last,removed⟩ := not_or.mp plain
    rw [FileSys.inodeClose_last found last (by simpa using removed)] at there
    exact (alike_release.bind fun _ => alike_release) _ _ _ (Alike.refl _) there

theorem Same.inodeClose (same : Same v s) (counted : Counted s held) (located : s.At id sector)
    (there : FileSys.inodeClose dev sector v = .ok ((),v')) (here : inodeClose (some id) s = .ok ((),s')) :
    Moved v v' s s' := by
  obtain ⟨inode,member,rfl,rfl⟩ := located
  have both := same.find inode.sector
  rw [find_member counted.accounted.sectors member] at both
  obtain ⟨inode',theirs,entry⟩ := Option.map_eq_some_iff.mp both
  have count : inode'.openCnt = inode.openCnt := congrArg (fun e => e.2.1) entry
  have place : inode'.sector = inode.sector := congrArg (fun e => e.1) entry
  obtain ⟨table,refs⟩ := inodeClose_alike theirs there
  rw [inodeClose_run (find_member counted.ids member)] at here
  obtain ⟨-,rfl⟩ := Prod.mk.inj (Except.ok.inj here)
  have used := counted.accounted.used inode member
  by_cases last : inode.openCnt - 1 = 0
  · rw [if_pos last]
    have list : closeList v.openInodes inode' = _ := if_neg (by omega)
    refine ⟨?_,refs,placed_remove,⟨rfl,rfl,rfl,rfl⟩⟩
    refine table.trans ?_
    rw [list,place]
    exact same.remove counted member
  · rw [if_neg last]
    have list : closeList v.openInodes inode' = _ := if_pos (by omega)
    refine ⟨?_,refs,placed_update (fun _ => rfl) fun _ => rfl,⟨rfl,rfl,rfl,rfl⟩⟩
    refine table.trans ?_
    rw [list,place]
    exact same.update (h := fun e => (e.1,e.2.1 - 1,e.2.2)) counted member (fun _ => rfl) fun _ => rfl

end

end OsProj.InodeRefs
