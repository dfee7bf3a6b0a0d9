import OsProj.FileSysSteps

/-! Entering a new file in the root directory, and erasing the entry of one that is removed. -/
namespace OsProj.FileSys

open OsProj.Bitmap OsProj.ByteMemory OsProj.Faulting OsProj.Keyed

section
variable {dev : Device} {v : Volume} {extra : Nat → Nat} {e : Memory} {name other : CString}

/-- The disk with another entry in the root directory. -/
def Volume.put (v : Volume) (k : Nat) (e : Memory) : Memory := putEntry v.disk (onDisk v.disk 1) k e

def Volume.entry (v : Volume) (k : Nat) : Memory := entryAt v.disk (onDisk v.disk 1) k

theorem Inv.put_same (inv : Inv dev v extra) (inside : k < rootEntries) :
    SameOutside (onDisk v.disk 1).Has v.disk (v.put k e) := by
  apply inv.layout.paste_same root_member
  rw [inv.rootLength]
  simp only [entrySize,rootEntries] at *
  omega

theorem Inv.put_onDisk (inv : Inv dev v extra) (inside : k < rootEntries) (outside : ¬ (onDisk v.disk 1).Has i) :
    onDisk (v.put k e) i = onDisk v.disk i := onDisk_same (inv.put_same inside) outside

theorem Inv.put_root (inv : Inv dev v extra) (inside : k < rootEntries) : onDisk (v.put k e) 1 = onDisk v.disk 1 :=
  inv.put_onDisk inside (inv.layout.self 1 root_member)

/-- The volume after an entry is written, with another table of the inodes. -/
theorem Inv.putEntry {l : List Inode} (inv : Inv dev v extra) (inside : k < rootEntries)
    (slots : Slots (v.put k e) (onDisk v.disk 1) rootEntries)
    (table : Table { v with disk := v.put k e, openInodes := l } extra)
    (layout : Layout dev v.disk v.freeMap ({ v with disk := v.put k e, openInodes := l } : Volume).objects)
    (alive : ∀ inode ∈ l, inode.sector ∈ ({ v with disk := v.put k e, openInodes := l } : Volume).objects) :
    Inv dev { v with disk := v.put k e, openInodes := l } extra := by
  have same := inv.put_same (e := e) inside
  have map := inv.put_onDisk (e := e) inside (inv.layout.not_data root_member map_member)
  refine ⟨?_,?_,table,inv.mapFile,?_,inv.mapHeld,?_,?_,alive,inv.user⟩
  · exact layout.frame same fun i here => layout.not_data root_member here
  · intro j low
    have byte := inv.layout.byte_same map_member same
      (fun x has => inv.layout.data_apart map_member root_member Nat.zero_ne_one has) (by rw [inv.mapLength]; exact low)
    rw [map]
    exact byte.trans (inv.saved j low)
  · rw [map]
    exact inv.mapLength
  · rw [inv.put_root inside]
    exact inv.rootLength
  · rw [inv.put_root inside]
    exact slots

/-- The bytes of other objects, among them one that has no name yet. -/
theorem Inv.put_bytes {objects : List Nat} (inv : Inv dev v extra) (inside : k < rootEntries)
    (layout : Layout dev v.disk v.freeMap objects) (root : 1 ∈ objects) (here : i ∈ objects) (other : i ≠ 1) :
    content (v.put k e) (onDisk (v.put k e) i) = v.bytesOf i := by
  rw [inv.put_onDisk inside (layout.not_data root here)]
  exact layout.content_same here (inv.put_same inside) fun x has => layout.data_apart here root other has

theorem Inv.inodeOf_some (inv : Inv dev v extra) :
    v.inodeOf name = some i ↔ ∃ k < rootEntries, entryFor (v.entry k) name = true ∧ entrySector (v.entry k) = i :=
  lookupName_some inv.slots

theorem Inv.inodeOf_none : v.inodeOf name = none ↔ ∀ k < rootEntries, entryFor (v.entry k) name = false := lookupName_none

/-! A new file. -/

section
variable (inv : Inv dev v extra) (layout : Layout dev v.disk v.freeMap (i :: v.objects)) (valid : ValidName name)
  (new : v.inodeOf name = none) (inside : k < rootEntries) (free : entryInUse (v.entry k) = false)
include inv valid new

theorem Inv.fill_slots : Slots (v.put k (fillEntry (v.entry k) name i)) (onDisk v.disk 1) rootEntries :=
  inv.slots.fill valid new

include inside free layout

omit new in
theorem Inv.fill_objects :
    (i :: v.objects).Perm ({ v with disk := v.put k (fillEntry (v.entry k) name i) } : Volume).objects := by
  have small := (layout.marked i List.mem_cons_self i (.inl rfl)).1
  have device := dev.small
  have clean : Clean (fillEntry (v.entry k) name i) := fillEntry_clean valid entryAt_clean
  have perm := named_fill inside clean free fillEntry_inUse
  rw [fillEntry_sector (by omega)] at perm
  change (i :: v.objects).Perm (0 :: 1 :: (named (v.put k (fillEntry (v.entry k) name i))
    (onDisk (v.put k (fillEntry (v.entry k) name i)) 1) rootEntries ++ removedInodes v.openInodes))
  rw [inv.put_root inside]
  have tail : (i :: (v.namedInodes ++ removedInodes v.openInodes)).Perm
      (named (v.put k (fillEntry (v.entry k) name i)) (onDisk v.disk 1) rootEntries ++ removedInodes v.openInodes) :=
    (perm.symm).append_right _
  have front : (i :: v.objects).Perm (0 :: 1 :: i :: (v.namedInodes ++ removedInodes v.openInodes)) :=
    (List.Perm.swap _ _ _).trans ((List.Perm.swap _ _ _).cons _)
  exact front.trans ((tail.cons _).cons _)

theorem Inv.fill : Inv dev { v with disk := v.put k (fillEntry (v.entry k) name i) } extra := by
  have objects := inv.fill_objects layout valid inside free
  have layout' := layout.perm objects
  refine inv.putEntry inside (inv.fill_slots valid new) ?_ layout' ?_
  · refine (inv.table.frame fun inode member => ?_ : Table { v with disk := _, freeMap := v.freeMap } extra)
    exact inv.put_onDisk inside (inv.layout.not_data root_member (inv.alive inode member))
  · intro inode member
    exact objects.mem_iff.mp (List.mem_cons_of_mem _ (inv.alive inode member))

theorem Inv.fill_names :
    ({ v with disk := v.put k (fillEntry (v.entry k) name i) } : Volume).inodeOf = Function.update v.inodeOf name (some i) := by
  have small := (layout.marked i List.mem_cons_self i (.inl rfl)).1
  have device := dev.small
  change lookupName (v.put k (fillEntry (v.entry k) name i)) (onDisk (v.put k (fillEntry (v.entry k) name i)) 1) rootEntries = _
  rw [inv.put_root inside]
  exact lookupName_fill inv.slots valid new inside free (by omega)

end

/-! A file that is removed while it is open. -/

section
variable (inv : Inv dev v extra) (inside : k < rootEntries) (hit : entryFor (v.entry k) name = true)
include inv

omit inv in
theorem erased_clean : Clean (eraseEntry (v.entry k)) := eraseEntry_clean entryAt_clean

include inside hit

theorem Inv.erase_names : lookupName (v.put k (eraseEntry (v.entry k))) (onDisk (v.put k (eraseEntry (v.entry k))) 1)
    rootEntries = Function.update v.inodeOf name none := by
  rw [inv.put_root inside]
  exact lookupName_erase inv.slots inside hit

/-- The volume after the entry is erased and its inode marked. -/
def Volume.unlinked (v : Volume) (k : Nat) : Volume :=
  { v with
    disk := v.put k (eraseEntry (v.entry k))
    openInodes := update Inode.sector (entrySector (v.entry k)) (fun inode => { inode with removed := true }) v.openInodes }

theorem Inv.unlinked_objects (open_ : entrySector (v.entry k) ∈ v.openInodes.map Inode.sector) :
    v.objects.Perm (v.unlinked k).objects := by
  obtain ⟨inode,member,same⟩ := List.mem_map.mp open_
  have here : entrySector (v.entry k) ∈ v.namedInodes := mem_named.mpr ⟨k,inside,(entryFor_inUse hit).1,rfl⟩
  have linked : inode.removed = false := by
    by_contra removed
    have removed : inode.removed = true := by simpa using removed
    have nodup := (List.nodup_cons.mp (List.nodup_cons.mp inv.layout.nodup).2).2
    exact List.disjoint_of_nodup_append nodup here (mem_removed.mpr ⟨inode,member,removed,same⟩)
  have mark := removed_mark inv.table.nodup member linked
  have free : entryInUse (eraseEntry (v.entry k)) = false := eraseEntry_inUse
  have erased := named_erase inside erased_clean (entryFor_inUse hit).1 free
  rw [same] at mark
  change v.objects.Perm (0 :: 1 :: (named (v.put k (eraseEntry (v.entry k))) (onDisk (v.put k (eraseEntry (v.entry k))) 1)
    rootEntries ++ removedInodes (v.unlinked k).openInodes))
  rw [inv.put_root inside]
  have moved : (v.namedInodes ++ removedInodes v.openInodes).Perm
      (named (v.put k (eraseEntry (v.entry k))) (onDisk v.disk 1) rootEntries ++
        entrySector (v.entry k) :: removedInodes v.openInodes) :=
    (erased.append_right _).trans List.perm_middle.symm
  exact ((moved.trans (mark.symm.append_left _)).cons _).cons _

theorem Inv.unlinked (open_ : entrySector (v.entry k) ∈ v.openInodes.map Inode.sector) :
    Inv dev (v.unlinked k) extra := by
  have objects := inv.unlinked_objects inside hit open_
  refine inv.putEntry inside inv.slots.erase ?_ (inv.layout.perm objects) ?_
  · have table : Table (v.updateInode (entrySector (v.entry k)) fun inode => { inode with removed := true }) extra :=
      inv.table.marked open_
    refine (table.frame fun inode member => ?_ : Table { v.updateInode _ _ with disk := _, freeMap := v.freeMap } extra)
    obtain ⟨old,here,same⟩ := List.mem_map.mp (mem_update_key member fun _ => rfl)
    rw [← same]
    exact inv.put_onDisk inside (inv.layout.not_data root_member (inv.alive old here))
  · intro inode member
    obtain ⟨old,here,same⟩ := List.mem_map.mp (mem_update_key member fun _ => rfl)
    rw [← same]
    exact objects.mem_iff.mp (inv.alive old here)

end

end

end OsProj.FileSys
