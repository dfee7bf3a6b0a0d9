import OsProj.FileSysLayout

/-! Allocation in the free map, which is saved to its file after every change. -/
namespace OsProj.FileSys

open OsProj.Bitmap OsProj.ByteMemory OsProj.Faulting OsProj.Keyed

/-- The volume with another free map, in memory and in its file. -/
def Volume.sync (dev : Device) (v : Volume) (bits : Nat → Bool) : Volume :=
  { v with
    freeMap := bits
    disk := paste v.disk ((onDisk v.disk 0).place 0) (bitmapByte bits) 0 (byteCnt dev.size) }

structure MapOpen (dev : Device) (v : Volume) : Prop where
  file : v.freeMapFile = some 0
  inode : ∃ inode, find Inode.sector 0 v.openInodes = some inode ∧ inode.denyWriteCnt = 0 ∧
    inode.data = onDisk v.disk 0
  length : (onDisk v.disk 0).length = byteCnt dev.size

def MapSaved (dev : Device) (disk : Memory) (freeMap : Nat → Bool) : Prop :=
  ∀ i < byteCnt dev.size, disk ((onDisk disk 0).place i) = bitmapByte freeMap i

section
variable {dev : Device} {v : Volume} {objects : List Nat}

theorem findInode_ok (found : find Inode.sector sector v.openInodes = some inode) :
    findInode sector v = .ok (inode,v) := by
  simp only [findInode,found]

theorem inodeReadAt_ok (found : find Inode.sector sector v.openInodes = some inode) (fits : inode.data.Fits dev) :
    inodeReadAt dev sector buffer size offset v =
      .ok ((min size.toNat (inode.data.length - offset),
        paste buffer 0 v.disk (inode.data.place offset) (min size.toNat (inode.data.length - offset))),v) := by
  rw [inodeReadAt,bind_go (findInode_ok found),inodeReadLoop_ok fits (Nat.le_refl _),Nat.zero_add]

theorem inodeWriteAt_ok (buffer : Memory) (size : Int) (offset : Nat) (found : find Inode.sector sector v.openInodes = some inode)
    (allowed : inode.denyWriteCnt = 0) (fits : inode.data.Fits dev) :
    inodeWriteAt dev sector buffer size offset v =
      .ok (min size.toNat (inode.data.length - offset),{ v with
        disk := paste v.disk (inode.data.place offset) buffer 0 (min size.toNat (inode.data.length - offset)) }) := by
  rw [inodeWriteAt,bind_go (findInode_ok found),if_neg (not_not_intro allowed),inodeWriteLoop_ok fits (Nat.le_refl _),
    Nat.zero_add]

theorem inodeWriteAt_denied (found : find Inode.sector sector v.openInodes = some inode)
    (denied : inode.denyWriteCnt ≠ 0) : inodeWriteAt dev sector buffer size offset v = .ok (0,v) := by
  rw [inodeWriteAt,bind_go (findInode_ok found),if_pos denied]
  rfl

theorem bitmapWrite_ok (mapOpen : MapOpen dev v) (fits : (onDisk v.disk 0).Fits dev) :
    bitmapWrite dev 0 v = .ok (true,v.sync dev v.freeMap) := by
  obtain ⟨inode,found,allowed,data⟩ := mapOpen.inode
  have written : inodeWriteAt dev 0 (bitmapByte v.freeMap) (byteCnt dev.size) 0 v =
      .ok (byteCnt dev.size,v.sync dev v.freeMap) := by
    rw [inodeWriteAt_ok _ _ _ found allowed (by rw [data]; exact fits),data,mapOpen.length,Nat.sub_zero,
      Int.toNat_natCast,Nat.min_self]
    rfl
  refine (bind_go rfl).trans ((bind_go written).trans ?_)
  rw [beq_self_eq_true]
  rfl

theorem freeMapWrite_ok (mapOpen : MapOpen dev v) (fits : (onDisk v.disk 0).Fits dev) :
    freeMapWrite dev absent v = .ok (true,v.sync dev v.freeMap) := by
  simp only [freeMapWrite,mapOpen.file]
  exact bitmapWrite_ok mapOpen fits

theorem freeMapAllocate_none (full : scan v.freeMap dev.size 0 cnt false = none) :
    freeMapAllocate dev cnt v = .ok (none,v) := by
  refine (bind_go rfl).trans ?_
  rw [full]
  rfl

theorem freeMapAllocate_some (mapOpen : MapOpen dev v) (fits : (onDisk v.disk 0).Fits dev)
    (free : scan v.freeMap dev.size 0 cnt false = some sector) :
    freeMapAllocate dev cnt v = .ok (some sector,v.sync dev (setMultiple v.freeMap sector cnt true)) := by
  have marked : MapOpen dev { v with freeMap := setMultiple v.freeMap sector cnt true } := ⟨mapOpen.1,mapOpen.2,mapOpen.3⟩
  refine (bind_go rfl).trans ?_
  rw [free]
  exact (bind_go rfl).trans (bind_go (freeMapWrite_ok marked fits))

theorem freeMapRelease_ok (mapOpen : MapOpen dev v) (fits : (onDisk v.disk 0).Fits dev)
    (on : sector + cnt ≤ dev.size) (marked : ∀ x, sector ≤ x → x < sector + cnt → v.freeMap x = true) :
    freeMapRelease dev sector cnt v = .ok ((),v.sync dev (setMultiple v.freeMap sector cnt false)) := by
  have released : MapOpen dev { v with freeMap := setMultiple v.freeMap sector cnt false } := ⟨mapOpen.1,mapOpen.2,mapOpen.3⟩
  have asserted : assert (decide (sector + cnt ≤ dev.size) && all v.freeMap sector cnt) v = .ok ((),v) := by
    refine if_pos ?_
    rw [Bool.and_eq_true,decide_eq_true_eq,all_iff]
    exact ⟨on,marked⟩
  refine (bind_go rfl).trans ((bind_go asserted).trans ((bind_go rfl).trans ?_))
  exact bind_go (freeMapWrite_ok released fits)

/-! What saving the free map leaves alone. -/

variable {disk : Memory} {bits bits' : Nat → Bool}

theorem Layout.sync_same (layout : Layout dev v.disk freeMap objects) (member : 0 ∈ objects)
    (length : (onDisk v.disk 0).length = byteCnt dev.size) :
    SameOutside (onDisk v.disk 0).Has v.disk (v.sync dev bits).disk :=
  layout.paste_same member (by rw [length,Nat.zero_add])

/-- No inode of an object is in a sector of the free map. -/
theorem Layout.not_map (layout : Layout dev disk freeMap objects) (member : 0 ∈ objects) (other : i ∈ objects) :
    ¬ (onDisk disk 0).Has i := by
  intro has
  by_cases zero : i = 0
  · subst zero
    exact layout.self 0 member has
  · exact layout.apart 0 member i other (Ne.symm zero) i (.inr has) (.inl rfl)

theorem Layout.sync_onDisk (layout : Layout dev v.disk freeMap objects) (member : 0 ∈ objects)
    (length : (onDisk v.disk 0).length = byteCnt dev.size) (other : i ∈ objects) :
    onDisk (v.sync dev bits).disk i = onDisk v.disk i :=
  onDisk_same (layout.sync_same member length) (layout.not_map member other)

theorem Layout.sync (layout : Layout dev v.disk freeMap objects) (member : 0 ∈ objects)
    (length : (onDisk v.disk 0).length = byteCnt dev.size)
    (kept : ∀ i ∈ objects, ∀ x, Owns v.disk i x → bits x = true) :
    Layout dev (v.sync dev bits).disk bits objects :=
  (layout.mono (List.Sublist.refl _) kept).frame (layout.sync_same member length) fun _ => layout.not_map member

theorem MapOpen.sync (mapOpen : MapOpen dev v) (layout : Layout dev v.disk freeMap objects) (member : 0 ∈ objects) :
    MapOpen dev (v.sync dev bits) := by
  have same : onDisk (v.sync dev bits).disk 0 = onDisk v.disk 0 := layout.sync_onDisk member mapOpen.length member
  obtain ⟨inode,found,allowed,data⟩ := mapOpen.inode
  have data' : inode.data = onDisk (v.sync dev bits).disk 0 := data.trans same.symm
  exact ⟨mapOpen.file,⟨inode,found,allowed,data'⟩,by rw [same]; exact mapOpen.length⟩

theorem mapSaved_sync (layout : Layout dev v.disk freeMap objects) (member : 0 ∈ objects)
    (length : (onDisk v.disk 0).length = byteCnt dev.size) :
    MapSaved dev (v.sync dev bits).disk (v.sync dev bits).freeMap := by
  intro i inside
  rw [layout.sync_onDisk member length member]
  have written : (onDisk v.disk 0).place 0 ≤ (onDisk v.disk 0).place i ∧
      (onDisk v.disk 0).place i < (onDisk v.disk 0).place 0 + byteCnt dev.size := by
    simp only [InodeDisk.place]
    omega
  refine (if_pos written).trans ?_
  simp [InodeDisk.place,Volume.sync]

theorem sync_disk : (v.sync dev bits).disk =
    paste v.disk ((onDisk v.disk 0).place 0) (bitmapByte bits) 0 (byteCnt dev.size) := rfl

/-- Only the last of several changes of the free map is seen. -/
theorem sync_sync (layout : Layout dev v.disk freeMap objects) (member : 0 ∈ objects)
    (length : (onDisk v.disk 0).length = byteCnt dev.size) :
    (v.sync dev bits).sync dev bits' = v.sync dev bits' := by
  have same : onDisk (v.sync dev bits).disk 0 = onDisk v.disk 0 := layout.sync_onDisk member length member
  have disk : ((v.sync dev bits).sync dev bits').disk = (v.sync dev bits').disk := by
    rw [sync_disk,same,sync_disk,sync_disk,paste_over]
  simp only [Volume.sync] at disk ⊢
  rw [disk]

theorem sync_saved (saved : MapSaved dev v.disk v.freeMap) : v.sync dev v.freeMap = v := by
  have disk : (v.sync dev v.freeMap).disk = v.disk := by
    rw [sync_disk]
    apply paste_same
    intro i inside
    rw [Nat.zero_add]
    exact saved i inside
  simp only [Volume.sync] at disk ⊢
  rw [disk]

end

end OsProj.FileSys
