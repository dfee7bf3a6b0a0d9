import OsProj.FileSysDirectory
import OsProj.FileSysTable

/-! What holds of a formatted volume. The objects are the free map, the root directory, the
files that have a name and the removed files that are still open. -/
namespace OsProj.FileSys

open OsProj.Bitmap OsProj.ByteMemory OsProj.Faulting OsProj.Keyed

def rootEntries : Nat := 16

def removedInodes (l : List Inode) : List Nat := (l.filter Inode.removed).map Inode.sector

def Volume.namedInodes (v : Volume) : List Nat := named v.disk (onDisk v.disk 1) rootEntries

def Volume.inodeOf (v : Volume) (name : CString) : Option Nat := lookupName v.disk (onDisk v.disk 1) rootEntries name

def Volume.bytesOf (v : Volume) (i : Nat) : List UInt8 := content v.disk (onDisk v.disk i)

def Volume.objects (v : Volume) : List Nat := 0 :: 1 :: (v.namedInodes ++ removedInodes v.openInodes)

structure Inv (dev : Device) (v : Volume) (extra : Nat → Nat) : Prop where
  layout : Layout dev v.disk v.freeMap v.objects
  saved : MapSaved dev v.disk v.freeMap
  table : Table v extra
  mapFile : v.freeMapFile = some 0
  mapLength : (onDisk v.disk 0).length = byteCnt dev.size
  mapHeld : 0 < extra 0
  rootLength : (onDisk v.disk 1).length = entrySize * rootEntries
  slots : Slots v.disk (onDisk v.disk 1) rootEntries
  alive : ∀ inode ∈ v.openInodes, inode.sector ∈ v.objects
  user : ∀ file ∈ v.files, file.inode ≠ 0 ∧ file.inode ≠ 1

/-- What callers see is kept, but for the bytes of one object. -/
structure Kept (i : Nat) (v v' : Volume) : Prop where
  files : v'.files = v.files
  nextFile : v'.nextFile = v.nextFile
  objects : ∀ j ∈ v'.objects, j ∈ v.objects
  names : ∀ name, v'.inodeOf name = v.inodeOf name
  bytes : ∀ j ∈ v'.objects, j ≠ i → v'.bytesOf j = v.bytesOf j

section
variable {dev : Device} {v v' v'' : Volume} {extra : Nat → Nat} {disk : Memory} {bits : Nat → Bool}

theorem Kept.refl : Kept i v v := ⟨rfl,rfl,fun _ here => here,fun _ => rfl,fun _ _ _ => rfl⟩

theorem Kept.trans (first : Kept i v v') (second : Kept i v' v'') : Kept i v v'' where
  files := second.files.trans first.files
  nextFile := second.nextFile.trans first.nextFile
  objects j here := first.objects j (second.objects j here)
  names name := (second.names name).trans (first.names name)
  bytes j here other := (second.bytes j here other).trans (first.bytes j (second.objects j here) other)

theorem map_member : 0 ∈ v.objects := List.mem_cons_self

theorem root_member : 1 ∈ v.objects := List.mem_cons_of_mem _ List.mem_cons_self

theorem named_member (here : i ∈ v.namedInodes) : i ∈ v.objects :=
  List.mem_cons_of_mem _ (List.mem_cons_of_mem _ (List.mem_append_left _ here))

/-- A file that is looked up is one of the objects. -/
theorem Inv.inodeOf_named (inv : Inv dev v extra) (found : v.inodeOf name = some i) : i ∈ v.namedInodes := by
  obtain ⟨k,inside,hit,same⟩ := (lookupName_some inv.slots).mp found
  exact mem_named.mpr ⟨k,inside,(entryFor_inUse hit).1,same⟩

theorem Inv.named_other (inv : Inv dev v extra) (here : i ∈ v.namedInodes) : i ≠ 0 ∧ i ≠ 1 := by
  have nodup := inv.layout.nodup
  have zero := (List.nodup_cons.mp nodup).1
  have one := (List.nodup_cons.mp (List.nodup_cons.mp nodup).2).1
  constructor
  · rintro rfl
    exact zero (List.mem_cons_of_mem _ (List.mem_append_left _ here))
  · rintro rfl
    exact one (List.mem_append_left _ here)

theorem Inv.fits (inv : Inv dev v extra) (here : i ∈ v.objects) : (onDisk v.disk i).Fits dev := inv.layout.fits here

/-- An inode that only the kernel refers to is open for writing. -/
theorem Inv.kernel_inode (inv : Inv dev v extra) (held : 0 < extra i) (internal : i = 0 ∨ i = 1) :
    ∃ inode, find Inode.sector i v.openInodes = some inode ∧ inode.denyWriteCnt = 0 ∧ inode.data = onDisk v.disk i := by
  obtain ⟨inode,member,rfl⟩ := List.mem_map.mp (inv.table.here i (by omega))
  have none : refs v.files inode.sector = 0 := by
    rw [refs,List.countP_eq_zero]
    intro file here
    have other := inv.user file here
    rcases internal with same | same
    · simpa [same] using other.1
    · simpa [same] using other.2
  have denied := denies_le v.files inode.sector
  refine ⟨inode,inv.table.find_ok member,?_,inv.table.data inode member⟩
  rw [inv.table.deny inode member]
  omega

theorem Inv.mapOpen (inv : Inv dev v extra) : MapOpen dev v :=
  ⟨inv.mapFile,inv.kernel_inode inv.mapHeld (.inl rfl),inv.mapLength⟩

/-! Changes to the disk. -/

theorem Layout.byte_same {objects : List Nat} (layout : Layout dev v.disk freeMap objects) (member : i ∈ objects)
    (same : SameOutside X v.disk disk) (apart : ∀ x, (onDisk v.disk i).Has x → ¬ X x)
    (inside : pos < (onDisk v.disk i).length) :
    disk ((onDisk v.disk i).place pos) = v.disk ((onDisk v.disk i).place pos) := by
  apply same
  rw [place_sector]
  exact apart _ (layout.has member inside)

/-- The entries of a root directory whose data are left alone. -/
theorem Inv.entry_same (inv : Inv dev v extra) (same : SameOutside X v.disk disk)
    (root : ∀ x, (onDisk v.disk 1).Has x → ¬ X x) (inside : k < rootEntries) :
    entryAt disk (onDisk v.disk 1) k = entryAt v.disk (onDisk v.disk 1) k := by
  funext i
  by_cases low : i < entrySize
  · rw [entryAt_byte low,entryAt_byte low]
    apply inv.layout.byte_same root_member same root
    rw [inv.rootLength]
    simp only [entrySize,rootEntries] at *
    omega
  · rw [entryAt_clean i (by omega),entryAt_clean i (by omega)]

theorem lookupName_congr {data : InodeDisk} (slots : Slots disk' data cnt)
    (same : ∀ k < cnt, entryAt disk data k = entryAt disk' data k) :
    lookupName disk data cnt name = lookupName disk' data cnt name := by
  apply Option.ext
  intro i
  rw [lookupName_some (slots.frame same),lookupName_some slots]
  constructor
  · rintro ⟨k,inside,found⟩
    rw [same k inside] at found
    exact ⟨k,inside,found⟩
  · rintro ⟨k,inside,found⟩
    rw [← same k inside] at found
    exact ⟨k,inside,found⟩

theorem named_congr {data : InodeDisk} (same : ∀ k < cnt, entryAt disk data k = entryAt disk' data k) :
    named disk data cnt = named disk' data cnt := by
  unfold named
  rw [List.filter_congr fun k member => by rw [same k (List.mem_range.mp member)]]
  apply List.map_congr_left
  intro k member
  rw [same k (List.mem_range.mp (List.mem_filter.mp member).1)]

section
variable (inv : Inv dev v extra) (same : SameOutside X v.disk disk) (inodes : ∀ i ∈ v.objects, ¬ X i)
  (root : ∀ x, (onDisk v.disk 1).Has x → ¬ X x)
include inv same inodes root

theorem Inv.objects_same : ({ v with disk := disk, freeMap := bits } : Volume).objects = v.objects := by
  have names : named disk (onDisk disk 1) rootEntries = v.namedInodes := by
    rw [onDisk_same same (inodes 1 root_member)]
    exact named_congr fun k inside => inv.entry_same same root inside
  change 0 :: 1 :: (named disk (onDisk disk 1) rootEntries ++ _) = _
  rw [names]
  rfl

/-- Sectors may change that hold neither an inode nor the directory. -/
theorem Inv.frame (layout : Layout dev disk bits v.objects) (saved : MapSaved dev disk bits) :
    Inv dev { v with disk := disk, freeMap := bits } extra := by
  have objects : ({ v with disk := disk, freeMap := bits } : Volume).objects = v.objects :=
    inv.objects_same same inodes root
  have rootInode := onDisk_same same (inodes 1 root_member)
  refine ⟨?_,saved,?_,inv.mapFile,?_,inv.mapHeld,?_,?_,?_,inv.user⟩
  · rw [objects]
    exact layout
  · exact inv.table.frame fun inode member => onDisk_same same (inodes _ (inv.alive inode member))
  · rw [onDisk_same same (inodes 0 map_member)]
    exact inv.mapLength
  · rw [rootInode]
    exact inv.rootLength
  · rw [rootInode]
    exact inv.slots.frame fun k inside => inv.entry_same same root inside
  · intro inode member
    rw [objects]
    exact inv.alive inode member

theorem Inv.kept (others : ∀ j ∈ v.objects, j ≠ i → ∀ x, (onDisk v.disk j).Has x → ¬ X x) :
    Kept i v { v with disk := disk, freeMap := bits } := by
  have objects : ({ v with disk := disk, freeMap := bits } : Volume).objects = v.objects :=
    inv.objects_same same inodes root
  refine ⟨rfl,rfl,fun j here => objects ▸ here,?_,?_⟩
  · intro name
    change lookupName disk (onDisk disk 1) rootEntries name = _
    rw [onDisk_same same (inodes 1 root_member)]
    exact lookupName_congr inv.slots fun k inside => inv.entry_same same root inside
  · intro j here other
    rw [objects] at here
    change content disk (onDisk disk j) = _
    rw [onDisk_same same (inodes j here)]
    exact inv.layout.content_same here same (others j here other)

end

end

end OsProj.FileSys
