import OsProj.FileSysBlocks

/-! Who owns which sector. An object is given by the sector of its inode and owns that sector
and those of its data. -/
namespace OsProj.FileSys

open OsProj.Bitmap OsProj.ByteMemory OsProj.Faulting

def onDisk (disk : Memory) (i : Nat) : InodeDisk :=
  ⟨load disk (blockSectorSize * i) 4,load disk (blockSectorSize * i + 4) 4⟩

def InodeDisk.sectors (data : InodeDisk) : Nat := bytesToSectors data.length

def InodeDisk.Has (data : InodeDisk) (x : Nat) : Prop := data.start ≤ x ∧ x < data.start + data.sectors

def Owns (disk : Memory) (i x : Nat) : Prop := x = i ∨ (onDisk disk i).Has x

def content (disk : Memory) (data : InodeDisk) : List UInt8 :=
  (List.range data.length).map fun pos => disk (data.place pos)

/-- Objects whose sectors are apart, on the device and allocated. -/
structure Layout (dev : Device) (disk : Memory) (freeMap : Nat → Bool) (objects : List Nat) : Prop where
  nodup : objects.Nodup
  self : ∀ i ∈ objects, ¬ (onDisk disk i).Has i
  apart : ∀ i ∈ objects, ∀ j ∈ objects, i ≠ j → ∀ x, Owns disk i x → ¬ Owns disk j x
  marked : ∀ i ∈ objects, ∀ x, Owns disk i x → x < dev.size ∧ freeMap x = true
  lengths : ∀ i ∈ objects, (onDisk disk i).length < 2147483648
  ends : ∀ i ∈ objects, (onDisk disk i).start + (onDisk disk i).sectors ≤ dev.size

def SameOutside (X : Nat → Prop) (disk disk' : Memory) : Prop := ∀ a, ¬ X (a / blockSectorSize) → disk' a = disk a

theorem bytesToSectors_small (size : Nat) (small : size + 511 < 2147483648) :
    bytesToSectors size = (size + 511) / 512 := by
  have value : (size + 511 : Int).bmod 4294967296 = size + 511 := by
    rw [Int.bmod_eq_of_le] <;> omega
  have quotient : (size + 511 : Int).tdiv blockSectorSize = ((size + 511) / 512 : Nat) := by
    rw [Int.tdiv_eq_ediv_of_nonneg (by omega)]
    simp [blockSectorSize]
  unfold bytesToSectors
  rw [value,quotient]
  omega

theorem neg_tdiv_sector (n : Nat) : (-(n : Int)).tdiv blockSectorSize = -((n / 512 : Nat) : Int) := by
  rw [Int.neg_tdiv]
  rfl

/-- A size that overflows in the rounding asks for more sectors than there are. -/
theorem bytesToSectors_large (size : Nat) (large : 2147483648 ≤ size + 511) (fits : size < 2147483648) :
    2097152 ≤ bytesToSectors size := by
  have value : (size + 511 : Int).bmod 4294967296 = -((4294967296 - (size + 511) : Nat) : Int) := by
    rw [Int.bmod_def]
    omega
  unfold bytesToSectors
  rw [value,neg_tdiv_sector]
  omega

section
variable {dev : Device} {disk disk' : Memory} {freeMap : Nat → Bool} {objects : List Nat}

/-- An inode that is read from its sector. -/
theorem readInodeDisk_onDisk :
    readInodeDisk (paste buffer 0 disk (blockSectorSize * i) blockSectorSize) = onDisk disk i := by
  have field b (inside : b + 4 ≤ blockSectorSize) :
      load (paste buffer 0 disk (blockSectorSize * i) blockSectorSize) b 4 = load disk (blockSectorSize * i + b) 4 := by
    apply load_shift
    intro c low
    refine (if_pos (by omega)).trans ?_
    rw [Nat.sub_zero,Nat.add_assoc]
  rw [readInodeDisk,field 0 (by decide),field 4 (by decide)]
  rfl

/-! Changes to some sectors. -/

theorem sector_of (low : blockSectorSize * x ≤ a) (high : a < blockSectorSize * x + blockSectorSize) :
    a / blockSectorSize = x := by
  simp only [blockSectorSize] at *
  omega

theorem onDisk_same (same : SameOutside X disk disk') (other : ¬ X i) : onDisk disk' i = onDisk disk i := by
  have agree : Agree disk' disk (blockSectorSize * i) 8 := by
    intro a low high
    apply same
    rw [sector_of low (by simp only [blockSectorSize] at *; omega)]
    exact other
  have length : Agree disk' disk (blockSectorSize * i + 4) 4 := agree.mono (by omega)
  rw [onDisk,onDisk,load_congr (agree.mono (by omega)),load_congr length]

theorem owns_same (same : SameOutside X disk disk') (other : ¬ X i) : Owns disk' i x ↔ Owns disk i x := by
  rw [Owns,Owns,onDisk_same same other]

/-- Sectors that hold no inode of an object may change. -/
theorem Layout.frame (layout : Layout dev disk freeMap objects) (same : SameOutside X disk disk')
    (other : ∀ i ∈ objects, ¬ X i) : Layout dev disk' freeMap objects where
  nodup := layout.nodup
  self i member := by
    rw [onDisk_same same (other i member)]
    exact layout.self i member
  apart i member j member' different x := by
    rw [owns_same same (other i member),owns_same same (other j member')]
    exact layout.apart i member j member' different x
  marked i member x := by
    rw [owns_same same (other i member)]
    exact layout.marked i member x
  lengths i member := by
    rw [onDisk_same same (other i member)]
    exact layout.lengths i member
  ends i member := by
    rw [onDisk_same same (other i member)]
    exact layout.ends i member

theorem Layout.mono (layout : Layout dev disk freeMap objects) (fewer : objects'.Sublist objects)
    (kept : ∀ i ∈ objects', ∀ x, Owns disk i x → freeMap' x = true) : Layout dev disk freeMap' objects' where
  nodup := layout.nodup.sublist fewer
  self i member := layout.self i (fewer.subset member)
  apart i member j member' := layout.apart i (fewer.subset member) j (fewer.subset member')
  marked i member x owns := ⟨(layout.marked i (fewer.subset member) x owns).1,kept i member x owns⟩
  lengths i member := layout.lengths i (fewer.subset member)
  ends i member := layout.ends i (fewer.subset member)

theorem Layout.perm (layout : Layout dev disk freeMap objects) (same : objects.Perm objects') :
    Layout dev disk freeMap objects' where
  nodup := same.nodup_iff.mp layout.nodup
  self i member := layout.self i (same.mem_iff.mpr member)
  apart i member j member' := layout.apart i (same.mem_iff.mpr member) j (same.mem_iff.mpr member')
  marked i member := layout.marked i (same.mem_iff.mpr member)
  lengths i member := layout.lengths i (same.mem_iff.mpr member)
  ends i member := layout.ends i (same.mem_iff.mpr member)

/-! The data of one object. -/

/-- The rounding of a length on the device does not overflow. -/
theorem Layout.sectors (layout : Layout dev disk freeMap objects) (member : i ∈ objects) :
    (onDisk disk i).sectors = ((onDisk disk i).length + 511) / 512 := by
  have short := layout.lengths i member
  by_cases small : (onDisk disk i).length + 511 < 2147483648
  · exact bytesToSectors_small _ small
  · have many := bytesToSectors_large _ (by omega) short
    have last := (layout.marked i member ((onDisk disk i).start + (onDisk disk i).sectors - 1)
      (.inr ⟨by unfold InodeDisk.sectors; omega,by unfold InodeDisk.sectors; omega⟩)).1
    have small := dev.small
    unfold InodeDisk.sectors at last
    omega

theorem Layout.has (layout : Layout dev disk freeMap objects) (member : i ∈ objects)
    (inside : pos < (onDisk disk i).length) : (onDisk disk i).Has ((onDisk disk i).start + pos / blockSectorSize) := by
  have sectors := layout.sectors member
  simp only [InodeDisk.Has,blockSectorSize] at *
  omega

theorem Layout.fits (layout : Layout dev disk freeMap objects) (member : i ∈ objects) :
    (onDisk disk i).Fits dev := by
  intro pos inside
  exact (layout.marked i member _ (.inr (layout.has member inside))).1

theorem place_sector (data : InodeDisk) (pos : Nat) :
    data.place pos / blockSectorSize = data.start + pos / blockSectorSize := by
  simp only [InodeDisk.place,blockSectorSize]
  omega

/-- A write inside the data changes sectors of the data only. -/
theorem Layout.paste_same (layout : Layout dev disk freeMap objects) (member : i ∈ objects)
    (inside : offset + n ≤ (onDisk disk i).length) :
    SameOutside (onDisk disk i).Has disk (paste disk ((onDisk disk i).place offset) buffer b n) := by
  intro a outside
  refine if_neg fun changed => outside ?_
  have back : (onDisk disk i).place (offset + (a - (onDisk disk i).place offset)) = a := by
    simp only [InodeDisk.place] at *
    omega
  rw [← back,place_sector]
  exact layout.has member (by omega)

/-- What a file holds is changed through its own sectors only. -/
theorem Layout.content_same (layout : Layout dev disk freeMap objects) (member : i ∈ objects)
    (same : SameOutside X disk disk') (apart : ∀ x, (onDisk disk i).Has x → ¬ X x) :
    content disk' (onDisk disk i) = content disk (onDisk disk i) := by
  apply List.map_congr_left
  intro pos inside
  apply same
  rw [place_sector]
  exact apart _ (layout.has member (List.mem_range.mp inside))

end

end OsProj.FileSys
