import OsProj.FileSysFreeMap

/-! A new object: its inode, and its data full of zeros. -/
namespace OsProj.FileSys

open OsProj.Bitmap OsProj.ByteMemory OsProj.Faulting

section
variable {dev : Device} {v : Volume} {objects : List Nat} {freeMap : Nat → Bool} {data : InodeDisk}

theorem writeZeros_ok (on : start + n ≤ dev.size) : writeZeros dev start n v =
    .ok ((),{ v with disk := fill v.disk (blockSectorSize * start) (blockSectorSize * n) 0 }) := by
  induction n with
  | zero =>
    refine congrArg Except.ok (Prod.ext rfl (Volume.ext ?_ rfl rfl rfl rfl rfl))
    funext a
    exact (if_neg (by omega)).symm
  | succ n ih =>
    refine (bind_go (ih (by omega))).trans ((blockWrite_ok (by omega)).trans ?_)
    refine congrArg Except.ok (Prod.ext rfl (Volume.ext ?_ rfl rfl rfl rfl rfl))
    change fill (fill v.disk _ _ 0) (blockSectorSize * (start + n)) blockSectorSize 0 = _
    rw [Nat.mul_add,fill_fill,Nat.mul_succ]

def newObject (disk : Memory) (i : Nat) (data : InodeDisk) : Memory :=
  fill (paste disk (blockSectorSize * i) data.bytes 0 blockSectorSize) (blockSectorSize * data.start)
    (blockSectorSize * data.sectors) 0

def Volume.create (dev : Device) (v : Volume) (i : Nat) (data : InodeDisk) : Volume :=
  let allocated := v.sync dev (setMultiple v.freeMap data.start data.sectors true)
  { allocated with disk := newObject allocated.disk i data }

theorem inodeCreate_none (full : scan v.freeMap dev.size 0 (bytesToSectors length) false = none) :
    inodeCreate dev i length v = .ok (false,v) := by
  refine (bind_go (freeMapAllocate_none full)).trans ?_
  rfl

theorem inodeCreate_some (mapOpen : MapOpen dev v) (fits : (onDisk v.disk 0).Fits dev) (on : i < dev.size)
    (free : scan v.freeMap dev.size 0 (bytesToSectors length) false = some start) :
    inodeCreate dev i length v = .ok (true,v.create dev i ⟨start,length⟩) := by
  have room := (scan_some free).2.1
  refine (bind_go (freeMapAllocate_some mapOpen fits free)).trans ?_
  exact (bind_go (blockWrite_ok on)).trans (bind_go (writeZeros_ok room))

/-- A sector that no object owns, allocated already for a new one. -/
structure Fresh (dev : Device) (disk : Memory) (freeMap : Nat → Bool) (objects : List Nat) (i : Nat) : Prop where
  on : i < dev.size
  marked : freeMap i = true
  unowned : ∀ j ∈ objects, ¬ Owns disk j i

theorem newObject_same (disk : Memory) (i : Nat) (data : InodeDisk) :
    SameOutside (fun x => x = i ∨ data.Has x) disk (newObject disk i data) := by
  intro a outside
  have data_ : ¬ (blockSectorSize * data.start ≤ a ∧ a < blockSectorSize * data.start + blockSectorSize * data.sectors) := by
    intro inside
    apply outside
    right
    simp only [InodeDisk.Has,blockSectorSize] at *
    omega
  have inode : ¬ (blockSectorSize * i ≤ a ∧ a < blockSectorSize * i + blockSectorSize) := by
    intro inside
    exact outside (.inl (sector_of inside.1 inside.2))
  exact (if_neg data_).trans (if_neg inode)

theorem inodeDisk_bytes (small : data.start < 4294967296 ∧ data.length < 4294967296) :
    load data.bytes 0 4 = data.start ∧ load data.bytes 4 4 = data.length := by
  have magic b (low : b + 4 ≤ 8) : load data.bytes b 4 =
      load (store (store (fun _ => 0) 0 4 data.start) 4 4 data.length) b 4 :=
    load_store_apart (by unfold Apart; omega) _ _
  constructor
  · rw [magic 0 (by decide),load_store_apart (by decide),load_store_same]
    exact Nat.mod_eq_of_lt small.1
  · rw [magic 4 (by decide),load_store_same]
    exact Nat.mod_eq_of_lt small.2

theorem newObject_onDisk (other : ¬ data.Has i) (small : data.start < 4294967296 ∧ data.length < 4294967296) :
    onDisk (newObject disk i data) i = data := by
  have byte b (low : b < blockSectorSize) : newObject disk i data (blockSectorSize * i + b) = data.bytes b := by
    have away : ¬ (blockSectorSize * data.start ≤ blockSectorSize * i + b ∧
        blockSectorSize * i + b < blockSectorSize * data.start + blockSectorSize * data.sectors) := by
      intro inside
      apply other
      simp only [InodeDisk.Has,blockSectorSize] at *
      omega
    refine (if_neg away).trans ((if_pos (by omega)).trans ?_)
    rw [Nat.zero_add,Nat.add_sub_cancel_left]
  have field b (low : b + 4 ≤ blockSectorSize) :
      load (newObject disk i data) (blockSectorSize * i + b) 4 = load data.bytes b 4 := by
    apply load_shift
    intro c inside
    rw [Nat.add_assoc,byte (b + c) (by omega)]
  have start := field 0 (by decide)
  have length := field 4 (by decide)
  rw [Nat.add_zero,(inodeDisk_bytes small).1] at start
  rw [(inodeDisk_bytes small).2] at length
  rw [onDisk,start,length]

theorem newObject_content (long : data.length ≤ blockSectorSize * data.sectors) :
    content (newObject disk i data) data = List.replicate data.length 0 := by
  rw [content,List.eq_replicate_iff]
  refine ⟨by simp,fun b member => ?_⟩
  obtain ⟨pos,inside,rfl⟩ := List.mem_map.mp member
  have below := List.mem_range.mp inside
  refine if_pos ?_
  simp only [InodeDisk.place]
  omega

/-- The sectors that a scan finds are no object's. -/
theorem Layout.free_unowned {disk : Memory} (layout : Layout dev disk freeMap objects) (member : j ∈ objects)
    (free : ∀ x, data.Has x → freeMap x = false) (owns : Owns disk j x) : ¬ data.Has x := by
  intro has
  have marked := (layout.marked j member x owns).2
  rw [free x has] at marked
  exact absurd marked (by simp)

theorem scan_free (free : scan v.freeMap dev.size 0 data.sectors false = some data.start) (x : Nat) (has : data.Has x) :
    v.freeMap x = false := (scan_some free).2.2 x has.1 has.2

/-- The inodes of the objects there were stay as they are. -/
theorem Layout.create_onDisk (layout : Layout dev v.disk v.freeMap objects) (member : 0 ∈ objects)
    (length : (onDisk v.disk 0).length = byteCnt dev.size) (fresh : Fresh dev v.disk v.freeMap objects i)
    (free : scan v.freeMap dev.size 0 data.sectors false = some data.start) (old : j ∈ objects) :
    onDisk (v.create dev i data).disk j = onDisk v.disk j := by
  have other : ¬ (j = i ∨ data.Has j) := by
    rintro (rfl | has)
    · exact fresh.unowned j old (.inl rfl)
    · exact layout.free_unowned old (scan_free free) (.inl rfl) has
  refine (onDisk_same (newObject_same _ i data) other).trans ?_
  exact layout.sync_onDisk member length old

theorem newest_onDisk (data : InodeDisk) (fresh : Fresh dev v.disk v.freeMap objects i)
    (free : scan v.freeMap dev.size 0 data.sectors false = some data.start) (short : data.length < 2147483648) :
    onDisk (v.create dev i data).disk i = data := by
  have room := (scan_some free).2.1
  have small := dev.small
  have other : ¬ data.Has i := by
    intro has
    have marked := fresh.marked
    rw [scan_free free i has] at marked
    exact absurd marked (by simp)
  exact newObject_onDisk other (by omega)

theorem Layout.create (layout : Layout dev v.disk v.freeMap objects) (member : 0 ∈ objects)
    (length : (onDisk v.disk 0).length = byteCnt dev.size) (fresh : Fresh dev v.disk v.freeMap objects i)
    (free : scan v.freeMap dev.size 0 data.sectors false = some data.start) (short : data.length < 2147483648) :
    Layout dev (v.create dev i data).disk (v.create dev i data).freeMap (i :: objects) := by
  have room := (scan_some free).2.1
  have new := newest_onDisk data fresh free short
  have old j (here : j ∈ objects) := layout.create_onDisk member length fresh free here
  have owns j (here : j ∈ objects) x : Owns (v.create dev i data).disk j x ↔ Owns v.disk j x := by
    rw [Owns,Owns,old j here]
  have ownsNew x : Owns (v.create dev i data).disk i x ↔ x = i ∨ data.Has x := by
    rw [Owns,new]
  have bits x : (v.create dev i data).freeMap x = true ↔ data.Has x ∨ v.freeMap x = true := by
    change setMultiple v.freeMap data.start data.sectors true x = true ↔ _
    by_cases has : data.Has x
    · rw [setMultiple_inside has.1 has.2]
      simp [has]
    · rw [setMultiple_outside has]
      simp [has]
  have apart j (here : j ∈ objects) x (mine : Owns (v.create dev i data).disk i x) : ¬ Owns v.disk j x := by
    intro theirs
    rcases (ownsNew x).mp mine with rfl | has
    · exact fresh.unowned j here theirs
    · exact layout.free_unowned here (scan_free free) theirs has
  refine ⟨?_,?_,?_,?_,?_,?_⟩
  · refine List.nodup_cons.mpr ⟨fun here => fresh.unowned i here (.inl rfl),layout.nodup⟩
  · intro j here
    rcases List.mem_cons.mp here with rfl | here
    · rw [new]
      intro has
      have marked := fresh.marked
      rw [scan_free free _ has] at marked
      exact absurd marked (by simp)
    · rw [old j here]
      exact layout.self j here
  · intro j first k second different x
    rcases List.mem_cons.mp first with rfl | here
    · rcases List.mem_cons.mp second with rfl | there
      · exact absurd rfl different
      · intro mine
        rw [owns k there]
        exact apart k there x mine
    · rcases List.mem_cons.mp second with rfl | there
      · intro theirs mine
        exact apart j here x mine ((owns j here x).mp theirs)
      · rw [owns j here,owns k there]
        exact layout.apart j here k there different x
  · intro j here x
    rw [bits]
    rcases List.mem_cons.mp here with rfl | here
    · rw [ownsNew]
      rintro (rfl | has)
      · exact ⟨fresh.on,.inr fresh.marked⟩
      · exact ⟨by have last := has.2; omega,.inl has⟩
    · rw [owns j here]
      intro theirs
      have marked := layout.marked j here x theirs
      exact ⟨marked.1,.inr marked.2⟩
  · intro j here
    rcases List.mem_cons.mp here with rfl | here
    · rw [new]
      exact short
    · rw [old j here]
      exact layout.lengths j here
  · intro j here
    rcases List.mem_cons.mp here with rfl | here
    · rw [new]
      exact room
    · rw [old j here]
      exact layout.ends j here

/-- A new object is outside the file of the free map. -/
theorem Layout.create_saved (layout : Layout dev v.disk v.freeMap objects) (member : 0 ∈ objects)
    (length : (onDisk v.disk 0).length = byteCnt dev.size) (fresh : Fresh dev v.disk v.freeMap objects i)
    (free : scan v.freeMap dev.size 0 data.sectors false = some data.start) :
    MapSaved dev (v.create dev i data).disk (v.create dev i data).freeMap := by
  intro k low
  have saved : (v.sync dev (setMultiple v.freeMap data.start data.sectors true)).disk _ = _ :=
    mapSaved_sync layout member length k low
  rw [layout.sync_onDisk member length member] at saved
  rw [layout.create_onDisk member length fresh free member]
  refine (newObject_same _ i data _ ?_).trans saved
  rw [place_sector]
  have owned : Owns v.disk 0 ((onDisk v.disk 0).start + k / blockSectorSize) :=
    .inr (layout.has member (by rw [length]; exact low))
  rintro (same | has)
  · exact fresh.unowned 0 member (same ▸ owned)
  · exact layout.free_unowned member (scan_free free) owned has

end

end OsProj.FileSys
