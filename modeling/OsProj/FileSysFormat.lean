import OsProj.FileSysFiles

/-! Formatting a device: the free map is created while it has no file, the root directory is
empty, and the free map is read back from its file. -/
namespace OsProj.FileSys

open OsProj.Bitmap OsProj.ByteMemory OsProj.Faulting OsProj.Keyed

/-! Reading the free map. -/

theorem bitmapByte_testBit (bits : Nat → Bool) (k : Nat) : (bitmapByte bits (k / 8)).toNat.testBit (k % 8) = bits k := by
  obtain ⟨small,same⟩ := testBit_digits (fun j => bits (8 * (k / 8) + j)) 8
  have digit := same (k % 8) (Nat.mod_lt k (by decide))
  unfold bitmapByte
  rw [UInt8.toNat_ofNat_of_lt' small,digit,Nat.div_add_mod]

theorem byte_inside (dev : Device) (inside : k < dev.size) : k / 8 < byteCnt dev.size := by
  unfold byteCnt
  omega

section
variable {dev : Device} {v : Volume} {bits : Nat → Bool} {disk : Memory} {start start' : Nat}

theorem bitmapRead_ok (mapOpen : MapOpen dev v) (fits : (onDisk v.disk 0).Fits dev) (saved : MapSaved dev v.disk bits) :
    bitmapRead dev 0 v = .ok (true,{ v with freeMap := fun k => decide (k < dev.size) && bits k }) := by
  obtain ⟨inode,found,-,data⟩ := mapOpen.inode
  have read : inodeReadAt dev 0 (bitmapByte v.freeMap) (byteCnt dev.size) 0 v = .ok ((byteCnt dev.size,
      paste (bitmapByte v.freeMap) 0 v.disk ((onDisk v.disk 0).place 0) (byteCnt dev.size)),v) := by
    rw [inodeReadAt_ok found (by rw [data]; exact fits),data,mapOpen.length,Nat.sub_zero,Int.toNat_natCast,Nat.min_self]
  have decoded : (fun k => decide (k < dev.size) && (paste (bitmapByte v.freeMap) 0 v.disk ((onDisk v.disk 0).place 0)
      (byteCnt dev.size) (k / 8)).toNat.testBit (k % 8)) = fun k => decide (k < dev.size) && bits k := by
    funext k
    by_cases inside : k < dev.size
    · have low := byte_inside dev inside
      have byte : paste (bitmapByte v.freeMap) 0 v.disk ((onDisk v.disk 0).place 0) (byteCnt dev.size) (k / 8) =
          bitmapByte bits (k / 8) := by
        refine (if_pos (by omega)).trans ?_
        have place : (onDisk v.disk 0).place 0 + (k / 8 - 0) = (onDisk v.disk 0).place (k / 8) := by
          simp only [InodeDisk.place]
          omega
        rw [place]
        exact saved (k / 8) low
      rw [byte,bitmapByte_testBit]
    · simp [inside]
  refine (bind_go rfl).trans ((bind_go read).trans ?_)
  dsimp only
  rw [beq_self_eq_true,← decoded]
  rfl

/-- The free map is opened where nothing is open yet. -/
theorem freeMapOpen_ok (on : 0 < dev.size) (closed : v.openInodes = [])
    (length : (onDisk v.disk 0).length = byteCnt dev.size) (fits : (onDisk v.disk 0).Fits dev)
    (saved : MapSaved dev v.disk bits) : freeMapOpen dev v = .ok ((),{ v with
      freeMap := fun k => decide (k < dev.size) && bits k
      freeMapFile := some 0
      openInodes := [⟨0,1,false,0,onDisk v.disk 0⟩] }) := by
  have opened : openList v.openInodes 0 (onDisk v.disk 0) = [⟨0,1,false,0,onDisk v.disk 0⟩] := by
    rw [closed]
    rfl
  have mapOpen : MapOpen dev { v with freeMapFile := some 0, openInodes := [⟨0,1,false,0,onDisk v.disk 0⟩] } :=
    ⟨rfl,⟨_,rfl,rfl,rfl⟩,length⟩
  refine (bind_go (inodeOpen_ok on)).trans ((bind_go rfl).trans ?_)
  rw [opened]
  refine (bind_go (bitmapRead_ok mapOpen fits saved)).trans ?_
  rfl

/-- After formatting no inode is open. -/
theorem freeMapOpen_closed (on : 0 < dev.size) (length : (onDisk v.disk 0).length = byteCnt dev.size)
    (fits : (onDisk v.disk 0).Fits dev) (saved : MapSaved dev v.disk bits) :
    freeMapOpen dev { v with openInodes := [] } = .ok ((),{ v with
      freeMap := fun k => decide (k < dev.size) && bits k
      freeMapFile := some 0
      openInodes := [⟨0,1,false,0,onDisk v.disk 0⟩] }) :=
  freeMapOpen_ok (v := { v with openInodes := [] }) on rfl length fits saved

/-- The inodes after the free map was opened. -/
theorem fresh_table (opened : v.openInodes = [⟨0,1,false,0,onDisk v.disk 0⟩]) (files : v.files = []) : Table v kernelHolds := by
  have inode i (here : i ∈ v.openInodes) : i = ⟨0,1,false,0,onDisk v.disk 0⟩ := by simpa [opened] using here
  have none i : refs v.files i = 0 := by simp [refs,files]
  refine ⟨?_,?_,?_,?_,?_,?_,?_,?_⟩
  · simp [opened]
  · intro i here
    rw [inode i here]
  · intro i here
    rw [inode i here,none]
    rfl
  · intro i here
    rw [inode i here]
    exact Nat.one_pos
  · intro i here
    rw [inode i here]
    simp [denies,files]
  · intro i counted
    by_cases map : i = 0
    · simp [map,opened]
    · rw [none,kernelHolds,if_neg map] at counted
      exact absurd counted (by decide)
  · simp [files]
  · simp [files]

/-! The steps of formatting. -/

/-- An object that is created while the free map has no file. -/
theorem inodeCreate_unsaved (absent : v.freeMapFile = none) (on : i < dev.size)
    (free : scan v.freeMap dev.size 0 (bytesToSectors length) false = some start) :
    inodeCreate dev i length v = .ok (true,{ v with
      disk := newObject v.disk i ⟨start,length⟩
      freeMap := setMultiple v.freeMap start (bytesToSectors length) true }) := by
  have room := (scan_some free).2.1
  have allocated : freeMapAllocate dev (bytesToSectors length) v =
      .ok (some start,{ v with freeMap := setMultiple v.freeMap start (bytesToSectors length) true }) := by
    refine (bind_go rfl).trans ?_
    rw [free]
    refine (bind_go rfl).trans ?_
    have unsaved : freeMapWrite dev (return true) { v with freeMap := setMultiple v.freeMap start (bytesToSectors length) true } =
        .ok (true,{ v with freeMap := setMultiple v.freeMap start (bytesToSectors length) true }) := by
      simp only [freeMapWrite,absent]
      rfl
    exact bind_go unsaved
  refine (bind_go allocated).trans ?_
  exact (bind_go (blockWrite_ok on)).trans (bind_go (writeZeros_ok room))

/-- The free map with its own sector and that of the root directory. -/
def startBits : Nat → Bool := fun k => k == 0 || k == 1

def mapInode (dev : Device) (start : Nat) : InodeDisk := ⟨start,byteCnt dev.size⟩

def rootInode (start : Nat) : InodeDisk := ⟨start,rootEntries * entrySize⟩

theorem rootInode_short (start : Nat) : (rootInode start).length < 2147483648 := by
  change 16 * 20 < 2147483648
  omega

/-- The volume when the file of the free map has been opened for the first time. -/
def mapCreated (dev : Device) (disk : Memory) (start : Nat) : Volume :=
  ⟨newObject disk 0 (mapInode dev start),setMultiple startBits start (mapInode dev start).sectors true,some 0,
    [⟨0,1,false,0,mapInode dev start⟩],[],0⟩

section
variable (on : 0 < dev.size) (free : scan startBits dev.size 0 (mapInode dev start).sectors false = some start)
include on free

omit on in
theorem mapInode_free (x : Nat) (has : (mapInode dev start).Has x) : startBits x = false :=
  (scan_some free).2.2 x has.1 has.2

theorem mapCreated_onDisk : onDisk (mapCreated dev disk start).disk 0 = mapInode dev start := by
  have room := (scan_some free).2.1
  have small := dev.small
  apply newObject_onDisk
  · intro has
    exact absurd (mapInode_free free 0 has) (by decide)
  · simp only [mapInode,byteCnt]
    omega

theorem mapCreated_layout : Layout dev (mapCreated dev disk start).disk (mapCreated dev disk start).freeMap [0] := by
  have inode : onDisk (mapCreated dev disk start).disk 0 = mapInode dev start := mapCreated_onDisk on free
  have room := (scan_some free).2.1
  have small := dev.small
  refine ⟨List.nodup_singleton 0,?_,?_,?_,?_,?_⟩
  · intro i here
    obtain rfl := List.mem_singleton.mp here
    rw [inode]
    intro has
    exact absurd (mapInode_free free 0 has) (by decide)
  · intro i here j there different
    exact absurd ((List.mem_singleton.mp here).trans (List.mem_singleton.mp there).symm) different
  · intro i here x owns
    obtain rfl := List.mem_singleton.mp here
    rw [Owns,inode] at owns
    rcases owns with rfl | has
    · refine ⟨on,?_⟩
      change setMultiple startBits start _ true 0 = true
      unfold setMultiple
      split
      · rfl
      · rfl
    · exact ⟨Nat.lt_of_lt_of_le has.2 room,setMultiple_inside has.1 has.2⟩
  · intro i here
    obtain rfl := List.mem_singleton.mp here
    rw [inode]
    simp only [mapInode,byteCnt]
    omega
  · intro i here
    obtain rfl := List.mem_singleton.mp here
    rw [inode]
    exact room

theorem mapCreated_open : MapOpen dev (mapCreated dev disk start) := by
  have inode : onDisk (mapCreated dev disk start).disk 0 = mapInode dev start := mapCreated_onDisk on free
  refine ⟨rfl,⟨_,rfl,rfl,inode.symm⟩,?_⟩
  rw [inode]
  rfl

theorem freeMapCreate_ok : freeMapCreate dev { Volume.boot disk with freeMap := startBits } =
    .ok ((),(mapCreated dev disk start).sync dev (mapCreated dev disk start).freeMap) := by
  have room := (scan_some free).2.1
  have inode : onDisk (mapCreated dev disk start).disk 0 = mapInode dev start := mapCreated_onDisk on free
  have layout : Layout dev (mapCreated dev disk start).disk _ [0] := mapCreated_layout on free
  have created := inodeCreate_unsaved (v := { Volume.boot disk with freeMap := startBits }) rfl on free
  have opened : inodeOpen dev 0 { Volume.boot disk with
      disk := newObject disk 0 (mapInode dev start)
      freeMap := setMultiple startBits start (mapInode dev start).sectors true } =
        .ok ((),{ mapCreated dev disk start with freeMapFile := none }) := by
    refine (inodeOpen_ok on).trans ?_
    change Except.ok ((),{ mapCreated dev disk start with
      freeMapFile := none
      openInodes := openList [] 0 (onDisk (mapCreated dev disk start).disk 0) }) = _
    rw [inode]
    rfl
  have mapOpen : MapOpen dev (mapCreated dev disk start) := mapCreated_open on free
  have written := bitmapWrite_ok mapOpen (layout.fits List.mem_cons_self)
  refine (bind_go created).trans ?_
  rw [if_pos rfl]
  refine (bind_go opened).trans ((bind_go rfl).trans ((bind_go written).trans ?_))
  rw [if_pos rfl]
  rfl

end

/-- The volume when the free map is saved for the first time. -/
def mapReady (dev : Device) (disk : Memory) (start : Nat) : Volume :=
  (mapCreated dev disk start).sync dev (mapCreated dev disk start).freeMap

def rootCreated (dev : Device) (disk : Memory) (start start' : Nat) : Volume :=
  (mapReady dev disk start).create dev 1 (rootInode start')

def formatted (dev : Device) (disk : Memory) (start start' : Nat) : Volume :=
  { rootCreated dev disk start start' with openInodes := [⟨0,1,false,0,onDisk (rootCreated dev disk start start').disk 0⟩] }

theorem formatted_disk : (formatted dev disk start start').disk = (rootCreated dev disk start start').disk := by
  rw [formatted]

theorem formatted_freeMap : (formatted dev disk start start').freeMap = (rootCreated dev disk start start').freeMap := by
  rw [formatted]

section
variable (on : 0 < dev.size) (free : scan startBits dev.size 0 (mapInode dev start).sectors false = some start)
include on free

/-- The free map has sectors behind the two inodes. -/
theorem two_sectors : 1 < dev.size := by
  obtain ⟨-,room,clear⟩ := scan_some free
  have small := dev.small
  have sectors : (mapInode dev start).sectors = (byteCnt dev.size + 511) / 512 := by
    apply bytesToSectors_small
    unfold mapInode byteCnt
    dsimp only
    omega
  have some : 0 < (mapInode dev start).sectors := by
    rw [sectors]
    unfold byteCnt
    omega
  have first := clear start (Nat.le_refl _) (by omega)
  have other : start ≠ 0 := by
    rintro rfl
    exact absurd first (by decide)
  omega

theorem mapReady_layout : Layout dev (mapReady dev disk start).disk (mapReady dev disk start).freeMap [0] := by
  have layout : Layout dev (mapCreated dev disk start).disk _ [0] := mapCreated_layout on free
  have mapOpen : MapOpen dev (mapCreated dev disk start) := mapCreated_open on free
  exact layout.sync List.mem_cons_self mapOpen.length fun i here x owns => (layout.marked i here x owns).2

theorem mapReady_open : MapOpen dev (mapReady dev disk start) := by
  have layout : Layout dev (mapCreated dev disk start).disk _ [0] := mapCreated_layout on free
  have mapOpen : MapOpen dev (mapCreated dev disk start) := mapCreated_open on free
  exact mapOpen.sync layout List.mem_cons_self

theorem mapReady_fresh : Fresh dev (mapReady dev disk start).disk (mapReady dev disk start).freeMap [0] 1 := by
  have layout : Layout dev (mapCreated dev disk start).disk _ [0] := mapCreated_layout on free
  have mapOpen : MapOpen dev (mapCreated dev disk start) := mapCreated_open on free
  have same : onDisk (mapReady dev disk start).disk 0 = mapInode dev start :=
    (layout.sync_onDisk List.mem_cons_self mapOpen.length List.mem_cons_self).trans (mapCreated_onDisk on free)
  refine ⟨two_sectors on free,?_,?_⟩
  · change setMultiple startBits start _ true 1 = true
    unfold setMultiple
    split
    · rfl
    · rfl
  · intro j here owns
    obtain rfl := List.mem_singleton.mp here
    rw [Owns,same] at owns
    rcases owns with one | has
    · exact absurd one Nat.one_ne_zero
    · exact absurd (mapInode_free free 1 has) (by decide)

variable (free' : scan (setMultiple startBits start (mapInode dev start).sectors true) dev.size 0
  (rootInode start').sectors false = some start')
include free'

theorem rootCreated_layout :
    Layout dev (rootCreated dev disk start start').disk (rootCreated dev disk start start').freeMap [1,0] :=
  (mapReady_layout on free).create List.mem_cons_self (mapReady_open on free).length (mapReady_fresh on free) free'
    (rootInode_short start')

theorem rootCreated_map : onDisk (rootCreated dev disk start start').disk 0 = onDisk (mapReady dev disk start).disk 0 :=
  (mapReady_layout on free).create_onDisk List.mem_cons_self (mapReady_open on free).length (mapReady_fresh on free) free'
    List.mem_cons_self

theorem rootCreated_root : onDisk (rootCreated dev disk start start').disk 1 = rootInode start' :=
  newest_onDisk _ (mapReady_fresh on free) free' (rootInode_short start')

theorem rootCreated_saved : MapSaved dev (rootCreated dev disk start start').disk (rootCreated dev disk start start').freeMap :=
  (mapReady_layout on free).create_saved List.mem_cons_self (mapReady_open on free).length (mapReady_fresh on free) free'

theorem rootCreated_length : (onDisk (rootCreated dev disk start start').disk 0).length = byteCnt dev.size := by
  rw [rootCreated_map on free free']
  exact (mapReady_open on free).length

/-- Sectors behind the device are never marked. -/
theorem rootCreated_bits :
    (fun k => decide (k < dev.size) && (rootCreated dev disk start start').freeMap k) =
      (rootCreated dev disk start start').freeMap := by
  have room := (scan_some free).2.1
  have room' := (scan_some free').2.1
  have two := two_sectors on free
  funext k
  by_cases inside : k < dev.size
  · simp [inside]
  · have clear : (rootCreated dev disk start start').freeMap k = false := by
      change setMultiple (setMultiple startBits start _ true) start' _ true k = false
      rw [setMultiple_outside (by omega),setMultiple_outside (by omega)]
      simp only [startBits,Bool.or_eq_false_iff,beq_eq_false_iff_ne]
      omega
    simp [clear]

theorem doFormat_ok : doFormat dev { Volume.boot disk with freeMap := startBits } =
    .ok ((),{ rootCreated dev disk start start' with openInodes := [] }) := by
  have created : dirCreate dev 1 16 (mapReady dev disk start) = .ok (true,rootCreated dev disk start start') :=
    inodeCreate_some (mapReady_open on free) ((mapReady_layout on free).fits List.mem_cons_self) (two_sectors on free) free'
  have closed : inodeClose dev 0 (rootCreated dev disk start start') =
      .ok ((),{ rootCreated dev disk start start' with openInodes := [] }) := by
    have found : find Inode.sector 0 (rootCreated dev disk start start').openInodes = some ⟨0,1,false,0,mapInode dev start⟩ := rfl
    exact inodeClose_plain found (.inr rfl)
  refine (bind_go (freeMapCreate_ok on free)).trans ((bind_go created).trans ?_)
  rw [if_pos rfl]
  exact closed

theorem filesysInit_ok : filesysInit dev true (Volume.boot disk) = .ok ((),formatted dev disk start start') := by
  have opened := freeMapOpen_closed (v := rootCreated dev disk start start') on (rootCreated_length on free free')
    ((rootCreated_layout on free free').fits (by simp)) (rootCreated_saved on free free')
  rw [rootCreated_bits on free free'] at opened
  refine (bind_go rfl).trans ?_
  rw [if_pos rfl]
  exact (bind_go (doFormat_ok on free free')).trans opened

/-! What holds of the formatted volume. -/

theorem formatted_unused (inside : k < rootEntries) : entryInUse ((formatted dev disk start start').entry k) = false := by
  have root : onDisk (rootCreated dev disk start start').disk 1 = rootInode start' := rootCreated_root on free free'
  have layout : Layout dev (rootCreated dev disk start start').disk _ [1,0] := rootCreated_layout on free free'
  have sectors := layout.sectors List.mem_cons_self
  rw [root] at sectors
  have zeros : content (rootCreated dev disk start start').disk (rootInode start') = List.replicate (rootInode start').length 0 := by
    apply newObject_content
    rw [sectors]
    simp only [blockSectorSize]
    omega
  have last : entrySize * k + 19 < (rootInode start').length := by
    simp only [entrySize,rootEntries,rootInode] at *
    omega
  have byte : (content (rootCreated dev disk start start').disk (rootInode start')).getD _ 0 = _ := content_getD last
  rw [zeros,List.getD_eq_getElem?_getD,List.getElem?_replicate,if_pos last] at byte
  have read : (formatted dev disk start start').entry k 19 = (rootCreated dev disk start start').disk
      ((rootInode start').place (entrySize * k + 19)) := by
    change entryAt (rootCreated dev disk start start').disk (onDisk (rootCreated dev disk start start').disk 1) k 19 = _
    rw [root]
    exact entryAt_byte (by decide)
  rw [entryInUse,read,← byte]
  rfl

theorem formatted_named : (formatted dev disk start start').namedInodes = [] := by
  apply List.eq_nil_iff_forall_not_mem.mpr
  intro i here
  obtain ⟨k,inside,used,-⟩ := mem_named.mp here
  have unused : entryInUse ((formatted dev disk start start').entry k) = false := formatted_unused on free free' inside
  exact Bool.false_ne_true (unused.symm.trans used)

theorem formatted_objects : (formatted dev disk start start').objects = [0,1] := by
  unfold Volume.objects
  rw [formatted_named on free free']
  rfl

theorem formatted_inv : Inv dev (formatted dev disk start start') kernelHolds := by
  have objects : (formatted dev disk start start').objects = [0,1] := formatted_objects on free free'
  have root : onDisk (rootCreated dev disk start start').disk 1 = rootInode start' := rootCreated_root on free free'
  have inode i (here : i ∈ (formatted dev disk start start').openInodes) :
      i = ⟨0,1,false,0,onDisk (rootCreated dev disk start start').disk 0⟩ := List.mem_singleton.mp here
  refine ⟨?_,?_,?_,?_,?_,Nat.one_pos,?_,⟨?_,?_⟩,?_,?_⟩
  · rw [objects,formatted_disk,formatted_freeMap]
    exact (rootCreated_layout on free free').perm (List.Perm.swap _ _ _)
  · rw [formatted_disk,formatted_freeMap]
    exact rootCreated_saved on free free'
  · exact fresh_table rfl rfl
  · rfl
  · rw [formatted_disk]
    exact rootCreated_length on free free'
  · rw [formatted_disk,root]
    rfl
  · intro k inside used
    have unused : entryInUse ((formatted dev disk start start').entry k) = false := formatted_unused on free free' inside
    exact absurd (unused.symm.trans used) Bool.false_ne_true
  · intro k inside m inside' name hit
    have unused : entryInUse ((formatted dev disk start start').entry k) = false := formatted_unused on free free' inside
    exact absurd (unused.symm.trans (entryFor_inUse hit).1) Bool.false_ne_true
  · intro i here
    rw [inode i here]
    exact map_member
  · exact fun _ here => absurd here List.not_mem_nil

theorem formatted_refines : Refines (formatted dev disk start start') Store.empty := by
  refine ⟨?_,?_,fun id => rfl⟩
  · funext name
    symm
    refine Inv.inodeOf_none.mpr fun k inside => ?_
    exact entryFor_free (formatted_unused on free free' inside)
  · intro i here map root
    rw [formatted_objects on free free'] at here
    simp only [List.mem_cons,List.not_mem_nil,or_false] at here
    exact absurd here (not_or.mpr ⟨map,root⟩)

end

/-- A new object needs its sectors, and the device that of its inode. -/
theorem inodeCreate_scan (done : inodeCreate dev i length v = .ok (true,v')) :
    i < dev.size ∧ ∃ start, scan v.freeMap dev.size 0 (bytesToSectors length) false = some start := by
  obtain ⟨found,v₁,allocated,rest⟩ := bind_ok.mp done
  cases free : scan v.freeMap dev.size 0 (bytesToSectors length) false with
  | none =>
    obtain ⟨rfl,rfl⟩ := Prod.mk.inj (Except.ok.inj (allocated.symm.trans (freeMapAllocate_none free)))
    exact absurd (Prod.mk.inj (Except.ok.inj rest)).1 Bool.false_ne_true
  | some start =>
    refine ⟨?_,start,rfl⟩
    cases found with
    | none => exact absurd (Prod.mk.inj (Except.ok.inj rest)).1 Bool.false_ne_true
    | some start' =>
      obtain ⟨_,v₂,written,-⟩ := bind_ok.mp rest
      obtain ⟨_,v₃,checked,-⟩ := bind_ok.mp written
      by_contra behind
      have failed : checkSector dev i v₁ = .error .pastEnd := if_neg behind
      exact nomatch failed.symm.trans checked

theorem throw_not_ok {panic : Panic} (done : (throw panic : M α) v = .ok r) : False := by
  have failed : (throw panic : M α) v = .error panic := rfl
  exact nomatch failed.symm.trans done

/-- A device on which formatting goes through. -/
theorem format_scans (done : filesysInit dev true (Volume.boot disk) = .ok ((),v)) :
    0 < dev.size ∧ ∃ start start', scan startBits dev.size 0 (mapInode dev start).sectors false = some start ∧
      scan (setMultiple startBits start (mapInode dev start).sectors true) dev.size 0 (rootInode start').sectors false =
        some start' := by
  obtain ⟨_,v₁,started,rest⟩ := bind_ok.mp done
  obtain ⟨-,rfl⟩ := Prod.mk.inj (Except.ok.inj started)
  rw [if_pos rfl] at rest
  obtain ⟨_,v₂,format,-⟩ := bind_ok.mp rest
  obtain ⟨_,v₃,created,rest⟩ := bind_ok.mp format
  obtain ⟨map,v₄,made,next⟩ := bind_ok.mp created
  cases map with
  | false => exact (throw_not_ok next).elim
  | true =>
    obtain ⟨on,start,free⟩ := inodeCreate_scan made
    obtain ⟨-,rfl⟩ := Prod.mk.inj (Except.ok.inj (created.symm.trans (freeMapCreate_ok on free)))
    obtain ⟨root,v₅,made',next'⟩ := bind_ok.mp rest
    cases root with
    | false => exact (throw_not_ok next').elim
    | true =>
      obtain ⟨-,start',free'⟩ := inodeCreate_scan made'
      exact ⟨on,start,start',free,free'⟩

/-- What formatting leaves behind. -/
theorem format_inv (done : filesysInit dev true (Volume.boot disk) = .ok ((),v)) :
    Inv dev v kernelHolds ∧ Refines v Store.empty := by
  obtain ⟨on,start,start',free,free'⟩ := format_scans done
  obtain ⟨-,rfl⟩ := Prod.mk.inj (Except.ok.inj (done.symm.trans (filesysInit_ok on free free')))
  exact ⟨formatted_inv on free free',formatted_refines on free free'⟩

end

end OsProj.FileSys
