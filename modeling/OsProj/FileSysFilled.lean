import OsProj.FileSysRuns

/-! Volumes that have been formatted and then filled without removing anything: their sectors are
in use from the first one on without a gap, so that room is a matter of counting. -/
namespace OsProj.FileSys

open OsProj.Bitmap OsProj.ByteMemory OsProj.Faulting OsProj.Keyed

def dataSectors (length : Nat) : Nat := (length + 511) / 512

structure Shows (dev : Device) (v : Volume) (s : Store) : Prop where
  inv : Inv dev v kernelHolds
  refines : Refines v s

/-- Its first sectors are the ones in use. -/
structure Filled (dev : Device) (v : Volume) (s : Store) (used : Nat) : Prop extends Shows dev v s where
  low : ∀ x < used, v.freeMap x = true
  high : ∀ x, used ≤ x → x < dev.size → v.freeMap x = false

/-- The sectors in use on a formatted volume: the two inodes, the free map and the root directory. -/
def formattedSectors (dev : Device) : Nat := 2 + dataSectors (byteCnt dev.size) + 1

section
variable {dev : Device} {v : Volume} {s : Store} {name : CString}

/-- The bits after a run of free ones from the first free one on is set. -/
theorem setMultiple_used {bits : Nat → Bool} (low : ∀ x < used, bits x = true)
    (high : ∀ x, used ≤ x → x < size → bits x = false) :
    (∀ x < used + cnt, setMultiple bits used cnt true x = true) ∧
      ∀ x, used + cnt ≤ x → x < size → setMultiple bits used cnt true x = false := by
  constructor
  · intro x below
    unfold setMultiple
    split
    · rfl
    · exact low x (by omega)
  · intro x above inside
    rw [setMultiple_outside (by omega)]
    exact high x (by omega) inside

/-- The scan on a volume without gaps, and the bits after it. -/
theorem scan_used {bits : Nat → Bool} (cnt : Nat) (low : ∀ x < used, bits x = true) (high : ∀ x, used ≤ x → x < size → bits x = false)
    (room : used + cnt ≤ size) : ∃ start, scan bits size 0 cnt false = some start ∧
      (∀ x < used + cnt, setMultiple bits start cnt true x = true) ∧
      ∀ x, used + cnt ≤ x → x < size → setMultiple bits start cnt true x = false := by
  by_cases none : cnt = 0
  · subst none
    have empty (start : Nat) : setMultiple bits start 0 true = bits := by
      funext x
      exact setMultiple_outside (by omega)
    cases found : scan bits size 0 0 false with
    | none =>
      obtain ⟨i,above,below,-⟩ := scan_none found (Nat.zero_le 0) (Nat.zero_le size)
      omega
    | some start =>
      refine ⟨start,rfl,?_⟩
      rw [empty]
      exact ⟨low,high⟩
  · exact ⟨used,scan_first low high (by omega) room,setMultiple_used low high⟩

/-- The bits after a run that was found on a volume without gaps. -/
theorem found_used {bits : Nat → Bool} (low : ∀ x < used, bits x = true) (high : ∀ x, used ≤ x → x < size → bits x = false)
    (found : scan bits size 0 cnt false = some start) (some_ : 0 < cnt) :
    (∀ x < used + cnt, setMultiple bits start cnt true x = true) ∧
      ∀ x, used + cnt ≤ x → x < size → setMultiple bits start cnt true x = false := by
  obtain ⟨-,inside,clear⟩ := scan_some found
  have above : used ≤ start := by
    by_contra below
    have taken := low start (by omega)
    rw [clear start (Nat.le_refl start) (by omega)] at taken
    exact Bool.false_ne_true taken
  obtain ⟨start',found',after⟩ := scan_used cnt low high (by omega)
  rw [found] at found'
  cases found'
  exact after

theorem format_filled (done : filesysInit dev true (Volume.boot disk) = .ok ((),v)) :
    Filled dev v Store.empty (formattedSectors dev) := by
  obtain ⟨inv,refines⟩ := format_inv done
  obtain ⟨on,start,start',free,free'⟩ := format_scans done
  obtain ⟨-,rfl⟩ := Prod.mk.inj (Except.ok.inj (done.symm.trans (filesysInit_ok on free free')))
  have small := dev.small
  have sectors : (mapInode dev start).sectors = dataSectors (byteCnt dev.size) := by
    apply bytesToSectors_small
    unfold mapInode byteCnt
    dsimp only
    omega
  have first : ∀ x < 2, startBits x = true := by
    intro x below
    simp only [startBits,Bool.or_eq_true,beq_iff_eq]
    omega
  have rest : ∀ x, 2 ≤ x → x < dev.size → startBits x = false := by
    intro x above _
    simp only [startBits,Bool.or_eq_false_iff,beq_eq_false_iff_ne]
    omega
  have some_ : 0 < (mapInode dev start).sectors := by
    rw [sectors]
    unfold dataSectors byteCnt
    omega
  obtain ⟨low,high⟩ := found_used first rest free some_
  have one : (rootInode start').sectors = 1 := (bytesToSectors_small (rootEntries * entrySize) (by decide)).trans (by decide)
  have bits : (formatted dev disk start start').freeMap =
      setMultiple (setMultiple startBits start (mapInode dev start).sectors true) start' (rootInode start').sectors true := rfl
  obtain ⟨low,high⟩ := found_used low high free' (by omega)
  rw [← bits,sectors,one] at low high
  exact ⟨⟨inv,refines⟩,low,high⟩

theorem bytesToSectors_fits (room : used + 1 + dataSectors length ≤ dev.size) :
    bytesToSectors length = dataSectors length ∧ length < 2147483648 := by
  have small := dev.small
  unfold dataSectors at *
  exact ⟨bytesToSectors_small _ (by omega),by omega⟩

theorem Filled.create (filled : Filled dev v s used) (placeable : Placeable s.names name)
    (room : used + 1 + dataSectors length ≤ dev.size) :
    ∃ v' i, filesysCreate dev name length v = .ok (true,v') ∧ s.Unused i ∧
      Filled dev v' { s with
        names := Function.update s.names name (some i)
        bytes := Function.update s.bytes i (List.replicate length 0) } (used + 1 + dataSectors length) := by
  obtain ⟨⟨inv,refines⟩,low,high⟩ := filled
  obtain ⟨sectors,short⟩ := bytesToSectors_fits room
  obtain ⟨i,free,low₁,high₁⟩ := scan_used 1 low high (by omega)
  obtain ⟨start,found,low₂,high₂⟩ := scan_used (dataSectors length) low₁ high₁ room
  have range : (length : Int) < 2147483648 := by omega
  have run : scan (setMultiple v.freeMap i 1 true) dev.size 0 (bytesToSectors (length : Int).toNat) false = some start := by
    rw [Int.toNat_natCast,sectors]
    exact found
  obtain ⟨v₁,v₂,v₃,made⟩ := inv.made_at range free run
  rw [refines.names] at placeable
  obtain ⟨v',done,inv',bits,-,refines'⟩ := made.created inv refines (by omega) placeable
  rw [made.bits,Int.toNat_natCast,sectors] at bits
  rw [← bits] at low₂ high₂
  exact ⟨v',i,done,refines.unused inv made.absent,⟨inv',refines'⟩,low₂,high₂⟩

/-- Calls on files that leave the free map alone. -/
theorem Filled.same (filled : Filled dev v s used) (shown : Shows dev v' s') (bits : v'.freeMap = v.freeMap) :
    Filled dev v' s' used := by
  obtain ⟨-,low,high⟩ := filled
  rw [← bits] at low high
  exact ⟨shown,low,high⟩

/-- A file of the volume is one of the store, and its name is one that files can have. -/
theorem Shows.file (shown : Shows dev v s) (found : v.inodeOf name = some i) :
    s.names name = some i ∧ s.bytes i = v.bytesOf i ∧ ValidName name := by
  obtain ⟨inv,refines⟩ := shown
  have named := inv.inodeOf_named found
  have other := inv.named_other named
  obtain ⟨k,below,hit,-⟩ := inv.inodeOf_some.mp found
  obtain ⟨used,same⟩ := entryFor_inUse hit
  obtain ⟨name',valid,same'⟩ := inv.slots.valid k below used
  obtain rfl : name' = name := entryNamed_unique same' same
  exact ⟨by rw [refines.names,found],refines.bytes i (named_member named) other.1 other.2,valid⟩

theorem Shows.openFile (shown : Shows dev v s) (found : s.names name = some i) :
    ∃ v' f, filesysOpen dev name v = .ok (some f,v') ∧ s.handles f = none ∧
      Shows dev v' (s.setHandle f (some ⟨i,0,false⟩)) ∧ v'.freeMap = v.freeMap := by
  obtain ⟨inv,refines⟩ := shown
  have named : v.inodeOf name = some i := by rw [← refines.names,found]
  obtain ⟨v',done,inv',kept,bits⟩ := inv.open_found named
  obtain ⟨free,refines'⟩ := refines.opened (i := i) inv kept
  exact ⟨_,_,done,free,⟨inv',refines'⟩,bits⟩

/-- The file behind a handle of the store. -/
theorem Refines.file_of (refines : Refines v s) (handle : s.handles f = some ⟨i,pos,deny⟩) :
    ⟨f,i,pos,deny⟩ ∈ v.files := by
  rw [refines.handles] at handle
  obtain ⟨file,found,same⟩ := Option.map_eq_some_iff.mp handle
  obtain ⟨member,rfl⟩ := find_key found
  cases file
  simp only [File.handle,Handle.mk.injEq] at same
  obtain ⟨rfl,rfl,rfl⟩ := same
  exact member

theorem Shows.fileLength (shown : Shows dev v s) (handle : s.handles f = some ⟨i,pos,deny⟩) :
    fileLength f v = .ok ((s.bytes i).length,v) :=
  fileLength_ok shown.inv shown.refines (shown.refines.file_of handle)

theorem Shows.readFile (shown : Shows dev v s) (handle : s.handles f = some ⟨i,pos,deny⟩) (buffer : Memory) (size : Int) :
    ∃ v', fileRead dev f buffer size v = .ok ((transfer (s.bytes i) size pos,
        readInto buffer (s.bytes i) pos (transfer (s.bytes i) size pos)),v') ∧
      Shows dev v' (s.setHandle f (some ⟨i,pos + transfer (s.bytes i) size pos,deny⟩)) := by
  obtain ⟨v',done,inv',-,refines'⟩ := fileRead_ok shown.inv shown.refines (shown.refines.file_of handle) buffer size
  exact ⟨v',done,inv',refines'⟩

theorem Shows.writeFile (shown : Shows dev v s) (handle : s.handles f = some ⟨i,pos,deny⟩) (allowed : ¬ s.Denied i)
    (buffer : Memory) (size : Int) :
    ∃ v', fileWrite dev f buffer size v = .ok (transfer (s.bytes i) size pos,v') ∧
      Shows dev v' (Store.setHandle
        { s with bytes := Function.update s.bytes i (overwrite (s.bytes i) pos (transfer (s.bytes i) size pos) buffer) }
        f (some ⟨i,pos + transfer (s.bytes i) size pos,deny⟩)) ∧ v'.freeMap = v.freeMap := by
  obtain ⟨inv,refines⟩ := shown
  obtain ⟨n,after,v',done,inv',bits,writes,refines'⟩ := fileWrite_ok inv refines (refines.file_of handle) buffer size
  rcases writes with ⟨denied,-⟩ | ⟨-,rfl,rfl⟩
  · exact absurd denied allowed
  · exact ⟨v',done,⟨inv',refines'⟩,bits⟩

/-- Closing a file that has a name. -/
theorem Shows.closeFile (shown : Shows dev v s) (handle : s.handles f = some ⟨i,pos,deny⟩) (named : s.names name = some i) :
    ∃ v', fileClose dev f v = .ok ((),v') ∧ Shows dev v' (s.setHandle f none) ∧ v'.freeMap = v.freeMap := by
  obtain ⟨inv,refines⟩ := shown
  obtain ⟨v',done,inv',refines',same⟩ := fileClose_ok inv refines (refines.file_of handle)
  have present : v.inodeOf name = some i := by rw [← refines.names,named]
  refine ⟨v',done,⟨inv',refines'⟩,same fun removed => ?_⟩
  have nodup := (List.nodup_cons.mp (List.nodup_cons.mp inv.layout.nodup).2).2
  exact (List.nodup_append.mp nodup).2.2 i (inv.inodeOf_named present) i removed rfl

end

end OsProj.FileSys
