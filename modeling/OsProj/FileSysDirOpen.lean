import OsProj.FileSysFrame
import OsProj.FileSysNames

/-! An open directory of any size, on a disk of whatever contents. -/
namespace OsProj.FileSys

open OsProj.Bitmap OsProj.ByteMemory OsProj.Faulting OsProj.Keyed

def entryName (e : Memory) : List UInt8 := ((List.range nameMax).map fun i => e (4 + i)).takeWhile (· != 0)

section
variable (dev : Device)

/-- The sector of the file, whose inode the caller must close. -/
def dirLookup (dir : Nat) (name : CString) : M (Option Nat) := do
  let (found,_,e) ← lookup dev dir name
  if found then
    inodeOpen dev (entrySector e)
    return some (entrySector e)
  else return none

def dirReaddirLoop (dir : Nat) : Nat → Memory → Nat → M (Option (List UInt8) × Nat)
  | 0, _, pos => return (none,pos)
  | bound + 1, e, pos => do
    let (bytesRead,e) ← inodeReadAt dev dir e entrySize pos
    if bytesRead = entrySize then
      if entryInUse e then return (some (entryName e),pos + entrySize)
      else dirReaddirLoop dir bound e (pos + entrySize)
    else return (none,pos)

/-- The next name from a position on, and the position behind it. -/
def dirReaddir (dir pos : Nat) : M (Option (List UInt8) × Nat) := do
  dirReaddirLoop dev dir (← entryBound dir) (fun _ => 0) pos

def readNames (dir : Nat) : Nat → Nat → M (List (List UInt8))
  | 0, _ => return []
  | bound + 1, pos => do
    match ← dirReaddir dev dir pos with
    | (none,_) => return []
    | (some name,next) => do return name :: (← readNames dir bound next)

end

/-- The entries of a directory. A few bytes that are left behind the last one are none. -/
def slotCount (data : InodeDisk) : Nat := data.length / entrySize

def DataApart (data data' : InodeDisk) : Prop :=
  ∀ pos < data.length, ∀ pos' < data'.length, data.place pos ≠ data'.place pos'

def usedFrom (disk : Memory) (data : InodeDisk) (k : Nat) : List Nat :=
  (List.range' k (slotCount data - k)).filter fun m => entryInUse (entryAt disk data m)

def slotNames (disk : Memory) (data : InodeDisk) : List (List UInt8) :=
  (usedFrom disk data 0).map fun k => entryName (entryAt disk data k)

/-- The directory is open for writing, and so is the file of the free map elsewhere. -/
structure DirOpen (dev : Device) (v : Volume) (dir : Nat) (data : InodeDisk) : Prop where
  inode : ∃ inode, find Inode.sector dir v.openInodes = some inode ∧ 0 < inode.openCnt ∧ inode.denyWriteCnt = 0 ∧
    inode.data = data
  fits : data.Fits dev
  map : ∀ m, v.freeMapFile = some m → ∃ inode, find Inode.sector m v.openInodes = some inode ∧ 0 < inode.openCnt ∧
    inode.data.Fits dev ∧ DataApart inode.data data

def SameData (data : InodeDisk) (disk disk' : Memory) : Prop :=
  ∀ pos < data.length, disk' (data.place pos) = disk (data.place pos)

/-- The entries after a call that changes one of a kind if it succeeds, and else none. -/
def EntryChanged (data : InodeDisk) (disk disk' : Memory) (kind : Memory → Prop) (success : Bool) : Prop :=
  if success then ∃ k < slotCount data, kind (entryAt disk data k) ∧
    ∀ m < slotCount data, m ≠ k → entryAt disk' data m = entryAt disk data m
  else ∀ m < slotCount data, entryAt disk' data m = entryAt disk data m

section
variable {dev : Device} {v v' : Volume} {data : InodeDisk} {disk disk' : Memory} {name : CString}

theorem slot_inside (inside : k < slotCount data) : entrySize * k + entrySize ≤ data.length := by
  simp only [slotCount,entrySize] at *
  omega

theorem SameData.refl : SameData data disk disk := fun _ _ => rfl

theorem SameData.trans (first : SameData data disk disk') (second : SameData data disk' disk'') : SameData data disk disk'' :=
  fun pos inside => (second pos inside).trans (first pos inside)

theorem SameData.entry (same : SameData data disk disk') (inside : k < slotCount data) :
    entryAt disk' data k = entryAt disk data k := by
  have whole := slot_inside inside
  funext i
  by_cases low : i < entrySize
  · rw [entryAt_byte low,entryAt_byte low]
    exact same _ (by omega)
  · rw [entryAt_clean i (by omega),entryAt_clean i (by omega)]

/-- What is written behind the last entry is in none. -/
theorem entry_behind (inside : k < slotCount data) :
    entryAt (paste disk (data.place (entrySize * slotCount data)) e 0 n) data k = entryAt disk data k := by
  funext i
  by_cases low : i < entrySize
  · rw [entryAt_byte low,entryAt_byte low]
    apply paste_outside
    left
    simp only [InodeDisk.place,entrySize] at *
    omega
  · rw [entryAt_clean i (by omega),entryAt_clean i (by omega)]

/-! The names of the entries. -/

theorem strcmp_bytes {names : List UInt8} (hit : strcmp e ofs names = true) :
    (∀ i < names.length, e (ofs + i) = names.getD i 0) ∧ e (ofs + names.length) = 0 := by
  induction names generalizing ofs with
  | nil => exact ⟨fun i inside => absurd inside (Nat.not_lt_zero i),by simpa [strcmp] using hit⟩
  | cons c rest ih =>
    simp only [strcmp,Bool.and_eq_true,beq_iff_eq] at hit
    obtain ⟨bytes,ended⟩ := ih hit.2
    rw [Nat.add_assoc,Nat.add_comm 1] at ended
    refine ⟨fun i inside => ?_,ended⟩
    cases i with
    | zero => exact hit.1
    | succ i =>
      have byte := bytes i (by simpa using inside)
      rw [Nat.add_assoc,Nat.add_comm 1] at byte
      simpa using byte

/-- The characters of an entry, with what is behind the end of its name. -/
def entryChars (e : Memory) : List UInt8 := (List.range nameMax).map fun i => e (4 + i)

section
variable (hit : entryNamed e name = true) (valid : ValidName name)
include hit valid

theorem entryChars_split : entryChars e = name.val ++ (entryChars e).drop name.val.length := by
  obtain ⟨bytes,-⟩ := strcmp_bytes hit
  have short := valid.2
  conv => lhs; rw [← List.take_append_drop name.val.length (entryChars e)]
  congr 1
  apply List.ext_getElem
  · simp [entryChars,short]
  · intro i low high
    have inside : i < name.val.length := high
    simp [entryChars,bytes i inside,inside]

theorem entryChars_ended : ((entryChars e).drop name.val.length).takeWhile (· != 0) = [] := by
  obtain ⟨-,ended⟩ := strcmp_bytes hit
  have short := valid.2
  have length : (entryChars e).length = nameMax := by simp [entryChars]
  by_cases all : name.val.length = nameMax
  · rw [List.drop_eq_nil_of_le (by omega)]
    rfl
  · rw [List.drop_eq_getElem_cons (by omega)]
    simp [entryChars,ended]

theorem entryName_eq : entryName e = name.val := by
  change (entryChars e).takeWhile (· != 0) = _
  rw [entryChars_split hit valid,List.takeWhile_append_of_pos,entryChars_ended hit valid,List.append_nil]
  intro c member
  have other : c ≠ 0 := fun zero => name.2 (zero ▸ member)
  simpa using other

end

theorem usedFrom_end (ended : slotCount data ≤ k) : usedFrom disk data k = [] := by
  rw [usedFrom,Nat.sub_eq_zero_of_le ended]
  rfl

theorem usedFrom_next (inside : k < slotCount data) : usedFrom disk data k =
    if entryInUse (entryAt disk data k) then k :: usedFrom disk data (k + 1) else usedFrom disk data (k + 1) := by
  have split : slotCount data - k = slotCount data - (k + 1) + 1 := by omega
  rw [usedFrom,split,List.range'_succ,List.filter_cons]
  rfl

/-! Reading. -/

section
variable (opened : DirOpen dev v dir data)
include opened

theorem DirOpen.read (inside : k < slotCount data) (clean : Clean e) :
    inodeReadAt dev dir e entrySize (entrySize * k) v = .ok ((entrySize,entryAt v.disk data k),v) := by
  obtain ⟨inode,found,-,-,rfl⟩ := opened.inode
  exact readEntry_ok found opened.fits rfl inside clean

theorem DirOpen.read_end (e : Memory) : ∃ n e', n ≠ entrySize ∧
    inodeReadAt dev dir e entrySize (entrySize * slotCount data) v = .ok ((n,e'),v) := by
  obtain ⟨inode,found,-,-,rfl⟩ := opened.inode
  refine ⟨_,_,?_,inodeReadAt_ok found opened.fits⟩
  rw [Int.toNat_natCast]
  simp only [slotCount,entrySize]
  omega

theorem DirOpen.entryBound_ok : entryBound dir v = .ok (slotCount data + 1,v) := by
  obtain ⟨inode,found,-,-,rfl⟩ := opened.inode
  exact FileSys.entryBound_ok found rfl

/-- The lookup finds what the entries as a whole have for the name. -/
theorem DirOpen.lookup_some (slots : Slots v.disk data (slotCount data))
    (here : lookupName v.disk data (slotCount data) name = some i) :
    ∃ k < slotCount data, entryFor (entryAt v.disk data k) name = true ∧ entrySector (entryAt v.disk data k) = i ∧
      lookup dev dir name v = .ok ((true,entrySize * k,entryAt v.disk data k),v) := by
  obtain ⟨inode,found,-,-,rfl⟩ := opened.inode
  obtain ⟨k,inside,hit,sector⟩ := (lookupName_some slots).mp here
  refine ⟨k,inside,hit,sector,lookup_found found opened.fits rfl inside hit fun m below => ?_⟩
  by_contra other
  have other : entryFor (entryAt v.disk inode.data m) name = true := by simpa using other
  exact absurd (slots.unique m (by omega) k inside name other hit) (by omega)

theorem DirOpen.lookup_none (absent : lookupName v.disk data (slotCount data) name = none) :
    ∃ ofs e, lookup dev dir name v = .ok ((false,ofs,e),v) := by
  obtain ⟨inode,found,-,-,rfl⟩ := opened.inode
  exact lookup_absent found opened.fits rfl (lookupName_none.mp absent)

/-! Adding. -/

theorem DirOpen.dirAdd_refused (slots : Slots v.disk data (slotCount data)) (sector : Nat)
    (refused : ¬ (ValidName name ∧ lookupName v.disk data (slotCount data) name = none ∧
      ∃ k < slotCount data, entryInUse (entryAt v.disk data k) = false)) :
    ∃ disk, dirAdd dev dir name sector v = .ok (false,{ v with disk := disk }) ∧
      ∀ k < slotCount data, entryAt disk data k = entryAt v.disk data k := by
  obtain ⟨inode,found,-,allowed,rfl⟩ := opened.inode
  by_cases valid : ValidName name
  · cases here : lookupName v.disk inode.data (slotCount inode.data) name with
    | some i =>
      obtain ⟨k,inside,hit,-,looked⟩ := opened.lookup_some slots here
      have taken : dirAdd dev dir name sector v = .ok (false,v) := by
        unfold dirAdd
        rw [if_neg (valid_accepted valid)]
        exact (bind_go looked).trans rfl
      exact ⟨v.disk,taken,fun _ _ => rfl⟩
    | none =>
      have full k (inside : k < slotCount inode.data) : entryInUse (entryAt v.disk inode.data k) = true := by
        by_contra free
        exact refused ⟨valid,here,k,inside,by simpa using free⟩
      have added : ∃ e, dirAdd dev dir name sector v = .ok (false,{ v with
          disk := paste v.disk (inode.data.place (entrySize * slotCount inode.data)) e 0 _ }) :=
        dirAdd_full found allowed opened.fits rfl valid (lookupName_none.mp here) full
      obtain ⟨e,added⟩ := added
      exact ⟨_,added,fun k inside => entry_behind inside⟩
  · exact ⟨v.disk,dirAdd_invalid valid,fun _ _ => rfl⟩

theorem DirOpen.dirAdd_done (sector : Nat) (valid : ValidName name)
    (new : lookupName v.disk data (slotCount data) name = none) (inside : j < slotCount data)
    (free : entryInUse (entryAt v.disk data j) = false) :
    ∃ k < slotCount data, entryInUse (entryAt v.disk data k) = false ∧ dirAdd dev dir name sector v = .ok (true,{ v with
      disk := putEntry v.disk data k (fillEntry (entryAt v.disk data k) name sector) }) := by
  obtain ⟨inode,found,-,allowed,rfl⟩ := opened.inode
  rcases first_entry (fun k => !entryInUse (entryAt v.disk inode.data k)) (slotCount inode.data)
    with ⟨k,inside,hit,first⟩ | none
  · have unused : entryInUse (entryAt v.disk inode.data k) = false := by simpa using hit
    have used m (below : m < k) : entryInUse (entryAt v.disk inode.data m) = true := by simpa using first m below
    exact ⟨k,inside,unused,dirAdd_ok found allowed opened.fits rfl valid (lookupName_none.mp new) inside unused used⟩
  · exact absurd (none j inside) (by rw [free]; decide)

/-! Reading the directory. -/

theorem DirOpen.readdirLoop_nil (empty : usedFrom v.disk data k = []) (start : k ≤ slotCount data)
    (enough : slotCount data < k + bound) (clean : Clean e) :
    dirReaddirLoop dev dir bound e (entrySize * k) v = .ok ((none,entrySize * slotCount data),v) := by
  induction bound generalizing k e with
  | zero => omega
  | succ bound ih =>
    by_cases ended : k = slotCount data
    · subst ended
      obtain ⟨n,e',short,read⟩ := opened.read_end e
      refine (bind_go read).trans ?_
      dsimp only
      rw [if_neg short]
      rfl
    · have inside : k < slotCount data := by omega
      refine (bind_go (opened.read inside clean)).trans ?_
      rw [usedFrom_next inside] at empty
      split at empty
      · contradiction
      · rename_i free
        dsimp only
        rw [if_pos rfl,if_neg free,← Nat.mul_succ]
        exact ih empty inside (by omega) entryAt_clean

theorem DirOpen.readdirLoop_cons (front : usedFrom v.disk data k = j :: rest) (start : k ≤ slotCount data)
    (enough : slotCount data < k + bound) (clean : Clean e) : j < slotCount data ∧ rest = usedFrom v.disk data (j + 1) ∧
      dirReaddirLoop dev dir bound e (entrySize * k) v =
        .ok ((some (entryName (entryAt v.disk data j)),entrySize * (j + 1)),v) := by
  induction bound generalizing k e with
  | zero => omega
  | succ bound ih =>
    have inside : k < slotCount data := by
      by_contra behind
      rw [usedFrom_end (by omega)] at front
      contradiction
    have read := opened.read inside clean
    rw [usedFrom_next inside] at front
    split at front
    · rename_i used
      obtain ⟨rfl,rfl⟩ := List.cons.inj front
      refine ⟨inside,rfl,(bind_go read).trans ?_⟩
      dsimp only
      rw [if_pos rfl,if_pos used]
      rfl
    · rename_i free
      obtain ⟨below,same,next⟩ := ih front inside (by omega) entryAt_clean
      refine ⟨below,same,(bind_go read).trans ?_⟩
      dsimp only
      rw [if_pos rfl,if_neg free,← Nat.mul_succ]
      exact next

theorem DirOpen.readNames_from (enough : (usedFrom v.disk data k).length < bound) (start : k ≤ slotCount data) :
    readNames dev dir bound (entrySize * k) v =
      .ok ((usedFrom v.disk data k).map fun m => entryName (entryAt v.disk data m),v) := by
  induction bound generalizing k with
  | zero => omega
  | succ bound ih =>
    have whole : slotCount data < k + (slotCount data + 1) := by omega
    cases used : usedFrom v.disk data k with
    | nil =>
      have last := opened.readdirLoop_nil used start whole fun _ _ => rfl
      have ended : dirReaddir dev dir (entrySize * k) v = _ := (bind_go opened.entryBound_ok).trans last
      exact (bind_go ended).trans rfl
    | cons j rest =>
      obtain ⟨below,rfl,next⟩ := opened.readdirLoop_cons used start whole fun _ _ => rfl
      have read : dirReaddir dev dir (entrySize * k) v = _ := (bind_go opened.entryBound_ok).trans next
      rw [used,List.length_cons] at enough
      have later : j + 1 ≤ slotCount data := below
      refine (bind_go read).trans ?_
      dsimp only
      exact (bind_go (ih (by omega) later)).trans rfl

end

/-! The listing as a whole. -/

theorem Slots.name_of (slots : Slots disk data (slotCount data)) (inside : k < slotCount data)
    (used : entryInUse (entryAt disk data k) = true) : ∃ name, ValidName name ∧
      entryFor (entryAt disk data k) name = true ∧ entryName (entryAt disk data k) = name.val := by
  obtain ⟨name,valid,hit⟩ := slots.valid k inside used
  refine ⟨name,valid,?_,entryName_eq hit valid⟩
  rw [entryFor,used,hit]
  rfl

theorem mem_usedFrom : k ∈ usedFrom disk data 0 ↔ k < slotCount data ∧ entryInUse (entryAt disk data k) = true := by
  simp [usedFrom,List.mem_range'_1]

theorem Slots.names_nodup (slots : Slots disk data (slotCount data)) : (slotNames disk data).Nodup := by
  apply List.Nodup.map_on
  · intro k here m there same
    obtain ⟨inside,used⟩ := mem_usedFrom.mp here
    obtain ⟨inside',used'⟩ := mem_usedFrom.mp there
    obtain ⟨name,-,hit,first⟩ := slots.name_of inside used
    obtain ⟨name',-,hit',second⟩ := slots.name_of inside' used'
    have equal : name = name' := Subtype.ext (first.symm.trans (same.trans second))
    rw [← equal] at hit'
    exact slots.unique k inside m inside' name hit hit'
  · exact (List.nodup_range' _).filter _

theorem Slots.mem_names (slots : Slots disk data (slotCount data)) :
    name.val ∈ slotNames disk data ↔ (lookupName disk data (slotCount data) name).isSome := by
  constructor
  · intro listed
    obtain ⟨k,here,same⟩ := List.mem_map.mp listed
    obtain ⟨inside,used⟩ := mem_usedFrom.mp here
    obtain ⟨name',-,hit,named⟩ := slots.name_of inside used
    have equal : name' = name := Subtype.ext (named.symm.trans same)
    rw [equal] at hit
    rw [(lookupName_some slots).mpr ⟨k,inside,hit,rfl⟩]
    rfl
  · intro found
    obtain ⟨i,found⟩ := Option.isSome_iff_exists.mp found
    obtain ⟨k,inside,hit,-⟩ := (lookupName_some slots).mp found
    obtain ⟨used,named⟩ := entryFor_inUse hit
    obtain ⟨name',-,hit',same⟩ := slots.name_of inside used
    rw [entryNamed_unique (entryFor_inUse hit').2 named] at same
    exact List.mem_map.mpr ⟨k,mem_usedFrom.mpr ⟨inside,used⟩,same⟩

end

end OsProj.FileSys
