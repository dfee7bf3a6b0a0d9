import OsProj.FileSysFreeMap

/-! Directories as lists of entries on disk. -/
namespace OsProj.FileSys

open OsProj.ByteMemory OsProj.Faulting OsProj.Keyed

/-- The bytes of an entry, in a buffer that has zeros behind it. -/
def entryAt (disk : Memory) (data : InodeDisk) (k : Nat) : Memory :=
  paste (fun _ => 0) 0 disk (data.place (entrySize * k)) entrySize

def Clean (e : Memory) : Prop := ∀ i, entrySize ≤ i → e i = 0

def ValidName (name : CString) : Prop := name.val ≠ [] ∧ name.val.length ≤ nameMax

section
variable {dev : Device} {v : Volume} {disk : Memory} {data : InodeDisk} {e : Memory} {name : CString}

theorem clean_paste (clean : Clean e) : Clean (paste e 0 disk a entrySize) := by
  intro i behind
  refine (if_neg (by omega)).trans (clean i behind)

theorem paste_clean (clean : Clean e) : paste e 0 disk (data.place (entrySize * k)) entrySize = entryAt disk data k := by
  funext i
  unfold entryAt paste
  split
  · rfl
  · exact clean i (by omega)

theorem entryAt_byte (inside : i < entrySize) : entryAt disk data k i = disk (data.place (entrySize * k + i)) := by
  unfold entryAt paste
  rw [if_pos (by omega)]
  congr 1
  simp only [InodeDisk.place]
  omega

theorem entryAt_clean : Clean (entryAt disk data k) := clean_paste fun _ _ => rfl

/-! The loop over the entries. -/

theorem readEntry_ok (found : find Inode.sector dir v.openInodes = some inode) (fits : inode.data.Fits dev)
    (whole : inode.data.length / entrySize = cnt) (inside : k < cnt) (clean : Clean e) :
    inodeReadAt dev dir e entrySize (entrySize * k) v = .ok ((entrySize,entryAt v.disk inode.data k),v) := by
  have size : min (entrySize : Int).toNat (inode.data.length - entrySize * k) = entrySize := by
    rw [Int.toNat_natCast]
    simp only [entrySize] at *
    omega
  rw [inodeReadAt_ok found fits,size,paste_clean clean]

theorem scanEntries_found (found : find Inode.sector dir v.openInodes = some inode) (fits : inode.data.Fits dev)
    (whole : inode.data.length / entrySize = cnt) (inside : j < cnt) (enough : j < k + bound) (start : k ≤ j)
    (hit : wanted (entryAt v.disk inode.data j) = true)
    (first : ∀ m, k ≤ m → m < j → wanted (entryAt v.disk inode.data m) = false) (clean : Clean e) :
    scanEntries dev dir wanted bound e (entrySize * k) v = .ok ((true,entrySize * j,entryAt v.disk inode.data j),v) := by
  induction bound generalizing k e with
  | zero => omega
  | succ bound ih =>
    refine (bind_go (readEntry_ok found fits whole (by omega) clean)).trans ?_
    dsimp only
    rw [if_pos rfl]
    by_cases here : k = j
    · subst here
      rw [if_pos hit]
      rfl
    · rw [if_neg (by rw [first k (Nat.le_refl k) (by omega)]; exact Bool.false_ne_true),← Nat.mul_succ]
      exact ih (k := k + 1) (by omega) (by omega) (fun m low high => first m (by omega) high) entryAt_clean

theorem scanEntries_absent (found : find Inode.sector dir v.openInodes = some inode) (fits : inode.data.Fits dev)
    (whole : inode.data.length / entrySize = cnt) (enough : cnt < k + bound) (start : k ≤ cnt)
    (miss : ∀ m, k ≤ m → m < cnt → wanted (entryAt v.disk inode.data m) = false) (clean : Clean e) :
    ∃ e', scanEntries dev dir wanted bound e (entrySize * k) v = .ok ((false,entrySize * cnt,e'),v) := by
  induction bound generalizing k e with
  | zero => omega
  | succ bound ih =>
    by_cases ended : k = cnt
    · subst ended
      have short : min (entrySize : Int).toNat (inode.data.length - entrySize * k) ≠ entrySize := by
        rw [Int.toNat_natCast]
        simp only [entrySize] at *
        omega
      have read : inodeReadAt dev dir e entrySize (entrySize * k) v = _ := inodeReadAt_ok found fits
      generalize min (entrySize : Int).toNat (inode.data.length - entrySize * k) = n at short read
      refine ⟨paste e 0 v.disk (inode.data.place (entrySize * k)) n,(bind_go read).trans ?_⟩
      dsimp only
      rw [if_neg short]
      rfl
    · obtain ⟨e',scanned⟩ := ih (k := k + 1) (e := entryAt v.disk inode.data k) (by omega) (by omega)
        (fun m low high => miss m (by omega) high) entryAt_clean
      refine ⟨e',(bind_go (readEntry_ok found fits whole (by omega) clean)).trans ?_⟩
      dsimp only
      rw [if_pos rfl,if_neg (by rw [miss k (Nat.le_refl k) (by omega)]; exact Bool.false_ne_true),← Nat.mul_succ]
      exact scanned

theorem entryBound_ok (found : find Inode.sector dir v.openInodes = some inode)
    (whole : inode.data.length / entrySize = cnt) : entryBound dir v = .ok (cnt + 1,v) := by
  refine (bind_go (findInode_ok found)).trans ?_
  rw [whole]
  rfl

/-- Either some entry is the first one that is looked for or none is. -/
theorem first_entry (p : Nat → Bool) (cnt : Nat) :
    (∃ j < cnt, p j = true ∧ ∀ m < j, p m = false) ∨ ∀ m < cnt, p m = false := by
  induction cnt with
  | zero => exact .inr (by omega)
  | succ cnt ih =>
    rcases ih with ⟨j,inside,hit,first⟩ | none
    · exact .inl ⟨j,by omega,hit,first⟩
    · cases last : p cnt with
      | true => exact .inl ⟨cnt,by omega,last,fun m below => none m below⟩
      | false =>
        refine .inr fun m inside => ?_
        by_cases same : m = cnt
        · rw [same]
          exact last
        · exact none m (by omega)

def entryFor (e : Memory) (name : CString) : Bool := entryInUse e && entryNamed e name

theorem lookup_found (found : find Inode.sector dir v.openInodes = some inode) (fits : inode.data.Fits dev)
    (whole : inode.data.length / entrySize = cnt) (inside : j < cnt)
    (hit : entryFor (entryAt v.disk inode.data j) name = true)
    (first : ∀ m < j, entryFor (entryAt v.disk inode.data m) name = false) :
    lookup dev dir name v = .ok ((true,entrySize * j,entryAt v.disk inode.data j),v) := by
  refine (bind_go (entryBound_ok found whole)).trans ?_
  exact scanEntries_found (k := 0) found fits whole inside (by omega) (by omega) hit (fun m _ high => first m high)
    fun _ _ => rfl

theorem lookup_absent (found : find Inode.sector dir v.openInodes = some inode) (fits : inode.data.Fits dev)
    (whole : inode.data.length / entrySize = cnt)
    (miss : ∀ m < cnt, entryFor (entryAt v.disk inode.data m) name = false) :
    ∃ ofs e, lookup dev dir name v = .ok ((false,ofs,e),v) := by
  have scanned : ∃ e, scanEntries dev dir (fun e => entryInUse e && entryNamed e name) (cnt + 1) (fun _ => 0) 0 v =
      .ok ((false,entrySize * cnt,e),v) :=
    scanEntries_absent (k := 0) found fits whole (by omega) (by omega) (fun m _ high => miss m high) fun _ _ => rfl
  obtain ⟨e,scanned⟩ := scanned
  exact ⟨_,e,(bind_go (entryBound_ok found whole)).trans scanned⟩

/-! The bytes of an entry. -/

theorem strcmp_unique {names names' : List UInt8} (same : strcmp e ofs names = true) (same' : strcmp e ofs names' = true)
    (plain : 0 ∉ names) (plain' : 0 ∉ names') : names = names' := by
  induction names generalizing ofs names' with
  | nil =>
    cases names' with
    | nil => rfl
    | cons c rest =>
      simp only [strcmp,beq_iff_eq,Bool.and_eq_true] at same same'
      exact absurd (same'.1.symm.trans same) (fun zero => plain' (zero ▸ List.mem_cons_self))
  | cons c rest ih =>
    cases names' with
    | nil =>
      simp only [strcmp,beq_iff_eq,Bool.and_eq_true] at same same'
      exact absurd (same.1.symm.trans same') (fun zero => plain (zero ▸ List.mem_cons_self))
    | cons c' rest' =>
      simp only [strcmp,beq_iff_eq,Bool.and_eq_true] at same same'
      rw [← same.1.symm.trans same'.1,ih same.2 same'.2 (fun zero => plain (List.mem_cons_of_mem _ zero))
        fun zero => plain' (List.mem_cons_of_mem _ zero)]

/-- An entry has one name. -/
theorem entryNamed_unique (same : entryNamed e name = true) (same' : entryNamed e name' = true) : name = name' :=
  Subtype.ext (strcmp_unique same same' name.2 name'.2)

theorem strcmp_of_bytes {names : List UInt8} (bytes : ∀ i < names.length, e (ofs + i) = names.getD i 0)
    (ended : e (ofs + names.length) = 0) : strcmp e ofs names = true := by
  induction names generalizing ofs with
  | nil => simpa [strcmp] using ended
  | cons c rest ih =>
    have first : e ofs = c := bytes 0 (by simp)
    have others : strcmp e (ofs + 1) rest = true := by
      apply ih
      · intro i inside
        have byte := bytes (i + 1) (by simpa using inside)
        rw [Nat.add_assoc,Nat.add_comm 1 i,byte]
        rfl
      · rw [Nat.add_assoc,Nat.add_comm 1]
        exact ended
    simp [strcmp,first,others]

section
variable (valid : ValidName name)
include valid

theorem fillEntry_byte (low : 4 ≤ i) (high : i < 19) : fillEntry e name sector i =
    if i < 5 + name.val.length then name.val.getD (i - 4) 0 else e i := by
  have length := valid.2
  unfold fillEntry store paste
  dsimp only
  rw [if_neg (by omega),if_neg (by omega)]
  by_cases inside : i < 5 + name.val.length
  · rw [if_pos (by omega),if_pos inside,Nat.zero_add]
  · rw [if_neg (by omega),if_neg inside]

theorem fillEntry_clean (clean : Clean e) : Clean (fillEntry e name sector) := by
  intro i behind
  have length := valid.2
  unfold fillEntry store paste
  simp only [entrySize,nameMax] at behind length
  dsimp only
  rw [if_neg (by omega),if_neg (by omega),if_neg (by omega)]
  exact clean i behind

theorem fillEntry_named : entryNamed (fillEntry e name sector) name = true := by
  have length := valid.2
  simp only [nameMax] at length
  apply strcmp_of_bytes
  · intro i inside
    rw [fillEntry_byte valid (by omega) (by omega),if_pos (by omega),Nat.add_sub_cancel_left]
  · rw [fillEntry_byte valid (by omega) (by omega),if_pos (by omega),Nat.add_sub_cancel_left]
    simp

end

theorem fillEntry_inUse : entryInUse (fillEntry e name sector) = true := by
  simp [entryInUse,fillEntry,store]

theorem fillEntry_sector (small : sector < 4294967296) : entrySector (fillEntry e name sector) = sector := by
  unfold entrySector fillEntry
  rw [load_store_same]
  exact Nat.mod_eq_of_lt small

def eraseEntry (e : Memory) : Memory := store e 19 1 0

theorem eraseEntry_clean (clean : Clean e) : Clean (eraseEntry e) := by
  intro i behind
  simp only [entrySize] at behind
  exact (if_neg (by omega)).trans (clean i behind)

theorem eraseEntry_inUse : entryInUse (eraseEntry e) = false := by
  simp [entryInUse,eraseEntry,store]

/-! Writing an entry. -/

def putEntry (disk : Memory) (data : InodeDisk) (k : Nat) (e : Memory) : Memory :=
  paste disk (data.place (entrySize * k)) e 0 entrySize

theorem entryAt_put (clean : Clean e) : entryAt (putEntry disk data k e) data k = e := by
  funext i
  unfold entryAt putEntry paste
  split
  · rename_i inside
    rw [if_pos (by omega)]
    congr 1
    omega
  · exact (clean i (by omega)).symm

theorem entryAt_put_other (other : m ≠ k) : entryAt (putEntry disk data k e) data m = entryAt disk data m := by
  funext i
  unfold entryAt putEntry paste
  split
  · rename_i inside
    refine if_neg ?_
    simp only [InodeDisk.place,entrySize] at *
    omega
  · rfl

theorem writeEntry_ok (found : find Inode.sector dir v.openInodes = some inode) (allowed : inode.denyWriteCnt = 0)
    (fits : inode.data.Fits dev) (whole : inode.data.length / entrySize = cnt) (inside : k < cnt) :
    inodeWriteAt dev dir e entrySize (entrySize * k) v =
      .ok (entrySize,{ v with disk := putEntry v.disk inode.data k e }) := by
  have size : min (entrySize : Int).toNat (inode.data.length - entrySize * k) = entrySize := by
    rw [Int.toNat_natCast]
    simp only [entrySize] at *
    omega
  rw [inodeWriteAt_ok _ _ _ found allowed fits,size]
  rfl

/-! Adding an entry. -/

theorem dirAdd_invalid (invalid : ¬ ValidName name) : dirAdd dev dir name sector v = .ok (false,v) := by
  have rejected : name.val = [] ∨ nameMax < name.val.length := by
    by_contra accepted
    push Not at accepted
    exact invalid accepted
  unfold dirAdd
  rw [if_pos rejected]
  rfl

theorem valid_accepted (valid : ValidName name) : ¬ (name.val = [] ∨ nameMax < name.val.length) := by
  rintro (empty | long)
  · exact valid.1 empty
  · exact Nat.not_lt.mpr valid.2 long

theorem dirAdd_taken (found : find Inode.sector dir v.openInodes = some inode) (fits : inode.data.Fits dev)
    (whole : inode.data.length / entrySize = cnt) (valid : ValidName name) (inside : j < cnt)
    (hit : entryFor (entryAt v.disk inode.data j) name = true)
    (first : ∀ m < j, entryFor (entryAt v.disk inode.data m) name = false) :
    dirAdd dev dir name sector v = .ok (false,v) := by
  unfold dirAdd
  rw [if_neg (valid_accepted valid)]
  refine (bind_go (lookup_found found fits whole inside hit first)).trans ?_
  rfl

/-- The part of `dir_add` behind the checks. -/
theorem dirAdd_free (found : find Inode.sector dir v.openInodes = some inode) (fits : inode.data.Fits dev)
    (whole : inode.data.length / entrySize = cnt) (valid : ValidName name)
    (miss : ∀ m < cnt, entryFor (entryAt v.disk inode.data m) name = false)
    (scanned : scanEntries dev dir (fun e => !entryInUse e) (cnt + 1) (fun _ => 0) 0 v = .ok ((hit,ofs,e),v)) :
    dirAdd dev dir name sector v = (inodeWriteAt dev dir (fillEntry e name sector) entrySize ofs >>= fun n =>
      pure (n == entrySize)) v := by
  obtain ⟨ofs',e',absent⟩ := lookup_absent found fits whole miss
  unfold dirAdd
  rw [if_neg (valid_accepted valid)]
  refine (bind_go absent).trans ?_
  dsimp only
  rw [if_neg Bool.false_ne_true]
  refine (bind_go (entryBound_ok found whole)).trans ?_
  refine (bind_go scanned).trans ?_
  rfl

/-- The directory does not grow, so at most what is left behind the last entry is written. -/
theorem dirAdd_full (found : find Inode.sector dir v.openInodes = some inode) (allowed : inode.denyWriteCnt = 0)
    (fits : inode.data.Fits dev) (whole : inode.data.length / entrySize = cnt) (valid : ValidName name)
    (miss : ∀ m < cnt, entryFor (entryAt v.disk inode.data m) name = false)
    (full : ∀ m < cnt, entryInUse (entryAt v.disk inode.data m) = true) :
    ∃ e, dirAdd dev dir name sector v = .ok (false,{ v with
      disk := paste v.disk (inode.data.place (entrySize * cnt)) e 0 (inode.data.length - entrySize * cnt) }) := by
  have scanned : ∃ e, scanEntries dev dir (fun e => !entryInUse e) (cnt + 1) (fun _ => 0) 0 v =
      .ok ((false,entrySize * cnt,e),v) :=
    scanEntries_absent (k := 0) found fits whole (by omega) (by omega) (fun m _ high => by rw [full m high]; rfl)
      fun _ _ => rfl
  obtain ⟨e,scanned⟩ := scanned
  have size : min (entrySize : Int).toNat (inode.data.length - entrySize * cnt) = inode.data.length - entrySize * cnt ∧
      inode.data.length - entrySize * cnt ≠ entrySize := by
    rw [Int.toNat_natCast]
    simp only [entrySize] at *
    omega
  refine ⟨fillEntry e name sector,?_⟩
  rw [dirAdd_free found fits whole valid miss scanned,bind_go (inodeWriteAt_ok _ _ _ found allowed fits),size.1,
    beq_false_of_ne size.2]
  rfl

theorem dirAdd_ok (found : find Inode.sector dir v.openInodes = some inode) (allowed : inode.denyWriteCnt = 0)
    (fits : inode.data.Fits dev) (whole : inode.data.length / entrySize = cnt) (valid : ValidName name)
    (miss : ∀ m < cnt, entryFor (entryAt v.disk inode.data m) name = false) (inside : k < cnt)
    (free : entryInUse (entryAt v.disk inode.data k) = false)
    (first : ∀ m < k, entryInUse (entryAt v.disk inode.data m) = true) :
    dirAdd dev dir name sector v = .ok (true,{ v with
      disk := putEntry v.disk inode.data k (fillEntry (entryAt v.disk inode.data k) name sector) }) := by
  have scanned : scanEntries dev dir (fun e => !entryInUse e) (cnt + 1) (fun _ => 0) 0 v =
      .ok ((true,entrySize * k,entryAt v.disk inode.data k),v) :=
    scanEntries_found (k := 0) found fits whole inside (by omega) (by omega) (by rw [free]; rfl)
      (fun m _ high => by rw [first m high]; rfl) fun _ _ => rfl
  rw [dirAdd_free found fits whole valid miss scanned,bind_go (writeEntry_ok found allowed fits whole inside)]
  rw [beq_self_eq_true]
  rfl

/-! The directory as a whole. -/

/-- Entries that are in use have names of their own. -/
structure Slots (disk : Memory) (data : InodeDisk) (cnt : Nat) : Prop where
  valid : ∀ k < cnt, entryInUse (entryAt disk data k) = true →
    ∃ name, ValidName name ∧ entryNamed (entryAt disk data k) name = true
  unique : ∀ k < cnt, ∀ m < cnt, ∀ name, entryFor (entryAt disk data k) name = true →
    entryFor (entryAt disk data m) name = true → k = m

/-- The same directory on another disk. -/
theorem Slots.frame (slots : Slots disk data cnt) (same : ∀ k < cnt, entryAt disk' data k = entryAt disk data k) :
    Slots disk' data cnt where
  valid k inside := by
    rw [same k inside]
    exact slots.valid k inside
  unique k inside m inside' := by
    rw [same k inside,same m inside']
    exact slots.unique k inside m inside'

theorem entryFor_inUse (hit : entryFor e name = true) : entryInUse e = true ∧ entryNamed e name = true := by
  simpa [entryFor] using hit

theorem Slots.put (slots : Slots disk data cnt) (clean : Clean e)
    (valid : entryInUse e = true → ∃ name, ValidName name ∧ entryNamed e name = true)
    (new : ∀ name, entryFor e name = true → ∀ m < cnt, m ≠ k → entryFor (entryAt disk data m) name = false) :
    Slots (putEntry disk data k e) data cnt where
  valid m inside' := by
    by_cases same : m = k
    · rw [same,entryAt_put clean]
      exact valid
    · rw [entryAt_put_other same]
      exact slots.valid m inside'
  unique m inside' m' inside'' name first second := by
    by_cases same : m = k
    · by_cases same' : m' = k
      · rw [same,same']
      · rw [same,entryAt_put clean] at first
        rw [entryAt_put_other same',new name first m' inside'' same'] at second
        exact absurd second Bool.false_ne_true
    · rw [entryAt_put_other same] at first
      by_cases same' : m' = k
      · rw [same',entryAt_put clean] at second
        rw [new name second m inside' same] at first
        exact absurd first Bool.false_ne_true
      · rw [entryAt_put_other same'] at second
        exact slots.unique m inside' m' inside'' name first second

def lookupName (disk : Memory) (data : InodeDisk) (cnt : Nat) (name : CString) : Option Nat :=
  ((List.range cnt).find? fun k => entryFor (entryAt disk data k) name).map fun k => entrySector (entryAt disk data k)

theorem lookupName_some (slots : Slots disk data cnt) :
    lookupName disk data cnt name = some i ↔
      ∃ k < cnt, entryFor (entryAt disk data k) name = true ∧ entrySector (entryAt disk data k) = i := by
  unfold lookupName
  constructor
  · intro found
    obtain ⟨k,first,rfl⟩ := Option.map_eq_some_iff.mp found
    have hit := List.find?_some first
    exact ⟨k,List.mem_range.mp (List.mem_of_find?_eq_some first),hit,rfl⟩
  · rintro ⟨k,inside,hit,rfl⟩
    cases first : (List.range cnt).find? fun k => entryFor (entryAt disk data k) name with
    | none =>
      rw [List.find?_eq_none] at first
      exact absurd hit (first k (List.mem_range.mpr inside))
    | some m =>
      have earlier := List.find?_some first
      rw [slots.unique m (List.mem_range.mp (List.mem_of_find?_eq_some first)) k inside name earlier hit]
      rfl

theorem lookupName_none : lookupName disk data cnt name = none ↔
    ∀ k < cnt, entryFor (entryAt disk data k) name = false := by
  unfold lookupName
  rw [Option.map_eq_none_iff,List.find?_eq_none]
  simp

/-! Filling and erasing an entry each change one name. -/

theorem entryFor_other (hit : entryNamed e name = true) (different : other ≠ name) : entryFor e other = false := by
  by_contra found
  have found : entryFor e other = true := by simpa using found
  exact different (entryNamed_unique (entryFor_inUse found).2 hit)

theorem entryFor_free (free : entryInUse e = false) : entryFor e name = false := by
  rw [entryFor,free]
  rfl

/-- Names that neither the old nor the new entry has. -/
theorem lookupName_put (slots : Slots disk data cnt) (slots' : Slots (putEntry disk data k e) data cnt) (clean : Clean e)
    (before : entryFor (entryAt disk data k) name = false) (after : entryFor e name = false) :
    lookupName (putEntry disk data k e) data cnt name = lookupName disk data cnt name := by
  apply Option.ext
  intro i
  rw [lookupName_some slots',lookupName_some slots]
  constructor
  · rintro ⟨m,below,hit,sector⟩
    have different : m ≠ k := by
      rintro rfl
      rw [entryAt_put clean,after] at hit
      exact Bool.false_ne_true hit
    rw [entryAt_put_other different] at hit sector
    exact ⟨m,below,hit,sector⟩
  · rintro ⟨m,below,hit,sector⟩
    have different : m ≠ k := by
      rintro rfl
      rw [before] at hit
      exact Bool.false_ne_true hit
    rw [← entryAt_put_other different] at hit sector
    exact ⟨m,below,hit,sector⟩

section
variable (slots : Slots disk data cnt)
include slots

theorem Slots.fill (valid : ValidName name) (new : lookupName disk data cnt name = none) :
    Slots (putEntry disk data k (fillEntry (entryAt disk data k) name sector)) data cnt := by
  refine slots.put (fillEntry_clean valid entryAt_clean) (fun _ => ⟨name,valid,fillEntry_named valid⟩) ?_
  intro other hit m below _
  rw [← entryNamed_unique (fillEntry_named valid) (entryFor_inUse hit).2]
  exact lookupName_none.mp new m below

theorem Slots.erase : Slots (putEntry disk data k (eraseEntry (entryAt disk data k))) data cnt := by
  refine slots.put (eraseEntry_clean entryAt_clean) (fun used => ?_) fun other used => ?_
  · rw [eraseEntry_inUse] at used
    exact absurd used Bool.false_ne_true
  · rw [entryFor_free eraseEntry_inUse] at used
    exact absurd used Bool.false_ne_true

theorem lookupName_fill (valid : ValidName name) (new : lookupName disk data cnt name = none) (inside : k < cnt)
    (free : entryInUse (entryAt disk data k) = false) (small : sector < 4294967296) :
    lookupName (putEntry disk data k (fillEntry (entryAt disk data k) name sector)) data cnt =
      Function.update (lookupName disk data cnt) name (some sector) := by
  have slots' : Slots (putEntry disk data k (fillEntry (entryAt disk data k) name sector)) data cnt := slots.fill valid new
  have clean : Clean (fillEntry (entryAt disk data k) name sector) := fillEntry_clean valid entryAt_clean
  funext other
  by_cases same : other = name
  · subst same
    rw [Function.update_self,lookupName_some slots']
    refine ⟨k,inside,?_,?_⟩
    · rw [entryAt_put clean,entryFor,fillEntry_inUse,fillEntry_named valid]
      rfl
    · rw [entryAt_put clean]
      exact fillEntry_sector small
  · rw [Function.update_of_ne same]
    exact lookupName_put slots slots' clean (entryFor_free free) (entryFor_other (fillEntry_named valid) same)

theorem lookupName_erase (inside : k < cnt) (hit : entryFor (entryAt disk data k) name = true) :
    lookupName (putEntry disk data k (eraseEntry (entryAt disk data k))) data cnt =
      Function.update (lookupName disk data cnt) name none := by
  have clean : Clean (eraseEntry (entryAt disk data k)) := eraseEntry_clean entryAt_clean
  funext other
  by_cases same : other = name
  · subst same
    rw [Function.update_self,lookupName_none]
    intro m below
    by_cases here : m = k
    · rw [here,entryAt_put clean]
      exact entryFor_free eraseEntry_inUse
    · rw [entryAt_put_other here]
      by_contra found
      have found : entryFor (entryAt disk data m) other = true := by simpa using found
      exact here (slots.unique m below k inside other found hit)
  · rw [Function.update_of_ne same]
    exact lookupName_put slots slots.erase clean (entryFor_other (entryFor_inUse hit).2 same) (entryFor_free eraseEntry_inUse)

end

def named (disk : Memory) (data : InodeDisk) (cnt : Nat) : List Nat :=
  ((List.range cnt).filter fun k => entryInUse (entryAt disk data k)).map fun k => entrySector (entryAt disk data k)

theorem mem_named : i ∈ named disk data cnt ↔
    ∃ k < cnt, entryInUse (entryAt disk data k) = true ∧ entrySector (entryAt disk data k) = i := by
  simp [named,and_assoc]

/-- One more index that is chosen. -/
theorem filter_one_more {p q : Nat → Bool} {f g : Nat → Nat} (inside : k < cnt) (before : p k = false)
    (after : q k = true) (chosen : ∀ m, m ≠ k → q m = p m) (same : ∀ m, m ≠ k → g m = f m) :
    (((List.range cnt).filter q).map g).Perm (g k :: ((List.range cnt).filter p).map f) := by
  induction cnt with
  | zero => omega
  | succ cnt ih =>
    rw [List.range_succ,List.filter_append,List.filter_append,List.map_append,List.map_append]
    by_cases last : k = cnt
    · subst last
      have front : ((List.range k).filter q).map g = ((List.range k).filter p).map f := by
        rw [List.filter_congr fun m member => chosen m (Nat.ne_of_lt (List.mem_range.mp member))]
        apply List.map_congr_left
        intro m member
        exact same m (Nat.ne_of_lt (List.mem_range.mp (List.mem_filter.mp member).1))
      rw [front,List.filter_singleton,List.filter_singleton,before,after]
      simp only [cond_true,cond_false,List.map_cons,List.map_nil,List.append_nil]
      exact List.perm_append_singleton _ _
    · have other : cnt ≠ k := Ne.symm last
      have tail : ([cnt].filter q).map g = ([cnt].filter p).map f := by
        rw [List.filter_singleton,List.filter_singleton,chosen cnt other]
        cases p cnt
        · rfl
        · simp [same cnt other]
      rw [tail]
      exact (ih (by omega)).append_right _

theorem named_fill (inside : k < cnt) (clean : Clean e) (free : entryInUse (entryAt disk data k) = false)
    (used : entryInUse e = true) :
    (named (putEntry disk data k e) data cnt).Perm (entrySector e :: named disk data cnt) := by
  have put : entryAt (putEntry disk data k e) data k = e := entryAt_put clean
  have perm := filter_one_more (p := fun m => entryInUse (entryAt disk data m))
    (q := fun m => entryInUse (entryAt (putEntry disk data k e) data m))
    (f := fun m => entrySector (entryAt disk data m))
    (g := fun m => entrySector (entryAt (putEntry disk data k e) data m)) inside free (by simpa only [put] using used)
    (fun m other => by rw [entryAt_put_other other]) fun m other => by rw [entryAt_put_other other]
  simp only [put] at perm
  exact perm

theorem named_erase (inside : k < cnt) (clean : Clean e) (used : entryInUse (entryAt disk data k) = true)
    (free : entryInUse e = false) :
    (named disk data cnt).Perm (entrySector (entryAt disk data k) :: named (putEntry disk data k e) data cnt) := by
  have put : entryAt (putEntry disk data k e) data k = e := entryAt_put clean
  exact filter_one_more (p := fun m => entryInUse (entryAt (putEntry disk data k e) data m))
    (q := fun m => entryInUse (entryAt disk data m))
    (f := fun m => entrySector (entryAt (putEntry disk data k e) data m))
    (g := fun m => entrySector (entryAt disk data m)) inside (by simpa only [put] using free) used
    (fun m other => by rw [entryAt_put_other other]) fun m other => by rw [entryAt_put_other other]

end

end OsProj.FileSys
