import OsProj.FileSysDirOpen
import OsProj.FileSysRuns

/-! A directory as a map from names to sectors, over any calls. -/
namespace OsProj.FileSys

open OsProj.Bitmap OsProj.ByteMemory OsProj.Faulting OsProj.Keyed

section
variable {dev : Device} {v v' : Volume} {data : InodeDisk} {disk disk' : Memory} {name : CString} {inode x : Inode}

/-! Other inodes that are opened, marked and closed. -/

/-- An inode is open in both lists, at least as often in the second one. -/
def Stays (j : Nat) (l l' : List Inode) : Prop :=
  ∀ inode, find Inode.sector j l = some inode → 0 < inode.openCnt → ∃ inode', find Inode.sector j l' = some inode' ∧
    inode.openCnt ≤ inode'.openCnt ∧ inode'.denyWriteCnt = inode.denyWriteCnt ∧ inode'.data = inode.data

theorem DirOpen.frame (opened : DirOpen dev v dir data) (stays : ∀ j, Stays j v.openInodes v'.openInodes)
    (file : v'.freeMapFile = v.freeMapFile) : DirOpen dev v' dir data where
  inode := by
    obtain ⟨inode,found,used,allowed,same⟩ := opened.inode
    obtain ⟨inode',found',more,deny,data'⟩ := stays dir inode found used
    exact ⟨inode',found',by omega,deny.trans allowed,data'.trans same⟩
  fits := opened.fits
  map m saved := by
    rw [file] at saved
    obtain ⟨inode,found,used,fits,apart⟩ := opened.map m saved
    obtain ⟨inode',found',more,-,data'⟩ := stays m inode found used
    rw [← data'] at fits apart
    exact ⟨inode',found',by omega,fits,apart⟩

theorem stays_refl : Stays j l l := fun inode found _ => ⟨inode,found,Nat.le_refl _,rfl,rfl⟩

theorem find_openList_other (other : j ≠ i) : find Inode.sector j (openList l i data) = find Inode.sector j l := by
  unfold openList
  split
  · exact find_update_other (fun _ => rfl) other
  · rw [find_cons,if_neg (Ne.symm other)]

theorem find_openList_open (found : find Inode.sector i l = some inode) :
    find Inode.sector i (openList l i data) = some { inode with openCnt := inode.openCnt + 1 } := by
  unfold openList
  rw [if_pos (by rw [found]; rfl),find_update (f := fun inode : Inode => { inode with openCnt := inode.openCnt + 1 }),found]
  · rfl
  · exact fun _ => rfl

theorem find_openList_new (absent : find Inode.sector i l = none) :
    find Inode.sector i (openList l i data) = some ⟨i,1,false,0,data⟩ := by
  unfold openList
  rw [if_neg (by rw [absent]; exact Bool.false_ne_true),find_cons,if_pos rfl]

theorem stays_opened : Stays j l (openList l i data) := by
  intro inode found used
  by_cases same : j = i
  · subst same
    exact ⟨_,find_openList_open found,Nat.le_succ _,rfl,rfl⟩
  · refine ⟨inode,?_,Nat.le_refl _,rfl,rfl⟩
    rw [find_openList_other same]
    exact found

/-- The inode of an entry while it is removed: opened, marked and closed. -/
def markList (l : List Inode) (i : Nat) : List Inode :=
  update Inode.sector i (fun inode => { inode with removed := true }) l

theorem find_markList : find Inode.sector j (markList l i) =
    (find Inode.sector j l).map fun inode => if j = i then { inode with removed := true } else inode := by
  by_cases same : j = i
  · subst same
    simp only [if_true]
    exact find_update fun _ => rfl
  · simp only [same,if_false,Option.map_id']
    exact find_update_other (fun _ => rfl) same

theorem stays_visited (opened : find Inode.sector i (openList l i data) = some x) :
    Stays j l (closeList (markList (openList l i data) i) { x with removed := true }) := by
  intro inode found used
  have sector : x.sector = i := (find_key opened).2
  by_cases same : j = i
  · subst same
    obtain rfl := Option.some.inj ((find_openList_open found).symm.trans opened)
    refine ⟨{ inode with removed := true },?_,Nat.le_refl _,rfl,rfl⟩
    obtain rfl : inode.sector = j := sector
    have marked : find Inode.sector inode.sector (markList (openList l inode.sector data) inode.sector) =
        some { inode with openCnt := inode.openCnt + 1, removed := true } := by
      rw [find_markList,opened]
      simp
    unfold closeList
    rw [if_pos (show 1 < inode.openCnt + 1 by omega)]
    rw [find_update (f := fun inode : Inode => { inode with openCnt := inode.openCnt - 1 }),marked]
    · rfl
    · exact fun _ => rfl
  · have before : find Inode.sector j (markList (openList l i data) i) = some inode := by
      rw [find_markList,find_openList_other same,found]
      simp [same]
    refine ⟨inode,?_,Nat.le_refl _,rfl,rfl⟩
    unfold closeList
    have other : j ≠ x.sector := by
      rw [sector]
      exact same
    split
    · rw [find_update_other (f := fun inode : Inode => { inode with openCnt := inode.openCnt - 1 })]
      · exact before
      · exact fun _ => rfl
      · exact other
    · rw [find_remove_other]
      · exact before
      · exact other

/-! Giving sectors back. -/

/-- Writing the free map does not touch the bytes of the directory. -/
theorem DirOpen.saved (opened : DirOpen dev v dir data) (file : v.freeMapFile = some m) :
    ∃ (n : Nat) (disk : Memory), bitmapWrite dev m v = .ok (n == byteCnt dev.size,{ v with disk := disk }) ∧
      SameData data v.disk disk := by
  obtain ⟨map,found,-,fits,apart⟩ := opened.map m file
  have written : ∃ (n : Nat) (disk : Memory), inodeWriteAt dev m (bitmapByte v.freeMap) (byteCnt dev.size) 0 v =
      .ok (n,{ v with disk := disk }) ∧ SameData data v.disk disk := by
    by_cases allowed : map.denyWriteCnt = 0
    · refine ⟨_,_,inodeWriteAt_ok _ _ _ found allowed fits,fun pos inside => paste_outside _ _ _ ?_⟩
      by_contra reached
      push Not at reached
      have low : data.place pos - map.data.place 0 < map.data.length := by omega
      apply apart _ low pos inside
      simp only [InodeDisk.place] at *
      omega
    · exact ⟨0,v.disk,inodeWriteAt_denied found allowed,.refl⟩
  obtain ⟨n,disk,written,same⟩ := written
  exact ⟨n,disk,(bind_go rfl).trans (bind_go written),same⟩

theorem DirOpen.saveMap (opened : DirOpen dev v dir data)
    (done : freeMapWrite dev (throw .dangling) v = .ok (r,v')) : DirOpen dev v' dir data ∧ SameData data v.disk v'.disk := by
  unfold freeMapWrite at done
  split at done
  · cases done
  · rename_i m file
    obtain ⟨n,disk,written,same⟩ := opened.saved file
    rw [written] at done
    obtain rfl := (Prod.mk.inj (Except.ok.inj done)).2
    exact ⟨opened.frame (fun _ => stays_refl) rfl,same⟩

/-- Whatever is released, the bytes of the directory stay. -/
theorem DirOpen.release (opened : DirOpen dev v dir data) (done : freeMapRelease dev sector cnt v = .ok ((),v')) :
    DirOpen dev v' dir data ∧ SameData data v.disk v'.disk := by
  obtain ⟨⟨⟩,v₁,asserted,next⟩ := bind_ok.mp (get_bind.mp done)
  unfold assert at asserted
  split at asserted
  · obtain rfl := (Prod.mk.inj (Except.ok.inj asserted)).2
    obtain ⟨saved,v₂,written,last⟩ := bind_ok.mp (modify_bind.mp next)
    obtain rfl := (Prod.mk.inj (Except.ok.inj last)).2
    have opened₁ : DirOpen dev { v with freeMap := setMultiple v.freeMap sector cnt false } dir data :=
      opened.frame (fun _ => stays_refl) rfl
    exact opened₁.saveMap written
  · cases asserted

/-- A release of sectors that are allocated goes through. -/
theorem DirOpen.release_ok (opened : DirOpen dev v dir data) (file : v.freeMapFile = some m)
    (on : sector + cnt ≤ dev.size) (marked : ∀ x, sector ≤ x → x < sector + cnt → v.freeMap x = true) :
    ∃ disk, freeMapRelease dev sector cnt v =
      .ok ((),{ v with disk := disk, freeMap := setMultiple v.freeMap sector cnt false }) := by
  have asserted : assert (decide (sector + cnt ≤ dev.size) && all v.freeMap sector cnt) v = .ok ((),v) := by
    refine if_pos ?_
    rw [Bool.and_eq_true,decide_eq_true_eq,all_iff]
    exact ⟨on,marked⟩
  have opened₁ : DirOpen dev { v with freeMap := setMultiple v.freeMap sector cnt false } dir data :=
    opened.frame (fun _ => stays_refl) rfl
  obtain ⟨n,disk,saved,-⟩ := opened₁.saved file
  have written : freeMapWrite dev (throw .dangling) { v with freeMap := setMultiple v.freeMap sector cnt false } =
      bitmapWrite dev m { v with freeMap := setMultiple v.freeMap sector cnt false } := by
    simp only [freeMapWrite,file]
  exact ⟨disk,(bind_go rfl).trans ((bind_go asserted).trans ((bind_go rfl).trans (bind_go (written.trans saved))))⟩

/-! Removing. -/

/-- Closing an inode whose last reference may have its sectors released. -/
theorem DirOpen.closed (opened : DirOpen dev { v with openInodes := closeList v.openInodes inode } dir data)
    (found : find Inode.sector i v.openInodes = some inode) (done : inodeClose dev i v = .ok ((),v')) :
    DirOpen dev v' dir data ∧ SameData data v.disk v'.disk := by
  by_cases stays : 1 < inode.openCnt ∨ inode.removed = false
  · rw [inodeClose_plain found stays] at done
    obtain rfl := (Prod.mk.inj (Except.ok.inj done)).2
    exact ⟨opened,.refl⟩
  · obtain ⟨last,removed⟩ := not_or.mp stays
    rw [inodeClose_last found last (by simpa using removed)] at done
    obtain ⟨⟨⟩,v₁,first,second⟩ := bind_ok.mp done
    obtain ⟨opened₁,same₁⟩ := opened.release first
    obtain ⟨opened₂,same₂⟩ := opened₁.release second
    exact ⟨opened₂,same₁.trans same₂⟩

theorem find_opened (l : List Inode) (i : Nat) (data : InodeDisk) : ∃ x, find Inode.sector i (openList l i data) = some x := by
  cases found : find Inode.sector i l with
  | none => exact ⟨_,find_openList_new found⟩
  | some inode => exact ⟨_,find_openList_open found⟩

/-- The volume between the writing of the entry and the closing of its inode. -/
def Volume.erasing (v : Volume) (data : InodeDisk) (k : Nat) : Volume :=
  let i := entrySector (entryAt v.disk data k)
  { v with
    disk := putEntry v.disk data k (eraseEntry (entryAt v.disk data k))
    openInodes := markList (openList v.openInodes i (onDisk v.disk i)) i }

/-- The steps of a removal up to the closing. -/
theorem DirOpen.dirRemove_eq (opened : DirOpen dev v dir data) (inside : k < slotCount data)
    (looked : lookup dev dir name v = .ok ((true,entrySize * k,entryAt v.disk data k),v))
    (opening : inodeOpen dev (entrySector (entryAt v.disk data k)) v = .ok ((),v₁)) :
    dirRemove dev dir name v =
      (inodeClose dev (entrySector (entryAt v.disk data k)) >>= fun _ => pure true) (v.erasing data k) := by
  obtain rfl := inodeOpen_returned opening
  let v₁ : Volume := { v with
    openInodes := openList v.openInodes (entrySector (entryAt v.disk data k))
      (onDisk v.disk (entrySector (entryAt v.disk data k))) }
  have after : DirOpen dev v₁ dir data := opened.frame (fun _ => stays_opened) rfl
  obtain ⟨inode,found,-,allowed,rfl⟩ := after.inode
  have written := writeEntry_ok (e := eraseEntry (entryAt v.disk inode.data k)) found allowed opened.fits rfl inside
  refine (bind_go looked).trans ?_
  dsimp only
  rw [if_pos rfl]
  refine (bind_go opening).trans ((bind_go written).trans ?_)
  rw [if_neg (not_not_intro rfl)]
  exact bind_go rfl

/-- The inode of an entry that is removed, and the directory once it is closed. -/
theorem DirOpen.erasing (opened : DirOpen dev v dir data) (k : Nat) :
    ∃ x, find Inode.sector (entrySector (entryAt v.disk data k)) (v.erasing data k).openInodes =
        some { x with removed := true } ∧
      find Inode.sector (entrySector (entryAt v.disk data k)) (openList v.openInodes (entrySector (entryAt v.disk data k))
        (onDisk v.disk (entrySector (entryAt v.disk data k)))) = some x ∧
      DirOpen dev { v.erasing data k with
        openInodes := closeList (v.erasing data k).openInodes { x with removed := true } } dir data := by
  obtain ⟨x,found⟩ := find_opened v.openInodes (entrySector (entryAt v.disk data k))
    (onDisk v.disk (entrySector (entryAt v.disk data k)))
  refine ⟨x,?_,found,opened.frame (fun _ => stays_visited found) rfl⟩
  change find Inode.sector _ (markList _ _) = _
  rw [find_markList,found]
  simp

/-- A removal that returns has erased the entry of the name and no other. -/
theorem DirOpen.removed (opened : DirOpen dev v dir data) (slots : Slots v.disk data (slotCount data))
    (here : lookupName v.disk data (slotCount data) name = some i) (done : dirRemove dev dir name v = .ok (success,v')) :
    success = true ∧ DirOpen dev v' dir data ∧ ∃ k < slotCount data, entryFor (entryAt v.disk data k) name = true ∧
      SameData data (putEntry v.disk data k (eraseEntry (entryAt v.disk data k))) v'.disk := by
  obtain ⟨k,inside,hit,rfl,looked⟩ := opened.lookup_some slots here
  have next := (bind_go looked).symm.trans done
  obtain ⟨⟨⟩,v₁,opening,-⟩ := bind_ok.mp next
  rw [opened.dirRemove_eq inside looked opening] at done
  obtain ⟨⟨⟩,v₂,closing,last⟩ := bind_ok.mp done
  obtain ⟨rfl,rfl⟩ := Prod.mk.inj (Except.ok.inj last)
  obtain ⟨x,marked,-,after⟩ := opened.erasing k
  obtain ⟨opened',same⟩ := after.closed marked closing
  exact ⟨rfl,opened',k,inside,hit,same⟩

theorem DirOpen.dirRemove_none (opened : DirOpen dev v dir data)
    (absent : lookupName v.disk data (slotCount data) name = none) : dirRemove dev dir name v = .ok (false,v) := by
  obtain ⟨ofs,e,looked⟩ := opened.lookup_none absent
  refine (bind_go looked).trans ?_
  dsimp only
  rw [if_neg Bool.false_ne_true]
  rfl

def Removable (dev : Device) (v : Volume) (i : Nat) : Prop :=
  (∃ inode, find Inode.sector i v.openInodes = some inode ∧ 0 < inode.openCnt) ∨
    find Inode.sector i v.openInodes = none ∧ v.freeMapFile ≠ none ∧ i < dev.size ∧ v.freeMap i = true ∧
      (onDisk v.disk i).start + (onDisk v.disk i).sectors ≤ dev.size ∧
      ∀ x, (onDisk v.disk i).Has x → x ≠ i ∧ v.freeMap x = true

theorem DirOpen.dirRemove_ok (opened : DirOpen dev v dir data) (slots : Slots v.disk data (slotCount data))
    (here : lookupName v.disk data (slotCount data) name = some i) (removable : Removable dev v i) :
    ∃ v', dirRemove dev dir name v = .ok (true,v') := by
  obtain ⟨k,inside,hit,rfl,looked⟩ := opened.lookup_some slots here
  obtain ⟨x,marked,found,after⟩ := opened.erasing k
  have finish v₁ v₂ (opening : inodeOpen dev (entrySector (entryAt v.disk data k)) v = .ok ((),v₁))
      (closing : inodeClose dev (entrySector (entryAt v.disk data k)) (v.erasing data k) = .ok ((),v₂)) :
      ∃ v', dirRemove dev dir name v = .ok (true,v') := by
    rw [opened.dirRemove_eq inside looked opening,bind_go closing]
    exact ⟨_,rfl⟩
  rcases removable with ⟨inode,open_,used⟩ | ⟨closed,saved,on,allocated,ends,run⟩
  · have opening : inodeOpen dev (entrySector (entryAt v.disk data k)) v =
        .ok ((),v.updateInode (entrySector (entryAt v.disk data k)) fun inode =>
          { inode with openCnt := inode.openCnt + 1 }) := by
      refine (bind_go rfl).trans ?_
      rw [if_pos (by rw [open_]; rfl)]
      rfl
    have counted : x.openCnt = inode.openCnt + 1 := by
      rw [find_openList_open open_] at found
      rw [← Option.some.inj found]
    exact finish _ _ opening (inodeClose_plain marked (.inl (by dsimp only; omega)))
  · obtain rfl := Option.some.inj ((find_openList_new closed).symm.trans found)
    obtain ⟨m,file⟩ := Option.ne_none_iff_exists'.mp saved
    have marked₁ x (low : entrySector (entryAt v.disk data k) ≤ x) (high : x < entrySector (entryAt v.disk data k) + 1) :
        v.freeMap x = true := by
      rw [show x = entrySector (entryAt v.disk data k) by omega]
      exact allocated
    obtain ⟨disk,first⟩ := after.release_ok file on marked₁
    obtain ⟨opened₁,-⟩ := after.release first
    obtain ⟨disk',second⟩ := opened₁.release_ok file ends fun x low high => by
      obtain ⟨other,bit⟩ := run x ⟨low,high⟩
      exact (setMultiple_outside (by omega)).trans bit
    have closing : inodeClose dev (entrySector (entryAt v.disk data k)) (v.erasing data k) = _ :=
      inodeClose_last marked (by dsimp only; omega) rfl
    exact finish _ _ (inodeOpen_ok on) (closing.trans ((bind_go first).trans second))

end

/-! Runs. -/

inductive DirEvent where
  | added (name : CString) (sector : Nat) (success : Bool)
  | removed (name : CString) (success : Bool)
  | lookedUp (name : CString) (inode : Option Nat)

/-- The sector last added for a name and not removed again, newest events first. -/
def latest : List DirEvent → CString → Option Nat
  | [] => fun _ => none
  | .added name sector true :: h => Function.update (latest h) name (some sector)
  | .removed name true :: h => Function.update (latest h) name none
  | _ :: h => latest h

/-- Calls on an open directory, which is empty at first. Calls on other files may come in between. -/
inductive DirRun (dev : Device) (dir : Nat) (data : InodeDisk) : List DirEvent → Volume → Prop where
  | empty : DirOpen dev v dir data → (∀ k < slotCount data, entryInUse (entryAt v.disk data k) = false) →
      DirRun dev dir data [] v
  | dirAdd : DirRun dev dir data h v → sector < 4294967296 → dirAdd dev dir name sector v = .ok (success,v') →
      DirRun dev dir data (.added name sector success :: h) v'
  | dirRemove : DirRun dev dir data h v → dirRemove dev dir name v = .ok (success,v') →
      DirRun dev dir data (.removed name success :: h) v'
  | dirLookup : DirRun dev dir data h v → dirLookup dev dir name v = .ok (inode,v') →
      DirRun dev dir data (.lookedUp name inode :: h) v'
  | elsewhere : DirRun dev dir data h v → DirOpen dev v' dir data → SameData data v.disk v'.disk → DirRun dev dir data h v'

/-- The entries in use have names of their own, and are those of a map. -/
structure DirInv (dev : Device) (v : Volume) (dir : Nat) (data : InodeDisk) (map : CString → Option Nat) : Prop where
  opened : DirOpen dev v dir data
  slots : Slots v.disk data (slotCount data)
  names : lookupName v.disk data (slotCount data) = map

section
variable {dev : Device} {v v' : Volume} {data : InodeDisk} {name : CString} {map : CString → Option Nat}

theorem DirInv.same (inv : DirInv dev v dir data map) (opened : DirOpen dev v' dir data)
    (same : ∀ k < slotCount data, entryAt v'.disk data k = entryAt v.disk data k) : DirInv dev v' dir data map :=
  ⟨opened,inv.slots.frame same,(funext fun _ => lookupName_congr inv.slots same).trans inv.names⟩

/-- What a call of `dir_add` returns and does. -/
theorem DirInv.added (inv : DirInv dev v dir data map) (name : CString) (small : sector < 4294967296) :
    ∃ success v', dirAdd dev dir name sector v = .ok (success,v') ∧
      (success = true ↔ ValidName name ∧ map name = none ∧
        ∃ k < slotCount data, entryInUse (entryAt v.disk data k) = false) ∧
      EntryChanged data v.disk v'.disk (fun e => entryInUse e = false) success ∧
      DirInv dev v' dir data (if success then Function.update map name (some sector) else map) := by
  obtain ⟨opened,slots,rfl⟩ := inv
  by_cases placed : ValidName name ∧ lookupName v.disk data (slotCount data) name = none ∧
      ∃ k < slotCount data, entryInUse (entryAt v.disk data k) = false
  · obtain ⟨valid,new,j,inside,free⟩ := placed
    obtain ⟨k,inside,unused,done⟩ := opened.dirAdd_done sector valid new inside free
    refine ⟨true,_,done,iff_of_true rfl ⟨valid,new,k,inside,unused⟩,?_,?_⟩
    · exact ⟨k,inside,unused,fun m below other => entryAt_put_other other⟩
    · exact ⟨opened.frame (fun _ => stays_refl) rfl,slots.fill valid new,lookupName_fill slots valid new inside unused small⟩
  · obtain ⟨disk,done,same⟩ := opened.dirAdd_refused slots sector placed
    refine ⟨false,_,done,iff_of_false Bool.false_ne_true placed,same,?_⟩
    exact DirInv.same ⟨opened,slots,rfl⟩ (opened.frame (fun _ => stays_refl) rfl) same

/-- What a call of `dir_remove` that returns has done. -/
theorem DirInv.removed (inv : DirInv dev v dir data map) (done : dirRemove dev dir name v = .ok (success,v')) :
    success = (map name).isSome ∧ EntryChanged data v.disk v'.disk (fun e => entryFor e name = true) success ∧
      DirInv dev v' dir data (if success then Function.update map name none else map) := by
  have before := inv
  obtain ⟨opened,slots,rfl⟩ := inv
  cases here : lookupName v.disk data (slotCount data) name with
  | none =>
    obtain ⟨rfl,rfl⟩ := Prod.mk.inj (Except.ok.inj ((opened.dirRemove_none here).symm.trans done))
    exact ⟨rfl,fun _ _ => rfl,before⟩
  | some i =>
    obtain ⟨rfl,opened',k,inside,hit,same⟩ := opened.removed slots here done
    have erased m (below : m < slotCount data) := same.entry below
    refine ⟨rfl,⟨k,inside,hit,fun m below other => (erased m below).trans (entryAt_put_other other)⟩,opened',?_,?_⟩
    · exact slots.erase.frame erased
    · exact (funext fun _ => lookupName_congr slots.erase erased).trans (lookupName_erase slots inside hit)

theorem DirInv.found (inv : DirInv dev v dir data map) (done : dirLookup dev dir name v = .ok (inode,v')) :
    inode = map name ∧ v'.disk = v.disk ∧ DirInv dev v' dir data map := by
  have before := inv
  obtain ⟨opened,slots,rfl⟩ := inv
  cases here : lookupName v.disk data (slotCount data) name with
  | none =>
    obtain ⟨ofs,e,looked⟩ := opened.lookup_none here
    obtain ⟨rfl,rfl⟩ := Prod.mk.inj (Except.ok.inj ((bind_go looked).symm.trans done))
    exact ⟨rfl,rfl,before⟩
  | some i =>
    obtain ⟨k,inside,hit,rfl,looked⟩ := opened.lookup_some slots here
    obtain ⟨⟨⟩,v₁,opening,last⟩ := bind_ok.mp ((bind_go looked).symm.trans done)
    obtain ⟨rfl,rfl⟩ := Prod.mk.inj (Except.ok.inj last)
    obtain rfl := inodeOpen_returned opening
    exact ⟨rfl,rfl,before.same (opened.frame (fun _ => stays_opened) rfl) fun _ _ => rfl⟩

theorem DirRun.inv (run : DirRun dev dir data h v) : DirInv dev v dir data (latest h) := by
  induction run with
  | empty opened free =>
    refine ⟨opened,⟨fun k inside used => ?_,fun k inside m _ name hit => ?_⟩,?_⟩
    · rw [free k inside] at used
      contradiction
    · rw [entryFor_free (free k inside)] at hit
      contradiction
    · exact funext fun name => lookupName_none.mpr fun k inside => entryFor_free (free k inside)
  | dirAdd _ small done ih =>
    obtain ⟨success,v₁,done',-,-,inv⟩ := ih.added _ small
    obtain ⟨rfl,rfl⟩ := Prod.mk.inj (Except.ok.inj (done'.symm.trans done))
    cases success
    · exact inv
    · exact inv
  | @dirRemove h v name success v' _ done ih =>
    obtain ⟨-,-,inv⟩ := ih.removed done
    cases success
    · exact inv
    · exact inv
  | dirLookup _ done ih => exact (ih.found done).2.2
  | elsewhere _ opened same ih => exact ih.same opened fun k inside => same.entry inside

/-! Directories to begin with. -/

/-- The data of two objects have no byte in common. -/
theorem Layout.bytes_apart {objects : List Nat} (layout : Layout dev disk bits objects) (first : i ∈ objects)
    (second : j ∈ objects) (other : i ≠ j) : DataApart (onDisk disk i) (onDisk disk j) := by
  intro pos inside pos' inside' same
  have sector := congrArg (· / blockSectorSize) same
  simp only [place_sector] at sector
  have mine := layout.has first inside
  have theirs := layout.has second inside'
  rw [sector] at mine
  exact layout.data_apart first second other mine theirs

/-- Without names there are no entries in use. -/
theorem Slots.unused (slots : Slots disk data cnt) (empty : ∀ name, lookupName disk data cnt name = none) (inside : k < cnt) :
    entryInUse (entryAt disk data k) = false := by
  by_contra taken
  have taken : entryInUse (entryAt disk data k) = true := by simpa using taken
  obtain ⟨name,-,hit⟩ := slots.valid k inside taken
  have miss := lookupName_none.mp (empty name) k inside
  rw [entryFor,taken,hit] at miss
  contradiction

/-- The root directory of a formatted volume, once it is open, while it has no names. -/
theorem Inv.rootRun (inv : Inv dev v extra) (held : 0 < extra 1) (empty : ∀ name, v.inodeOf name = none) :
    DirRun dev 1 (onDisk v.disk 1) [] v := by
  obtain ⟨inode,found,allowed,same⟩ := inv.kernel_inode held (.inr rfl)
  obtain ⟨map,mapFound,-,mapSame⟩ := inv.mapOpen.inode
  refine .empty ⟨⟨inode,found,inv.table.used inode (find_key found).1,allowed,same⟩,inv.fits root_member,?_⟩ ?_
  · intro m file
    obtain rfl := Option.some.inj (inv.mapFile.symm.trans file)
    refine ⟨map,mapFound,inv.table.used map (find_key mapFound).1,?_,?_⟩
    all_goals rw [mapSame]
    · exact inv.fits map_member
    · exact inv.layout.bytes_apart map_member root_member Nat.zero_ne_one
  · intro k inside
    rw [slotCount,inv.rootSlots] at inside
    exact inv.slots.unused empty inside

/-- A new object whose bytes are zero, once it is open. -/
theorem Inv.emptyRun (inv : Inv dev v extra) (layout : Layout dev v.disk v.freeMap (i :: v.objects))
    (zeros : v.bytesOf i = List.replicate (onDisk v.disk i).length 0) :
    ∃ v', FileSys.inodeOpen dev i v = .ok ((),v') ∧ DirRun dev i (onDisk v.disk i) [] v' := by
  have here : i ∈ i :: v.objects := List.mem_cons_self
  have absent : i ∉ v.objects := (List.nodup_cons.mp layout.nodup).1
  have closed : find Inode.sector i v.openInodes = none := by
    apply find_none
    intro listed
    obtain ⟨inode,member,rfl⟩ := List.mem_map.mp listed
    exact absent (inv.alive inode member)
  obtain ⟨map,mapFound,-,mapSame⟩ := inv.mapOpen.inode
  have zero : 0 ≠ i := fun same => absent (same ▸ map_member)
  refine ⟨_,inodeOpen_ok (layout.marked i here i (.inl rfl)).1,.empty ⟨?_,layout.fits here,?_⟩ ?_⟩
  · exact ⟨_,find_openList_new closed,Nat.one_pos,rfl,rfl⟩
  · intro m file
    obtain rfl := Option.some.inj (inv.mapFile.symm.trans file)
    refine ⟨map,(find_openList_other zero).trans mapFound,inv.table.used map (find_key mapFound).1,?_,?_⟩
    all_goals rw [mapSame]
    · exact inv.fits map_member
    · exact layout.bytes_apart (List.mem_cons_of_mem _ map_member) here zero
  · intro k inside
    have whole := slot_inside inside
    have low : entrySize * k + 19 < (onDisk v.disk i).length := by
      simp only [entrySize] at *
      omega
    have byte : v.disk ((onDisk v.disk i).place (entrySize * k + 19)) = 0 := by
      refine (content_getD low).symm.trans ?_
      change (v.bytesOf i).getD _ 0 = 0
      rw [zeros]
      simp [low]
    rw [entryInUse,entryAt_byte (by decide)]
    simpa using byte

/-- A directory that `dir_create` has made in an allocated sector, with room for any number of entries. -/
theorem Inv.createdRun (inv : Inv dev v extra) (fresh : Fresh dev v.disk v.freeMap v.objects i)
    (short : cnt * entrySize < 2147483648) (done : dirCreate dev i cnt v = .ok (true,v₁)) :
    ∃ v₂ data, FileSys.inodeOpen dev i v₁ = .ok ((),v₂) ∧ slotCount data = cnt ∧ DirRun dev i data [] v₂ := by
  cases run : scan v.freeMap dev.size 0 (bytesToSectors (cnt * entrySize)) false with
  | none =>
    have none : dirCreate dev i cnt v = .ok (false,v) := inodeCreate_none run
    cases none.symm.trans done
  | some start =>
    generalize same : (⟨start,cnt * entrySize⟩ : InodeDisk) = data
    have made : dirCreate dev i cnt v = .ok (true,v.create dev i data) := by
      rw [← same]
      exact inodeCreate_some inv.mapOpen (inv.fits map_member) fresh.on run
    obtain rfl := (Prod.mk.inj (Except.ok.inj (made.symm.trans done))).2
    have length : data.length = cnt * entrySize := by rw [← same]
    have free : scan v.freeMap dev.size 0 data.sectors false = some data.start := by
      rw [← same]
      exact run
    rw [← length] at short
    obtain ⟨inv',-,layout⟩ := inv.create data fresh free short
    have new : onDisk (v.create dev i data).disk i = data := newest_onDisk data fresh free short
    have sectors := layout.sectors List.mem_cons_self
    rw [new] at sectors
    have zeros : (v.create dev i data).bytesOf i = List.replicate data.length 0 := by
      change content _ (onDisk _ i) = _
      rw [new]
      exact newObject_content (by rw [sectors]; simp only [blockSectorSize]; omega)
    obtain ⟨v₂,opened,empty⟩ := inv'.emptyRun layout (by rw [new]; exact zeros)
    rw [new] at empty
    refine ⟨v₂,data,opened,?_,empty⟩
    rw [slotCount,length]
    exact Nat.mul_div_cancel _ (by decide)

/-! The map. -/

theorem DirInv.own_names (inv : DirInv dev v dir data map) (inside : k < slotCount data)
    (used : entryInUse (entryAt v.disk data k) = true) : ∃ name, ValidName name ∧
      entryName (entryAt v.disk data k) = name.val ∧ ∀ m < slotCount data, entryInUse (entryAt v.disk data m) = true →
        entryName (entryAt v.disk data m) = name.val → m = k := by
  obtain ⟨name,valid,hit,same⟩ := inv.slots.name_of inside used
  refine ⟨name,valid,same,fun m inside' used' same' => ?_⟩
  obtain ⟨name',-,hit',other⟩ := inv.slots.name_of inside' used'
  have equal : name' = name := Subtype.ext (other.symm.trans same')
  rw [equal] at hit'
  exact inv.slots.unique m inside' k inside name hit' hit

theorem DirInv.looked (inv : DirInv dev v dir data map) (name : CString) :
    ∃ ofs e, lookup dev dir name v = .ok (((map name).isSome,ofs,e),v) ∧ ∀ i, map name = some i → entrySector e = i := by
  obtain ⟨opened,slots,rfl⟩ := inv
  cases here : lookupName v.disk data (slotCount data) name with
  | none =>
    obtain ⟨ofs,e,looked⟩ := opened.lookup_none here
    exact ⟨ofs,e,looked,fun i found => by contradiction⟩
  | some i =>
    obtain ⟨k,-,-,sector,looked⟩ := opened.lookup_some slots here
    exact ⟨_,_,looked,fun j found => sector.trans (Option.some.inj found)⟩

/-- Reading the directory from its start lists every name of the map once. -/
theorem DirInv.listed (inv : DirInv dev v dir data map) :
    (∀ bound, slotCount data < bound → readNames dev dir bound 0 v = .ok (slotNames v.disk data,v)) ∧
      (slotNames v.disk data).Nodup ∧
      ∀ chars, chars ∈ slotNames v.disk data ↔ ∃ name : CString, name.val = chars ∧ (map name).isSome := by
  obtain ⟨opened,slots,rfl⟩ := inv
  refine ⟨fun bound enough => ?_,slots.names_nodup,fun chars => ⟨fun listed => ?_,?_⟩⟩
  · have count : (usedFrom v.disk data 0).length ≤ slotCount data := by
      have all : (List.range' 0 (slotCount data - 0)).length = slotCount data := by simp
      conv => rhs; rw [← all]
      exact List.length_filter_le _ _
    exact opened.readNames_from (Nat.lt_of_le_of_lt count enough) (Nat.zero_le _)
  · obtain ⟨k,here,same⟩ := List.mem_map.mp listed
    obtain ⟨inside,used⟩ := mem_usedFrom.mp here
    obtain ⟨name,-,-,named⟩ := slots.name_of inside used
    obtain rfl : name.val = chars := named.symm.trans same
    exact ⟨name,rfl,slots.mem_names.mp listed⟩
  · rintro ⟨name,rfl,found⟩
    exact slots.mem_names.mpr found

/-- A directory of any number of entries is a map from names to sectors, after any calls: its entries
have names of their own, lookups find what was added last, a name is added exactly when it is valid and new
and an entry is free, calls leave the other entries alone, and reading it lists every name once. -/
theorem directory_is_finite_map (run : DirRun dev dir data h v) :
    (∀ k < slotCount data, entryInUse (entryAt v.disk data k) = true → ∃ name, ValidName name ∧
      entryName (entryAt v.disk data k) = name.val ∧ ∀ m < slotCount data, entryInUse (entryAt v.disk data m) = true →
        entryName (entryAt v.disk data m) = name.val → m = k) ∧
    (∀ name, (∃ ofs e, lookup dev dir name v = .ok (((latest h name).isSome,ofs,e),v) ∧
        ∀ i, latest h name = some i → entrySector e = i) ∧
      ∀ found v', dirLookup dev dir name v = .ok (found,v') → found = latest h name ∧ v'.disk = v.disk) ∧
    (∀ name sector, sector < 4294967296 → ∃ success v', dirAdd dev dir name sector v = .ok (success,v') ∧
      (success = true ↔ ValidName name ∧ latest h name = none ∧
        ∃ k < slotCount data, entryInUse (entryAt v.disk data k) = false) ∧
      EntryChanged data v.disk v'.disk (fun e => entryInUse e = false) success) ∧
    (∀ name, (latest h name = none → dirRemove dev dir name v = .ok (false,v)) ∧
      (∀ i, latest h name = some i → Removable dev v i → ∃ v', dirRemove dev dir name v = .ok (true,v')) ∧
      ∀ success v', dirRemove dev dir name v = .ok (success,v') → success = (latest h name).isSome ∧
        EntryChanged data v.disk v'.disk (fun e => entryFor e name = true) success) ∧
    (∀ bound, slotCount data < bound → readNames dev dir bound 0 v = .ok (slotNames v.disk data,v)) ∧
    (slotNames v.disk data).Nodup ∧
    ∀ chars, chars ∈ slotNames v.disk data ↔ ∃ name : CString, name.val = chars ∧ (latest h name).isSome := by
  have inv := run.inv
  refine ⟨fun k inside used => inv.own_names inside used,fun name => ⟨inv.looked name,?_⟩,?_,?_,inv.listed⟩
  · intro found v' done
    obtain ⟨same,disk,-⟩ := inv.found done
    exact ⟨same,disk⟩
  · intro name sector small
    obtain ⟨success,v',done,exactly,changed,-⟩ := inv.added name small
    exact ⟨success,v',done,exactly,changed⟩
  · intro name
    refine ⟨fun absent => ?_,fun i here removable => ?_,fun success v' done => ?_⟩
    · rw [← inv.names] at absent
      exact inv.opened.dirRemove_none absent
    · rw [← inv.names] at here
      exact inv.opened.dirRemove_ok inv.slots here removable
    · obtain ⟨same,changed,-⟩ := inv.removed done
      exact ⟨same,changed⟩

/-- A name that is added to the root directory of a formatted device. -/
theorem directory_is_finite_map_added :
    ∃ data v, DirRun smallDevice 1 data [.added ⟨[97],by decide⟩ 5 true] v ∧
      ∃ ofs e, lookup smallDevice 1 ⟨[97],by decide⟩ v = .ok ((true,ofs,e),v) ∧ entrySector e = 5 := by
  obtain ⟨inv,s,path,refines⟩ := reached_refines small_formatted
  cases path
  obtain ⟨v,-,opened,kept,-⟩ := inv.openRoot
  have empty name : v.inodeOf name = none := (kept.names name).trans (congrFun refines.names name).symm
  have run := opened.rootRun more_pos empty
  have free : entryInUse (entryAt v.disk (onDisk v.disk 1) 0) = false := opened.slots.unused empty (by decide)
  have room : 0 < slotCount (onDisk v.disk 1) := by
    rw [slotCount,opened.rootSlots]
    decide
  obtain ⟨success,v',done,exactly,-⟩ := run.inv.added ⟨[97],by decide⟩ (show 5 < 4294967296 by decide)
  obtain rfl : success = true := exactly.mpr ⟨⟨by decide,by decide⟩,rfl,0,room,free⟩
  have added := run.dirAdd (by decide) done
  obtain ⟨ofs,e,looked,sector⟩ := ((directory_is_finite_map added).2.1 ⟨[97],by decide⟩).1
  exact ⟨_,v',added,ofs,e,looked,sector 5 rfl⟩

end

end OsProj.FileSys
