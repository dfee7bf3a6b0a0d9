import Mathlib.Data.Finset.Card
import OsProj.FileSysNames
import OsProj.History

/-! What callers see: names that stand for files, the bytes of each file and the handles of open
files. A handle keeps its file when the name goes or comes to stand for another one. -/
namespace OsProj.FileSys

open OsProj.Bitmap OsProj.ByteMemory OsProj.Faulting OsProj.Keyed

inductive Call where
  | filesysCreate (name : CString) (initialSize : Int)
  | filesysOpen (name : CString)
  | filesysRemove (name : CString)
  | fileRead (id : Nat) (buffer : Memory) (size : Int)
  | fileReadAt (id : Nat) (buffer : Memory) (size : Int) (fileOfs : Nat)
  | fileWrite (id : Nat) (buffer : Memory) (size : Int)
  | fileWriteAt (id : Nat) (buffer : Memory) (size : Int) (fileOfs : Nat)
  | fileSeek (id : Nat) (newPos : Int)
  | fileTell (id : Nat)
  | fileLength (id : Nat)
  | fileClose (id : Nat)
  | fileReopen (id : Nat)
  | fileDenyWrite (id : Nat)
  | fileAllowWrite (id : Nat)

inductive Result where
  | done
  | success (value : Bool)
  | opened (file : Option Nat)
  | number (value : Nat)
  | bytesRead (value : Nat) (buffer : Memory)

/-- A call with its result and whether the device had the space that a new file of the size
asked for would need. -/
structure Event where
  call : Call
  result : Result
  room : Bool

structure Handle where
  object : Nat
  pos : Nat
  denyWrite : Bool

structure Store where
  names : CString → Option Nat
  bytes : Nat → List UInt8
  handles : Nat → Option Handle

def Store.empty : Store := ⟨fun _ => none,fun _ => [],fun _ => none⟩

def Full (names : CString → Option Nat) : Prop :=
  ∃ taken : Finset CString, taken.card = rootEntries ∧ ∀ name ∈ taken, (names name).isSome

def Placeable (names : CString → Option Nat) (name : CString) : Prop :=
  ValidName name ∧ names name = none ∧ ¬ Full names

def Store.Unused (s : Store) (object : Nat) : Prop :=
  (∀ name, s.names name ≠ some object) ∧ ∀ id handle, s.handles id = some handle → handle.object ≠ object

def Store.Denied (s : Store) (object : Nat) : Prop :=
  ∃ id handle, s.handles id = some handle ∧ handle.object = object ∧ handle.denyWrite = true

def Store.setHandle (s : Store) (id : Nat) (handle : Option Handle) : Store :=
  { s with handles := Function.update s.handles id handle }

def transfer (bytes : List UInt8) (size : Int) (pos : Nat) : Nat := min size.toNat (bytes.length - pos)

def readInto (buffer : Memory) (bytes : List UInt8) (pos n : Nat) : Memory :=
  fun i => if i < n then bytes.getD (pos + i) 0 else buffer i

def overwrite (bytes : List UInt8) (pos n : Nat) (buffer : Memory) : List UInt8 :=
  bytes.mapIdx fun i byte => if pos ≤ i ∧ i < pos + n then buffer (i - pos) else byte

/-- A write from a position on: how much of it is done, and the bytes of the file after it. -/
def Store.Writes (s : Store) (object : Nat) (buffer : Memory) (size : Int) (pos n : Nat) (bytes : List UInt8) : Prop :=
  (s.Denied object ∧ n = 0 ∧ bytes = s.bytes object) ∨
    (¬ s.Denied object ∧ n = transfer (s.bytes object) size pos ∧ bytes = overwrite (s.bytes object) pos n buffer)

/-- What each call may return, and what it changes. -/
inductive Store.Step (s : Store) : Event → Store → Prop where
  | created (placeable : Placeable s.names name) (unused : s.Unused object) : Step s
      ⟨.filesysCreate name initialSize,.success true,true⟩
      { s with
        names := Function.update s.names name (some object)
        bytes := Function.update s.bytes object (List.replicate initialSize.toNat 0) }
  | refused (failing : ¬ Placeable s.names name ∨ room = false) : Step s
      ⟨.filesysCreate name initialSize,.success false,room⟩ s
  | opened (found : s.names name = some object) (free : s.handles f = none) : Step s
      ⟨.filesysOpen name,.opened (some f),room⟩ (s.setHandle f (some ⟨object,0,false⟩))
  | notFound (absent : s.names name = none) : Step s ⟨.filesysOpen name,.opened none,room⟩ s
  | removed (found : s.names name = some object) : Step s
      ⟨.filesysRemove name,.success true,room⟩ { s with names := Function.update s.names name none }
  | notRemoved (absent : s.names name = none) : Step s ⟨.filesysRemove name,.success false,room⟩ s
  | read (handle : s.handles f = some ⟨object,pos,deny⟩) (moved : n = transfer (s.bytes object) size pos) : Step s
      ⟨.fileRead f buffer size,.bytesRead n (readInto buffer (s.bytes object) pos n),room⟩
      (s.setHandle f (some ⟨object,pos + n,deny⟩))
  | readAt (handle : s.handles f = some ⟨object,pos,deny⟩) (moved : n = transfer (s.bytes object) size ofs) : Step s
      ⟨.fileReadAt f buffer size ofs,.bytesRead n (readInto buffer (s.bytes object) ofs n),room⟩ s
  | write (handle : s.handles f = some ⟨object,pos,deny⟩) (writes : s.Writes object buffer size pos n after) : Step s
      ⟨.fileWrite f buffer size,.number n,room⟩
      ({ s with bytes := Function.update s.bytes object after }.setHandle f (some ⟨object,pos + n,deny⟩))
  | writeAt (handle : s.handles f = some ⟨object,pos,deny⟩) (writes : s.Writes object buffer size ofs n after) : Step s
      ⟨.fileWriteAt f buffer size ofs,.number n,room⟩ { s with bytes := Function.update s.bytes object after }
  | seek (handle : s.handles f = some ⟨object,pos,deny⟩) : Step s
      ⟨.fileSeek f newPos,.done,room⟩ (s.setHandle f (some ⟨object,newPos.toNat,deny⟩))
  | tell (handle : s.handles f = some ⟨object,pos,deny⟩) : Step s ⟨.fileTell f,.number pos,room⟩ s
  | length (handle : s.handles f = some ⟨object,pos,deny⟩) : Step s
      ⟨.fileLength f,.number (s.bytes object).length,room⟩ s
  | close (handle : s.handles f = some ⟨object,pos,deny⟩) : Step s ⟨.fileClose f,.done,room⟩ (s.setHandle f none)
  | reopen (handle : s.handles f = some ⟨object,pos,deny⟩) (free : s.handles f' = none) : Step s
      ⟨.fileReopen f,.opened (some f'),room⟩ (s.setHandle f' (some ⟨object,0,false⟩))
  | denyWrite (handle : s.handles f = some ⟨object,pos,deny⟩) : Step s
      ⟨.fileDenyWrite f,.done,room⟩ (s.setHandle f (some ⟨object,pos,true⟩))
  | allowWrite (handle : s.handles f = some ⟨object,pos,deny⟩) : Step s
      ⟨.fileAllowWrite f,.done,room⟩ (s.setHandle f (some ⟨object,pos,false⟩))

def Store.WritesTo (s : Store) (call : Call) (object : Nat) : Prop :=
  ∃ id handle, s.handles id = some handle ∧ handle.object = object ∧
    ((∃ buffer size, call = .fileWrite id buffer size) ∨ ∃ buffer size ofs, call = .fileWriteAt id buffer size ofs)

/-- The bytes behind a handle change through writes to them only, whatever becomes of names. -/
theorem Store.Step.bytes_kept {s s' : Store} (step : s.Step e s') (open_ : s.handles f = some handle)
    (quiet : ¬ s.WritesTo e.call handle.object) : s'.bytes handle.object = s.bytes handle.object := by
  cases step with
  | created placeable unused => exact Function.update_of_ne (unused.2 f handle open_) _ _
  | write found writes =>
    refine Function.update_of_ne (fun same => quiet ?_) _ _
    exact ⟨_,_,found,same.symm,.inl ⟨_,_,rfl⟩⟩
  | writeAt found writes =>
    refine Function.update_of_ne (fun same => quiet ?_) _ _
    exact ⟨_,_,found,same.symm,.inr ⟨_,_,_,rfl⟩⟩
  | _ => rfl

/-! The volume behind the store. -/

def File.handle (file : File) : Handle := ⟨file.inode,file.pos,file.denyWrite⟩

/-- An object of the store is the sector of an inode. -/
structure Refines (v : Volume) (s : Store) : Prop where
  names : s.names = v.inodeOf
  bytes : ∀ i ∈ v.objects, i ≠ 0 → i ≠ 1 → s.bytes i = v.bytesOf i
  handles : ∀ id, s.handles id = (find File.id id v.files).map File.handle

section
variable {dev : Device} {v v' : Volume} {s : Store} {extra : Nat → Nat}

theorem Refines.kept (refines : Refines v s) (kept : Kept 0 v v') : Refines v' s where
  names := refines.names.trans (funext fun name => (kept.names name).symm)
  bytes i here map root := (refines.bytes i (kept.objects i here) map root).trans (kept.bytes i here map).symm
  handles id := by
    rw [kept.files]
    exact refines.handles id

/-- An object that the store uses is one of the volume. -/
theorem Refines.unused (refines : Refines v s) (inv : Inv dev v extra) (absent : i ∉ v.objects) : s.Unused i := by
  constructor
  · intro name found
    rw [refines.names] at found
    exact absent (named_member (inv.inodeOf_named found))
  · intro id handle found same
    rw [refines.handles] at found
    obtain ⟨file,open_,rfl⟩ := Option.map_eq_some_iff.mp found
    obtain ⟨inode,member,sector⟩ := inv.table.inode_of (find_key open_).1
    have here := inv.alive inode member
    rw [sector] at here
    exact absent (same ▸ here)

theorem Refines.denied (refines : Refines v s) (inv : Inv dev v extra) (member : inode ∈ v.openInodes) :
    s.Denied inode.sector ↔ inode.denyWriteCnt ≠ 0 := by
  rw [ne_eq,inv.table.accounts.deny_pos member]
  constructor
  · rintro ⟨id,handle,found,same,denied⟩ none
    rw [refines.handles] at found
    obtain ⟨file,open_,rfl⟩ := Option.map_eq_some_iff.mp found
    have allowed := none file (find_key open_).1 same
    have denied : file.denyWrite = true := denied
    rw [denied] at allowed
    exact Bool.false_ne_true allowed.symm
  · intro some
    by_contra none
    refine some fun file open_ same => ?_
    by_contra denied
    have denied : file.denyWrite = true := by simpa using denied
    refine none ⟨file.id,file.handle,?_,same,denied⟩
    rw [refines.handles,inv.table.find_file open_]
    rfl

/-- The directory is full when its names take all entries. -/
theorem Inv.full_iff (inv : Inv dev v extra) :
    Full v.inodeOf ↔ ∀ k < rootEntries, entryInUse (v.entry k) = true := by
  constructor
  · rintro ⟨taken,card,found⟩
    -- each name has an entry of its own, so all entries are used
    have slot name (here : name ∈ taken) : ∃ k < rootEntries, entryFor (v.entry k) name = true := by
      obtain ⟨i,some⟩ := Option.isSome_iff_exists.mp (found name here)
      obtain ⟨k,inside,hit,-⟩ := inv.inodeOf_some.mp some
      exact ⟨k,inside,hit⟩
    choose! place inside hit using slot
    have injective : Set.InjOn place taken := by
      intro name here name' here' same
      have first := hit name here
      rw [same] at first
      exact entryNamed_unique (entryFor_inUse first).2 (entryFor_inUse (hit name' here')).2
    have all : taken.image place = Finset.range rootEntries := by
      apply Finset.eq_of_subset_of_card_le
      · intro k member
        obtain ⟨name,here,rfl⟩ := Finset.mem_image.mp member
        exact Finset.mem_range.mpr (inside name here)
      · rw [Finset.card_image_of_injOn injective,Finset.card_range,card]
    intro k below
    have member : k ∈ taken.image place := by
      rw [all]
      exact Finset.mem_range.mpr below
    obtain ⟨name,here,rfl⟩ := Finset.mem_image.mp member
    exact (entryFor_inUse (hit name here)).1
  · intro used
    have named k (below : k < rootEntries) : ∃ name, entryFor (v.entry k) name = true := by
      obtain ⟨name,-,same⟩ := inv.slots.valid k below (used k below)
      exact ⟨name,by rw [entryFor,used k below]; exact same⟩
    have : Nonempty CString := ⟨[],List.not_mem_nil⟩
    choose! name hit using named
    have injective : Set.InjOn name (Finset.range rootEntries) := by
      intro k below m below' same
      have below := Finset.mem_range.mp below
      have below' := Finset.mem_range.mp below'
      have second := hit m below'
      rw [← same] at second
      exact inv.slots.unique k below m below' (name k) (hit k below) second
    refine ⟨(Finset.range rootEntries).image name,?_,?_⟩
    · rw [Finset.card_image_of_injOn injective,Finset.card_range]
    · intro taken member
      obtain ⟨k,below,rfl⟩ := Finset.mem_image.mp member
      have some := inv.inodeOf_some.mpr ⟨k,Finset.mem_range.mp below,hit k (Finset.mem_range.mp below),rfl⟩
      rw [some]
      rfl

end

end OsProj.FileSys
