import OsProj.FileSysCrash

/-! Each call that writes, when the power goes off during it. -/
namespace OsProj.FileSys

open OsProj.Bitmap OsProj.Budget OsProj.ByteMemory OsProj.Faulting OsProj.Keyed OsProj.FileSys.Power

/-- What becomes of the names and files when the power goes off during a call: nothing but that a
name that is being removed may be gone and a file that is being written may have some of the bytes. -/
inductive Store.Cut (s : Store) : Call → Store → Prop where
  | before : Cut s call s
  | removed (found : s.names name = some object) : Cut s
      (.filesysRemove name) { s with names := Function.update s.names name none }
  | write (handle : s.handles f = some ⟨object,pos,deny⟩) (allowed : ¬ s.Denied object)
      (some : m ≤ transfer (s.bytes object) size pos) : Cut s (.fileWrite f buffer size)
      { s with bytes := Function.update s.bytes object (overwrite (s.bytes object) pos m buffer) }
  | writeAt (handle : s.handles f = some ⟨object,pos,deny⟩) (allowed : ¬ s.Denied object)
      (some : m ≤ transfer (s.bytes object) size ofs) : Cut s (.fileWriteAt f buffer size ofs)
      { s with bytes := Function.update s.bytes object (overwrite (s.bytes object) ofs m buffer) }

section
variable {dev : Device} {v v' w : Volume} {s : Store} {extra : Nat → Nat} {disk : Memory} {name : CString} {initialSize : Int}

/-! The directory. -/

/-- An entry is written at once. -/
theorem Inv.cut_entry (inv : Inv dev v extra) (held : 0 < extra 1)
    (cut : Cut (Power.inodeWriteAt dev 1 e entrySize ofs) v disk) : disk = v.disk := by
  obtain ⟨inode,found,-,data⟩ := inv.kernel_inode held (.inr rfl)
  obtain ⟨-,m,below,ends,same⟩ := cut_inodeWriteAt found (by rw [data]; exact inv.fits root_member) cut
  rw [data,inv.rootLength] at below
  simp only [entrySize,rootEntries,blockSectorSize] at below ends
  obtain rfl : m = 0 := by omega
  rw [paste_zero] at same
  exact same

theorem Inv.cut_dirAdd (inv : Inv dev v extra) (held : 0 < extra 1) (cut : Cut (Power.dirAdd dev 1 name i) v disk) :
    disk = v.disk := by
  unfold Power.dirAdd at cut
  split at cut
  · exact absurd cut cut_pure
  obtain ⟨looked,v₁,ran,rest⟩ := cut.free_bind
  obtain rfl : v₁ = v := keeps_lookup (P := fun w => w = v) v _ v₁ rfl ran
  dsimp only at rest
  split at rest
  · exact absurd rest cut_pure
  obtain ⟨bound,v₂,ran₂,next⟩ := rest.free_bind
  obtain rfl : v₂ = v₁ := keeps_entryBound (P := fun w => w = v₁) v₁ _ v₂ rfl ran₂
  obtain ⟨place,v₃,ran₃,write⟩ := next.free_bind
  obtain rfl : v₃ = v₂ := keeps_scanEntries (P := fun w => w = v₂) v₂ _ v₃ rfl ran₃
  rcases write.bind counts_inodeWriteAt with first | ⟨_,_,-,last⟩
  · exact inv.cut_entry held first
  · exact absurd last cut_pure

/-- The end of a call that has no entry for its sector. -/
theorem Inv.cut_giveBack (inv : Inv dev v extra) (masked : Masked dev v) (lists : Lists v s) (held : 0 < extra 1)
    (on : i < dev.size) (marked : v.freeMap i = true) (unowned : ∀ j ∈ v.objects, ¬ Owns v.disk j i)
    (cut : Cut (do
      Power.freeMapRelease dev i 1
      Power.inodeClose dev 1
      return false) v disk) : Holds dev s disk := by
  have apart j (here : j ∈ v.objects) x (low : i ≤ x) (high : x < i + 1) : ¬ Owns v.disk j x := by
    rw [show x = i by omega]
    exact unowned j here
  have bits x (low : i ≤ x) (high : x < i + 1) : v.freeMap x = true := by
    rw [show x = i by omega]
    exact marked
  obtain ⟨released,inv',kept⟩ := inv.release i 1 on bits apart
  rcases cut.go counts_freeMapRelease released with first | rest
  · exact Inv.cut_release inv masked lists v.files apart first
  rcases rest.bind counts_inodeClose with second | ⟨_,_,-,last⟩
  · exact absurd second (Inv.cut_closeRoot inv' held)
  · exact absurd last cut_pure

/-- The call from its new object on. -/
theorem Inv.cut_entered (inv : Inv dev v extra) (masked : Masked dev v) (lists : Lists v s) (held : 0 < extra 1)
    (layout : Layout dev v.disk v.freeMap (i :: v.objects)) (other : i ≠ 0)
    (cut : Cut (do
      let success ← Power.dirAdd dev 1 name i
      if !success && i != 0 then Power.freeMapRelease dev i 1
      Power.inodeClose dev 1
      return success) v disk) : Holds dev s disk := by
  have unentered (first : Cut (Power.dirAdd dev 1 name i) v disk) : Holds dev s disk := by
    rw [inv.cut_dirAdd held first]
    exact Inv.holds inv masked lists
  by_cases placeable : Placeable v.inodeOf name
  · obtain ⟨k,inside,unused,added⟩ := inv.dirAdd_done (i := i) held placeable
    rcases cut.go counts_dirAdd added with first | rest
    · exact unentered first
    have inv' := inv.fill layout placeable.1 placeable.2.1 inside unused
    rcases rest.bind counts_inodeClose with second | ⟨_,_,-,last⟩
    · exact absurd second (Inv.cut_closeRoot inv' held)
    · exact absurd last cut_pure
  · rcases cut.go counts_dirAdd (inv.dirAdd_refused (i := i) held placeable) with first | rest
    · exact unentered first
    dsimp only at rest
    rw [if_pos (by simpa using other)] at rest
    have marked := layout.marked i List.mem_cons_self i (.inl rfl)
    refine inv.cut_giveBack masked lists held marked.1 marked.2 (fun j here owns => ?_) rest
    have different : j ≠ i := fun same => (List.nodup_cons.mp layout.nodup).1 (same ▸ here)
    exact layout.apart j (List.mem_cons_of_mem _ here) i List.mem_cons_self different i owns (.inl rfl)

/-- The call from its new sector on. -/
theorem Inv.cut_allocated (inv : Inv dev v extra) (masked : Masked dev v) (lists : Lists v s) (held : 0 < extra 1)
    (fresh : Fresh dev v.disk v.freeMap v.objects i) (short : length < 2147483648)
    (cut : Cut (do
      let created ← Power.inodeCreate dev i length
      let success ← if created then Power.dirAdd dev 1 name i else pure false
      if !success && i != 0 then Power.freeMapRelease dev i 1
      Power.inodeClose dev 1
      return success) v disk) : Holds dev s disk := by
  have other : i ≠ 0 := by
    rintro rfl
    exact fresh.unowned 0 map_member (.inl rfl)
  cases data : scan v.freeMap dev.size 0 (bytesToSectors length) false with
  | none =>
    rcases cut.go counts_inodeCreate (inodeCreate_none data) with first | rest
    · exact Inv.cut_create inv masked lists fresh first
    have finish := rest.free_go (m := pure false) rfl
    dsimp only at finish
    rw [if_pos (by simpa using other)] at finish
    exact inv.cut_giveBack masked lists held fresh.on fresh.marked fresh.unowned finish
  | some start =>
    obtain ⟨inv',kept,layout⟩ := inv.create ⟨start,length⟩ fresh data short
    rcases cut.go counts_inodeCreate (inodeCreate_some inv.mapOpen (inv.fits map_member) fresh.on data) with first | rest
    · exact Inv.cut_create inv masked lists fresh first
    rw [if_pos rfl] at rest
    have masked' : Masked dev (v.create dev i ⟨start,length⟩) := masked_setMultiple masked (.inl (scan_some data).2.1)
    exact inv'.cut_entered masked' (lists.kept inv' kept) held layout other rest

theorem Inv.cut_filesysCreate (inv : Inv dev v extra) (masked : Masked dev v) (lists : Lists v s)
    (low : 0 ≤ initialSize) (high : initialSize < 2147483648)
    (cut : Cut (Power.filesysCreate dev name initialSize) v disk) : Holds dev s disk := by
  obtain ⟨v₁,opened,inv₁,kept₁,-,bits₁,-⟩ := inv.openRoot
  have masked₁ : Masked dev v₁ := by
    unfold Masked
    rw [bits₁]
    exact masked
  have lists₁ := lists.kept inv₁ kept₁
  have rest := cut.free_go opened
  cases free : scan v₁.freeMap dev.size 0 1 false with
  | none =>
    rcases rest.go counts_freeMapAllocate (freeMapAllocate_none free) with first | close
    · exact Inv.cut_allocate inv₁ masked₁ lists₁ first
    rcases close.bind counts_inodeClose with second | ⟨_,_,-,last⟩
    · exact absurd second (Inv.cut_closeRoot inv₁ more_pos)
    · exact absurd last cut_pure
  | some i =>
    obtain ⟨allocated,inv₂,kept₂,fresh⟩ := inv₁.allocate free
    rcases rest.go counts_freeMapAllocate allocated with first | create
    · exact Inv.cut_allocate inv₁ masked₁ lists₁ first
    have masked₂ : Masked dev (v₁.sync dev (setMultiple v₁.freeMap i 1 true)) := masked_setMultiple masked₁ (.inl fresh.on)
    have asserted : assert (0 ≤ initialSize) (v₁.sync dev (setMultiple v₁.freeMap i 1 true)) = .ok ((),_) :=
      if_pos (by simpa using low)
    exact inv₂.cut_allocated masked₂ (lists₁.kept inv₂ kept₂) more_pos fresh (by omega) (create.free_go asserted)

theorem Inv.cut_filesysOpen (inv : Inv dev v extra) : ¬ Cut (Power.filesysOpen dev name) v disk := by
  intro cut
  obtain ⟨v₁,opened,inv₁,kept₁,-⟩ := inv.openRoot
  have rest := cut.free_go opened
  cases found : v.inodeOf name with
  | none =>
    rw [← kept₁.names] at found
    obtain ⟨ofs,e,looked⟩ := inv₁.lookup_none more_pos found
    have rest := rest.free_go looked
    rcases rest.bind counts_inodeClose with first | ⟨_,_,-,last⟩
    · exact Inv.cut_closeRoot inv₁ more_pos first
    · exact cut_pure last
  | some i =>
    rw [← kept₁.names] at found
    obtain ⟨k,inside,hit,rfl,looked⟩ := inv₁.lookup_some more_pos found
    have here := inv₁.inodeOf_named found
    obtain ⟨again,inv₂,kept₂⟩ := inv₁.inodeOpen (named_member here)
    have rest := (rest.free_go looked).free_go again
    have held : 0 < more (more extra 1) (entrySector (v₁.entry k)) 1 := by
      rw [more_other (Ne.symm (inv₁.named_other here).2)]
      exact more_pos
    rcases rest.bind counts_inodeClose with first | ⟨_,_,-,rest⟩
    · exact Inv.cut_closeRoot inv₂ held first
    · obtain ⟨_,_,-,last⟩ := rest.free_bind
      exact cut_pure last

/-- A name is there until its entry is erased, and then it is gone. -/
theorem Inv.cut_dirRemove (inv : Inv dev v extra) (masked : Masked dev v) (lists : Lists v s) (held : 0 < extra 1)
    (found : v.inodeOf name = some i) (cut : Cut (do
      let success ← Power.dirRemove dev 1 name
      Power.inodeClose dev 1
      return success) v disk) :
    Holds dev s disk ∨ Holds dev { s with names := Function.update s.names name none } disk := by
  have here := inv.inodeOf_named found
  obtain ⟨map,root⟩ := inv.named_other here
  obtain ⟨k,inside,hit,rfl,looked⟩ := inv.lookup_some held found
  obtain ⟨again,inv₂,kept₂⟩ := inv.inodeOpen (named_member here)
  let v₂ : Volume := { v with openInodes := openList v.openInodes (entrySector (v.entry k)) (onDisk v.disk (entrySector (v.entry k))) }
  have lists₂ : Lists v₂ s := lists.kept inv₂ kept₂
  have still : 0 < more extra (entrySector (v.entry k)) 1 := by
    rw [more_other (Ne.symm root)]
    exact held
  obtain ⟨inode,rootInode,allowed,data⟩ := inv₂.kernel_inode still (.inr rfl)
  have written := writeEntry_ok (e := eraseEntry (v.entry k)) rootInode allowed (by rw [data]; exact inv₂.fits root_member)
    (by rw [data]; exact inv₂.rootSlots) inside
  rw [data] at written
  have referred : entrySector (v₂.entry k) ∈ v₂.openInodes.map Inode.sector :=
    inv₂.table.here (entrySector (v.entry k)) (Nat.add_pos_right _ more_pos)
  have inv₃ : Inv dev (v₂.unlinked k) _ := inv₂.unlinked inside hit referred
  have lists₃ : Lists (v₂.unlinked k) { s with names := Function.update s.names name none } := by
    have names : (v₂.unlinked k).inodeOf = Function.update v₂.inodeOf name none := inv₂.erase_names inside hit
    refine ⟨by rw [names,lists₂.names],fun name' j found' => ?_⟩
    by_cases same : name' = name
    · rw [same] at found'
      exact nomatch (Function.update_self _ _ _).symm.trans found'
    · have before : s.names name' = some j := (Function.update_of_ne same _ _).symm.trans found'
      have named : v₂.inodeOf name' = some j := by rw [lists₂.names,before]
      have there := inv₂.inodeOf_named named
      refine (inv₂.put_bytes inside inv₂.layout root_member (named_member there) (inv₂.named_other there).2).trans ?_
      exact lists₂.bytes name' j before
  obtain ⟨v₄,closed,inv₄,-⟩ := inv₃.inodeClose map more_pos
  rcases cut.go counts_dirRemove (dirRemove_found looked again written closed) with first | close
  · have rest := (first.free_go looked)
    dsimp only at rest
    rw [if_pos rfl] at rest
    rcases (rest.free_go again).go counts_inodeWriteAt written with entry | rest
    · rw [inv₂.cut_entry still entry]
      exact .inl (Inv.holds inv₂ masked lists₂)
    · rw [if_neg (not_not_intro rfl)] at rest
      have marked : inodeRemove (entrySector (v.entry k)) { v₂ with disk := FileSys.putEntry v₂.disk (onDisk v₂.disk 1) k (eraseEntry (v.entry k)) } =
        .ok ((),v₂.unlinked k) := rfl
      rcases (rest.free_go marked).bind counts_inodeClose with second | ⟨_,_,-,last⟩
      · exact .inr (Inv.cut_close inv₃ masked lists₃ v₂.files map more_pos second)
      · exact absurd last cut_pure
  · rcases close.bind counts_inodeClose with second | ⟨_,_,-,last⟩
    · rw [fewer_more] at inv₄
      exact absurd second (Inv.cut_closeRoot inv₄ held)
    · exact absurd last cut_pure

theorem Inv.cut_filesysRemove (inv : Inv dev v extra) (masked : Masked dev v) (lists : Lists v s)
    (cut : Cut (Power.filesysRemove dev name) v disk) :
    Holds dev s disk ∨ (∃ object, s.names name = some object) ∧
      Holds dev { s with names := Function.update s.names name none } disk := by
  obtain ⟨v₁,opened,inv₁,kept₁,-,bits₁,-⟩ := inv.openRoot
  have masked₁ : Masked dev v₁ := by
    unfold Masked
    rw [bits₁]
    exact masked
  have lists₁ := lists.kept inv₁ kept₁
  have rest := cut.free_go opened
  cases found : v₁.inodeOf name with
  | none =>
    obtain ⟨ofs,e,looked⟩ := inv₁.lookup_none more_pos found
    have absent : dirRemove dev 1 name v₁ = .ok (false,v₁) := (bind_go looked).trans rfl
    rcases rest.go counts_dirRemove absent with first | close
    · exact absurd (first.free_go looked) cut_pure
    · rcases close.bind counts_inodeClose with second | ⟨_,_,-,last⟩
      · exact absurd second (Inv.cut_closeRoot inv₁ more_pos)
      · exact absurd last cut_pure
  | some i =>
    refine (inv₁.cut_dirRemove masked₁ lists₁ more_pos found rest).imp_right fun gone => ⟨⟨i,?_⟩,gone⟩
    rw [← lists₁.names,found]

theorem Inv.cut_fileClose (inv : Inv dev v kernelHolds) (masked : Masked dev v) (refines : Refines v s)
    (member : file ∈ v.files) (cut : Cut (Power.fileClose dev file.id) v disk) : Holds dev s disk := by
  obtain ⟨v₁,allowed,inv₁,refines₁,member₁,bits₁,-⟩ := fileAllowWrite_ok inv refines member
  have masked₁ : Masked dev v₁ := by
    unfold Masked
    rw [bits₁]
    exact masked
  have inv₂ := inv₁.fileClosed member₁ rfl
  have lists : Lists v₁ s := by
    obtain ⟨names,bytes⟩ := refines₁.lists inv₁
    exact ⟨names,bytes⟩
  have found : findFile file.id v₁ = .ok ({ file with denyWrite := false },v₁) := inv₁.findFile_ok member₁
  have rest := (cut.free_go allowed).free_go found
  rcases rest.bind counts_inodeClose with first | ⟨_,_,-,last⟩
  · exact Inv.cut_close inv₂ masked₁ ⟨lists.names,lists.bytes⟩ v₁.files (inv.user file member).1 more_pos first
  · exact absurd last cut_free

/-- Some of the bytes are written. -/
theorem Inv.cut_write (inv : Inv dev v extra) (masked : Masked dev v) (refines : Refines v s) (member : file ∈ v.files)
    (cut : Cut (Power.inodeWriteAt dev file.inode buffer size ofs) v disk) :
    ¬ s.Denied file.inode ∧ ∃ m ≤ transfer (s.bytes file.inode) size ofs, Holds dev
      { s with bytes := Function.update s.bytes file.inode (overwrite (s.bytes file.inode) ofs m buffer) } disk := by
  obtain ⟨inode,here,found,sector,data,object⟩ := inv.file_inode member
  have denied := refines.denied inv here
  rw [sector] at denied
  obtain ⟨allowed,m,below,-,same⟩ := cut_inodeWriteAt found (by rw [data]; exact inv.fits object) cut
  rw [data] at below same
  have bytes := refines.file_bytes inv member
  obtain ⟨inv',kept⟩ : Inv dev { v with disk := paste v.disk ((onDisk v.disk file.inode).place ofs) buffer 0 m } extra ∧
      Kept file.inode v { v with disk := paste v.disk ((onDisk v.disk file.inode).place ofs) buffer 0 m } :=
    inv.write object (inv.user file member) (by omega)
  have inode' : onDisk (paste v.disk ((onDisk v.disk file.inode).place ofs) buffer 0 m) file.inode =
      onDisk v.disk file.inode := by
    have after := inv'.table.data inode here
    rw [sector] at after
    exact after.symm.trans data
  refine ⟨fun some => denied.mp some allowed,m,?_,?_⟩
  · rw [bytes]
    refine Nat.le_of_lt (below.trans_eq ?_)
    exact transfer_content.symm
  rw [same]
  refine Inv.holds inv' masked ⟨(funext kept.names).trans refines.names.symm,?_⟩
  intro name j found'
  have named : v.inodeOf name = some j := by
    rw [← refines.names]
    exact found'
  by_cases mine : j = file.inode
  · subst mine
    rw [Volume.bytesOf,inode',content_paste]
    change _ = Function.update s.bytes file.inode (overwrite (s.bytes file.inode) ofs m buffer) file.inode
    rw [Function.update_self,bytes]
    rfl
  · have there : j ∈ ({ v with disk := paste v.disk ((onDisk v.disk file.inode).place ofs) buffer 0 m } : Volume).objects := by
      have still : ({ v with disk := paste v.disk ((onDisk v.disk file.inode).place ofs) buffer 0 m } : Volume).inodeOf name = some j :=
        (kept.names name).trans named
      exact named_member (inv'.inodeOf_named still)
    rw [kept.bytes j there mine]
    change _ = Function.update s.bytes file.inode (overwrite (s.bytes file.inode) ofs m buffer) j
    rw [Function.update_of_ne mine]
    have other := inv.named_other (inv.inodeOf_named named)
    exact (refines.bytes j (kept.objects j there) other.1 other.2).symm

/-- A call that is followed by nothing that writes. -/
theorem cut_last {p : Powered α} {m : M α} {result : α → Result} (counts : Counts p m)
    (cut : Cut (do return result (← p)) v disk) : Cut p v disk := by
  rcases cut.bind counts with first | ⟨_,_,-,last⟩
  · exact first
  · exact absurd last cut_pure

/-- The power goes off during a call: the disk holds what the store has then. -/
theorem exec_cut (inv : Inv dev v kernelHolds) (masked : Masked dev v) (refines : Refines v s)
    (admissible : Admissible v call) (cut : Cut (Power.exec dev call) v disk) : ∃ s', s.Cut call s' ∧ Holds dev s' disk := by
  obtain ⟨range,files⟩ := admissible
  have lists := refines.lists inv
  have file id (named : call.file = some id) : ∃ file ∈ v.files, file.id = id := by
    obtain ⟨file,member,same⟩ := List.mem_map.mp (files id named)
    exact ⟨file,member,same⟩
  cases call with
  | filesysCreate name initialSize =>
    exact ⟨s,.before,inv.cut_filesysCreate masked lists range.1 range.2 (cut_last counts_filesysCreate cut)⟩
  | filesysOpen name => exact absurd (cut_last counts_filesysOpen cut) inv.cut_filesysOpen
  | filesysRemove name =>
    rcases inv.cut_filesysRemove masked lists (cut_last counts_filesysRemove cut) with before | ⟨⟨object,found⟩,gone⟩
    · exact ⟨s,.before,before⟩
    · exact ⟨_,.removed found,gone⟩
  | fileWrite id buffer size =>
    obtain ⟨file,member,rfl⟩ := file id rfl
    have write := (cut_last counts_fileWrite cut).free_go (inv.findFile_ok member)
    rcases write.bind counts_inodeWriteAt with first | ⟨_,_,-,rest⟩
    · obtain ⟨allowed,m,some_,holds⟩ := inv.cut_write masked refines member first
      exact ⟨_,.write (refines.handle inv member) allowed some_,holds⟩
    · obtain ⟨_,_,-,last⟩ := rest.free_bind
      exact absurd last cut_pure
  | fileWriteAt id buffer size ofs =>
    obtain ⟨file,member,rfl⟩ := file id rfl
    have write := (cut_last counts_fileWriteAt cut).free_go (inv.findFile_ok member)
    obtain ⟨allowed,m,some_,holds⟩ := inv.cut_write masked refines member write
    exact ⟨_,.writeAt (refines.handle inv member) allowed some_,holds⟩
  | fileClose id =>
    have close : Cut (Power.fileClose dev id) v disk := cut_last counts_fileClose cut
    obtain ⟨file,member,rfl⟩ := file id rfl
    exact ⟨s,.before,inv.cut_fileClose masked refines member close⟩
  | _ => exact absurd cut cut_free

end

end OsProj.FileSys
