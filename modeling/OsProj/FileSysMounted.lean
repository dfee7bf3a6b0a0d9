import OsProj.FileSysFilled
import OsProj.FileSysFrame

/-! A device whose file system was formatted once, in any later kernel that finds it there. -/
namespace OsProj.FileSys

open OsProj.Bitmap OsProj.ByteMemory OsProj.Faulting OsProj.Keyed

def Masked (dev : Device) (v : Volume) : Prop := ∀ k, dev.size ≤ k → v.freeMap k = false

section
variable {dev : Device}

/-! Operations that leave the free map alone. -/

theorem masked_offDisk : OffDisk (Masked dev) := fun _ _ masked => masked

theorem keeps_updateInode {g : Inode → Inode} : Keeps (Masked dev) (modify (fun v => v.updateInode i g) : M Unit) :=
  keeps_modify fun _ masked => masked

theorem keeps_updateFile {g : File → File} : Keeps (Masked dev) (modify (fun v => v.updateFile f g) : M Unit) :=
  keeps_modify fun _ masked => masked

theorem keeps_inodeOpen : Keeps (Masked dev) (inodeOpen dev i) := by
  refine keeps_get_bind fun v _ => keeps_updateInode.ite ?_
  exact keeps_blockRead.bind fun _ => keeps_modify fun _ masked => masked

/-! The free map. -/

theorem masked_setMultiple {bits : Nat → Bool} (masked : ∀ k, dev.size ≤ k → bits k = false)
    (inside : start + cnt ≤ dev.size ∨ value = false) : ∀ k, dev.size ≤ k → setMultiple bits start cnt value k = false := by
  intro k behind
  unfold setMultiple
  split
  · rcases inside with inside | rfl
    · omega
    · rfl
  · exact masked k behind

theorem keeps_freeMapAllocate : Keeps (Masked dev) (freeMapAllocate dev cnt) := by
  refine keeps_get_bind fun v masked => ?_
  dsimp only
  cases found : scan v.freeMap dev.size 0 cnt false with
  | none => exact keeps_pure _
  | some start =>
    refine (keeps_modify fun _ _ => masked_setMultiple masked (.inl (scan_some found).2.1)).bind fun _ => ?_
    refine (keeps_freeMapWrite masked_offDisk (keeps_pure _)).bind fun saved => (keeps_pure _).ite ?_
    exact (keeps_modify fun v masked => masked_setMultiple masked (.inr rfl)).bind fun _ => keeps_pure _

theorem keeps_freeMapRelease : Keeps (Masked dev) (freeMapRelease dev start cnt) := by
  refine keeps_get_bind fun v masked => (keeps_assert _).bind fun _ => ?_
  refine (keeps_modify fun _ _ => masked_setMultiple masked (.inr rfl)).bind fun _ => ?_
  exact (keeps_freeMapWrite masked_offDisk (keeps_throw _)).bind fun _ => keeps_pure _

theorem keeps_inodeCreate : Keeps (Masked dev) (inodeCreate dev i length) := by
  refine keeps_freeMapAllocate.bind fun found => ?_
  cases found with
  | none => exact keeps_pure _
  | some start => exact (keeps_blockWrite masked_offDisk).bind fun _ => (keeps_writeZeros masked_offDisk).bind fun _ => keeps_pure _

theorem keeps_inodeClose : Keeps (Masked dev) (inodeClose dev i) := by
  refine keeps_findInode.bind fun inode => .ite ?_ keeps_updateInode
  refine Keeps.bind (keeps_modify ?_) fun _ => ?_
  · exact fun _ masked => masked
  split
  · exact keeps_freeMapRelease.bind fun _ => keeps_freeMapRelease
  · exact keeps_pure _

theorem keeps_dirRemove : Keeps (Masked dev) (dirRemove dev dir name) := by
  refine keeps_lookup.bind fun found => .ite ?_ (keeps_pure _)
  refine keeps_inodeOpen.bind fun _ => (keeps_inodeWriteAt masked_offDisk).bind fun _ => .ite ?_ ?_
  · exact keeps_inodeClose.bind fun _ => keeps_pure _
  · exact keeps_updateInode.bind fun _ => keeps_inodeClose.bind fun _ => keeps_pure _

/-! Calls. -/

theorem keeps_fileOpen : Keeps (Masked dev) (fileOpen i) := by
  intro v f v' masked done
  cases done
  exact masked

theorem keeps_fileReopen : Keeps (Masked dev) (fileReopen f) :=
  keeps_findFile.bind fun _ => keeps_updateInode.bind fun _ => keeps_fileOpen

theorem keeps_fileDenyWrite : Keeps (Masked dev) (fileDenyWrite f) := by
  refine keeps_findFile.bind fun file => (keeps_pure _).ite (keeps_updateFile.bind fun _ => ?_)
  exact keeps_updateInode.bind fun _ => keeps_findInode.bind fun _ => keeps_assert _

theorem keeps_fileAllowWrite : Keeps (Masked dev) (fileAllowWrite f) := by
  refine keeps_findFile.bind fun file => .ite (keeps_updateFile.bind fun _ => ?_) (keeps_pure _)
  exact keeps_findInode.bind fun _ => (keeps_assert _).bind fun _ => (keeps_assert _).bind fun _ => keeps_updateInode

theorem keeps_fileClose : Keeps (Masked dev) (fileClose dev f) := by
  refine keeps_fileAllowWrite.bind fun _ => keeps_findFile.bind fun _ => keeps_inodeClose.bind fun _ => ?_
  exact keeps_modify fun _ masked => masked

theorem keeps_fileRead : Keeps (Masked dev) (fileRead dev f buffer size) :=
  keeps_findFile.bind fun _ => keeps_inodeReadAt.bind fun _ => keeps_updateFile.bind fun _ => keeps_pure _

theorem keeps_fileWrite : Keeps (Masked dev) (fileWrite dev f buffer size) :=
  keeps_findFile.bind fun _ => (keeps_inodeWriteAt masked_offDisk).bind fun _ => keeps_updateFile.bind fun _ => keeps_pure _

theorem keeps_filesysCreate : Keeps (Masked dev) (filesysCreate dev name initialSize) := by
  refine keeps_inodeOpen.bind fun _ => keeps_freeMapAllocate.bind fun found => ?_
  cases found with
  | none => exact keeps_inodeClose.bind fun _ => keeps_pure _
  | some i =>
    refine (keeps_assert _).bind fun _ => keeps_inodeCreate.bind fun created => ?_
    have finish (success : Bool) : Keeps (Masked dev) (do
        if !success && i != 0 then freeMapRelease dev i 1
        inodeClose dev rootDirSector
        return success) := by
      refine .ite (keeps_freeMapRelease.bind fun _ => ?_) ?_
      · exact keeps_inodeClose.bind fun _ => keeps_pure _
      · exact keeps_inodeClose.bind fun _ => keeps_pure _
    exact .ite ((keeps_dirAdd masked_offDisk).bind finish) ((keeps_pure _).bind finish)

theorem keeps_filesysOpen : Keeps (Masked dev) (filesysOpen dev name) := by
  refine keeps_inodeOpen.bind fun _ => keeps_lookup.bind fun found => .ite ?_ ?_
  · exact keeps_inodeOpen.bind fun _ => keeps_inodeClose.bind fun _ => keeps_fileOpen.bind fun _ => keeps_pure _
  · exact keeps_inodeClose.bind fun _ => keeps_pure _

theorem keeps_filesysRemove : Keeps (Masked dev) (filesysRemove dev name) :=
  keeps_inodeOpen.bind fun _ => keeps_dirRemove.bind fun _ => keeps_inodeClose.bind fun _ => keeps_pure _

theorem keeps_exec (call : Call) : Keeps (Masked dev) (exec dev call) := by
  cases call with
  | filesysCreate name initialSize => exact keeps_filesysCreate.bind fun _ => keeps_pure _
  | filesysOpen name => exact keeps_filesysOpen.bind fun _ => keeps_pure _
  | filesysRemove name => exact keeps_filesysRemove.bind fun _ => keeps_pure _
  | fileRead f buffer size => exact keeps_fileRead.bind fun _ => keeps_pure _
  | fileReadAt f buffer size ofs => exact (keeps_findFile.bind fun _ => keeps_inodeReadAt).bind fun _ => keeps_pure _
  | fileWrite f buffer size => exact keeps_fileWrite.bind fun _ => keeps_pure _
  | fileWriteAt f buffer size ofs => exact (keeps_findFile.bind fun _ => keeps_inodeWriteAt masked_offDisk).bind fun _ => keeps_pure _
  | fileSeek f newPos =>
    refine Keeps.bind (keeps_findFile.bind fun _ => (keeps_assert _).bind fun _ => ?_) fun _ => keeps_pure _
    exact keeps_updateFile
  | fileTell f => exact (keeps_findFile.bind fun _ => keeps_pure _).bind fun _ => keeps_pure _
  | fileLength f =>
    exact (keeps_findFile.bind fun _ => keeps_findInode.bind fun _ => keeps_pure _).bind fun _ => keeps_pure _
  | fileClose f => exact keeps_fileClose.bind fun _ => keeps_pure _
  | fileReopen f => exact keeps_fileReopen.bind fun _ => keeps_pure _
  | fileDenyWrite f => exact keeps_fileDenyWrite.bind fun _ => keeps_pure _
  | fileAllowWrite f => exact keeps_fileAllowWrite.bind fun _ => keeps_pure _

theorem bitmapRead_masked (done : bitmapRead dev file v = .ok (whole,v')) : Masked dev v' := by
  obtain ⟨⟨n,buffer⟩,v₁,-,next⟩ := bind_ok.mp (get_bind.mp done)
  cases next
  intro k behind
  have outside : decide (k < dev.size) = false := decide_eq_false (by omega)
  simp only [outside,Bool.false_and]

theorem freeMapOpen_masked (done : freeMapOpen dev v = .ok ((),v')) : Masked dev v' := by
  obtain ⟨_,v₁,-,next⟩ := bind_ok.mp done
  obtain ⟨whole,v₂,ran,last⟩ := bind_ok.mp (modify_bind.mp next)
  have masked := bitmapRead_masked ran
  split at last
  · cases pure_ok.mp last
    exact masked
  · cases last

theorem filesysInit_masked (done : filesysInit dev format v = .ok ((),v')) : Masked dev v' := by
  have next := modify_bind.mp done
  split at next
  · obtain ⟨_,v₁,-,last⟩ := bind_ok.mp next
    exact freeMapOpen_masked last
  · exact freeMapOpen_masked next

end

/-! Kernels. -/

def Volume.remounted (v : Volume) : Volume :=
  ⟨v.disk,v.freeMap,some 0,[⟨0,1,false,0,onDisk v.disk 0⟩],[],0⟩

/-- The file system in some kernel: it was formatted there, or an earlier kernel left it on the
device, and then calls were made. -/
inductive Mounted (dev : Device) : Volume → Prop where
  | format (done : filesysInit dev true (Volume.boot disk) = .ok ((),v)) : Mounted dev v
  | remount (before : Mounted dev v) (done : filesysInit dev false (Volume.boot v.disk) = .ok ((),v')) : Mounted dev v'
  | call (before : Mounted dev v) (admissible : Admissible v call) (ran : exec dev call v = .ok (result,v')) : Mounted dev v'

section
variable {dev : Device} {v v' : Volume} {s : Store} {extra : Nat → Nat}

theorem remounted_objects : v.remounted.objects.Sublist v.objects := by
  refine .cons_cons _ (.cons_cons _ ?_)
  change (v.namedInodes ++ []).Sublist (v.namedInodes ++ _)
  rw [List.append_nil]
  exact List.sublist_append_left _ _

theorem Inv.remount (inv : Inv dev v extra) (masked : Masked dev v) :
    filesysInit dev false (Volume.boot v.disk) = .ok ((),v.remounted) ∧ Inv dev v.remounted kernelHolds := by
  have on := (inv.layout.marked 0 map_member 0 (.inl rfl)).1
  have opened := freeMapOpen_ok (v := { Volume.boot v.disk with freeMap := startBits }) on rfl inv.mapLength
    (inv.fits map_member) inv.saved
  have bits : (fun k => decide (k < dev.size) && v.freeMap k) = v.freeMap := by
    funext k
    by_cases inside : k < dev.size
    · simp [inside]
    · simp [inside,masked k (by omega)]
  simp only [bits] at opened
  refine ⟨(bind_go rfl).trans opened,?_,inv.saved,fresh_table rfl rfl,rfl,inv.mapLength,Nat.one_pos,inv.rootLength,inv.slots,?_,?_⟩
  · exact inv.layout.mono remounted_objects fun i here x owns =>
      (inv.layout.marked i (remounted_objects.subset here) x owns).2
  · intro inode here
    cases List.mem_singleton.mp here
    exact map_member
  · exact fun file here => absurd here List.not_mem_nil

/-- The next kernel finds the same files, and none of them open. -/
theorem Shows.remount (shown : Shows dev v s) (masked : Masked dev v)
    (done : filesysInit dev false (Volume.boot v.disk) = .ok ((),v')) :
    Shows dev v' { s with handles := fun _ => none } := by
  obtain ⟨inv,refines⟩ := shown
  obtain ⟨mounted,inv'⟩ := inv.remount masked
  obtain ⟨-,rfl⟩ := Prod.mk.inj (Except.ok.inj (done.symm.trans mounted))
  exact ⟨inv',refines.names,fun i here => refines.bytes i (remounted_objects.subset here),fun f => rfl⟩

theorem Mounted.shows (mounted : Mounted dev v) : Masked dev v ∧ ∃ s, Shows dev v s := by
  induction mounted with
  | format done =>
    obtain ⟨inv,refines⟩ := format_inv done
    exact ⟨filesysInit_masked done,_,inv,refines⟩
  | remount before done ih =>
    obtain ⟨masked,s,shown⟩ := ih
    exact ⟨filesysInit_masked done,_,shown.remount masked done⟩
  | call before admissible ran ih =>
    obtain ⟨masked,s,inv,refines⟩ := ih
    obtain ⟨result,v',s',ran',inv',-,refines'⟩ := simulated inv refines admissible
    obtain ⟨-,rfl⟩ := Prod.mk.inj (Except.ok.inj (ran.symm.trans ran'))
    exact ⟨keeps_exec _ _ _ _ masked ran,s',inv',refines'⟩

end

end OsProj.FileSys
