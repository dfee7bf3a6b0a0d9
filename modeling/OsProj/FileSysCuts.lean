import OsProj.FileSysMounted
import OsProj.FileSysPower

/-! What is on the disk when the power goes off during an operation on inodes or the free map. -/
namespace OsProj.FileSys

open OsProj.Bitmap OsProj.Budget OsProj.ByteMemory OsProj.Faulting OsProj.Keyed OsProj.FileSys.Power

structure Lists (v : Volume) (s : Store) : Prop where
  names : v.inodeOf = s.names
  bytes : ∀ name i, s.names name = some i → v.bytesOf i = s.bytes i

def Holds (dev : Device) (s : Store) (disk : Memory) : Prop :=
  ∃ v extra, v.disk = disk ∧ Inv dev v extra ∧ Masked dev v ∧ Lists v s

section
variable {dev : Device} {v v' w : Volume} {s : Store} {extra : Nat → Nat} {disk : Memory} {data : InodeDisk} {bits : Nat → Bool}

theorem Refines.lists (refines : Refines v s) (inv : Inv dev v extra) : Lists v s := by
  refine ⟨refines.names.symm,fun name i found => ?_⟩
  rw [refines.names] at found
  have named := inv.inodeOf_named found
  have other := inv.named_other named
  exact (refines.bytes i (named_member named) other.1 other.2).symm

theorem Lists.kept (lists : Lists v s) (inv : Inv dev v' extra) (kept : Kept 0 v v') : Lists v' s := by
  refine ⟨(funext kept.names).trans lists.names,fun name i found => ?_⟩
  have named : v'.inodeOf name = some i := by rw [kept.names,lists.names,found]
  have here := inv.inodeOf_named named
  rw [kept.bytes i (named_member here) (inv.named_other here).1]
  exact lists.bytes name i found

/-- The next kernel finds the files on such a disk. -/
theorem Holds.boot (holds : Holds dev s disk) :
    ∃ v, filesysInit dev false (Volume.boot disk) = .ok ((),v) ∧ Masked dev v ∧
      Shows dev v { s with handles := fun _ => none } := by
  obtain ⟨v,extra,rfl,inv,masked,lists⟩ := holds
  obtain ⟨mounted,inv'⟩ := inv.remount masked
  refine ⟨v.remounted,mounted,masked,inv',lists.names.symm,?_,fun f => rfl⟩
  intro i here map root
  have named : i ∈ v.namedInodes := by
    have member : i ∈ 0 :: 1 :: (v.namedInodes ++ []) := here
    simpa [map,root] using member
  obtain ⟨k,inside,used,same⟩ := mem_named.mp named
  obtain ⟨name,-,hit⟩ := inv.slots.valid k inside used
  have found : v.inodeOf name = some i := inv.inodeOf_some.mpr ⟨k,inside,by rw [entryFor]; exact Bool.and_eq_true_iff.mpr ⟨used,hit⟩,same⟩
  rw [lists.names] at found
  exact (lists.bytes name i found).symm

/-! Writing into an inode. -/

theorem cut_blockWrite (cut : Cut (Power.blockWrite dev sector buffer ofs) v disk) : disk = v.disk := by
  rcases cut.bind (m := pure ()) counts_spend with first | ⟨_,v',-,rest⟩
  · exact cut_spend.mp first
  · exact absurd rest cut_free

/-- What was written is some of what there is to write, up to the end of a sector. -/
theorem cut_inodeWriteLoop (fits : data.Fits dev) (enough : size ≤ bound)
    (cut : Cut (Power.inodeWriteLoop dev data buffer bound size offset done) v disk) :
    ∃ m < min size (data.length - offset), (m = 0 ∨ (offset + m) % blockSectorSize = 0) ∧
      disk = paste v.disk (data.place offset) buffer done m := by
  induction bound generalizing size offset done v with
  | zero => exact absurd cut cut_pure
  | succ bound ih =>
    unfold Power.inodeWriteLoop at cut
    dsimp only at cut
    generalize chunk_eq : chunkSize size (data.length - offset) (offset % blockSectorSize) = chunk at cut
    split at cut
    · exact absurd cut cut_pure
    rename_i some
    obtain ⟨inside,short,-,window,total⟩ := chunk_next chunk_eq some
    have on := fits offset inside
    rw [byteToSector_inside inside] at cut
    have next : data.place (offset + chunk) = data.place offset + chunk := (Nat.add_assoc ..).symm
    have before (same : disk = v.disk) : ∃ m < min size (data.length - offset),
        (m = 0 ∨ (offset + m) % blockSectorSize = 0) ∧ disk = paste v.disk (data.place offset) buffer done m :=
      ⟨0,by omega,.inl rfl,by rw [paste_zero]; exact same⟩
    -- the chunk is written, so the cut is in the rest
    have after (rest : Cut (Power.inodeWriteLoop dev data buffer bound (size - chunk) (offset + chunk) (done + chunk))
        { v with disk := paste v.disk (data.place offset) buffer done chunk } disk) : ∃ m < min size (data.length - offset),
        (m = 0 ∨ (offset + m) % blockSectorSize = 0) ∧ disk = paste v.disk (data.place offset) buffer done m := by
      obtain ⟨m,below,ends,rfl⟩ := ih (by omega) rest
      refine ⟨chunk + m,by omega,.inr ?_,?_⟩
      · rcases ends with rfl | ends
        · have bound := Nat.mod_lt offset (show 0 < blockSectorSize by decide)
          have whole : chunk = blockSectorSize - offset % blockSectorSize := by
            unfold chunkSize at chunk_eq
            omega
          rw [whole,Nat.add_zero]
          simp only [blockSectorSize] at *
          omega
        · rw [← Nat.add_assoc]
          exact ends
      · rw [next,paste_paste]
    split at cut
    · rename_i entire
      have place := sector_place data offset
      rw [entire.1,Nat.add_zero] at place
      rcases cut.go counts_blockWrite (blockWrite_ok on) with first | rest
      · exact before (cut_blockWrite first)
      · rw [place,← entire.2] at rest
        exact after rest
    · rename_i partly
      have rest : 0 < offset % blockSectorSize ∨ chunk < blockSectorSize - offset % blockSectorSize := by omega
      rw [if_pos rest] at cut
      rcases (cut.free_go (blockRead_ok on)).go counts_blockWrite (blockWrite_ok on) with first | rest
      · exact before (cut_blockWrite first)
      · rw [paste_window _ _ _ _ window,sector_place] at rest
        exact after rest

theorem cut_inodeWriteAt (found : find Inode.sector i v.openInodes = some inode) (fits : inode.data.Fits dev)
    (cut : Cut (Power.inodeWriteAt dev i buffer size offset) v disk) :
    inode.denyWriteCnt = 0 ∧ ∃ m < min size.toNat (inode.data.length - offset),
      (m = 0 ∨ (offset + m) % blockSectorSize = 0) ∧ disk = paste v.disk (inode.data.place offset) buffer 0 m := by
  have rest := cut.free_go (findInode_ok found)
  split at rest
  · exact absurd rest cut_pure
  · rename_i allowed
    exact ⟨not_not.mp allowed,cut_inodeWriteLoop fits (Nat.le_refl _) rest⟩

/-! The free map. -/

/-- Saving a free map was cut short. -/
theorem cut_freeMapWrite (mapOpen : MapOpen dev v) (fits : (onDisk v.disk 0).Fits dev)
    (cut : Cut (Power.freeMapWrite dev absent) v disk) :
    ∃ m < byteCnt dev.size, disk = paste v.disk ((onDisk v.disk 0).place 0) (bitmapByte v.freeMap) 0 m := by
  obtain ⟨inode,found,-,data⟩ := mapOpen.inode
  have rest := cut.free_go rfl
  rw [mapOpen.file] at rest
  have written := (rest.free_go rfl).bind counts_inodeWriteAt
  rcases written with first | ⟨n,v',-,last⟩
  · obtain ⟨-,m,below,-,same⟩ := cut_inodeWriteAt found (by rw [data]; exact fits) first
    rw [data,mapOpen.length,Int.toNat_natCast,Nat.sub_zero,Nat.min_self] at below
    rw [data] at same
    exact ⟨m,below,same⟩
  · exact absurd last cut_pure

theorem cut_freeMapAllocate (mapOpen : MapOpen dev v) (fits : (onDisk v.disk 0).Fits dev)
    (cut : Cut (Power.freeMapAllocate dev cnt) v disk) : ∃ start, scan v.freeMap dev.size 0 cnt false = some start ∧
      ∃ m < byteCnt dev.size,
        disk = paste v.disk ((onDisk v.disk 0).place 0) (bitmapByte (setMultiple v.freeMap start cnt true)) 0 m := by
  have rest := cut.free_go rfl
  dsimp only at rest
  cases found : scan v.freeMap dev.size 0 cnt false with
  | none =>
    rw [found] at rest
    exact absurd rest cut_pure
  | some start =>
    rw [found] at rest
    have marked : MapOpen dev { v with freeMap := setMultiple v.freeMap start cnt true } := ⟨mapOpen.1,mapOpen.2,mapOpen.3⟩
    rcases (rest.free_go rfl).go counts_freeMapWrite (freeMapWrite_ok marked fits) with first | last
    · exact ⟨start,rfl,cut_freeMapWrite marked fits first⟩
    · exact absurd last cut_pure

theorem cut_freeMapRelease (mapOpen : MapOpen dev v) (fits : (onDisk v.disk 0).Fits dev)
    (cut : Cut (Power.freeMapRelease dev sector cnt) v disk) : ∃ m < byteCnt dev.size,
      disk = paste v.disk ((onDisk v.disk 0).place 0) (bitmapByte (setMultiple v.freeMap sector cnt false)) 0 m := by
  obtain ⟨_,v',asserted,rest⟩ := (cut.free_go rfl).free_bind
  have same : v' = v := keeps_assert (P := fun w => w = v) _ v _ v' rfl asserted
  subst same
  have released : MapOpen dev { v' with freeMap := setMultiple v'.freeMap sector cnt false } := ⟨mapOpen.1,mapOpen.2,mapOpen.3⟩
  rcases (rest.free_go rfl).bind counts_freeMapWrite with first | ⟨_,_,-,last⟩
  · exact cut_freeMapWrite released fits first
  · exact absurd last cut_pure

end

end OsProj.FileSys
