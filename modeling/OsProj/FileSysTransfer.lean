import OsProj.FileSysRuns

/-! Reading and writing at an offset of an open inode, byte by byte. -/
namespace OsProj.FileSys

open OsProj.ByteMemory OsProj.Faulting OsProj.Keyed

structure OpenInode (dev : Device) (v : Volume) (sector : Nat) (inode : Inode) : Prop where
  found : find Inode.sector sector v.openInodes = some inode
  fits : inode.data.Fits dev

/-- The bytes that a transfer moves: those asked for that the file has from the offset on. -/
def transferred (length : Nat) (size : Int) (offset : Nat) : Int :=
  if size ≤ 0 then 0 else min size (max 0 ((length : Int) - offset))

section
variable {dev : Device} {v : Volume}

theorem transferred_eq (length : Nat) (size : Int) (offset : Nat) :
    transferred length size offset = (min size.toNat (length - offset) : Nat) := by
  unfold transferred
  split <;> omega

/-- After any calls on a formatted device every open inode has its data on it. -/
theorem Reached.openInode (reached : Reached dev h v) (found : find Inode.sector sector v.openInodes = some inode) :
    OpenInode dev v sector inode := by
  have inv := reached.inv
  have member := (find_key found).1
  refine ⟨found,?_⟩
  rw [inv.table.data inode member]
  exact inv.fits (inv.alive inode member)

/-- A whole sector goes into the buffer as it goes through a bounce buffer. -/
theorem blockRead_bounced (on : sector < dev.size) (buffer bounce : Memory) (ofs : Nat) :
    blockRead dev sector buffer ofs v =
      (do return paste buffer ofs (← blockRead dev sector bounce 0) 0 blockSectorSize : M Memory) v := by
  rw [blockRead_ok on,bind_go (blockRead_ok on),paste_through _ _ _ _ (by omega)]
  rfl

/-- A whole sector goes to the device as it goes through a bounce buffer. -/
theorem blockWrite_bounced (on : sector < dev.size) (buffer bounce : Memory) (ofs : Nat) :
    blockWrite dev sector buffer ofs v = blockWrite dev sector (paste bounce 0 buffer ofs blockSectorSize) 0 v := by
  rw [blockWrite_ok on,blockWrite_ok on,paste_through _ _ _ _ (by omega)]
  rfl

/-- The number of bytes read, the bytes themselves, and nothing else in the buffer. -/
theorem OpenInode.read (opened : OpenInode dev v sector inode) (buffer : Memory) (size : Int) (offset : Nat) :
    ∃ (n : Nat) (filled : Memory), inodeReadAt dev sector buffer size offset v = .ok ((n,filled),v) ∧
      (n : Int) = transferred inode.data.length size offset ∧
      (∀ i < n, filled i = v.disk (inode.data.place (offset + i))) ∧ ∀ i, n ≤ i → filled i = buffer i := by
  refine ⟨_,_,inodeReadAt_ok opened.found opened.fits,(transferred_eq ..).symm,?_,?_⟩
  · intro i inside
    have byte := paste_inside buffer 0 v.disk (inode.data.place offset) inside
    rw [Nat.zero_add] at byte
    rw [byte,InodeDisk.place,InodeDisk.place,Nat.add_assoc]
  · intro i behind
    exact paste_outside _ _ _ (.inr (by omega))

/-- The number of bytes written, the bytes themselves, and nothing else on the device or in memory. -/
theorem OpenInode.write (opened : OpenInode dev v sector inode) (buffer : Memory) (size : Int) (offset : Nat) :
    ∃ (n : Nat) (disk : Memory), inodeWriteAt dev sector buffer size offset v = .ok (n,{ v with disk := disk }) ∧
      (n : Int) = (if inode.denyWriteCnt = 0 then transferred inode.data.length size offset else 0) ∧
      (∀ i < n, disk (inode.data.place (offset + i)) = buffer i) ∧
      ∀ a, (∀ i < n, a ≠ inode.data.place (offset + i)) → disk a = v.disk a := by
  by_cases allowed : inode.denyWriteCnt = 0
  · refine ⟨_,_,inodeWriteAt_ok buffer size offset opened.found allowed opened.fits,?_,?_,?_⟩
    · rw [if_pos allowed]
      exact (transferred_eq ..).symm
    · intro i inside
      have byte := paste_inside v.disk (inode.data.place offset) buffer 0 inside
      rw [Nat.zero_add] at byte
      rw [← byte,InodeDisk.place,InodeDisk.place,Nat.add_assoc]
    · intro a other
      apply paste_outside
      by_contra inside
      push Not at inside
      refine other (a - inode.data.place offset) (by omega) ?_
      unfold InodeDisk.place at inside ⊢
      omega
  · refine ⟨0,v.disk,inodeWriteAt_denied opened.found allowed,?_,?_,fun _ _ => rfl⟩
    · rw [if_neg allowed]
      rfl
    · intro i inside
      omega

/-- Reading and writing an open inode, for any size, offset and buffer, by whichever path the sectors go. -/
theorem inode_read_write (opened : OpenInode dev v sector inode) (buffer : Memory) (size : Int) (offset : Nat) :
    (∃ (n : Nat) (filled : Memory), inodeReadAt dev sector buffer size offset v = .ok ((n,filled),v) ∧
      (n : Int) = transferred inode.data.length size offset ∧
      (∀ i < n, filled i = v.disk (inode.data.place (offset + i))) ∧ ∀ i, n ≤ i → filled i = buffer i) ∧
    (∃ (n : Nat) (disk : Memory), inodeWriteAt dev sector buffer size offset v = .ok (n,{ v with disk := disk }) ∧
      (n : Int) = (if inode.denyWriteCnt = 0 then transferred inode.data.length size offset else 0) ∧
      (∀ i < n, disk (inode.data.place (offset + i)) = buffer i) ∧
      ∀ a, (∀ i < n, a ≠ inode.data.place (offset + i)) → disk a = v.disk a) ∧
    ∀ x < dev.size, ∀ bounce ofs,
      blockRead dev x buffer ofs v = (do return paste buffer ofs (← blockRead dev x bounce 0) 0 blockSectorSize : M Memory) v ∧
      blockWrite dev x buffer ofs v = blockWrite dev x (paste bounce 0 buffer ofs blockSectorSize) 0 v :=
  ⟨opened.read buffer size offset,opened.write buffer size offset,
    fun _ on bounce ofs => ⟨blockRead_bounced on buffer bounce ofs,blockWrite_bounced on buffer bounce ofs⟩⟩

/-- The file of the free map on a formatted device: two of its four bytes are before the end. -/
theorem inode_read_write_map :
    ∃ inode, find Inode.sector 0 smallVolume.openInodes = some inode ∧ inode.data.length = 4 ∧ ∀ buffer : Memory,
      (∃ (n : Nat) (filled : Memory), inodeReadAt smallDevice 0 buffer 600 2 smallVolume = .ok ((n,filled),smallVolume) ∧
        (n : Int) = transferred inode.data.length 600 2 ∧
        (∀ i < n, filled i = smallVolume.disk (inode.data.place (2 + i))) ∧ ∀ i, n ≤ i → filled i = buffer i) := by
  obtain ⟨inode,found,_,data⟩ := small_formatted.inv.mapOpen.inode
  refine ⟨inode,found,?_,fun buffer => (inode_read_write (small_formatted.openInode found) buffer 600 2).1⟩
  rw [data,small_formatted.inv.mapLength]
  rfl

end

end OsProj.FileSys
