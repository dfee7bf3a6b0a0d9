import OsProj.FileSys

/-! What reading and writing at an offset of an inode do: whatever the sectors, the bytes move
as one piece. -/
namespace OsProj.FileSys

open OsProj.ByteMemory OsProj.Faulting

def InodeDisk.Fits (dev : Device) (data : InodeDisk) : Prop :=
  ∀ pos < data.length, data.start + pos / blockSectorSize < dev.size

def InodeDisk.place (data : InodeDisk) (pos : Nat) : Nat := blockSectorSize * data.start + pos

section
variable {dev : Device} {v : Volume} {data : InodeDisk}

theorem blockRead_ok (on : sector < dev.size) : blockRead dev sector buffer ofs v =
    .ok (paste buffer ofs v.disk (blockSectorSize * sector) blockSectorSize,v) := by
  have checked : checkSector dev sector v = .ok ((),v) := if_pos on
  exact bind_go checked

theorem blockWrite_ok (on : sector < dev.size) : blockWrite dev sector buffer ofs v =
    .ok ((),{ v with disk := paste v.disk (blockSectorSize * sector) buffer ofs blockSectorSize }) := by
  have checked : checkSector dev sector v = .ok ((),v) := if_pos on
  exact bind_go checked

theorem byteToSector_inside (inside : pos < data.length) :
    byteToSector data pos = data.start + pos / blockSectorSize := if_pos inside

/-- The next chunk of a transfer of `n` bytes lies in one sector. -/
theorem chunk_next (chunk_eq : chunkSize size (length - offset) (offset % blockSectorSize) = chunk)
    (some : chunk ≠ 0) : offset < length ∧ chunk ≤ size ∧ offset + chunk ≤ length ∧
      offset % blockSectorSize + chunk ≤ blockSectorSize ∧
      min size (length - offset) = chunk + min (size - chunk) (length - (offset + chunk)) := by
  have bound := Nat.mod_lt offset (show 0 < blockSectorSize by decide)
  unfold chunkSize at chunk_eq
  omega

theorem sector_place (data : InodeDisk) (pos : Nat) : blockSectorSize * (data.start + pos / blockSectorSize) + pos % blockSectorSize =
    data.place pos := by
  have split := Nat.div_add_mod pos blockSectorSize
  rw [InodeDisk.place,Nat.mul_add]
  omega

theorem chunk_none (chunk_eq : chunkSize size (length - offset) (offset % blockSectorSize) = 0) :
    min size (length - offset) = 0 := by
  have bound := Nat.mod_lt offset (show 0 < blockSectorSize by decide)
  unfold chunkSize at chunk_eq
  omega

theorem inodeReadLoop_ok (fits : data.Fits dev) (enough : size ≤ bound) :
    inodeReadLoop dev data bound buffer size offset done v =
      .ok ((done + min size (data.length - offset),
        paste buffer done v.disk (data.place offset) (min size (data.length - offset))),v) := by
  induction bound generalizing buffer size offset done with
  | zero =>
    obtain rfl := Nat.le_zero.mp enough
    rw [Nat.zero_min,Nat.add_zero,paste_zero]
    rfl
  | succ bound ih =>
    unfold inodeReadLoop
    dsimp only
    generalize chunk_eq : chunkSize size (data.length - offset) (offset % blockSectorSize) = chunk
    split
    · rename_i none
      subst none
      rw [chunk_none chunk_eq,Nat.add_zero,paste_zero]
      rfl
    rename_i some
    obtain ⟨inside,short,_,window,total⟩ := chunk_next chunk_eq some
    have on := fits offset inside
    rw [byteToSector_inside inside,total]
    have next : data.place (offset + chunk) = data.place offset + chunk := (Nat.add_assoc ..).symm
    split
    · rename_i entire
      have place := sector_place data offset
      rw [entire.1,Nat.add_zero] at place
      rw [bind_go (blockRead_ok on),ih (by omega),place,← entire.2,next,paste_paste,Nat.add_assoc]
    · rw [bind_go (blockRead_ok on),ih (by omega)]
      rw [paste_through _ _ _ _ window,sector_place,next,paste_paste,Nat.add_assoc]

theorem inodeWriteLoop_ok (fits : data.Fits dev) (enough : size ≤ bound) :
    inodeWriteLoop dev data buffer bound size offset done v =
      .ok (done + min size (data.length - offset),{ v with
        disk := paste v.disk (data.place offset) buffer done (min size (data.length - offset)) }) := by
  induction bound generalizing size offset done v with
  | zero =>
    obtain rfl := Nat.le_zero.mp enough
    rw [Nat.zero_min,Nat.add_zero,paste_zero]
    rfl
  | succ bound ih =>
    unfold inodeWriteLoop
    dsimp only
    generalize chunk_eq : chunkSize size (data.length - offset) (offset % blockSectorSize) = chunk
    split
    · rename_i none
      subst none
      rw [chunk_none chunk_eq,Nat.add_zero,paste_zero]
      rfl
    rename_i some
    obtain ⟨inside,short,_,window,total⟩ := chunk_next chunk_eq some
    have on := fits offset inside
    rw [byteToSector_inside inside,total]
    have next : data.place (offset + chunk) = data.place offset + chunk := (Nat.add_assoc ..).symm
    split
    · rename_i entire
      have place := sector_place data offset
      rw [entire.1,Nat.add_zero] at place
      rw [bind_go (blockWrite_ok on),ih (by omega)]
      dsimp only
      rw [place,← entire.2,next,paste_paste,Nat.add_assoc]
    · rename_i partly
      -- a chunk that is not a whole sector leaves bytes of its sector as they are
      have rest : 0 < offset % blockSectorSize ∨ chunk < blockSectorSize - offset % blockSectorSize := by omega
      rw [if_pos rest,bind_go (blockRead_ok on),bind_go (blockWrite_ok on),ih (by omega)]
      dsimp only
      rw [paste_window _ _ _ _ window,sector_place,next,paste_paste,Nat.add_assoc]

end

end OsProj.FileSys
