import OsProj.FileSysFilled
import OsProj.Fsutil

/-! The archive on the scratch device: one header and the data for each file, each from a new
sector on. -/
namespace OsProj.Fsutil

open OsProj.ByteMemory OsProj.Faulting OsProj.FileSys OsProj.Ustar

abbrev Entry := CString × List UInt8

/-- The header and the data of a file from a sector on. -/
structure Entered (scratch : Memory) (pos : Nat) (entry : Entry) : Prop where
  header : ∃ h, ustarMakeHeader entry.1 .regular entry.2.length = some h ∧ ∀ i < blockSectorSize, scratch (blockSectorSize * pos + i) = h i
  data : ∀ i < entry.2.length, scratch (blockSectorSize * (pos + 1) + i) = entry.2.getD i 0

def Entry.sectors (entry : Entry) : Nat := 1 + dataSectors entry.2.length

/-- The files lie in the archive one after another, up to the sector `last`. -/
def Archived (scratch : Memory) : List Entry → Nat → Nat → Prop
  | [], pos, last => pos = last
  | entry :: rest, pos, last => Entered scratch pos entry ∧ Archived scratch rest (pos + entry.sectors) last

/-- The sector is the first of an end-of-archive marker. -/
def Blank (scratch : Memory) (pos : Nat) : Prop := ∀ i < blockSectorSize, scratch (blockSectorSize * pos + i) = 0

section
variable {scratch scratch' : Memory} {entry : Entry} {files : List Entry}

theorem dataSectors_room (length : Nat) : length ≤ blockSectorSize * dataSectors length := by
  simp only [blockSectorSize,dataSectors]
  omega

theorem Entered.congr (entered : Entered scratch pos entry)
    (same : ∀ a < blockSectorSize * (pos + entry.sectors), scratch' a = scratch a) : Entered scratch' pos entry := by
  have room := dataSectors_room entry.2.length
  simp only [blockSectorSize,Entry.sectors] at *
  obtain ⟨h,made,bytes⟩ := entered.header
  refine ⟨⟨h,made,fun i inside => ?_⟩,fun i inside => ?_⟩
  · simp only [blockSectorSize] at *
    rw [same _ (by omega)]
    exact bytes i inside
  · simp only [blockSectorSize] at *
    rw [same _ (by omega)]
    exact entered.data i inside

theorem Archived.le (archived : Archived scratch files pos last) : pos ≤ last := by
  induction files generalizing pos with
  | nil => exact Nat.le_of_eq archived
  | cons entry rest ih =>
    have := ih archived.2
    omega

end

/-! Calls in the kernel. -/

section
variable {fs dev : Device} {m : Machine}

theorem onVolume_ok {x : M α} (done : x m.volume = .ok (a,v)) : onVolume x m = .ok (a,{ m with volume := v }) := by
  simp only [onVolume,done]

theorem scratchRead_ok (inside : sector < dev.size) :
    scratchRead dev sector m = .ok (paste (fun _ => 0) 0 m.scratch (blockSectorSize * sector) blockSectorSize,m) := if_pos inside

theorem scratchWrite_ok (inside : sector < dev.size) (buffer : Memory) : scratchWrite dev sector buffer m =
    .ok ((),{ m with scratch := paste m.scratch (blockSectorSize * sector) buffer 0 blockSectorSize }) := if_pos inside

theorem appendWrite_ok (inside : m.appendSector < dev.size) (buffer : Memory) : appendWrite dev buffer m =
    .ok ((),{ m with
      scratch := paste m.scratch (blockSectorSize * m.appendSector) buffer 0 blockSectorSize
      appendSector := m.appendSector + 1 }) := by
  refine (bind_go rfl).trans ((bind_go rfl).trans ?_)
  exact scratchWrite_ok inside buffer

theorem extractRead_ok (inside : m.extractSector < dev.size) : extractRead dev m =
    .ok (paste (fun _ => 0) 0 m.scratch (blockSectorSize * m.extractSector) blockSectorSize,
      { m with extractSector := m.extractSector + 1 }) := by
  refine (bind_go rfl).trans ((bind_go rfl).trans ?_)
  exact scratchRead_ok inside

end

end OsProj.Fsutil
