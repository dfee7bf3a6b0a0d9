import OsProj.FileSysRuns

/-! What a call of `filesys_create` leaves behind when it fails. -/
namespace OsProj.FileSys

open OsProj.Bitmap OsProj.ByteMemory OsProj.Faulting OsProj.Keyed

def Unchanged (v v' : Volume) : Prop :=
  v'.freeMap = v.freeMap ∧ v'.bytesOf 0 = v.bytesOf 0 ∧ v'.bytesOf 1 = v.bytesOf 1

/-- Sectors are found for a file that has data, but the directory does not take its name. -/
def Leaks (dev : Device) (v : Volume) (name : CString) (initialSize : Int) : Prop :=
  0 < initialSize ∧ hasRoom dev v.freeMap initialSize = true ∧ ¬ Placeable v.inodeOf name

section
variable {dev : Device} {v v' : Volume} {name : CString} {initialSize : Int} {extra : Nat → Nat}

/-- The file of the free map is determined by the bits. -/
theorem Inv.map_bytes (inv : Inv dev v extra) : v.bytesOf 0 = (List.range (byteCnt dev.size)).map (bitmapByte v.freeMap) := by
  unfold Volume.bytesOf content
  rw [inv.mapLength]
  apply List.map_congr_left
  intro i inside
  exact inv.saved i (List.mem_range.mp inside)

theorem unchanged_of_bits (inv : Inv dev v extra) (inv' : Inv dev v' extra) (kept : Kept 0 v v')
    (bits : v'.freeMap = v.freeMap) : Unchanged v v' := by
  refine ⟨bits,?_,kept.bytes 1 root_member Nat.one_ne_zero⟩
  rw [inv.map_bytes,inv'.map_bytes,bits]

theorem sectors_pos (positive : 0 < initialSize) (range : initialSize < 2147483648) :
    0 < bytesToSectors initialSize.toNat := by
  by_cases small : initialSize.toNat + 511 < 2147483648
  · rw [bytesToSectors_small _ small]
    omega
  · have many := bytesToSectors_large _ (by omega) (by omega : initialSize.toNat < 2147483648)
    omega

/-- The call returns, and if it fails it keeps everything or leaks the sectors of the data. -/
theorem Inv.create_fails (inv : Inv dev v extra) (name : CString) (low : 0 ≤ initialSize) (high : initialSize < 2147483648) :
    ∃ success v', filesysCreate dev name initialSize v = .ok (success,v') ∧
      (success = false → (Unchanged v v' ↔ ¬ Leaks dev v name initialSize)) ∧ (Leaks dev v name initialSize → success = false) := by
  cases room : hasRoom dev v.freeMap initialSize with
  | false =>
    obtain ⟨v',done,inv',kept,-,bits⟩ := inv.create_noRoom name low room
    have tight : ¬ Leaks dev v name initialSize := by
      rintro ⟨-,some,-⟩
      exact Bool.false_ne_true (room.symm.trans some)
    exact ⟨false,v',done,fun _ => iff_of_true (unchanged_of_bits inv inv' kept bits) tight,fun _ => rfl⟩
  | true =>
    obtain ⟨i,start,v₁,v₂,v₃,made⟩ := inv.made high room
    by_cases placeable : Placeable v.inodeOf name
    · obtain ⟨v',done,-⟩ := made.done low placeable
      exact ⟨true,v',done,fun failed => absurd failed.symm Bool.false_ne_true,fun leaks => absurd placeable leaks.2.2⟩
    · obtain ⟨v',done,inv',kept,bits⟩ := made.refused low placeable
      refine ⟨false,v',done,fun _ => ?_,fun _ => rfl⟩
      by_cases empty : initialSize = 0
      · -- a file without data has no sector to lose
        have none : bytesToSectors initialSize.toNat = 0 := by
          rw [empty]
          decide +kernel
        refine iff_of_true (unchanged_of_bits inv inv' kept ?_) fun leaks => absurd leaks.1 (by omega)
        rw [bits,none]
        funext x
        exact setMultiple_outside (by omega)
      · have some := sectors_pos (by omega) high
        refine iff_of_false (fun unchanged => ?_) (not_not_intro ⟨by omega,room,placeable⟩)
        have clear := (made.unused start (Nat.le_refl _) (by omega)).1
        have marked : v'.freeMap start = true := by
          rw [bits]
          exact setMultiple_inside (Nat.le_refl _) (by omega)
        rw [unchanged.1,clear] at marked
        exact Bool.false_ne_true marked

/-- A call that fails changes nothing, unless only the directory refuses a file with data. -/
theorem create_atomic_iff (reached : Reached dev h v) (low : 0 ≤ initialSize) (high : initialSize < 2147483648) :
    (∀ v', filesysCreate dev name initialSize v = .ok (false,v') → Unchanged v v') ↔ ¬ Leaks dev v name initialSize := by
  obtain ⟨success,v',done,failed,leaks⟩ := reached.inv.create_fails name low high
  constructor
  · intro atomic leaking
    have refused := leaks leaking
    rw [refused] at done
    exact (failed refused).mp (atomic v' done) leaking
  · intro tight v'' done'
    obtain ⟨rfl,rfl⟩ := Prod.mk.inj (Except.ok.inj (done.symm.trans done'))
    exact (failed rfl).mpr tight

theorem create_atomic_iff_formatted : Reached smallDevice [] smallVolume ∧
    ((∀ v', filesysCreate smallDevice ⟨[],by decide⟩ 0 smallVolume = .ok (false,v') → Unchanged smallVolume v') ↔
      ¬ Leaks smallDevice smallVolume ⟨[],by decide⟩ 0) :=
  ⟨small_formatted,create_atomic_iff small_formatted (by decide) (by decide)⟩

/-- Creating a file of one byte with an empty name fails and keeps a sector. -/
theorem create_keeps_sector : Reached smallDevice [] smallVolume ∧
    ∃ v', filesysCreate smallDevice ⟨[],by decide⟩ 1 smallVolume = .ok (false,v') ∧ ¬ Unchanged smallVolume v' := by
  have leaks : Leaks smallDevice smallVolume ⟨[],by decide⟩ 1 :=
    ⟨by decide,by decide +kernel,fun placeable => placeable.1.1 rfl⟩
  obtain ⟨success,v',done,failed,refused⟩ := small_formatted.inv.create_fails ⟨[],by decide⟩
    (show (0 : Int) ≤ 1 by decide) (by decide)
  have none := refused leaks
  rw [none] at done
  exact ⟨small_formatted,v',done,fun unchanged => (failed none).mp unchanged leaks⟩

end

end OsProj.FileSys
