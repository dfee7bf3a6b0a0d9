import OsProj.FileSysFormat

/-! Runs of calls from a formatted device. -/
namespace OsProj.FileSys

open OsProj.Bitmap OsProj.ByteMemory OsProj.Faulting OsProj.Keyed

/-- The calls of the history lead from some formatted device to the volume. -/
def Reached (dev : Device) (h : List Event) (v : Volume) : Prop :=
  ∃ disk first, filesysInit dev true (Volume.boot disk) = .ok ((),first) ∧ History.Path (Step dev) [] first h v

def ownedSectors (disk : Memory) (i : Nat) : List Nat :=
  i :: List.range' (onDisk disk i).start (onDisk disk i).sectors

def savedBit (v : Volume) (k : Nat) : Bool := ((v.bytesOf 0).getD (k / 8) 0).toNat.testBit (k % 8)

section
variable {dev : Device} {v : Volume}

theorem reached_refines (reached : Reached dev h v) :
    Inv dev v kernelHolds ∧ ∃ s, History.Path StoreStep [] Store.empty h s ∧ Refines v s := by
  obtain ⟨disk,first,done,run⟩ := reached
  obtain ⟨inv,refines⟩ := format_inv done
  exact run_refines inv refines run

theorem Reached.inv (reached : Reached dev h v) : Inv dev v kernelHolds := (reached_refines reached).1

theorem Reached.returns (reached : Reached dev h v) (admissible : Admissible v call) :
    ∃ result v', exec dev call v = .ok (result,v') := by
  obtain ⟨inv,s,-,refines⟩ := reached_refines reached
  obtain ⟨result,v',-,done,-⟩ := simulated inv refines admissible
  exact ⟨result,v',done⟩

theorem Reached.step (reached : Reached dev h v) (step : Step dev h v e v') : Reached dev (e :: h) v' := by
  obtain ⟨disk,first,done,run⟩ := reached
  exact ⟨disk,first,done,run.snoc step⟩

/-! A small device, with which runs exist. -/

def smallDevice : Device := ⟨16,by decide⟩

def smallVolume : Volume := formatted smallDevice (fun _ => 0) 2 3

theorem small_formatted : Reached smallDevice [] smallVolume := by
  have map : scan startBits smallDevice.size 0 (mapInode smallDevice 2).sectors false = some 2 := by decide +kernel
  have root : scan (setMultiple startBits 2 (mapInode smallDevice 2).sectors true) smallDevice.size 0
      (rootInode 3).sectors false = some 3 := by decide +kernel
  exact ⟨fun _ => 0,smallVolume,filesysInit_ok (by decide) map root,.refl⟩

/-- A run of any calls on names goes through. -/
theorem small_reached (call : Call) (range : call.InRange) (names : call.file = none) :
    ∃ e v, e.call = call ∧ Reached smallDevice [e] v := by
  have admissible : Admissible smallVolume call := by
    refine ⟨range,fun id file => ?_⟩
    rw [names] at file
    contradiction
  obtain ⟨result,v',ran⟩ := small_formatted.returns admissible
  exact ⟨⟨call,result,callRoom smallDevice smallVolume call⟩,v',rfl,small_formatted.step ⟨admissible,ran,rfl⟩⟩

/-! The store. -/

/-- What callers see is what a store of names and bytes shows, and every call returns. -/
theorem filesys_refines_store (reached : Reached dev h v) :
    (∃ s, History.Path StoreStep [] Store.empty h s) ∧
      ∀ call, Admissible v call → ∃ result v', exec dev call v = .ok (result,v') := by
  obtain ⟨inv,s,path,-⟩ := reached_refines reached
  exact ⟨⟨s,path⟩,fun call => reached.returns⟩

theorem filesys_refines_store_created :
    ∃ e v, e.call = .filesysCreate ⟨[97],by decide⟩ 600 ∧ Reached smallDevice [e] v ∧
      (∃ s, History.Path StoreStep [] Store.empty [e] s) ∧
        ∀ call, Admissible v call → ∃ result v', exec smallDevice call v = .ok (result,v') := by
  obtain ⟨e,v,same,reached⟩ := small_reached (.filesysCreate ⟨[97],by decide⟩ 600) ⟨by decide,by decide⟩ rfl
  exact ⟨e,v,same,reached,filesys_refines_store reached⟩

/-! Ownership. -/

theorem mem_ownedSectors {disk : Memory} : x ∈ ownedSectors disk i ↔ Owns disk i x := by
  simp [ownedSectors,Owns,InodeDisk.Has]

theorem Layout.owned_nodup {disk : Memory} {objects : List Nat} (layout : Layout dev disk freeMap objects) :
    (objects.flatMap (ownedSectors disk)).Nodup := by
  rw [List.nodup_flatMap]
  constructor
  · intro i here
    refine List.nodup_cons.mpr ⟨?_,List.nodup_range' _⟩
    intro data
    rw [List.mem_range'_1] at data
    exact layout.self i here data
  · refine layout.nodup.pairwise_of_forall_ne ?_
    intro i here j there different x mine theirs
    exact layout.apart i here j there different x (mem_ownedSectors.mp mine) (mem_ownedSectors.mp theirs)

/-- Objects share no sector, their sectors are on the device and allocated, and no call fails an
assertion. -/
theorem sectors_owned_once (reached : Reached dev h v) :
    (v.objects.flatMap (ownedSectors v.disk)).Nodup ∧
      (∀ x ∈ v.objects.flatMap (ownedSectors v.disk), x < dev.size ∧ v.freeMap x = true) ∧
      ∀ call, Admissible v call → ∃ result v', exec dev call v = .ok (result,v') := by
  have layout := reached.inv.layout
  refine ⟨layout.owned_nodup,?_,fun call => reached.returns⟩
  intro x owned
  obtain ⟨i,here,sector⟩ := List.mem_flatMap.mp owned
  exact layout.marked i here x (mem_ownedSectors.mp sector)

theorem sectors_owned_once_created :
    ∃ e v, e.call = .filesysCreate ⟨[97],by decide⟩ 600 ∧ Reached smallDevice [e] v ∧
      (v.objects.flatMap (ownedSectors v.disk)).Nodup ∧
        (∀ x ∈ v.objects.flatMap (ownedSectors v.disk), x < smallDevice.size ∧ v.freeMap x = true) ∧
        ∀ call, Admissible v call → ∃ result v', exec smallDevice call v = .ok (result,v') := by
  obtain ⟨e,v,same,reached⟩ := small_reached (.filesysCreate ⟨[97],by decide⟩ 600) ⟨by decide,by decide⟩ rfl
  exact ⟨e,v,same,reached,sectors_owned_once reached⟩

/-! The free map on the disk. -/

theorem Inv.savedBit (inv : Inv dev v extra) (inside : k < dev.size) : savedBit v k = v.freeMap k := by
  have low := byte_inside dev inside
  have byte : (v.bytesOf 0).getD (k / 8) 0 = bitmapByte v.freeMap (k / 8) :=
    (content_getD (by rw [inv.mapLength]; exact low)).trans (inv.saved (k / 8) low)
  rw [FileSys.savedBit,byte,bitmapByte_testBit]

/-- The file of the free map always holds it, so that it is the same after a remount. -/
theorem free_map_persists (reached : Reached dev h v) :
    (∀ k < dev.size, savedBit v k = v.freeMap k) ∧
      ∃ v', filesysInit dev false (Volume.boot v.disk) = .ok ((),v') ∧ ∀ k < dev.size, v'.freeMap k = v.freeMap k := by
  have inv := reached.inv
  have on := (inv.layout.marked 0 map_member 0 (.inl rfl)).1
  refine ⟨fun k => inv.savedBit,?_⟩
  have opened := freeMapOpen_ok (v := { Volume.boot v.disk with freeMap := startBits }) on rfl inv.mapLength
    (inv.fits map_member) inv.saved
  refine ⟨_,(bind_go rfl).trans opened,fun k inside => ?_⟩
  simp [inside]

theorem free_map_persists_created :
    ∃ e v, e.call = .filesysCreate ⟨[97],by decide⟩ 600 ∧ Reached smallDevice [e] v ∧
      (∀ k < smallDevice.size, savedBit v k = v.freeMap k) ∧
        ∃ v', filesysInit smallDevice false (Volume.boot v.disk) = .ok ((),v') ∧
          ∀ k < smallDevice.size, v'.freeMap k = v.freeMap k := by
  obtain ⟨e,v,same,reached⟩ := small_reached (.filesysCreate ⟨[97],by decide⟩ 600) ⟨by decide,by decide⟩ rfl
  exact ⟨e,v,same,reached,free_map_persists reached⟩

end

end OsProj.FileSys
