import OsProj.FileSys

/-! What operations on sectors and inodes leave alone: those that only read keep every property of
the volume, those that write to the disk every property that does not look there. -/
namespace OsProj.FileSys

open OsProj.ByteMemory OsProj.Faulting

def OffDisk (P : Volume → Prop) : Prop := ∀ v disk, P v → P { v with disk := disk }

section
variable {P : Volume → Prop} {dev : Device}

/-! Reading. -/

theorem keeps_assert (c : Bool) : Keeps P (assert c) := by
  refine keeps_of_same fun v a v' done => ?_
  unfold assert at done
  split at done <;> cases done
  rfl

theorem keeps_checkSector : Keeps P (checkSector dev sector) := by
  refine keeps_of_same fun v a v' done => ?_
  unfold checkSector at done
  split at done <;> cases done
  rfl

theorem keeps_blockRead : Keeps P (blockRead dev sector buffer ofs) :=
  keeps_checkSector.bind fun _ => keeps_get_bind fun _ _ => keeps_pure _

theorem keeps_findInode : Keeps P (findInode i) := by
  refine keeps_of_same fun v a v' done => ?_
  unfold findInode at done
  split at done <;> cases done
  rfl

theorem keeps_findFile : Keeps P (findFile f) := by
  refine keeps_of_same fun v a v' done => ?_
  unfold findFile at done
  split at done <;> cases done
  rfl

theorem keeps_inodeReadLoop : Keeps P (inodeReadLoop dev data bound buffer size offset bytesRead) := by
  induction bound generalizing buffer size offset bytesRead with
  | zero => exact keeps_pure _
  | succ bound ih =>
    rw [inodeReadLoop]
    refine (keeps_pure _).ite (.ite ?_ ?_)
    · exact keeps_blockRead.bind fun _ => ih
    · exact keeps_blockRead.bind fun _ => ih

theorem keeps_inodeReadAt : Keeps P (inodeReadAt dev i buffer size offset) :=
  keeps_findInode.bind fun _ => keeps_inodeReadLoop

theorem keeps_scanEntries : Keeps P (scanEntries dev dir wanted bound e ofs) := by
  induction bound generalizing e ofs with
  | zero => exact keeps_pure _
  | succ bound ih =>
    refine keeps_inodeReadAt.bind fun read => ?_
    exact .ite (.ite (keeps_pure _) ih) (keeps_pure _)

theorem keeps_entryBound : Keeps P (entryBound dir) := keeps_findInode.bind fun _ => keeps_pure _

theorem keeps_lookup : Keeps P (lookup dev dir name) := keeps_entryBound.bind fun _ => keeps_scanEntries

/-! Writing. -/

section
variable (off : OffDisk P)
include off

theorem keeps_blockWrite : Keeps P (blockWrite dev sector buffer ofs) :=
  keeps_checkSector.bind fun _ => keeps_modify fun v kept => off v _ kept

theorem keeps_inodeWriteLoop : Keeps P (inodeWriteLoop dev data buffer bound size offset bytesWritten) := by
  induction bound generalizing size offset bytesWritten with
  | zero => exact keeps_pure _
  | succ bound ih =>
    rw [inodeWriteLoop]
    refine (keeps_pure _).ite (.ite ?_ ?_)
    · exact (keeps_blockWrite off).bind fun _ => ih
    · refine .ite ?_ ?_
      · exact keeps_blockRead.bind fun _ => (keeps_blockWrite off).bind fun _ => ih
      · exact (keeps_pure _).bind fun _ => (keeps_blockWrite off).bind fun _ => ih

theorem keeps_inodeWriteAt : Keeps P (inodeWriteAt dev i buffer size offset) :=
  keeps_findInode.bind fun _ => (keeps_pure _).ite (keeps_inodeWriteLoop off)

theorem keeps_writeZeros : Keeps P (writeZeros dev start n) := by
  induction n with
  | zero => exact keeps_pure _
  | succ n ih => exact ih.bind fun _ => keeps_blockWrite off

theorem keeps_freeMapWrite {absent : M Bool} (other : Keeps P absent) : Keeps P (freeMapWrite dev absent) := by
  intro v a v' kept done
  unfold freeMapWrite at done
  split at done
  · exact other v a v' kept done
  · refine (keeps_get_bind fun v _ => ?_ : Keeps P (bitmapWrite dev _)) v a v' kept done
    exact (keeps_inodeWriteAt off).bind fun _ => keeps_pure _

theorem keeps_dirAdd : Keeps P (dirAdd dev dir name i) := by
  refine (keeps_pure _).ite (keeps_lookup.bind fun found => (keeps_pure _).ite ?_)
  refine keeps_entryBound.bind fun _ => keeps_scanEntries.bind fun free => ?_
  exact (keeps_inodeWriteAt off).bind fun _ => keeps_pure _

end

end

end OsProj.FileSys
