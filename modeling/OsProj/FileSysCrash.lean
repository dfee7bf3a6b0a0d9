import OsProj.FileSysCuts

/-! The power goes off during a call. Whatever sector was to be written next, the disk holds the
names and files as they were or as they were to be, and a file that was being written has some of
the new bytes. -/
namespace OsProj.FileSys

open OsProj.Bitmap OsProj.Budget OsProj.ByteMemory OsProj.Faulting OsProj.Keyed OsProj.FileSys.Power

section
variable {dev : Device} {v v' : Volume} {s : Store} {extra : Nat → Nat} {disk : Memory} {bits bits' : Nat → Bool}

/-! The free map. -/

theorem digits_congr {n : Nat} (same : ∀ j < n, bits j = bits' j) : digits bits n = digits bits' n := by
  induction n with
  | zero => rfl
  | succ n ih => rw [digits,digits,ih fun j below => same j (by omega),same n (Nat.lt_succ_self n)]

theorem bitmapByte_congr (same : ∀ j < 8, bits (8 * i + j) = bits' (8 * i + j)) : bitmapByte bits i = bitmapByte bits' i :=
  congrArg UInt8.ofNat (digits_congr same)

/-- The first bytes of one free map and the others of another one. -/
def mixedBits (m : Nat) (bits bits' : Nat → Bool) : Nat → Bool := fun k => if k / 8 < m then bits k else bits' k

theorem bitmapByte_mixed : bitmapByte (mixedBits m bits bits') i = if i < m then bitmapByte bits i else bitmapByte bits' i := by
  split
  · rename_i early
    exact bitmapByte_congr fun j below => if_pos (by omega)
  · rename_i late
    exact bitmapByte_congr fun j below => if_neg (by omega)

variable (inv : Inv dev v extra) (masked : Masked dev v) (lists : Lists v s)
include inv masked lists

theorem Inv.holds : Holds dev s v.disk := ⟨v,extra,rfl,inv,masked,lists⟩

/-- Saving another free map that has the sectors of all objects may end anywhere. -/
theorem Inv.torn (kept : ∀ i ∈ v.objects, ∀ x, Owns v.disk i x → bits x = true) (inside : ∀ k, dev.size ≤ k → bits k = false)
    (short : m < byteCnt dev.size) : Holds dev s (paste v.disk ((onDisk v.disk 0).place 0) (bitmapByte bits) 0 m) := by
  have same : SameOutside (onDisk v.disk 0).Has v.disk (paste v.disk ((onDisk v.disk 0).place 0) (bitmapByte bits) 0 m) :=
    inv.layout.paste_same map_member (by rw [inv.mapLength]; omega)
  have inodes i (here : i ∈ v.objects) := inv.layout.not_map map_member here
  have others j (here : j ∈ v.objects) (other : j ≠ 0) x (has : (onDisk v.disk j).Has x) :=
    inv.layout.data_apart here map_member other has
  have root := others 1 root_member Nat.one_ne_zero
  have layout : Layout dev v.disk (mixedBits m bits v.freeMap) v.objects := by
    refine inv.layout.mono (List.Sublist.refl _) fun i here x owns => ?_
    unfold mixedBits
    split
    · exact kept i here x owns
    · exact (inv.layout.marked i here x owns).2
  have saved : MapSaved dev (paste v.disk ((onDisk v.disk 0).place 0) (bitmapByte bits) 0 m) (mixedBits m bits v.freeMap) := by
    intro i low
    rw [onDisk_same same (inodes 0 map_member),bitmapByte_mixed]
    unfold paste
    simp only [InodeDisk.place,Nat.add_zero,Nat.add_lt_add_iff_left,Nat.le_add_right,true_and,Nat.add_sub_cancel_left,Nat.zero_add]
    split
    · rfl
    · exact inv.saved i low
  have inv' := inv.frame same inodes root (layout.frame same inodes) saved
  refine Inv.holds inv' (fun k behind => ?_) (lists.kept inv' (inv.kept same inodes root others))
  change mixedBits m bits v.freeMap k = false
  unfold mixedBits
  split
  · exact inside k behind
  · exact masked k behind

omit masked lists in
/-- Sectors that no object owns may have any bytes. -/
theorem Inv.scratch (same : SameOutside X v.disk disk) (unowned : ∀ i ∈ v.objects, ∀ x, Owns v.disk i x → ¬ X x) :
    Inv dev { v with disk := disk } extra ∧ Kept 0 v { v with disk := disk } := by
  have inodes i (here : i ∈ v.objects) : ¬ X i := unowned i here i (.inl rfl)
  have root x (has : (onDisk v.disk 1).Has x) : ¬ X x := unowned 1 root_member x (.inr has)
  refine ⟨inv.frame same inodes root (inv.layout.frame same inodes) ?_,
    inv.kept same inodes root fun j here _ x has => unowned j here x (.inr has)⟩
  intro k low
  rw [onDisk_same same (inodes 0 map_member)]
  refine (same _ ?_).trans (inv.saved k low)
  rw [place_sector]
  exact unowned 0 map_member _ (.inr (inv.layout.has map_member (by rw [inv.mapLength]; exact low)))

theorem Inv.cut_allocate (cut : Cut (Power.freeMapAllocate dev cnt) v disk) : Holds dev s disk := by
  obtain ⟨start,found,m,short,rfl⟩ := cut_freeMapAllocate inv.mapOpen (inv.fits map_member) cut
  refine Inv.torn inv masked lists ?_ (masked_setMultiple masked (.inl (scan_some found).2.1)) short
  intro i here x owns
  have marked := (inv.layout.marked i here x owns).2
  unfold setMultiple
  split
  · rfl
  · exact marked

theorem Inv.cut_release (files : List File)
    (unowned : ∀ j ∈ v.objects, ∀ x, sector ≤ x → x < sector + cnt → ¬ Owns v.disk j x)
    (cut : Cut (Power.freeMapRelease dev sector cnt) { v with files := files } disk) : Holds dev s disk := by
  obtain ⟨m,short,rfl⟩ := cut_freeMapRelease (v := { v with files := files })
    ⟨inv.mapOpen.file,inv.mapOpen.inode,inv.mapOpen.length⟩ (inv.fits map_member) cut
  refine Inv.torn inv masked lists ?_ (masked_setMultiple masked (.inr rfl)) short
  intro j here x owns
  change setMultiple v.freeMap sector cnt false x = true
  rw [setMultiple_outside fun inside => unowned j here x inside.1 inside.2 owns]
  exact (inv.layout.marked j here x owns).2

/-! Inodes. -/

omit inv masked lists in
theorem cut_writeZeros (on : start + n ≤ dev.size) (cut : Cut (Power.writeZeros dev start n) v disk) :
    SameOutside (fun x => start ≤ x ∧ x < start + n) v.disk disk := by
  induction n with
  | zero => exact absurd cut cut_pure
  | succ n ih =>
    rcases cut.go counts_writeZeros (writeZeros_ok (by omega)) with first | last
    · exact fun a outside => ih (by omega) first a fun inside => outside ⟨inside.1,by omega⟩
    · rw [cut_blockWrite last]
      intro a outside
      refine if_neg fun inside => outside ?_
      simp only [blockSectorSize] at *
      omega

theorem Inv.cut_create (fresh : Fresh dev v.disk v.freeMap v.objects i)
    (cut : Cut (Power.inodeCreate dev i length) v disk) : Holds dev s disk := by
  cases free : scan v.freeMap dev.size 0 (bytesToSectors length) false with
  | none =>
    rcases cut.go counts_freeMapAllocate (freeMapAllocate_none free) with first | rest
    · exact Inv.cut_allocate inv masked lists first
    · exact absurd rest cut_pure
  | some start =>
    obtain ⟨-,room,clear⟩ := scan_some free
    rcases cut.go counts_freeMapAllocate (freeMapAllocate_some inv.mapOpen (inv.fits map_member) free) with first | rest
    · exact Inv.cut_allocate inv masked lists first
    obtain ⟨inv₁,kept₁⟩ : Inv dev (v.sync dev (setMultiple v.freeMap start (bytesToSectors length) true)) extra ∧
        Kept 0 v (v.sync dev (setMultiple v.freeMap start (bytesToSectors length) true)) := by
      refine inv.sync fun j here x owns => ?_
      have marked := (inv.layout.marked j here x owns).2
      unfold setMultiple
      split
      · rfl
      · exact marked
    have masked₁ : Masked dev (v.sync dev (setMultiple v.freeMap start (bytesToSectors length) true)) :=
      masked_setMultiple masked (.inl room)
    have lists₁ := lists.kept inv₁ kept₁
    rcases rest.go counts_blockWrite (blockWrite_ok fresh.on) with inode | rest
    · rw [cut_blockWrite inode]
      exact Inv.holds inv₁ masked₁ lists₁
    rcases rest.bind counts_writeZeros with zeros | ⟨_,_,-,last⟩
    · -- the inode is written and some of the data, in sectors that nothing owns yet
      let X x := x = i ∨ start ≤ x ∧ x < start + bytesToSectors length
      have same : SameOutside X (v.sync dev (setMultiple v.freeMap start (bytesToSectors length) true)).disk disk := by
        intro a outside
        obtain ⟨other,data⟩ := not_or.mp outside
        refine (cut_writeZeros room zeros a data).trans (if_neg fun inside => other ?_)
        exact sector_of inside.1 inside.2
      have unowned j (here : j ∈ (v.sync dev (setMultiple v.freeMap start (bytesToSectors length) true)).objects) x
          (owns : Owns (v.sync dev (setMultiple v.freeMap start (bytesToSectors length) true)).disk j x) : ¬ X x := by
        have before := kept₁.objects j here
        rw [Owns,inv.layout.sync_onDisk map_member inv.mapLength before] at owns
        rintro (rfl | data)
        · exact fresh.unowned j before owns
        · have marked := (inv.layout.marked j before x owns).2
          rw [clear x data.1 data.2] at marked
          exact Bool.false_ne_true marked
      obtain ⟨inv₂,kept₂⟩ := inv₁.scratch same unowned
      exact Inv.holds inv₂ masked₁ (lists₁.kept inv₂ kept₂)
    · exact absurd last cut_pure

omit inv masked lists in
/-- Closing an inode that was not removed, or that others have open, writes nothing. -/
theorem cut_inodeClose_plain (files : List File) (found : find Inode.sector i v.openInodes = some inode)
    (stays : 1 < inode.openCnt ∨ inode.removed = false) : ¬ Cut (Power.inodeClose dev i) { v with files := files } disk := by
  intro cut
  have rest := cut.free_go (findInode_ok (v := { v with files := files }) found)
  split at rest
  · rename_i last
    have after := rest.free_go rfl
    rw [stays.resolve_left (by omega)] at after
    exact cut_pure after
  · exact cut_free rest

omit masked lists in
theorem Inv.cut_closeRoot (held : 0 < extra 1) : ¬ Cut (Power.inodeClose dev 1) v disk := by
  obtain ⟨inode,found,same,member,-,-⟩ := inv.unreferred Nat.one_ne_zero held
  refine cut_inodeClose_plain v.files found (.inr ?_)
  by_contra removed
  have removed : inode.removed = true := by simpa using removed
  have nodup := (List.nodup_cons.mp inv.layout.nodup).2
  exact (List.nodup_cons.mp nodup).1 (List.mem_append_right _ (mem_removed.mpr ⟨inode,member,removed,same⟩))

theorem Inv.cut_close (files : List File) (other : i ≠ 0) (held : 0 < extra i)
    (cut : Cut (Power.inodeClose dev i) { v with files := files } disk) : Holds dev s disk := by
  obtain ⟨inode,found,same,member,closed,kept⟩ := inv.unreferred other held
  by_cases stays : 1 < inode.openCnt ∨ inode.removed = false
  · exact absurd cut (cut_inodeClose_plain files found stays)
  obtain ⟨last,removed⟩ := not_or.mp stays
  have removed : inode.removed = true := by simpa using removed
  subst same
  have data := inv.table.data inode member
  have here := inv.alive inode member
  have marked x (owns : Owns v.disk inode.sector x) := inv.layout.marked inode.sector here x owns
  have closedLists := lists.kept closed kept
  have rest := cut.free_go (findInode_ok (v := { v with files := files }) found)
  rw [if_pos (by omega)] at rest
  -- the inode is out of the table
  have table : closeList v.openInodes inode = remove Inode.sector inode.sector v.openInodes := if_neg last
  have taken : (modify fun v => { v with openInodes := remove Inode.sector inode.sector v.openInodes } : M Unit)
      { v with files := files } = .ok ((),{ v with openInodes := closeList v.openInodes inode, files := files }) := by
    rw [table]
    rfl
  have released := rest.free_go taken
  rw [removed,if_pos rfl] at released
  have unowned j (there : j ∈ ({ v with openInodes := closeList v.openInodes inode } : Volume).objects) x
      (low : inode.sector ≤ x) (high : x < inode.sector + 1) : ¬ Owns v.disk j x := by
    intro owns
    exact inv.removed_apart member removed last kept there owns (.inl (by omega))
  have bits x (low : inode.sector ≤ x) (high : x < inode.sector + 1) : v.freeMap x = true := (marked x (.inl (by omega))).2
  have on := (marked inode.sector (.inl rfl)).1
  rcases released.go counts_freeMapRelease (closed.release_files _ _ on bits files) with first | second
  · exact Inv.cut_release closed masked closedLists files unowned first
  obtain ⟨-,inv',kept'⟩ := closed.release inode.sector 1 on bits unowned
  refine Inv.cut_release inv' (masked_setMultiple masked (.inr rfl)) (closedLists.kept inv' kept') files ?_ second
  intro j there x low high owns
  have there' := kept'.objects j there
  rw [Owns,closed.layout.sync_onDisk map_member closed.mapLength there'] at owns
  rw [data] at low high
  exact inv.removed_apart member removed last kept there' owns (.inr ⟨low,high⟩)

end

end OsProj.FileSys
