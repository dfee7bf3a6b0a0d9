import OsProj.FileSysStore

/-! Each call on names, from a volume on which everything holds to another one. -/
namespace OsProj.FileSys

open OsProj.Bitmap OsProj.ByteMemory OsProj.Faulting OsProj.Keyed

section
variable {dev : Device} {v v' : Volume} {s : Store} {extra : Nat → Nat} {name : CString} {initialSize : Int}

/-! The root directory while it is open. -/

section
variable (inv : Inv dev v extra) (held : 0 < extra 1)
include inv held

omit held in
theorem Inv.rootSlots : (onDisk v.disk 1).length / entrySize = rootEntries := by
  rw [inv.rootLength]
  rfl

theorem Inv.lookup_some (found : v.inodeOf name = some i) :
    ∃ k < rootEntries, entryFor (v.entry k) name = true ∧ entrySector (v.entry k) = i ∧
      lookup dev 1 name v = .ok ((true,entrySize * k,v.entry k),v) := by
  obtain ⟨inode,here,-,data⟩ := inv.kernel_inode held (.inr rfl)
  obtain ⟨k,inside,hit,sector⟩ := inv.inodeOf_some.mp found
  refine ⟨k,inside,hit,sector,?_⟩
  have looked : lookup dev 1 name v = _ := lookup_found here (by rw [data]; exact inv.fits root_member)
    (by rw [data]; exact inv.rootSlots) inside (by rw [data]; exact hit)
    (fun m below => by
      rw [data]
      by_contra other
      have other : entryFor (v.entry m) name = true := by simpa [Volume.entry] using other
      exact absurd (inv.slots.unique m (by omega) k inside name other hit) (by omega))
  rw [data] at looked
  exact looked

theorem Inv.lookup_none (absent : v.inodeOf name = none) : ∃ ofs e, lookup dev 1 name v = .ok ((false,ofs,e),v) := by
  obtain ⟨inode,here,-,data⟩ := inv.kernel_inode held (.inr rfl)
  have fits : inode.data.Fits dev := by
    rw [data]
    exact inv.fits root_member
  have whole : inode.data.length / entrySize = rootEntries := by
    rw [data]
    exact inv.rootSlots
  apply lookup_absent here fits whole
  rw [data]
  exact Inv.inodeOf_none.mp absent

theorem Inv.dirAdd_refused (refused : ¬ Placeable v.inodeOf name) : dirAdd dev 1 name i v = .ok (false,v) := by
  obtain ⟨inode,here,allowed,data⟩ := inv.kernel_inode held (.inr rfl)
  have fits : inode.data.Fits dev := by
    rw [data]
    exact inv.fits root_member
  have whole : inode.data.length / entrySize = rootEntries := by
    rw [data]
    exact inv.rootSlots
  by_cases valid : ValidName name
  · cases found : v.inodeOf name with
    | some j =>
      obtain ⟨k,inside,hit,-⟩ := inv.inodeOf_some.mp found
      refine dirAdd_taken here fits whole valid inside (by rw [data]; exact hit) ?_
      intro m below
      rw [data]
      by_contra other
      have other : entryFor (v.entry m) name = true := by simpa [Volume.entry] using other
      exact absurd (inv.slots.unique m (by omega) k inside name other hit) (by omega)
    | none =>
      have full : Full v.inodeOf := by
        by_contra free
        exact refused ⟨valid,found,free⟩
      have added : ∃ e, dirAdd dev 1 name i v = .ok (false,{ v with
          disk := paste v.disk (inode.data.place (entrySize * rootEntries)) e 0
            (inode.data.length - entrySize * rootEntries) }) :=
        dirAdd_full here allowed fits whole valid (by rw [data]; exact Inv.inodeOf_none.mp found)
          (by rw [data]; exact inv.full_iff.mp full)
      obtain ⟨e,added⟩ := added
      rw [data,inv.rootLength,Nat.sub_self,paste_zero] at added
      exact added
  · exact dirAdd_invalid valid

theorem Inv.dirAdd_done (placeable : Placeable v.inodeOf name) :
    ∃ k < rootEntries, entryInUse (v.entry k) = false ∧
      dirAdd dev 1 name i v = .ok (true,{ v with disk := v.put k (fillEntry (v.entry k) name i) }) := by
  obtain ⟨valid,new,space⟩ := placeable
  obtain ⟨inode,here,allowed,data⟩ := inv.kernel_inode held (.inr rfl)
  rcases first_entry (fun k => !entryInUse (v.entry k)) rootEntries with ⟨k,inside,hit,first⟩ | none
  · refine ⟨k,inside,by simpa using hit,?_⟩
    have free : entryInUse (v.entry k) = false := by simpa using hit
    have used m (below : m < k) : entryInUse (v.entry m) = true := by simpa using first m below
    have added : dirAdd dev 1 name i v = _ := dirAdd_ok here allowed (by rw [data]; exact inv.fits root_member)
      (by rw [data]; exact inv.rootSlots) valid (by rw [data]; exact Inv.inodeOf_none.mp new) inside
      (by rw [data]; exact free) (by rw [data]; exact used)
    rw [data] at added
    exact added
  · exact absurd (inv.full_iff.mpr fun k inside => by simpa using none k inside) space

end

/-! Creating a file. -/

/-- Whether there are a sector for the inode and, besides, the sectors for the data. -/
def hasRoom (dev : Device) (freeMap : Nat → Bool) (initialSize : Int) : Bool :=
  match scan freeMap dev.size 0 1 false with
  | none => false
  | some sector => (scan (setMultiple freeMap sector 1 true) dev.size 0 (bytesToSectors initialSize.toNat) false).isSome

theorem Inv.openRoot (inv : Inv dev v extra) :
    ∃ v', FileSys.inodeOpen dev 1 v = .ok ((),v') ∧ Inv dev v' (more extra 1) ∧ Kept 0 v v' ∧ v'.disk = v.disk ∧
      v'.freeMap = v.freeMap ∧ v'.openInodes = openList v.openInodes 1 (onDisk v.disk 1) := by
  obtain ⟨done,inv',kept⟩ := inv.inodeOpen root_member
  exact ⟨_,done,inv',kept,rfl,rfl,rfl⟩

theorem Inv.fresh (inv : Inv dev v extra) (free : scan v.freeMap dev.size 0 1 false = some i) :
    i < dev.size ∧ v.freeMap i = false ∧ ∀ j ∈ v.objects, ¬ Owns v.disk j i := by
  obtain ⟨-,on,bits⟩ := scan_some free
  have bit := bits i (Nat.le_refl i) (Nat.lt_succ_self i)
  refine ⟨on,bit,fun j here owns => ?_⟩
  have marked := (inv.layout.marked j here i owns).2
  rw [bit] at marked
  exact Bool.false_ne_true marked

/-- The first step of `filesys_create` after which something is changed. -/
theorem Inv.allocate (inv : Inv dev v extra) (free : scan v.freeMap dev.size 0 1 false = some i) :
    freeMapAllocate dev 1 v = .ok (some i,v.sync dev (setMultiple v.freeMap i 1 true)) ∧
      Inv dev (v.sync dev (setMultiple v.freeMap i 1 true)) extra ∧
      Kept 0 v (v.sync dev (setMultiple v.freeMap i 1 true)) ∧
      Fresh dev (v.sync dev (setMultiple v.freeMap i 1 true)).disk (setMultiple v.freeMap i 1 true)
        (v.sync dev (setMultiple v.freeMap i 1 true)).objects i := by
  obtain ⟨on,bit,unowned⟩ := inv.fresh free
  obtain ⟨inv',kept⟩ : Inv dev (v.sync dev (setMultiple v.freeMap i 1 true)) extra ∧
      Kept 0 v (v.sync dev (setMultiple v.freeMap i 1 true)) := by
    refine inv.sync fun j here x owns => ?_
    have marked := (inv.layout.marked j here x owns).2
    unfold setMultiple
    split
    · rfl
    · exact marked
  refine ⟨freeMapAllocate_some inv.mapOpen (inv.fits map_member) free,inv',kept,on,?_,?_⟩
  · exact setMultiple_inside (Nat.le_refl i) (Nat.lt_succ_self i)
  · intro j here owns
    have here := kept.objects j here
    rw [Owns,inv.layout.sync_onDisk map_member inv.mapLength here] at owns
    exact unowned j here owns

theorem setMultiple_back {bits : Nat → Bool} (free : bits i = false) :
    setMultiple (setMultiple bits i 1 true) i 1 false = bits := by
  funext x
  unfold setMultiple
  split
  · have same : x = i := by omega
    rw [same,free]
  · rfl

section
variable (opened : FileSys.inodeOpen dev 1 v = .ok ((),v₁)) (allocated : freeMapAllocate dev 1 v₁ = .ok (some i,v₂))
  (range : 0 ≤ initialSize)
include opened allocated range

/-- The steps of a call that gives its first sector back. -/
theorem create_fails (failed : (inodeCreate dev i initialSize.toNat >>= fun created =>
      if created then dirAdd dev 1 name i else pure false) v₂ = .ok (false,v₃))
    (some : i ≠ 0) (released : freeMapRelease dev i 1 v₃ = .ok ((),v₄)) (closed : inodeClose dev 1 v₄ = .ok ((),v₅)) :
    filesysCreate dev name initialSize v = .ok (false,v₅) := by
  have asserted : assert (0 ≤ initialSize) v₂ = .ok ((),v₂) := if_pos (by simpa using range)
  obtain ⟨created,v',made,added⟩ := bind_ok.mp failed
  refine (bind_go opened).trans ((bind_go allocated).trans ((bind_go asserted).trans ((bind_go made).trans ?_)))
  have kept : (!false && i != 0) = true := by simpa using some
  -- the steps behind the failure are the same on both ways to it
  cases created
  · obtain ⟨-,rfl⟩ := Prod.mk.inj (pure_ok.mp added)
    refine (bind_go rfl).trans ?_
    dsimp only
    rw [if_pos kept]
    exact (bind_go released).trans (bind_go closed)
  · refine (bind_go added).trans ?_
    dsimp only
    rw [if_pos kept]
    exact (bind_go released).trans (bind_go closed)

theorem create_succeeds (made : inodeCreate dev i initialSize.toNat v₂ = .ok (true,v₃))
    (added : dirAdd dev 1 name i v₃ = .ok (true,v₄)) (closed : inodeClose dev 1 v₄ = .ok ((),v₅)) :
    filesysCreate dev name initialSize v = .ok (true,v₅) := by
  have asserted : assert (0 ≤ initialSize) v₂ = .ok ((),v₂) := if_pos (by simpa using range)
  refine (bind_go opened).trans ((bind_go allocated).trans ((bind_go asserted).trans ((bind_go made).trans ?_)))
  exact (bind_go added).trans (bind_go closed)

end

/-- A call that does not get its sectors. -/
theorem Inv.create_noRoom (inv : Inv dev v extra) (name : CString) (range : 0 ≤ initialSize)
    (noRoom : hasRoom dev v.freeMap initialSize = false) :
    ∃ v', filesysCreate dev name initialSize v = .ok (false,v') ∧ Inv dev v' extra ∧ Kept 0 v v' ∧
      v'.disk = v.disk ∧ v'.freeMap = v.freeMap := by
  obtain ⟨v₁,opened,inv₁,kept₁,disk₁,bits₁,-⟩ := inv.openRoot
  unfold hasRoom at noRoom
  cases free : scan v.freeMap dev.size 0 1 false with
  | none =>
    obtain ⟨v₂,closed,inv₂,kept₂,disk₂,bits₂⟩ := inv₁.closeRoot more_pos
    rw [fewer_more] at inv₂
    rw [← bits₁] at free
    refine ⟨v₂,?_,inv₂,kept₁.trans kept₂,disk₂.trans disk₁,bits₂.trans bits₁⟩
    exact (bind_go opened).trans ((bind_go (freeMapAllocate_none free)).trans (bind_go closed))
  | some i =>
    rw [free] at noRoom
    rw [← bits₁] at free noRoom
    obtain ⟨allocated,inv₂,kept₂,fresh⟩ := inv₁.allocate free
    have bit := (inv₁.fresh free).2.1
    have noData : scan (v₁.sync dev (setMultiple v₁.freeMap i 1 true)).freeMap dev.size 0
        (bytesToSectors initialSize.toNat) false = none := by
      rw [← Option.not_isSome_iff_eq_none]
      exact Bool.eq_false_iff.mp noRoom
    obtain ⟨released,inv₃,kept₃⟩ := inv₂.release i 1 fresh.on
      (fun x low high => setMultiple_inside low high)
      (fun j here x low high owns => fresh.unowned j here (by rwa [show x = i by omega] at owns))
    -- giving the sector back undoes the change of the free map and of its file
    have undone : (v₁.sync dev (setMultiple v₁.freeMap i 1 true)).sync dev
        (setMultiple (v₁.sync dev (setMultiple v₁.freeMap i 1 true)).freeMap i 1 false) = v₁ := by
      rw [sync_sync inv₁.layout map_member inv₁.mapLength]
      change v₁.sync dev (setMultiple (setMultiple v₁.freeMap i 1 true) i 1 false) = v₁
      rw [setMultiple_back bit,sync_saved inv₁.saved]
    rw [undone] at released inv₃
    obtain ⟨v₄,closed,inv₄,kept₄,disk₄,bits₄⟩ := inv₁.closeRoot more_pos
    rw [fewer_more] at inv₄
    refine ⟨v₄,?_,inv₄,kept₁.trans kept₄,disk₄.trans disk₁,bits₄.trans bits₁⟩
    have other : i ≠ 0 := by
      rintro rfl
      exact fresh.unowned 0 map_member (.inl rfl)
    exact create_fails opened allocated range (bind_go (inodeCreate_none noData)) other released closed

theorem hasRoom_true {bits : Nat → Bool} (room : hasRoom dev bits initialSize = true) :
    ∃ i start, scan bits dev.size 0 1 false = some i ∧
      scan (setMultiple bits i 1 true) dev.size 0 (bytesToSectors initialSize.toNat) false = some start := by
  unfold hasRoom at room
  cases free : scan bits dev.size 0 1 false with
  | none =>
    rw [free] at room
    exact absurd room Bool.false_ne_true
  | some i =>
    rw [free] at room
    obtain ⟨start,found⟩ := Option.isSome_iff_exists.mp room
    exact ⟨i,start,rfl,found⟩

/-- The steps of `filesys_create` up to the entry in the directory. -/
structure Made (dev : Device) (v : Volume) (extra : Nat → Nat) (initialSize : Int) (i start : Nat) (v₁ v₂ v₃ : Volume) : Prop where
  opened : FileSys.inodeOpen dev 1 v = .ok ((),v₁)
  allocated : freeMapAllocate dev 1 v₁ = .ok (some i,v₂)
  made : inodeCreate dev i initialSize.toNat v₂ = .ok (true,v₃)
  inv : Inv dev v₃ (more extra 1)
  kept : Kept 0 v v₃
  layout : Layout dev v₃.disk v₃.freeMap (i :: v₃.objects)
  absent : i ∉ v.objects
  free : v.freeMap i = false
  bits : v₃.freeMap = setMultiple (setMultiple v.freeMap i 1 true) start (bytesToSectors initialSize.toNat) true
  unused : ∀ x, start ≤ x → x < start + bytesToSectors initialSize.toNat → v.freeMap x = false ∧ x ≠ i
  zeros : v₃.bytesOf i = List.replicate initialSize.toNat 0

/-- The sectors are those that the scans of the free map find. -/
theorem Inv.made_at (inv : Inv dev v extra) (range : initialSize < 2147483648) (free : scan v.freeMap dev.size 0 1 false = some i)
    (run : scan (setMultiple v.freeMap i 1 true) dev.size 0 (bytesToSectors initialSize.toNat) false = some start) :
    ∃ v₁ v₂ v₃, Made dev v extra initialSize i start v₁ v₂ v₃ := by
  obtain ⟨v₁,opened,inv₁,kept₁,disk₁,bits₁,-⟩ := inv.openRoot
  obtain ⟨on,bit,unowned⟩ := inv.fresh free
  rw [← bits₁] at free run
  obtain ⟨allocated,inv₂,kept₂,fresh⟩ := inv₁.allocate free
  have short : (⟨start,initialSize.toNat⟩ : InodeDisk).length < 2147483648 := by
    dsimp only
    omega
  have found : scan (v₁.sync dev (setMultiple v₁.freeMap i 1 true)).freeMap dev.size 0
      (⟨start,initialSize.toNat⟩ : InodeDisk).sectors false = some start := run
  obtain ⟨inv₃,kept₃,layout⟩ := inv₂.create ⟨start,initialSize.toNat⟩ fresh found short
  have inode := newest_onDisk ⟨start,initialSize.toNat⟩ fresh found short
  refine ⟨v₁,_,_,opened,allocated,inodeCreate_some inv₂.mapOpen (inv₂.fits map_member) on found,inv₃,
    kept₁.trans (kept₂.trans kept₃),layout,?_,?_,?_,?_,?_⟩
  · exact fun here => unowned i here (.inl rfl)
  · exact bit
  · rw [← bits₁]
    rfl
  · intro x low high
    have clear := scan_free found x ⟨low,high⟩
    change setMultiple v₁.freeMap i 1 true x = false at clear
    have other : ¬ (i ≤ x ∧ x < i + 1) := by
      intro same
      rw [setMultiple_inside same.1 same.2] at clear
      exact Bool.false_ne_true clear.symm
    rw [setMultiple_outside other,bits₁] at clear
    exact ⟨clear,by omega⟩
  · have sectors := layout.sectors List.mem_cons_self
    rw [inode] at sectors
    change content _ (onDisk _ i) = _
    rw [inode]
    apply newObject_content
    simp only [blockSectorSize] at *
    omega

theorem Inv.made (inv : Inv dev v extra) (range : initialSize < 2147483648)
    (room : hasRoom dev v.freeMap initialSize = true) : ∃ i start v₁ v₂ v₃, Made dev v extra initialSize i start v₁ v₂ v₃ := by
  obtain ⟨i,start,free,run⟩ := hasRoom_true room
  exact ⟨i,start,inv.made_at range free run⟩

section
variable (made : Made dev v extra initialSize i start v₁ v₂ v₃) (range : 0 ≤ initialSize)
include made

theorem Made.names : v₃.inodeOf = v.inodeOf := funext made.kept.names

include range

/-- The sectors of the data stay allocated when the directory does not take the name. -/
theorem Made.refused (refused : ¬ Placeable v.inodeOf name) :
    ∃ v', filesysCreate dev name initialSize v = .ok (false,v') ∧ Inv dev v' extra ∧ Kept 0 v v' ∧
      v'.freeMap = setMultiple v.freeMap start (bytesToSectors initialSize.toNat) true := by
  rw [← made.names] at refused
  have added := made.inv.dirAdd_refused (i := i) more_pos refused
  obtain ⟨released,inv₄,kept₄⟩ := made.inv.release i 1
    (made.layout.marked i List.mem_cons_self i (.inl rfl)).1
    (fun x low high => by
      rw [show x = i by omega]
      exact (made.layout.marked i List.mem_cons_self i (.inl rfl)).2)
    (fun j here x low high owns => by
      have other : j ≠ i := fun same => (List.nodup_cons.mp made.layout.nodup).1 (same ▸ here)
      exact made.layout.apart j (List.mem_cons_of_mem _ here) i List.mem_cons_self other x owns (.inl (by omega)))
  obtain ⟨v₅,closed,inv₅,kept₅,disk₅,bits₅⟩ := inv₄.closeRoot more_pos
  rw [fewer_more] at inv₅
  have some : i ≠ 0 := by
    rintro rfl
    exact made.absent map_member
  refine ⟨v₅,create_fails made.opened made.allocated range ((bind_go made.made).trans added) some released closed,inv₅,
    made.kept.trans (kept₄.trans kept₅),bits₅.trans ?_⟩
  change setMultiple v₃.freeMap i 1 false = _
  rw [made.bits]
  funext x
  by_cases first : i ≤ x ∧ x < i + 1
  · have same : x = i := by omega
    rw [setMultiple_inside first.1 first.2,setMultiple_outside,same,made.free]
    intro inside
    exact (made.unused x inside.1 inside.2).2 same
  · rw [setMultiple_outside first]
    unfold setMultiple
    rw [if_neg first]

theorem Made.done (placeable : Placeable v.inodeOf name) :
    ∃ v', filesysCreate dev name initialSize v = .ok (true,v') ∧ Inv dev v' extra ∧ v'.freeMap = v₃.freeMap ∧
      v'.files = v.files ∧ v'.inodeOf = Function.update v.inodeOf name (some i) ∧ v'.bytesOf i = List.replicate initialSize.toNat 0 ∧
      ∀ j ∈ v'.objects, j ≠ i → j ≠ 0 → j ≠ 1 → j ∈ v.objects ∧ v'.bytesOf j = v.bytesOf j := by
  have placeable' := placeable
  rw [← made.names] at placeable'
  obtain ⟨valid,new,-⟩ := placeable'
  obtain ⟨k,inside,free,added⟩ := made.inv.dirAdd_done (i := i) more_pos (by rw [made.names]; exact placeable)
  have inv₄ := made.inv.fill made.layout valid new inside free
  have objects := made.inv.fill_objects made.layout valid inside free
  obtain ⟨v₅,closed,inv₅,kept₅,-,bits₅⟩ := inv₄.closeRoot more_pos
  rw [fewer_more] at inv₅
  have here : i ∈ i :: v₃.objects := List.mem_cons_self
  have root : 1 ∈ i :: v₃.objects := List.mem_cons_of_mem _ root_member
  have other : i ≠ 1 := by
    rintro rfl
    exact made.absent root_member
  have zero : i ≠ 0 := by
    rintro rfl
    exact made.absent map_member
  have names : v₅.inodeOf = Function.update v₃.inodeOf name (some i) :=
    (funext kept₅.names).trans (made.inv.fill_names made.layout valid new inside free)
  refine ⟨v₅,create_succeeds made.opened made.allocated range made.made added closed,inv₅,bits₅,
    kept₅.files.trans made.kept.files,?_,?_,?_⟩
  · rw [names,made.names]
  · have named : i ∈ v₅.objects := by
      have found : v₅.inodeOf name = some i := by rw [names,Function.update_self]
      exact named_member (inv₅.inodeOf_named found)
    rw [kept₅.bytes i named zero,← made.zeros]
    exact made.inv.put_bytes inside made.layout root here other
  · intro j member different map root'
    have before := List.mem_of_ne_of_mem different (objects.mem_iff.mpr (kept₅.objects j member))
    refine ⟨made.kept.objects j before,(kept₅.bytes j member map).trans ?_⟩
    refine (made.inv.put_bytes inside made.layout root (List.mem_cons_of_mem _ before) root').trans ?_
    exact made.kept.bytes j before map

end

/-! Opening a file. -/

theorem held_again (other : i ≠ 1) : fewer (fewer (more (more extra 1) i) 1) i = extra := by
  funext j
  unfold fewer more
  by_cases first : j = i
  · simp [first,other]
  · by_cases second : j = 1
    · simp [second,Ne.symm other]
    · simp [first,second]

theorem Inv.open_found (inv : Inv dev v extra) (found : v.inodeOf name = some i) :
    ∃ v', filesysOpen dev name v = .ok (some v.nextFile,
        { v' with files := ⟨v.nextFile,i,0,false⟩ :: v.files, nextFile := v.nextFile + 1 }) ∧
      Inv dev { v' with files := ⟨v.nextFile,i,0,false⟩ :: v.files, nextFile := v.nextFile + 1 } extra ∧ Kept 0 v v' ∧
      v'.freeMap = v.freeMap := by
  obtain ⟨v₁,opened,inv₁,kept₁,-,bits₁,-⟩ := inv.openRoot
  rw [← kept₁.names] at found
  have here := inv₁.inodeOf_named found
  obtain ⟨map,root⟩ := inv₁.named_other here
  obtain ⟨k,inside,hit,rfl,looked⟩ := inv₁.lookup_some more_pos found
  obtain ⟨again,inv₂,kept₂⟩ := inv₁.inodeOpen (named_member here)
  have still : 0 < more (more extra 1) (entrySector (v₁.entry k)) 1 := by
    rw [more_other (Ne.symm root)]
    exact more_pos
  obtain ⟨v₃,closed,inv₃,kept₃,-,bits₃⟩ := inv₂.closeRoot still
  have kept := kept₁.trans (kept₂.trans kept₃)
  have held : 0 < fewer (more (more extra 1) (entrySector (v₁.entry k))) 1 (entrySector (v₁.entry k)) := by
    rw [fewer_other root]
    exact more_pos
  have inv₄ := inv₃.fileOpened held ⟨map,root⟩
  rw [held_again root,kept.files,kept.nextFile] at inv₄
  refine ⟨v₃,?_,inv₄,kept,bits₃.trans bits₁⟩
  refine (bind_go opened).trans ((bind_go looked).trans ?_)
  dsimp only
  rw [if_pos rfl]
  refine (bind_go again).trans ((bind_go closed).trans ?_)
  rw [← kept.files,← kept.nextFile]
  rfl

theorem Inv.open_absent (inv : Inv dev v extra) (absent : v.inodeOf name = none) :
    ∃ v', filesysOpen dev name v = .ok (none,v') ∧ Inv dev v' extra ∧ Kept 0 v v' := by
  obtain ⟨v₁,opened,inv₁,kept₁,-⟩ := inv.openRoot
  rw [← kept₁.names] at absent
  obtain ⟨ofs,e,looked⟩ := inv₁.lookup_none more_pos absent
  obtain ⟨v₂,closed,inv₂,kept₂,-⟩ := inv₁.closeRoot more_pos
  rw [fewer_more] at inv₂
  refine ⟨v₂,?_,inv₂,kept₁.trans kept₂⟩
  refine (bind_go opened).trans ((bind_go looked).trans ?_)
  dsimp only
  rw [if_neg Bool.false_ne_true]
  exact bind_go closed

/-! Removing a file. -/

theorem dirRemove_found (looked : lookup dev 1 name v = .ok ((true,entrySize * k,e),v))
    (opened : FileSys.inodeOpen dev (entrySector e) v = .ok ((),v₁))
    (written : inodeWriteAt dev 1 (eraseEntry e) entrySize (entrySize * k) v₁ = .ok (entrySize,v₂))
    (closed : inodeClose dev (entrySector e)
      (v₂.updateInode (entrySector e) fun inode => { inode with removed := true }) = .ok ((),v₃)) :
    dirRemove dev 1 name v = .ok (true,v₃) := by
  refine (bind_go looked).trans ?_
  dsimp only
  rw [if_pos rfl]
  refine (bind_go opened).trans ((bind_go written).trans ?_)
  rw [if_neg (not_not_intro rfl)]
  exact (bind_go rfl).trans (bind_go closed)

theorem Inv.remove_found (inv : Inv dev v extra) (found : v.inodeOf name = some i) :
    ∃ v', filesysRemove dev name v = .ok (true,v') ∧ Inv dev v' extra ∧ v'.files = v.files ∧
      v'.inodeOf = Function.update v.inodeOf name none ∧
      ∀ j ∈ v'.objects, j ≠ 0 → j ≠ 1 → j ∈ v.objects ∧ v'.bytesOf j = v.bytesOf j := by
  obtain ⟨v₁,opened,inv₁,kept₁,-⟩ := inv.openRoot
  rw [← kept₁.names] at found
  have here := inv₁.inodeOf_named found
  obtain ⟨map,root⟩ := inv₁.named_other here
  obtain ⟨k,inside,hit,rfl,looked⟩ := inv₁.lookup_some more_pos found
  obtain ⟨again,inv₂,kept₂⟩ := inv₁.inodeOpen (named_member here)
  let i := entrySector (v₁.entry k)
  let v₂ : Volume := { v₁ with openInodes := openList v₁.openInodes i (onDisk v₁.disk i) }
  have still : 0 < more (more extra 1) (entrySector (v₁.entry k)) 1 := by
    rw [more_other (Ne.symm root)]
    exact more_pos
  obtain ⟨inode,rootInode,allowed,data⟩ := inv₂.kernel_inode still (.inr rfl)
  have written := writeEntry_ok (e := eraseEntry (v₁.entry k)) rootInode allowed (by rw [data]; exact inv₂.fits root_member)
    (by rw [data]; exact inv₂.rootSlots) inside
  rw [data] at written
  have referred : entrySector (v₂.entry k) ∈ v₂.openInodes.map Inode.sector :=
    inv₂.table.here (entrySector (v₁.entry k)) (Nat.add_pos_right _ more_pos)
  have inv₃ : Inv dev (v₂.unlinked k) _ := inv₂.unlinked inside hit referred
  have objects := inv₂.unlinked_objects inside hit referred
  obtain ⟨v₄,closed,inv₄,kept₄,-⟩ := inv₃.inodeClose map more_pos
  rw [fewer_more] at inv₄
  obtain ⟨v₅,closedRoot,inv₅,kept₅,-⟩ := inv₄.closeRoot more_pos
  rw [fewer_more] at inv₅
  have kept := kept₄.trans kept₅
  refine ⟨v₅,?_,inv₅,?_,?_,?_⟩
  · exact (bind_go opened).trans ((bind_go (dirRemove_found looked again written closed)).trans (bind_go closedRoot))
  · exact kept.files.trans kept₁.files
  · have names : v₅.inodeOf = Function.update v₁.inodeOf name none := (funext kept.names).trans (inv₂.erase_names inside hit)
    have first : v₁.inodeOf = v.inodeOf := funext kept₁.names
    rw [names,first]
  · intro j member map' root'
    have before : j ∈ v₂.objects := objects.mem_iff.mpr (kept.objects j member)
    have first : j ∈ v₁.objects := kept₂.objects j before
    refine ⟨kept₁.objects j first,(kept.bytes j member map').trans ?_⟩
    refine (inv₂.put_bytes inside inv₂.layout root_member before root').trans ?_
    exact kept₁.bytes j first map'

theorem Inv.remove_absent (inv : Inv dev v extra) (absent : v.inodeOf name = none) :
    ∃ v', filesysRemove dev name v = .ok (false,v') ∧ Inv dev v' extra ∧ Kept 0 v v' := by
  obtain ⟨v₁,opened,inv₁,kept₁,-⟩ := inv.openRoot
  rw [← kept₁.names] at absent
  obtain ⟨ofs,e,looked⟩ := inv₁.lookup_none more_pos absent
  obtain ⟨v₂,closed,inv₂,kept₂,-⟩ := inv₁.closeRoot more_pos
  rw [fewer_more] at inv₂
  have failed : dirRemove dev 1 name v₁ = .ok (false,v₁) := by
    refine (bind_go looked).trans ?_
    dsimp only
    rw [if_neg Bool.false_ne_true]
    rfl
  refine ⟨v₂,?_,inv₂,kept₁.trans kept₂⟩
  exact (bind_go opened).trans ((bind_go failed).trans (bind_go closed))

end

end OsProj.FileSys
