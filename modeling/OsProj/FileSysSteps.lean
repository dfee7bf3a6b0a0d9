import OsProj.FileSysInvariant

/-! The changes that calls are made of, each of which keeps what holds of the volume. -/
namespace OsProj.FileSys

open OsProj.Bitmap OsProj.ByteMemory OsProj.Faulting OsProj.Keyed

section
variable {dev : Device} {v v' : Volume} {extra : Nat → Nat} {bits : Nat → Bool} {data : InodeDisk}

/-- The data of two objects have no sector in common. -/
theorem Layout.data_apart {disk : Memory} {objects : List Nat} (layout : Layout dev disk freeMap objects)
    (first : i ∈ objects) (second : j ∈ objects) (other : i ≠ j) (has : (onDisk disk i).Has x) : ¬ (onDisk disk j).Has x :=
  fun theirs => layout.apart i first j second other x (.inr has) (.inr theirs)

theorem Layout.not_data {disk : Memory} {objects : List Nat} (layout : Layout dev disk freeMap objects)
    (first : i ∈ objects) (second : j ∈ objects) : ¬ (onDisk disk i).Has j := by
  intro has
  by_cases same : j = i
  · subst same
    exact layout.self j first has
  · exact layout.apart i first j second (Ne.symm same) j (.inr has) (.inl rfl)

/-- Saving another free map that has the sectors of all objects. -/
theorem Inv.sync (inv : Inv dev v extra) (kept : ∀ i ∈ v.objects, ∀ x, Owns v.disk i x → bits x = true) :
    Inv dev (v.sync dev bits) extra ∧ Kept 0 v (v.sync dev bits) := by
  have same : SameOutside (onDisk v.disk 0).Has v.disk (v.sync dev bits).disk :=
    inv.layout.sync_same map_member inv.mapLength
  have inodes i (here : i ∈ v.objects) := inv.layout.not_map map_member here
  have others j (here : j ∈ v.objects) (other : j ≠ 0) x (has : (onDisk v.disk j).Has x) :=
    inv.layout.data_apart here map_member other has
  have root := others 1 root_member Nat.one_ne_zero
  constructor
  · have laid := inv.layout.sync map_member inv.mapLength kept
    have saved : MapSaved dev (v.sync dev bits).disk (v.sync dev bits).freeMap := mapSaved_sync inv.layout map_member inv.mapLength
    exact inv.frame same inodes root laid saved
  · exact inv.kept same inodes root others

/-- Releasing sectors does not depend on the files. -/
theorem Inv.release_files (inv : Inv dev v extra) (sector cnt : Nat) (on : sector + cnt ≤ dev.size)
    (marked : ∀ x, sector ≤ x → x < sector + cnt → v.freeMap x = true) (files : List File) :
    freeMapRelease dev sector cnt { v with files := files } =
      .ok ((),{ v.sync dev (setMultiple v.freeMap sector cnt false) with files := files }) := by
  have mapOpen : MapOpen dev { v with files := files } := ⟨inv.mapOpen.file,inv.mapOpen.inode,inv.mapOpen.length⟩
  exact freeMapRelease_ok mapOpen (inv.fits map_member) on marked

theorem Inv.release (inv : Inv dev v extra) (sector cnt : Nat) (on : sector + cnt ≤ dev.size)
    (marked : ∀ x, sector ≤ x → x < sector + cnt → v.freeMap x = true)
    (unowned : ∀ j ∈ v.objects, ∀ x, sector ≤ x → x < sector + cnt → ¬ Owns v.disk j x) :
    freeMapRelease dev sector cnt v = .ok ((),v.sync dev (setMultiple v.freeMap sector cnt false)) ∧
      Inv dev (v.sync dev (setMultiple v.freeMap sector cnt false)) extra ∧
      Kept 0 v (v.sync dev (setMultiple v.freeMap sector cnt false)) := by
  refine ⟨freeMapRelease_ok inv.mapOpen (inv.fits map_member) on marked,inv.sync ?_⟩
  intro j here x owns
  rw [setMultiple_outside fun inside => unowned j here x inside.1 inside.2 owns]
  exact (inv.layout.marked j here x owns).2

/-- A transfer into the data of a file. -/
theorem Inv.write (inv : Inv dev v extra) (here : i ∈ v.objects) (other : i ≠ 0 ∧ i ≠ 1)
    (inside : offset + n ≤ (onDisk v.disk i).length) :
    Inv dev { v with disk := paste v.disk ((onDisk v.disk i).place offset) buffer 0 n } extra ∧
      Kept i v { v with disk := paste v.disk ((onDisk v.disk i).place offset) buffer 0 n } := by
  have same : SameOutside (onDisk v.disk i).Has v.disk (paste v.disk ((onDisk v.disk i).place offset) buffer 0 n) :=
    inv.layout.paste_same here inside
  have inodes j (there : j ∈ v.objects) := inv.layout.not_data here there
  have others j (there : j ∈ v.objects) (different : j ≠ i) x (has : (onDisk v.disk j).Has x) :=
    inv.layout.data_apart there here different has
  have root := others 1 root_member (Ne.symm other.2)
  constructor
  · refine inv.frame same inodes root (inv.layout.frame same inodes) ?_
    intro k low
    rw [onDisk_same same (inodes 0 map_member),
      inv.layout.byte_same map_member same (others 0 map_member (Ne.symm other.1)) (by rw [inv.mapLength]; exact low)]
    exact inv.saved k low
  · exact inv.kept same inodes root others

/-- A new object that has no name yet. -/
theorem Inv.create (inv : Inv dev v extra) (data : InodeDisk) (fresh : Fresh dev v.disk v.freeMap v.objects i)
    (free : scan v.freeMap dev.size 0 data.sectors false = some data.start) (short : data.length < 2147483648) :
    Inv dev (v.create dev i data) extra ∧ Kept 0 v (v.create dev i data) ∧
      Layout dev (v.create dev i data).disk (v.create dev i data).freeMap (i :: (v.create dev i data).objects) := by
  let X x := (onDisk v.disk 0).Has x ∨ x = i ∨ data.Has x
  have unowned j (here : j ∈ v.objects) x (owns : Owns v.disk j x) : ¬ (x = i ∨ data.Has x) := by
    rintro (rfl | has)
    · exact fresh.unowned j here owns
    · exact inv.layout.free_unowned here (scan_free free) owns has
  have same : SameOutside X v.disk (v.create dev i data).disk := by
    intro a outside
    obtain ⟨map,new⟩ := not_or.mp outside
    exact (newObject_same _ i data a new).trans (inv.layout.sync_same map_member inv.mapLength a map)
  have inodes j (here : j ∈ v.objects) : ¬ X j :=
    not_or.mpr ⟨inv.layout.not_map map_member here,unowned j here j (.inl rfl)⟩
  have others j (here : j ∈ v.objects) (other : j ≠ 0) x (has : (onDisk v.disk j).Has x) : ¬ X x :=
    not_or.mpr ⟨inv.layout.data_apart here map_member other has,unowned j here x (.inr has)⟩
  have root := others 1 root_member Nat.one_ne_zero
  have layout := inv.layout.create map_member inv.mapLength fresh free short
  refine ⟨inv.frame same inodes root (layout.mono (List.sublist_cons_self _ _) ?_) ?_,inv.kept same inodes root others,?_⟩
  · intro j here x owns
    exact (layout.marked j (List.mem_cons_of_mem _ here) x owns).2
  · exact inv.layout.create_saved map_member inv.mapLength fresh free
  · have objects : (v.create dev i data).objects = v.objects := inv.objects_same same inodes root
    rw [objects]
    exact layout

/-! The table of inodes. -/

theorem mem_removed {l : List Inode} : i ∈ removedInodes l ↔ ∃ inode ∈ l, inode.removed = true ∧ inode.sector = i := by
  simp [removedInodes,and_assoc]

theorem removed_update {f : Inode → Inode} {l : List Inode} (sector : ∀ inode, (f inode).sector = inode.sector)
    (flag : ∀ inode, (f inode).removed = inode.removed) : removedInodes (update Inode.sector i f l) = removedInodes l := by
  induction l with
  | nil => rfl
  | cons inode l ih =>
    unfold removedInodes update at *
    by_cases same : inode.sector = i
    · simp only [List.map_cons,same,↓reduceIte,List.filter_cons,flag]
      split
      · simp only [List.map_cons,sector,ih]
      · exact ih
    · simp only [List.map_cons,same,↓reduceIte,List.filter_cons]
      split
      · simp only [List.map_cons,ih]
      · exact ih

theorem removed_openList : removedInodes (openList l i data) = removedInodes l := by
  unfold openList
  split
  · exact removed_update (fun _ => rfl) fun _ => rfl
  · rfl

theorem removed_remove {l : List Inode} :
    removedInodes (remove Inode.sector i l) = (removedInodes l).filter (· != i) := by
  unfold removedInodes remove
  rw [List.filter_map,List.filter_filter,List.filter_filter]
  congr 2
  funext inode
  exact Bool.and_comm _ _

theorem removed_closeList {l : List Inode} : (removedInodes (closeList l inode)).Sublist (removedInodes l) := by
  unfold closeList
  split
  · have kept := removed_update (i := inode.sector) (l := l)
      (f := fun inode => { inode with openCnt := inode.openCnt - 1 }) (fun _ => rfl) fun _ => rfl
    rw [kept]
  · rw [removed_remove]
    exact List.filter_sublist

theorem removed_mark {l : List Inode} (nodup : (l.map Inode.sector).Nodup) (member : inode ∈ l)
    (kept : inode.removed = false) :
    (removedInodes (update Inode.sector inode.sector (fun inode => { inode with removed := true }) l)).Perm
      (inode.sector :: removedInodes l) := by
  induction l with
  | nil => exact absurd member List.not_mem_nil
  | cons head l ih =>
    obtain ⟨other,rest⟩ := List.nodup_cons.mp nodup
    rcases List.mem_cons.mp member with rfl | member
    · have tail : update Inode.sector inode.sector (fun inode => { inode with removed := true }) l = l := by
        rw [update,List.map_congr_left (g := id)]
        · exact List.map_id l
        · intro x inside
          have different : x.sector ≠ inode.sector := fun same => other (same ▸ List.mem_map_of_mem inside)
          simp [different]
      have split : update Inode.sector inode.sector (fun inode => { inode with removed := true }) (inode :: l) =
          { inode with removed := true } :: l := by
        conv => rhs; rw [← tail]
        simp [update]
      rw [split]
      simp [removedInodes,kept]
    · have different : head.sector ≠ inode.sector := fun same => other (same ▸ List.mem_map_of_mem member)
      have split : update Inode.sector inode.sector (fun inode => { inode with removed := true }) (head :: l) =
          head :: update Inode.sector inode.sector (fun inode => { inode with removed := true }) l := by
        simp [update,different]
      rw [split]
      have step := ih rest member
      unfold removedInodes at *
      rw [List.filter_cons,List.filter_cons]
      split
      · rw [List.map_cons,List.map_cons]
        exact (step.cons _).trans (List.Perm.swap _ _ _)
      · exact step

/-- Another table of the inodes, over the same objects or fewer. -/
theorem Inv.tabled {l : List Inode} (inv : Inv dev v extra) (table : Table { v with openInodes := l } extra')
    (mapHeld : 0 < extra' 0) (gone : (removedInodes l).Sublist (removedInodes v.openInodes))
    (alive : ∀ inode ∈ l, inode.sector ∈ ({ v with openInodes := l } : Volume).objects) :
    Inv dev { v with openInodes := l } extra' ∧ Kept 0 v { v with openInodes := l } := by
  have fewer : ({ v with openInodes := l } : Volume).objects.Sublist v.objects :=
    ((gone.append_left _).cons_cons _).cons_cons _
  refine ⟨⟨?_,inv.saved,table,inv.mapFile,inv.mapLength,mapHeld,inv.rootLength,inv.slots,alive,inv.user⟩,?_⟩
  · exact inv.layout.mono fewer fun i here x owns => (inv.layout.marked i (fewer.subset here) x owns).2
  · exact ⟨rfl,rfl,fun j here => fewer.subset here,fun _ => rfl,fun _ _ _ => rfl⟩

theorem mem_openList {l : List Inode} (member : inode ∈ openList l i data) :
    inode.sector = i ∨ inode.sector ∈ l.map Inode.sector := by
  unfold openList at member
  split at member
  · exact .inr (mem_update_key member fun _ => rfl)
  · rcases List.mem_cons.mp member with rfl | member
    · exact .inl rfl
    · exact .inr (List.mem_map_of_mem member)

theorem Inv.inodeOpen (inv : Inv dev v extra) (here : i ∈ v.objects) :
    inodeOpen dev i v = .ok ((),{ v with openInodes := openList v.openInodes i (onDisk v.disk i) }) ∧
      Inv dev { v with openInodes := openList v.openInodes i (onDisk v.disk i) } (more extra i) ∧
      Kept 0 v { v with openInodes := openList v.openInodes i (onDisk v.disk i) } := by
  refine ⟨inodeOpen_ok (inv.layout.marked i here i (.inl rfl)).1,inv.tabled inv.table.opened ?_ ?_ ?_⟩
  · have held := inv.mapHeld
    unfold more
    split <;> omega
  · rw [removed_openList]
  · intro inode member
    have objects : ({ v with openInodes := openList v.openInodes i (onDisk v.disk i) } : Volume).objects = v.objects := by
      unfold Volume.objects
      rw [removed_openList]
      rfl
    rw [objects]
    rcases mem_openList member with rfl | old
    · exact here
    · obtain ⟨inode',there,same⟩ := List.mem_map.mp old
      rw [← same]
      exact inv.alive inode' there

theorem mem_closeList {l : List Inode} (member : inode' ∈ closeList l inode) :
    inode'.sector ∈ l.map Inode.sector ∧
      (inode'.sector ∈ removedInodes l → inode'.sector ∈ removedInodes (closeList l inode)) := by
  unfold closeList at *
  split at member
  · rename_i shared
    have kept := removed_update (i := inode.sector) (l := l)
      (f := fun inode => { inode with openCnt := inode.openCnt - 1 }) (fun _ => rfl) fun _ => rfl
    rw [if_pos shared,kept]
    exact ⟨mem_update_key member fun _ => rfl,id⟩
  · rename_i last
    obtain ⟨there,other⟩ := mem_remove.mp member
    rw [if_neg last,removed_remove]
    exact ⟨List.mem_map_of_mem there,fun here => List.mem_filter.mpr ⟨here,by simpa using other⟩⟩

/-- Giving up a reference of the kernel, with the sectors still allocated. -/
theorem Inv.unreferred (inv : Inv dev v extra) (other : i ≠ 0) (held : 0 < extra i) :
    ∃ inode, find Inode.sector i v.openInodes = some inode ∧ inode.sector = i ∧ inode ∈ v.openInodes ∧
      Inv dev { v with openInodes := closeList v.openInodes inode } (fewer extra i) ∧
      Kept 0 v { v with openInodes := closeList v.openInodes inode } := by
  obtain ⟨inode,member,rfl⟩ := List.mem_map.mp (inv.table.here i (by omega))
  refine ⟨inode,inv.table.find_ok member,rfl,member,inv.tabled (inv.table.closed member held) ?_ removed_closeList ?_⟩
  · rw [fewer_other (Ne.symm other)]
    exact inv.mapHeld
  · intro inode' there
    obtain ⟨key,still⟩ := mem_closeList there
    obtain ⟨old,before,same⟩ := List.mem_map.mp key
    have object := inv.alive old before
    rw [same] at object
    unfold Volume.objects at *
    simp only [List.mem_cons,List.mem_append] at *
    rcases object with zero | one | name | removed
    · exact .inl zero
    · exact .inr (.inl one)
    · exact .inr (.inr (.inl name))
    · exact .inr (.inr (.inr (still removed)))

theorem inodeClose_plain (found : find Inode.sector i v.openInodes = some inode)
    (stays : 1 < inode.openCnt ∨ inode.removed = false) :
    inodeClose dev i v = .ok ((),{ v with openInodes := closeList v.openInodes inode }) := by
  obtain rfl := (find_key found).2
  refine (bind_go (findInode_ok found)).trans ?_
  unfold closeList
  by_cases shared : 1 < inode.openCnt
  · rw [if_neg (by omega),if_pos shared]
    rfl
  · have kept := stays.resolve_left shared
    rw [if_pos (by omega),if_neg shared,kept]
    rfl

theorem inodeClose_last (found : find Inode.sector i v.openInodes = some inode) (last : ¬ 1 < inode.openCnt)
    (removed : inode.removed = true) :
    inodeClose dev i v = (freeMapRelease dev i 1 >>= fun _ =>
      freeMapRelease dev inode.data.start inode.data.sectors) { v with openInodes := closeList v.openInodes inode } := by
  obtain rfl := (find_key found).2
  refine (bind_go (findInode_ok found)).trans ?_
  unfold closeList InodeDisk.sectors
  rw [if_pos (by omega),if_neg last,removed]
  refine (bind_go rfl).trans ?_
  rw [if_pos rfl]

/-- No object that is left when a removed file is closed owns one of its sectors. -/
theorem Inv.removed_apart (inv : Inv dev v extra) (member : inode ∈ v.openInodes) (removed : inode.removed = true)
    (last : ¬ 1 < inode.openCnt) (kept : Kept 0 v { v with openInodes := closeList v.openInodes inode })
    (there : j ∈ ({ v with openInodes := closeList v.openInodes inode } : Volume).objects) (owns : Owns v.disk j x) :
    ¬ Owns v.disk inode.sector x := by
  have gone : inode.sector ∈ removedInodes v.openInodes := mem_removed.mpr ⟨inode,member,removed,rfl⟩
  have here : inode.sector ∈ v.objects := inv.alive inode member
  have different : j ≠ inode.sector := by
    rintro rfl
    have nodup := inv.layout.nodup
    have front : inode.sector ∉ 0 :: 1 :: v.namedInodes := by
      intro front
      have split : (0 :: 1 :: v.namedInodes ++ removedInodes v.openInodes).Nodup := nodup
      exact List.disjoint_of_nodup_append split front gone
    have back : inode.sector ∉ removedInodes (closeList v.openInodes inode) := by
      unfold closeList
      rw [if_neg last,removed_remove]
      simp
    exact (List.mem_append.mp there : inode.sector ∈ 0 :: 1 :: v.namedInodes ∨ _).elim front back
  exact inv.layout.apart j (kept.objects j there) inode.sector here different x owns

/-- The last reference to a removed file gives its sectors back. -/
theorem Inv.released (inv : Inv dev v extra) (found : find Inode.sector i v.openInodes = some inode)
    (removed : inode.removed = true) (last : ¬ 1 < inode.openCnt)
    (closed : Inv dev { v with openInodes := closeList v.openInodes inode } extra')
    (kept : Kept 0 v { v with openInodes := closeList v.openInodes inode }) :
    ∃ v', (∀ files, inodeClose dev i { v with files := files } = .ok ((),{ v' with files := files })) ∧
      Inv dev v' extra' ∧ Kept 0 v v' := by
  obtain ⟨member,rfl⟩ := find_key found
  have data := inv.table.data inode member
  have here : inode.sector ∈ v.objects := inv.alive inode member
  have apart j (there : j ∈ ({ v with openInodes := closeList v.openInodes inode } : Volume).objects) x
      (owns : Owns v.disk j x) : ¬ Owns v.disk inode.sector x := inv.removed_apart member removed last kept there owns
  have marked x (owns : Owns v.disk inode.sector x) := inv.layout.marked inode.sector here x owns
  have on := (marked inode.sector (.inl rfl)).1
  have marked₁ x (low : inode.sector ≤ x) (high : x < inode.sector + 1) : v.freeMap x = true :=
    (marked x (.inl (by omega))).2
  obtain ⟨-,inv',kept'⟩ := closed.release inode.sector 1 on marked₁
    (fun j there x low high owns => apart j there x owns (.inl (by omega)))
  have ends := inv.layout.ends inode.sector here
  have marked₂ x (low : (onDisk v.disk inode.sector).start ≤ x)
      (high : x < (onDisk v.disk inode.sector).start + (onDisk v.disk inode.sector).sectors) :
      setMultiple v.freeMap inode.sector 1 false x = true := by
    have other : ¬ (inode.sector ≤ x ∧ x < inode.sector + 1) := by
      intro same
      have equal : x = inode.sector := by omega
      subst equal
      exact inv.layout.self inode.sector here ⟨low,high⟩
    rw [setMultiple_outside other]
    exact (marked x (.inr ⟨low,high⟩)).2
  obtain ⟨-,inv'',kept''⟩ := inv'.release _ _ ends marked₂
    (fun j there x low high owns => by
      have there' := kept'.objects j there
      have same : onDisk (({ v with openInodes := closeList v.openInodes inode } : Volume).sync dev
          (setMultiple v.freeMap inode.sector 1 false)).disk j = onDisk v.disk j :=
        closed.layout.sync_onDisk map_member closed.mapLength there'
      rw [Owns,same] at owns
      exact apart j there' x owns (.inr ⟨low,high⟩))
  refine ⟨_,fun files => ?_,inv'',kept.trans (kept'.trans kept'')⟩
  have found' : find Inode.sector inode.sector ({ v with files := files } : Volume).openInodes = some inode := found
  rw [inodeClose_last found' last removed,data]
  exact (bind_go (closed.release_files _ _ on marked₁ files)).trans (inv'.release_files _ _ ends marked₂ files)

/-- Closing an inode does not depend on the files, so a file may give up its reference first. -/
theorem Inv.inodeClose_files (inv : Inv dev v extra) (other : i ≠ 0) (held : 0 < extra i) :
    ∃ v', (∀ files, FileSys.inodeClose dev i { v with files := files } = .ok ((),{ v' with files := files })) ∧
      Inv dev v' (fewer extra i) ∧ Kept 0 v v' ∧
      (i ∉ removedInodes v.openInodes → v'.disk = v.disk ∧ v'.freeMap = v.freeMap) := by
  obtain ⟨inode,found,same,member,closed,kept⟩ := inv.unreferred other held
  by_cases stays : 1 < inode.openCnt ∨ inode.removed = false
  · refine ⟨_,fun files => ?_,closed,kept,fun _ => ⟨rfl,rfl⟩⟩
    have found' : find Inode.sector i ({ v with files := files } : Volume).openInodes = some inode := found
    exact inodeClose_plain found' stays
  · obtain ⟨last,removed⟩ := not_or.mp stays
    have removed : inode.removed = true := by simpa using removed
    obtain ⟨v',done,inv',kept'⟩ := inv.released found removed last closed kept
    refine ⟨v',done,inv',kept',fun absent => absurd ?_ absent⟩
    exact mem_removed.mpr ⟨inode,member,removed,same⟩

theorem Inv.inodeClose (inv : Inv dev v extra) (other : i ≠ 0) (held : 0 < extra i) :
    ∃ v', FileSys.inodeClose dev i v = .ok ((),v') ∧ Inv dev v' (fewer extra i) ∧ Kept 0 v v' ∧
      (i ∉ removedInodes v.openInodes → v'.disk = v.disk ∧ v'.freeMap = v.freeMap) := by
  obtain ⟨v',done,inv',kept,same⟩ := inv.inodeClose_files other held
  refine ⟨v',(done v.files).trans ?_,inv',kept,same⟩
  rw [← kept.files]

/-- The root directory is never removed, so closing it changes nothing on the disk. -/
theorem Inv.closeRoot (inv : Inv dev v extra) (held : 0 < extra 1) :
    ∃ v', FileSys.inodeClose dev 1 v = .ok ((),v') ∧ Inv dev v' (fewer extra 1) ∧ Kept 0 v v' ∧
      v'.disk = v.disk ∧ v'.freeMap = v.freeMap := by
  obtain ⟨v',done,inv',kept,same⟩ := inv.inodeClose Nat.one_ne_zero held
  refine ⟨v',done,inv',kept,same fun here => ?_⟩
  have nodup := (List.nodup_cons.mp inv.layout.nodup).2
  exact (List.nodup_cons.mp nodup).1 (List.mem_append_right _ here)

/-! Files. -/

/-- Files that refer to the same or other inodes of files. -/
theorem Inv.filed {files : List File} (inv : Inv dev v extra)
    (table : Table { v with files := files, nextFile := next } extra') (mapHeld : 0 < extra' 0)
    (user : ∀ file ∈ files, file.inode ≠ 0 ∧ file.inode ≠ 1) :
    Inv dev { v with files := files, nextFile := next } extra' :=
  ⟨inv.layout,inv.saved,table,inv.mapFile,inv.mapLength,mapHeld,inv.rootLength,inv.slots,inv.alive,user⟩

theorem Inv.fileOpened (inv : Inv dev v extra) (held : 0 < extra i) (user : i ≠ 0 ∧ i ≠ 1) :
    Inv dev { v with files := ⟨v.nextFile,i,0,false⟩ :: v.files, nextFile := v.nextFile + 1 } (fewer extra i) := by
  refine inv.filed (inv.table.fileOpened held) ?_ ?_
  · rw [fewer_other (Ne.symm user.1)]
    exact inv.mapHeld
  · intro file member
    rcases List.mem_cons.mp member with rfl | member
    · exact user
    · exact inv.user file member

theorem Inv.fileClosed (inv : Inv dev v extra) (member : file ∈ v.files) (allowed : file.denyWrite = false) :
    Inv dev { v with files := remove File.id file.id v.files } (more extra file.inode) := by
  refine inv.filed (inv.table.fileClosed member allowed) ?_ ?_
  · have held := inv.mapHeld
    unfold more
    split <;> omega
  · exact fun other here => inv.user other (mem_remove.mp here).1

theorem Inv.moved (inv : Inv dev v extra) {f : File → File} (id_ : ∀ file, (f file).id = file.id)
    (inode_ : ∀ file, (f file).inode = file.inode) (deny_ : ∀ file, (f file).denyWrite = file.denyWrite) :
    Inv dev (v.updateFile n f) extra := by
  refine inv.filed (inv.table.moved id_ inode_ deny_) inv.mapHeld ?_
  intro file member
  obtain ⟨old,here,rfl⟩ := mem_update.mp member
  split
  · rw [inode_]
    exact inv.user old here
  · exact inv.user old here

theorem Inv.flagged (inv : Inv dev v extra) (member : file ∈ v.files) (changed : file.denyWrite = !value) :
    Inv dev (v.flag file value) extra := by
  have removed : removedInodes (v.flag file value).openInodes = removedInodes v.openInodes :=
    removed_update (fun _ => rfl) fun _ => rfl
  have objects : (v.flag file value).objects = v.objects := by
    unfold Volume.objects
    rw [removed]
    rfl
  refine ⟨?_,inv.saved,inv.table.flagged member changed,inv.mapFile,inv.mapLength,inv.mapHeld,inv.rootLength,inv.slots,?_,?_⟩
  · rw [objects]
    exact inv.layout
  · intro inode here
    rw [objects]
    obtain ⟨old,there,same⟩ := List.mem_map.mp (mem_update_key here fun _ => rfl)
    rw [← same]
    exact inv.alive old there
  · intro other here
    obtain ⟨old,there,rfl⟩ := mem_update.mp here
    have user := inv.user old there
    split
    · exact user
    · exact user

end

end OsProj.FileSys
