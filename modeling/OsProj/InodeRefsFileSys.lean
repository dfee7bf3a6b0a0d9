import OsProj.FileSysRuns
import OsProj.InodeRefsMirror
import OsProj.InodeRefsRuns

/-! What a run of the file system does to the inodes and files of its volume, some run of the references does to
its own. Every allocation of such a run succeeds. -/
namespace OsProj.InodeRefs

open OsProj.Keyed OsProj.Faulting
open OsProj.FileSys (Volume Device more more_pos onDisk rootDirSector)

/-- Each file of the volume has a handle of its own, which refers to the inode of the file. -/
structure Mirrors (v : Volume) (s : State) (extra handleOf : Nat → Nat) : Prop where
  inv : Inv s extra
  same : Same v s
  files : ∀ r ∈ v.files.map refOf, ∃ handle ∈ s.files, handle.id = handleOf r.1 ∧ s.At handle.inode r.2
  apart : ∀ r ∈ v.files.map refOf, ∀ r' ∈ v.files.map refOf, handleOf r.1 = handleOf r'.1 → r.1 = r'.1

/-- What the references leave open of a call may be anything. -/
inductive StandsFor : FileSys.Call → Call → Prop where
  | create (o : Outcomes) : StandsFor (.filesysCreate name initialSize) (.filesysCreate o)
  | lookUp (o : Outcomes) : StandsFor (.filesysOpen name) (.filesysOpen o)
  | remove (o : Outcomes) : StandsFor (.filesysRemove name) (.filesysRemove o)
  | reopen (file : Nat) (memory : Bool) : StandsFor (.fileReopen f) (.fileReopen file memory)
  | close (file : Nat) : StandsFor (.fileClose f) (.fileClose file)

/-- The calls of the references in a run of the file system, behind those of the format. -/
inductive Follows : List FileSys.Event → List Call → Prop where
  | format : Follows [] [.freeMapOpen o,.freeMapClose,.freeMapOpen o]
  | moves (before : Follows h calls) (stands : StandsFor e.call c) : Follows (e :: h) (c :: calls)
  | rests (before : Follows h calls) (none_ : ∀ c, ¬ StandsFor e.call c) : Follows (e :: h) calls

def State.DirAt (s : State) (dir sector : Nat) : Prop := ∃ handle ∈ s.dirs, handle.id = dir ∧ s.At handle.inode sector

section
variable {dev : Device} {v v' : Volume} {s s' : State} {extra handleOf : Nat → Nat} {id sector : Nat} {handle : Handle}

theorem State.file_referred (here : handle ∈ s.files) : 0 < s.held extra handle.inode := by
  have some := countP_pos here
  unfold State.held
  omega

theorem State.dir_referred (here : handle ∈ s.dirs) : 0 < s.held extra handle.inode := by
  have some := countP_pos here
  unfold State.held
  omega

/-- What is referred to is open. -/
theorem Inv.referred_inode (inv : Inv s extra) (referred : 0 < s.held extra id) : id ∈ s.openInodes.map Inode.id := by
  obtain ⟨inode,member,same,-⟩ := inv.counted.member referred
  exact List.mem_map.mpr ⟨inode,member,same⟩

theorem Inv.extra_inode (inv : Inv s (more extra id)) : id ∈ s.openInodes.map Inode.id :=
  inv.referred_inode (Nat.add_pos_right _ more_pos)

theorem Mirrors.alike (mirrors : Mirrors v s extra handleOf) (alike : Alike v v') : Mirrors v' s extra handleOf := by
  refine ⟨mirrors.inv,mirrors.same.alike alike,?_,?_⟩
  · rw [alike.2]
    exact mirrors.files
  · rw [alike.2]
    exact mirrors.apart

/-- Files that stay open keep their handles, and these their inodes. -/
theorem Mirrors.moved (mirrors : Mirrors v s extra handleOf) (inv' : Inv s' extra') (same : Same v' s') (placed : Placed s s')
    (refs : ∀ r ∈ v'.files.map refOf, r ∈ v.files.map refOf)
    (kept : ∀ r ∈ v'.files.map refOf, ∀ handle ∈ s.files, handle.id = handleOf r.1 → handle ∈ s'.files) :
    Mirrors v' s' extra' handleOf := by
  refine ⟨inv',same,fun r here => ?_,fun r here r' there => mirrors.apart r (refs r here) r' (refs r' there)⟩
  obtain ⟨handle,member,id_,located⟩ := mirrors.files r (refs r here)
  have still := kept r here handle member id_
  exact ⟨handle,still,id_,located.step mirrors.inv.counted placed (inv'.referred_inode (State.file_referred still))⟩

theorem Moved.refs_mem (moved : Moved v v' s s') : ∀ r ∈ v'.files.map refOf, r ∈ v.files.map refOf := by
  rw [moved.refs]
  exact fun _ here => here

theorem Moved.files_mem (moved : Moved v v' s s') (member : handle ∈ s.files) : handle ∈ s'.files := by
  rw [moved.only.files]
  exact member

theorem Mirrors.through (mirrors : Mirrors v s extra handleOf) (inv' : Inv s' extra') (moved : Moved v v' s s') :
    Mirrors v' s' extra' handleOf :=
  mirrors.moved inv' moved.same moved.placed moved.refs_mem fun _ _ _ member _ => moved.files_mem member

theorem State.DirAt.step (located : s.DirAt dir sector) (inv : Inv s extra) (inv' : Inv s' extra') (placed : Placed s s')
    (only : Only s s') : s'.DirAt dir sector := by
  obtain ⟨handle,member,same,place⟩ := located
  have still : handle ∈ s'.dirs := by
    rw [only.dirs]
    exact member
  exact ⟨handle,still,same,place.step inv.counted placed (inv'.referred_inode (State.dir_referred still))⟩

/-! References that a call takes and gives up. -/

theorem Mirrors.inodeOpen (mirrors : Mirrors v s extra handleOf) (there : FileSys.inodeOpen dev sector v = .ok ((),v')) :
    ∃ id s', inodeOpen sector (onDisk v.disk sector) true s = .ok (some id,s') ∧ Mirrors v' s' (more extra id) handleOf ∧
      s'.At id sector ∧ Moved v v' s s' := by
  obtain ⟨r,s',opened,inv',-⟩ := mirrors.inv.inodeOpen sector (onDisk v.disk sector) true
  obtain ⟨id,rfl,moved,located⟩ := mirrors.same.inodeOpen mirrors.inv.counted there opened
  exact ⟨id,s',opened,mirrors.through inv' moved,located,moved⟩

theorem Mirrors.inodeClose (mirrors : Mirrors v s (more extra id) handleOf) (located : s.At id sector)
    (there : FileSys.inodeClose dev sector v = .ok ((),v')) :
    ∃ s', inodeClose (some id) s = .ok ((),s') ∧ Mirrors v' s' extra handleOf ∧ Moved v v' s s' := by
  obtain ⟨s',closed,inv',-⟩ := Inv.inodeClose (r := some id) mirrors.inv
  have moved := mirrors.same.inodeClose mirrors.inv.counted located there closed
  exact ⟨s',closed,mirrors.through inv' moved,moved⟩

theorem Mirrors.inodeRemove (mirrors : Mirrors v s (more extra id) handleOf) (located : s.At id sector)
    (there : FileSys.inodeRemove sector v = .ok ((),v')) :
    ∃ s', inodeRemove id s = .ok ((),s') ∧ Mirrors v' s' (more extra id) handleOf ∧ s'.At id sector ∧ Moved v v' s s' := by
  obtain ⟨-,rfl⟩ := Prod.mk.inj (Except.ok.inj there.symm)
  obtain ⟨s',removed,inv',-⟩ := mirrors.inv.inodeRemove id
  obtain ⟨moved,still⟩ := mirrors.same.inodeRemove mirrors.inv.counted located removed
  exact ⟨s',removed,mirrors.through inv' moved,still,moved⟩

theorem Mirrors.dirOpenRoot (mirrors : Mirrors v s extra handleOf) (there : FileSys.inodeOpen dev rootDirSector v = .ok ((),v')) :
    ∃ dir s', dirOpenRoot ⟨onDisk v.disk rootDirSector,true⟩ true s = .ok (some dir,s') ∧ Mirrors v' s' extra handleOf ∧
      s'.DirAt dir rootDirSector := by
  obtain ⟨id,s₁,opened,mirrors₁,located,-⟩ := mirrors.inodeOpen there
  obtain ⟨r,s',done,inv',-⟩ := Inv.dirOpen (r := some id) mirrors₁.inv true
  obtain ⟨rfl,rfl⟩ := Prod.mk.inj (Except.ok.inj done.symm)
  exact ⟨s₁.nextHandle,_,bind_go opened,⟨inv',mirrors₁.same,mirrors₁.files,mirrors₁.apart⟩,_,List.mem_cons_self,rfl,located⟩

theorem Mirrors.dirClose (mirrors : Mirrors v s extra handleOf) (located : s.DirAt dir sector)
    (there : FileSys.inodeClose dev sector v = .ok ((),v')) :
    ∃ s', dirClose (some dir) s = .ok ((),s') ∧ Mirrors v' s' extra handleOf ∧ Placed s s' := by
  obtain ⟨handle,member,rfl,place⟩ := located
  have here d (same : some handle.id = some d) : d ∈ s.dirs.map Handle.id :=
    Option.some.inj same ▸ List.mem_map_of_mem member
  obtain ⟨s',closed,inv'⟩ := mirrors.inv.dirClose here
  have found : findHandle State.dirs handle.id s = _ := findHandle_ok (find_member mirrors.inv.dirIds member)
  obtain ⟨_,s₁,got,rest⟩ := bind_ok.mp closed
  obtain ⟨rfl,rfl⟩ := Prod.mk.inj (Except.ok.inj (got.symm.trans found))
  obtain ⟨_,s₂,gone,last⟩ := bind_ok.mp rest
  obtain ⟨-,rfl⟩ := Prod.mk.inj (Except.ok.inj last.symm)
  have moved := mirrors.same.inodeClose mirrors.inv.counted place there gone
  have placed := moved.placed
  refine ⟨_,closed,mirrors.moved inv' moved.same ?_ moved.refs_mem ?_,?_⟩
  · exact ⟨placed.next,placed.sectors⟩
  · exact fun _ _ _ member _ => moved.files_mem member
  · exact ⟨placed.next,placed.sectors⟩

/-! Files. -/

theorem Mirrors.fileOpen (mirrors : Mirrors v s (more extra id) handleOf) (located : s.At id sector)
    (there : FileSys.fileOpen sector v = .ok (n,v')) (ids : (v'.files.map FileSys.File.id).Nodup) :
    ∃ f s', fileOpen (some id) true s = .ok (some f,s') ∧ ∃ handleOf', Mirrors v' s' extra handleOf' := by
  obtain ⟨r,s',done,inv',-⟩ := Inv.fileOpen (r := some id) mirrors.inv true
  obtain ⟨rfl,rfl⟩ := Prod.mk.inj (Except.ok.inj done.symm)
  obtain ⟨rfl,rfl⟩ := Prod.mk.inj (Except.ok.inj there.symm)
  have new := (List.nodup_cons.mp ids).1
  have other r (old : r ∈ v.files.map refOf) : r.1 ≠ v.nextFile := by
    obtain ⟨file,member,rfl⟩ := List.mem_map.mp old
    exact fun same => new (List.mem_map.mpr ⟨file,member,same⟩)
  have older r (old : r ∈ v.files.map refOf) : handleOf r.1 ≠ s.nextHandle := by
    obtain ⟨handle,member,same,-⟩ := mirrors.files r old
    rw [← same]
    exact Nat.ne_of_lt (mirrors.inv.freshFiles handle member)
  refine ⟨_,_,rfl,Function.update handleOf v.nextFile s.nextHandle,inv',mirrors.same,fun r here => ?_,fun r here r' there same => ?_⟩
  · rcases List.mem_cons.mp here with rfl | old
    · exact ⟨_,List.mem_cons_self,(Function.update_self v.nextFile s.nextHandle handleOf).symm,located⟩
    · obtain ⟨handle,member,same,place⟩ := mirrors.files r old
      refine ⟨handle,List.mem_cons_of_mem _ member,?_,place⟩
      rw [Function.update_of_ne (other r old),same]
  · rcases List.mem_cons.mp here with rfl | old
    · rcases List.mem_cons.mp there with rfl | old'
      · rfl
      · dsimp only [refOf] at same
        rw [Function.update_self,Function.update_of_ne (other r' old')] at same
        exact absurd same.symm (older r' old')
    · rcases List.mem_cons.mp there with rfl | old'
      · dsimp only [refOf] at same
        rw [Function.update_self,Function.update_of_ne (other r old)] at same
        exact absurd same (older r old)
      · rw [Function.update_of_ne (other r old),Function.update_of_ne (other r' old')] at same
        exact mirrors.apart r old r' old' same

theorem findFile_returned (done : FileSys.findFile n v = .ok (file,v')) : v' = v ∧ file ∈ v.files ∧ file.id = n := by
  unfold FileSys.findFile at done
  split at done
  · rename_i found
    obtain ⟨rfl,rfl⟩ := Prod.mk.inj (Except.ok.inj done)
    exact ⟨rfl,find_key found⟩
  · contradiction

theorem Mirrors.fileReopen (mirrors : Mirrors v s extra handleOf) (there : FileSys.fileReopen n v = .ok (n',v'))
    (ids : (v'.files.map FileSys.File.id).Nodup) :
    ∃ f ∈ s.files.map Handle.id, ∃ r s', fileReopen f true s = .ok (r,s') ∧ ∃ handleOf', Mirrors v' s' extra handleOf' := by
  obtain ⟨file,v₁,got,rest⟩ := bind_ok.mp there
  obtain ⟨rfl,member,rfl⟩ := findFile_returned got
  obtain ⟨handle,member',-,place⟩ := mirrors.files (refOf file) (List.mem_map_of_mem member)
  obtain ⟨s₁,reopened,inv₁,-⟩ := mirrors.inv.reopen (State.file_referred member')
  obtain ⟨moved,still⟩ := mirrors.same.inodeReopen mirrors.inv.counted place reopened
  have mirrors₁ := mirrors.through inv₁ moved
  obtain ⟨f,s₂,opened,handleOf',mirrors₂⟩ := mirrors₁.fileOpen still rest ids
  have found : findHandle State.files handle.id s = _ := findHandle_ok (find_member mirrors.inv.fileIds member')
  exact ⟨handle.id,List.mem_map_of_mem member',_,s₂,(bind_go found).trans ((bind_go reopened).trans opened),handleOf',mirrors₂⟩

theorem Mirrors.fileClose (mirrors : Mirrors v s extra handleOf) (there : FileSys.fileClose dev n v = .ok ((),v')) :
    ∃ f ∈ s.files.map Handle.id, ∃ s', fileClose f s = .ok ((),s') ∧ Mirrors v' s' extra handleOf := by
  obtain ⟨_,v₁,allowed,next⟩ := bind_ok.mp there
  have mirrors₁ := mirrors.alike (alike_allowWrite _ _ _ (Alike.refl v) allowed)
  obtain ⟨file,v₂,got,rest⟩ := bind_ok.mp next
  obtain ⟨rfl,member,rfl⟩ := findFile_returned got
  obtain ⟨_,v₃,closed,last⟩ := bind_ok.mp rest
  obtain ⟨-,rfl⟩ := Prod.mk.inj (Except.ok.inj last.symm)
  obtain ⟨handle,member',id_,place⟩ := mirrors₁.files (refOf file) (List.mem_map_of_mem member)
  obtain ⟨s',done,inv'⟩ := mirrors.inv.fileClose (List.mem_map_of_mem member')
  have found : findHandle State.files handle.id s = _ := findHandle_ok (find_member mirrors.inv.fileIds member')
  obtain ⟨_,s₁,got',rest'⟩ := bind_ok.mp done
  obtain ⟨rfl,rfl⟩ := Prod.mk.inj (Except.ok.inj (got'.symm.trans found))
  obtain ⟨_,s₂,gone,last'⟩ := bind_ok.mp rest'
  obtain ⟨-,rfl⟩ := Prod.mk.inj (Except.ok.inj last'.symm)
  have moved := mirrors₁.same.inodeClose mirrors.inv.counted place closed gone
  have placed := moved.placed
  refine ⟨_,List.mem_map_of_mem member',_,done,mirrors₁.moved inv' moved.same ⟨placed.next,placed.sectors⟩
    (fun r here => ?_) fun r here h there same => ?_⟩
  · obtain ⟨other,stays,rfl⟩ := List.mem_map.mp here
    exact moved.refs_mem _ (List.mem_map_of_mem (mem_remove.mp stays).1)
  · obtain ⟨other,stays,rfl⟩ := List.mem_map.mp here
    refine mem_remove.mpr ⟨moved.files_mem there,fun equal => (mem_remove.mp stays).2 ?_⟩
    refine mirrors₁.apart (refOf other) (moved.refs_mem _ (List.mem_map_of_mem (mem_remove.mp stays).1)) _
      (List.mem_map_of_mem member) ?_
    rw [← same,← id_,equal]

end

section
variable {dev : Device} {v v' : Volume} {s s' : State} {extra handleOf : Nat → Nat}

/-! Calls. -/

/-- Between opening and closing the root directory nothing else is opened. -/
theorem create_between (done : FileSys.filesysCreate dev name initialSize v = .ok (success,v')) :
    ∃ v₁ v₂, FileSys.inodeOpen dev rootDirSector v = .ok ((),v₁) ∧ Alike v₁ v₂ ∧
      FileSys.inodeClose dev rootDirSector v₂ = .ok ((),v') := by
  obtain ⟨_,v₁,opened,rest⟩ := bind_ok.mp done
  obtain ⟨found,w,allocated,rest⟩ := bind_ok.mp rest
  have alike : Alike v₁ w := alike_allocate _ _ _ (Alike.refl v₁) allocated
  have closes {w : Volume} {r : Bool} (alike : Alike v₁ w)
      (last : (do FileSys.inodeClose dev rootDirSector; return r) w = .ok (success,v')) :
      ∃ v₁ v₂, FileSys.inodeOpen dev rootDirSector v = .ok ((),v₁) ∧ Alike v₁ v₂ ∧
        FileSys.inodeClose dev rootDirSector v₂ = .ok ((),v') := by
    obtain ⟨_,w',closed,last⟩ := bind_ok.mp last
    obtain ⟨rfl,rfl⟩ := Prod.mk.inj (pure_ok.mp last)
    exact ⟨v₁,w,opened,alike,closed⟩
  cases found with
  | none => exact closes alike rest
  | some i =>
    obtain ⟨_,w₁,range,rest⟩ := bind_ok.mp rest
    have alike₁ : Alike v₁ w₁ := FileSys.keeps_assert _ _ _ _ alike range
    obtain ⟨created,w₂,made,rest⟩ := bind_ok.mp rest
    have alike₂ : Alike v₁ w₂ := alike_create _ _ _ alike₁ made
    have ends {w : Volume} {r : Bool} (alike : Alike v₁ w) (last : (do
        if !r && i != 0 then FileSys.freeMapRelease dev i 1
        FileSys.inodeClose dev rootDirSector
        return r) w = .ok (success,v')) :
        ∃ v₁ v₂, FileSys.inodeOpen dev rootDirSector v = .ok ((),v₁) ∧ Alike v₁ v₂ ∧
          FileSys.inodeClose dev rootDirSector v₂ = .ok ((),v') := by
      split at last
      · obtain ⟨_,w',released,last⟩ := bind_ok.mp last
        exact closes (alike_release _ _ _ alike released) last
      · exact closes alike last
    split at rest
    · obtain ⟨placed,w₃,added,rest⟩ := bind_ok.mp rest
      exact ends (FileSys.keeps_dirAdd alike_offDisk _ _ _ alike₂ added) rest
    · exact ends alike₂ rest

theorem Mirrors.filesysCreate (mirrors : Mirrors v s extra handleOf)
    (there : FileSys.filesysCreate dev name initialSize v = .ok (success,v')) :
    ∃ o s', filesysCreate o s = .ok (success,s') ∧ Mirrors v' s' extra handleOf := by
  obtain ⟨v₁,v₂,opened,alike,closed⟩ := create_between there
  obtain ⟨dir,s₁,opened',mirrors₁,located⟩ := mirrors.dirOpenRoot opened
  obtain ⟨s₂,closed',mirrors₂,-⟩ := (mirrors₁.alike alike).dirClose located closed
  let o : Outcomes := ⟨⟨onDisk v.disk rootDirSector,true⟩,true,none,⟨⟨0,0⟩,true⟩,success,true⟩
  exact ⟨o,s₂,(bind_go opened').trans (bind_go closed'),mirrors₂⟩

theorem Mirrors.filesysOpen (mirrors : Mirrors v s extra handleOf) (there : FileSys.filesysOpen dev name v = .ok (r,v'))
    (ids : (v'.files.map FileSys.File.id).Nodup) :
    ∃ o f s', filesysOpen o s = .ok (f,s') ∧ f.isSome = r.isSome ∧ ∃ handleOf', Mirrors v' s' extra handleOf' := by
  obtain ⟨_,v₁,opened,rest⟩ := bind_ok.mp there
  obtain ⟨⟨found,ofs,e⟩,w,looked,rest⟩ := bind_ok.mp rest
  obtain rfl : w = v₁ := FileSys.keeps_lookup (P := (· = v₁)) _ _ _ rfl looked
  obtain ⟨dir,s₁,opened',mirrors₁,located⟩ := mirrors.dirOpenRoot opened
  cases found with
  | true =>
    obtain ⟨_,v₂,taken,rest⟩ := bind_ok.mp rest
    obtain ⟨_,v₃,closed,rest⟩ := bind_ok.mp rest
    obtain ⟨n,v₄,made,last⟩ := bind_ok.mp rest
    obtain ⟨rfl,rfl⟩ := Prod.mk.inj (pure_ok.mp last)
    obtain ⟨id,s₂,taken',mirrors₂,place,moved⟩ := mirrors₁.inodeOpen taken
    obtain ⟨s₃,closed',mirrors₃,placed⟩ :=
      mirrors₂.dirClose (located.step mirrors₁.inv mirrors₂.inv moved.placed moved.only) closed
    obtain ⟨f,s₄,made',handleOf',mirrors₄⟩ :=
      mirrors₃.fileOpen (place.step mirrors₂.inv.counted placed mirrors₃.inv.extra_inode) made ids
    let o : Outcomes := ⟨⟨onDisk v.disk rootDirSector,true⟩,true,some (FileSys.entrySector e),
      ⟨onDisk w.disk (FileSys.entrySector e),true⟩,true,true⟩
    exact ⟨o,some f,s₄,(bind_go opened').trans ((bind_go taken').trans ((bind_go closed').trans made')),rfl,handleOf',mirrors₄⟩
  | false =>
    obtain ⟨_,v₂,closed,last⟩ := bind_ok.mp rest
    obtain ⟨rfl,rfl⟩ := Prod.mk.inj (pure_ok.mp last)
    obtain ⟨s₂,closed',mirrors₂,-⟩ := mirrors₁.dirClose located closed
    let o : Outcomes := ⟨⟨onDisk v.disk rootDirSector,true⟩,true,none,⟨⟨0,0⟩,true⟩,true,true⟩
    exact ⟨o,none,s₂,(bind_go opened').trans ((bind_go rfl).trans (bind_go closed')),rfl,handleOf,mirrors₂⟩

theorem Mirrors.dirRemove (mirrors : Mirrors v s extra handleOf) (there : FileSys.dirRemove dev dir name v = .ok (success,v')) :
    ∃ found opening written s', dirRemove found opening written s = .ok (success,s') ∧ Mirrors v' s' extra handleOf ∧
      Placed s s' ∧ Only s s' := by
  obtain ⟨⟨found,ofs,e⟩,w,looked,rest⟩ := bind_ok.mp there
  obtain rfl : w = v := FileSys.keeps_lookup (P := (· = v)) _ _ _ rfl looked
  cases found with
  | false =>
    obtain ⟨rfl,rfl⟩ := Prod.mk.inj (pure_ok.mp rest)
    exact ⟨none,⟨⟨0,0⟩,true⟩,true,s,rfl,mirrors,Placed.refl,Only.refl⟩
  | true =>
    obtain ⟨_,v₁,opened,rest⟩ := bind_ok.mp rest
    obtain ⟨n,v₂,written,rest⟩ := bind_ok.mp rest
    have alike : Alike v₁ v₂ := FileSys.keeps_inodeWriteAt alike_offDisk _ _ _ (Alike.refl v₁) written
    obtain ⟨id,s₁,opened',mirrors₁,located,moved₁⟩ := mirrors.inodeOpen opened
    refine ⟨some (FileSys.entrySector e),⟨onDisk w.disk (FileSys.entrySector e),true⟩,decide (n = FileSys.entrySize),?_⟩
    by_cases whole : n = FileSys.entrySize
    · rw [if_neg (not_not.mpr whole)] at rest
      obtain ⟨_,v₃,marked,rest⟩ := bind_ok.mp rest
      obtain ⟨_,v₄,closed,last⟩ := bind_ok.mp rest
      obtain ⟨rfl,rfl⟩ := Prod.mk.inj (pure_ok.mp last)
      obtain ⟨s₂,marked',mirrors₂,located₂,moved₂⟩ := (mirrors₁.alike alike).inodeRemove located marked
      obtain ⟨s₃,closed',mirrors₃,moved₃⟩ := mirrors₂.inodeClose located₂ closed
      rw [decide_eq_true whole]
      exact ⟨s₃,(bind_go opened').trans ((bind_go marked').trans (bind_go closed')),mirrors₃,
        moved₁.placed.trans (moved₂.placed.trans moved₃.placed),moved₁.only.trans (moved₂.only.trans moved₃.only)⟩
    · rw [if_pos whole] at rest
      obtain ⟨_,v₃,closed,last⟩ := bind_ok.mp rest
      obtain ⟨rfl,rfl⟩ := Prod.mk.inj (pure_ok.mp last)
      obtain ⟨s₂,closed',mirrors₂,moved₂⟩ := (mirrors₁.alike alike).inodeClose located closed
      rw [decide_eq_false whole]
      exact ⟨s₂,(bind_go opened').trans (bind_go closed'),mirrors₂,moved₁.placed.trans moved₂.placed,
        moved₁.only.trans moved₂.only⟩

theorem Mirrors.filesysRemove (mirrors : Mirrors v s extra handleOf)
    (there : FileSys.filesysRemove dev name v = .ok (success,v')) :
    ∃ o s', filesysRemove o s = .ok (success,s') ∧ Mirrors v' s' extra handleOf := by
  obtain ⟨_,v₁,opened,rest⟩ := bind_ok.mp there
  obtain ⟨r,v₂,removed,rest⟩ := bind_ok.mp rest
  obtain ⟨_,v₃,closed,last⟩ := bind_ok.mp rest
  obtain ⟨rfl,rfl⟩ := Prod.mk.inj (pure_ok.mp last)
  obtain ⟨dir,s₁,opened',mirrors₁,located⟩ := mirrors.dirOpenRoot opened
  obtain ⟨found,opening,written,s₂,removed',mirrors₂,placed,only⟩ := mirrors₁.dirRemove removed
  obtain ⟨s₃,closed',mirrors₃,-⟩ := mirrors₂.dirClose (located.step mirrors₁.inv mirrors₂.inv placed only) closed
  let o : Outcomes := ⟨⟨onDisk v.disk rootDirSector,true⟩,true,found,opening,written,true⟩
  exact ⟨o,s₃,(bind_go opened').trans ((bind_go removed').trans (bind_go closed')),mirrors₃⟩

/-- The references come to stand as the call leaves the volume, through the call of the same name if they have one. -/
def Followed (call : FileSys.Call) (s : State) (extra : Nat → Nat) (v' : Volume) : Prop :=
  ∃ handleOf', (∃ c s', StandsFor call c ∧ Admissible s c ∧ exec c s = .ok ((),s') ∧ Mirrors v' s' extra handleOf') ∨
    (∀ c, ¬ StandsFor call c) ∧ Mirrors v' s extra handleOf'

theorem Mirrors.followed (mirrors : Mirrors v' s' extra handleOf) (stands : StandsFor call c) (admissible : Admissible s c)
    (done : exec c s = .ok ((),s')) : Followed call s extra v' :=
  ⟨handleOf,.inl ⟨c,s',stands,admissible,done,mirrors⟩⟩

theorem Mirrors.exec (mirrors : Mirrors v s extra handleOf) (there : FileSys.exec dev call v = .ok (result,v'))
    (ids : (v'.files.map FileSys.File.id).Nodup) : Followed call s extra v' := by
  have quiet (rests : ∀ c, ¬ StandsFor call c) (keeps : Keeps (Alike v) (FileSys.exec dev call)) : Followed call s extra v' :=
    ⟨handleOf,.inr ⟨rests,mirrors.alike (keeps _ _ _ (Alike.refl v) there)⟩⟩
  cases call with
  | filesysCreate name initialSize =>
    obtain ⟨success,w,done,last⟩ := bind_ok.mp there
    obtain ⟨rfl,rfl⟩ := Prod.mk.inj (pure_ok.mp last)
    obtain ⟨o,s',done',mirrors'⟩ := mirrors.filesysCreate done
    exact mirrors'.followed (.create o) trivial (bind_go done')
  | filesysOpen name =>
    obtain ⟨r,w,done,last⟩ := bind_ok.mp there
    obtain ⟨rfl,rfl⟩ := Prod.mk.inj (pure_ok.mp last)
    obtain ⟨o,f,s',done',-,handleOf',mirrors'⟩ := mirrors.filesysOpen done ids
    exact mirrors'.followed (.lookUp o) trivial (bind_go done')
  | filesysRemove name =>
    obtain ⟨success,w,done,last⟩ := bind_ok.mp there
    obtain ⟨rfl,rfl⟩ := Prod.mk.inj (pure_ok.mp last)
    obtain ⟨o,s',done',mirrors'⟩ := mirrors.filesysRemove done
    exact mirrors'.followed (.remove o) trivial (bind_go done')
  | fileClose n =>
    obtain ⟨_,w,done,last⟩ := bind_ok.mp there
    obtain ⟨rfl,rfl⟩ := Prod.mk.inj (pure_ok.mp last)
    obtain ⟨f,here,s',done',mirrors'⟩ := mirrors.fileClose done
    exact mirrors'.followed (.close f) here done'
  | fileReopen n =>
    obtain ⟨n',w,done,last⟩ := bind_ok.mp there
    obtain ⟨rfl,rfl⟩ := Prod.mk.inj (pure_ok.mp last)
    obtain ⟨f,here,r,s',done',handleOf',mirrors'⟩ := mirrors.fileReopen done ids
    exact mirrors'.followed (.reopen f true) here (bind_go done')
  | fileRead n buffer size =>
    refine quiet (fun _ stands => by cases stands) (Keeps.bind ?_ fun _ => keeps_pure _)
    refine FileSys.keeps_findFile.bind fun _ => FileSys.keeps_inodeReadAt.bind fun _ => ?_
    refine Keeps.bind (alike_updateFile ?_) fun _ => keeps_pure _
    exact fun _ => rfl
  | fileReadAt n buffer size ofs =>
    exact quiet (fun _ stands => by cases stands) ((FileSys.keeps_findFile.bind fun _ => FileSys.keeps_inodeReadAt).bind fun _ => keeps_pure _)
  | fileWrite n buffer size =>
    refine quiet (fun _ stands => by cases stands) (Keeps.bind ?_ fun _ => keeps_pure _)
    refine FileSys.keeps_findFile.bind fun _ => (FileSys.keeps_inodeWriteAt alike_offDisk).bind fun _ => ?_
    refine Keeps.bind (alike_updateFile ?_) fun _ => keeps_pure _
    exact fun _ => rfl
  | fileWriteAt n buffer size ofs =>
    exact quiet (fun _ stands => by cases stands) ((FileSys.keeps_findFile.bind fun _ => FileSys.keeps_inodeWriteAt alike_offDisk).bind fun _ => keeps_pure _)
  | fileSeek n newPos =>
    refine quiet (fun _ stands => by cases stands) (Keeps.bind ?_ fun _ => keeps_pure _)
    refine FileSys.keeps_findFile.bind fun _ => (FileSys.keeps_assert _).bind fun _ => alike_updateFile ?_
    exact fun _ => rfl
  | fileTell n => exact quiet (fun _ stands => by cases stands) ((FileSys.keeps_findFile.bind fun _ => keeps_pure _).bind fun _ => keeps_pure _)
  | fileLength n =>
    refine quiet (fun _ stands => by cases stands) (Keeps.bind ?_ fun _ => keeps_pure _)
    exact FileSys.keeps_findFile.bind fun _ => FileSys.keeps_findInode.bind fun _ => keeps_pure _
  | fileDenyWrite n => exact quiet (fun _ stands => by cases stands) (alike_denyWrite.bind fun _ => keeps_pure _)
  | fileAllowWrite n => exact quiet (fun _ stands => by cases stands) (alike_allowWrite.bind fun _ => keeps_pure _)

/-! Runs. -/

/-- Formatting opens the file of the free map, closes it and opens it again. -/
theorem format_run (o : Outcomes) (memory : o.file.memory = true) (file : o.fileMemory = true) (saved : o.written = true) :
    ∃ s, History.Path Step [] State.boot [.freeMapOpen o,.freeMapClose,.freeMapOpen o] s ∧
      s.openInodes = [⟨1,FileSys.freeMapSector,1,false,o.file.data⟩] := by
  obtain ⟨root,dirMemory,found,⟨data,_⟩,_,_⟩ := o
  obtain rfl := memory
  obtain rfl := file
  obtain rfl := saved
  refine ⟨_,.snoc (.snoc (.snoc .refl ⟨trivial,rfl⟩) ⟨fun file same => ?_,rfl⟩) ⟨trivial,rfl⟩,rfl⟩
  obtain rfl := Option.some.inj same
  exact List.mem_singleton_self 0

theorem formatted_mirrored (done : FileSys.filesysInit dev true (Volume.boot disk) = .ok ((),v)) :
    ∃ calls s handleOf, Follows [] calls ∧ History.Path Step [] State.boot calls s ∧ Mirrors v s (fun _ => 0) handleOf := by
  obtain ⟨on,start,start',free,free'⟩ := FileSys.format_scans done
  obtain ⟨-,rfl⟩ := Prod.mk.inj (Except.ok.inj (done.symm.trans (FileSys.filesysInit_ok on free free')))
  let opening : Opening := ⟨onDisk (FileSys.rootCreated dev disk start start').disk 0,true⟩
  obtain ⟨s,run,list⟩ := format_run ⟨opening,true,none,opening,true,true⟩ rfl rfl rfl
  refine ⟨_,s,id,.format,run,run_inv run,?_,fun _ here => absurd here List.not_mem_nil,fun _ here => absurd here List.not_mem_nil⟩
  unfold Same
  rw [list]
  rfl

/-- Every run of the file system is one of the references, call by call. -/
theorem reached_mirrored (reached : FileSys.Reached dev h v) : ∃ calls s handleOf,
    Follows h calls ∧ History.Path Step [] State.boot calls s ∧ Mirrors v s (fun _ => 0) handleOf := by
  obtain ⟨disk,first,done,run⟩ := reached
  induction run with
  | refl => exact formatted_mirrored done
  | snoc front step ih =>
    obtain ⟨calls,s,handleOf,follows,path,mirrors⟩ := ih
    have reached' : FileSys.Reached dev _ _ := ⟨disk,first,done,front.snoc step⟩
    obtain ⟨handleOf',⟨c,s',stands,admissible,moved,mirrors'⟩ | ⟨rests,mirrors'⟩⟩ :=
      mirrors.exec step.2.1 reached'.inv.table.ids
    · exact ⟨c :: calls,s',handleOf',follows.moves stands,path.snoc ⟨admissible,moved⟩,mirrors'⟩
    · exact ⟨calls,s,handleOf',follows.rests rests,path,mirrors'⟩

/-- The counts of the volume are those of a log of opens, reopens, removals and closes, of which each point
accounts for the inodes in memory. -/
theorem volume_accounted (reached : FileSys.Reached dev h v) : ∃ log, History.Always PointOk log ∧
    ∀ inode ∈ v.openInodes, ∃ id, inode.openCnt + closes log id = opens log id ∧ (inode.removed = true ↔ wasRemoved log id) := by
  obtain ⟨calls,s,handleOf,-,-,mirrors⟩ := reached_mirrored reached
  have counted := mirrors.inv.counted
  refine ⟨s.log,counted.always,fun inode here => ?_⟩
  have both := List.mem_map_of_mem (f := entryOf) here
  rw [mirrors.same] at both
  obtain ⟨mine,member,entry⟩ := List.mem_map.mp both
  have count : mine.openCnt = inode.openCnt := congrArg (fun e => e.2.1) entry
  have flag : mine.removed = inode.removed := congrArg (fun e => e.2.2.1) entry
  rw [← count,← flag]
  exact ⟨mine.id,counted.accounted.counts mine member,counted.flags mine member⟩

end

end OsProj.InodeRefs
