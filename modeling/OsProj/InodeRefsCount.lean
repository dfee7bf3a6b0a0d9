import OsProj.FileSysTable
import OsProj.InodeRefs

/-! The open counts of inodes against the log of what was done to them. -/
namespace OsProj.InodeRefs

open OsProj.Keyed OsProj.Faulting
open OsProj.FileSys (more fewer)

def opens (log : List Point) (id : Nat) : Nat := log.countP fun p => p.op = .opened id ∨ p.op = .reopened id

def Op.closes (id : Nat) : Op → Bool
  | .closed inode _ => inode == id
  | _ => false

def Op.releases (id : Nat) : Op → Bool
  | .closed inode released => inode == id && released != []
  | _ => false

def Op.inode : Op → Nat
  | .opened inode | .reopened inode | .removed inode | .closed inode _ => inode

def closes (log : List Point) (id : Nat) : Nat := log.countP fun p => p.op.closes id

def releases (log : List Point) (id : Nat) : Nat := log.countP fun p => p.op.releases id

def wasRemoved (log : List Point) (id : Nat) : Prop := ∃ p ∈ log, p.op = .removed id

instance (log : List Point) (id : Nat) : Decidable (wasRemoved log id) := inferInstanceAs (Decidable (∃ p ∈ log, _))

/-- The sectors of an inode have been given back once if it was removed and no reference is left,
and never otherwise. -/
def ReleasedOnce (log : List Point) : Prop :=
  ∀ id, releases log id = if wasRemoved log id ∧ opens log id = closes log id then 1 else 0

/-- The list has one inode for each sector, with the opens and reopens that are not closed yet as
its count, and no inode without any. -/
structure Accounted (log : List Point) (openInodes : List Inode) : Prop where
  sectors : (openInodes.map Inode.sector).Nodup
  counts : ∀ inode ∈ openInodes, inode.openCnt + closes log inode.id = opens log inode.id
  used : ∀ inode ∈ openInodes, 0 < inode.openCnt
  others : ∀ id, id ∉ openInodes.map Inode.id → opens log id = closes log id

/-- What is given back are the sectors of the inode that was closed. -/
def Gives (before : List Inode) : Op → Prop
  | .closed id released => released = [] ∨ ∃ inode ∈ before, inode.id = id ∧ released = inode.blocks
  | _ => True

def listBefore : List Point → List Inode
  | [] => []
  | p :: _ => p.openInodes

def PointOk (earlier : List Point) (p : Point) : Prop :=
  Accounted (p :: earlier) p.openInodes ∧ ReleasedOnce (p :: earlier) ∧ Gives (listBefore earlier) p.op

/-- What holds of the inodes and the log when references are held as often as a function says. -/
structure Counted (s : State) (held : Nat → Nat) : Prop where
  always : History.Always PointOk s.log
  current : listBefore s.log = s.openInodes
  accounted : Accounted s.log s.openInodes
  released : ReleasedOnce s.log
  ids : (s.openInodes.map Inode.id).Nodup
  fresh : ∀ id, s.next ≤ id → opens s.log id = 0 ∧ closes s.log id = 0 ∧ ¬ wasRemoved s.log id
  flags : ∀ inode ∈ s.openInodes, inode.removed = true ↔ wasRemoved s.log inode.id
  holds : ∀ id, opens s.log id = closes s.log id + held id

section
variable {s : State} {held held' : Nat → Nat} {log : List Point} {op : Op} {l : List Inode} {id : Nat}

theorem opens_cons : opens (⟨op,l⟩ :: log) id = opens log id + if op = .opened id ∨ op = .reopened id then 1 else 0 := by
  unfold opens
  rw [List.countP_cons]
  simp

theorem closes_cons : closes (⟨op,l⟩ :: log) id = closes log id + if op.closes id then 1 else 0 := by
  unfold closes
  rw [List.countP_cons]

theorem releases_cons : releases (⟨op,l⟩ :: log) id = releases log id + if op.releases id then 1 else 0 := by
  unfold releases
  rw [List.countP_cons]

theorem wasRemoved_cons : wasRemoved (⟨op,l⟩ :: log) id ↔ op = .removed id ∨ wasRemoved log id := by
  simp [wasRemoved]

theorem Counted.member (counted : Counted s held) (referred : 0 < held id) :
    ∃ inode ∈ s.openInodes, inode.id = id ∧ find Inode.id id s.openInodes = some inode := by
  have holds := counted.holds id
  have here : id ∈ s.openInodes.map Inode.id := by
    by_contra absent
    have none := counted.accounted.others id absent
    omega
  obtain ⟨inode,member,rfl⟩ := List.mem_map.mp here
  exact ⟨inode,member,rfl,find_member counted.ids member⟩

theorem Counted.fresh_id (counted : Counted s held) (member : inode ∈ s.openInodes) : inode.id < s.next := by
  by_contra new
  have none := (counted.fresh inode.id (by omega)).1
  have counts := counted.accounted.counts inode member
  have used := counted.accounted.used inode member
  omega

/-- One more point of the log. -/
theorem Counted.commit (counted : Counted s held) (accounted : Accounted (⟨op,l⟩ :: s.log) l)
    (released : ReleasedOnce (⟨op,l⟩ :: s.log)) (gives : Gives s.openInodes op) (ids : (l.map Inode.id).Nodup)
    (fresh : ∀ id, next ≤ id → opens (⟨op,l⟩ :: s.log) id = 0 ∧ closes (⟨op,l⟩ :: s.log) id = 0 ∧ ¬ wasRemoved (⟨op,l⟩ :: s.log) id)
    (flags : ∀ inode ∈ l, inode.removed = true ↔ wasRemoved (⟨op,l⟩ :: s.log) inode.id)
    (holds : ∀ id, opens (⟨op,l⟩ :: s.log) id = closes (⟨op,l⟩ :: s.log) id + held' id) :
    Counted { s.commit op l with next := next } held' := by
  refine ⟨⟨⟨accounted,released,?_⟩,counted.always⟩,rfl,accounted,released,ids,fresh,flags,holds⟩
  rw [counted.current]
  exact gives

/-- A point says nothing of other inodes. -/
theorem other_inode (l : List Inode) (log : List Point) (other : op.inode ≠ id) : opens (⟨op,l⟩ :: log) id = opens log id ∧
    closes (⟨op,l⟩ :: log) id = closes log id ∧ releases (⟨op,l⟩ :: log) id = releases log id ∧
    (wasRemoved (⟨op,l⟩ :: log) id ↔ wasRemoved log id) := by
  rw [opens_cons,closes_cons,releases_cons,wasRemoved_cons]
  cases op with
  | closed inode released =>
    have different : (inode == id) = false := beq_false_of_ne other
    simp [Op.closes,Op.releases,different]
  | opened inode | reopened inode | removed inode => simp_all [Op.inode,Op.closes,Op.releases]

theorem Counted.none_released (counted : Counted s held) (member : inode ∈ s.openInodes) : releases s.log inode.id = 0 := by
  have counts := counted.accounted.counts inode member
  have used := counted.accounted.used inode member
  rw [counted.released inode.id,if_neg (by omega)]

/-- One inode of the list changes. -/
theorem Counted.update (counted : Counted s held) (member : inode ∈ s.openInodes) (same : op.inode = inode.id)
    {f : Inode → Inode} (id_ : ∀ inode, (f inode).id = inode.id) (sector_ : ∀ inode, (f inode).sector = inode.sector)
    (counts : (f inode).openCnt + closes (⟨op,l⟩ :: s.log) inode.id = opens (⟨op,l⟩ :: s.log) inode.id)
    (used : 0 < (f inode).openCnt) (keeps : op.releases inode.id = false) (gives : Gives s.openInodes op)
    (flag : (f inode).removed = true ↔ wasRemoved (⟨op,l⟩ :: s.log) inode.id)
    (holds : opens (⟨op,l⟩ :: s.log) inode.id = closes (⟨op,l⟩ :: s.log) inode.id + held' inode.id)
    (others : ∀ j, j ≠ inode.id → held' j = held j) (list : l = Keyed.update Inode.id inode.id f s.openInodes) :
    Counted (s.commit op l) held' := by
  have old x (here : x ∈ l) : ∃ y ∈ s.openInodes, x.id = y.id ∧ (y.id = inode.id → x = f inode) ∧
      (y.id ≠ inode.id → x = y) := by
    rw [list] at here
    obtain ⟨y,there,rfl⟩ := mem_update.mp here
    refine ⟨y,there,?_,fun here => ?_,fun other => if_neg other⟩
    · split
      · exact id_ y
      · rfl
    · rw [if_pos here]
      have found := find_member counted.ids there
      rw [here,find_member counted.ids member] at found
      rw [Option.some.inj found]
  have keys : l.map Inode.id = s.openInodes.map Inode.id := by
    rw [list]
    exact update_keys id_
  have accounted : Accounted (⟨op,l⟩ :: s.log) l := by
    refine ⟨?_,fun x here => ?_,fun x here => ?_,fun j absent => ?_⟩
    · rw [list,map_update sector_]
      exact counted.accounted.sectors
    · obtain ⟨y,there,key,changed,kept⟩ := old x here
      by_cases this : y.id = inode.id
      · rw [key,this,changed this]
        exact counts
      · have quiet := other_inode l s.log (fun equal => this (equal.symm.trans same) : op.inode ≠ y.id)
        rw [key,quiet.1,quiet.2.1,kept this]
        exact counted.accounted.counts y there
    · obtain ⟨y,there,-,changed,kept⟩ := old x here
      by_cases this : y.id = inode.id
      · rw [changed this]
        exact used
      · rw [kept this]
        exact counted.accounted.used y there
    · have different : op.inode ≠ j := by
        rintro rfl
        rw [keys,same] at absent
        exact absent (List.mem_map_of_mem member)
      have quiet := other_inode l s.log different
      rw [quiet.1,quiet.2.1]
      rw [keys] at absent
      exact counted.accounted.others j absent
  have released : ReleasedOnce (⟨op,l⟩ :: s.log) := by
    intro j
    by_cases this : j = inode.id
    · have referred : ¬ (wasRemoved (⟨op,l⟩ :: s.log) inode.id ∧
          opens (⟨op,l⟩ :: s.log) inode.id = closes (⟨op,l⟩ :: s.log) inode.id) := by
        rintro ⟨-,none⟩
        omega
      rw [this,if_neg referred,releases_cons,counted.none_released member,keeps]
      rfl
    · have quiet := other_inode l s.log (fun equal => this (equal.symm.trans same) : op.inode ≠ j)
      rw [quiet.1,quiet.2.1,quiet.2.2.1,counted.released j]
      simp only [quiet.2.2.2]
  refine counted.commit accounted released gives ?_ ?_ ?_ ?_
  · rw [keys]
    exact counted.ids
  · intro j new
    have below := counted.fresh_id member
    have quiet := other_inode l s.log (by omega : op.inode ≠ j)
    rw [quiet.1,quiet.2.1,quiet.2.2.2]
    exact counted.fresh j new
  · intro x here
    obtain ⟨y,there,key,changed,kept⟩ := old x here
    by_cases this : y.id = inode.id
    · rw [key,this,changed this]
      exact flag
    · have quiet := other_inode l s.log (fun equal => this (equal.symm.trans same) : op.inode ≠ y.id)
      rw [key,quiet.2.2.2,kept this]
      exact counted.flags y there
  · intro j
    by_cases this : j = inode.id
    · rw [this]
      exact holds
    · have quiet := other_inode l s.log (fun equal => this (equal.symm.trans same) : op.inode ≠ j)
      rw [quiet.1,quiet.2.1,others j this]
      exact counted.holds j

/-! The operations on inodes. -/

theorem findInode_ok (found : find Inode.id id s.openInodes = some inode) : findInode id s = .ok (inode,s) := by
  simp only [findInode,found]

structure Only (s s' : State) : Prop where
  files : s'.files = s.files
  dirs : s'.dirs = s.dirs
  nextHandle : s'.nextHandle = s.nextHandle
  freeMapFile : s'.freeMapFile = s.freeMapFile

theorem Only.refl : Only s s := ⟨rfl,rfl,rfl,rfl⟩

theorem Only.trans (first : Only s s') (second : Only s' s'') : Only s s'' :=
  ⟨second.1.trans first.1,second.2.trans first.2,second.3.trans first.3,second.4.trans first.4⟩

theorem Counted.inodeReopen (counted : Counted s held) (member : inode ∈ s.openInodes) :
    ∃ s', inodeReopen inode.id s = .ok ((),s') ∧ Counted s' (more held inode.id) ∧ Only s s' := by
  have found := find_member counted.ids member
  have counts := counted.accounted.counts inode member
  have holds := counted.holds inode.id
  refine ⟨_,bind_go (findInode_ok found),?_,⟨rfl,rfl,rfl,rfl⟩⟩
  refine counted.update (f := fun inode => { inode with openCnt := inode.openCnt + 1 }) member rfl (fun _ => rfl)
    (fun _ => rfl) ?_ (Nat.succ_pos _) rfl trivial ?_ ?_ ?_ rfl
  · rw [opens_cons,closes_cons]
    simp only [Op.closes,Bool.false_eq_true,reduceCtorEq,or_true,↓reduceIte]
    omega
  · rw [wasRemoved_cons,counted.flags inode member]
    simp
  · rw [opens_cons,closes_cons,more,if_pos rfl]
    simp only [Op.closes,Bool.false_eq_true,reduceCtorEq,or_true,↓reduceIte]
    omega
  · exact fun j other => if_neg other

theorem Counted.inodeRemove (counted : Counted s held) (member : inode ∈ s.openInodes) :
    ∃ s', inodeRemove inode.id s = .ok ((),s') ∧ Counted s' held ∧ Only s s' := by
  have found := find_member counted.ids member
  have counts := counted.accounted.counts inode member
  have holds := counted.holds inode.id
  refine ⟨_,bind_go (findInode_ok found),?_,⟨rfl,rfl,rfl,rfl⟩⟩
  refine counted.update (f := fun inode => { inode with removed := true }) member rfl (fun _ => rfl)
    (fun _ => rfl) ?_ (counted.accounted.used inode member) rfl trivial ?_ ?_ (fun _ _ => rfl) rfl
  · rw [opens_cons,closes_cons]
    simpa [Op.closes] using counts
  · simp [wasRemoved_cons]
  · rw [opens_cons,closes_cons]
    simpa [Op.closes] using holds

/-- A new inode, of which there is one reference. -/
theorem Counted.opened (counted : Counted s held) (absent : sector ∉ s.openInodes.map Inode.sector) :
    Counted { s.commit (.opened s.next) (⟨s.next,sector,1,false,data⟩ :: s.openInodes) with next := s.next + 1 }
      (more held s.next) := by
  let l := ⟨s.next,sector,1,false,data⟩ :: s.openInodes
  obtain ⟨noOpens,noCloses,notRemoved⟩ := counted.fresh s.next (Nat.le_refl _)
  have noReleases : releases s.log s.next = 0 := by
    rw [counted.released s.next,if_neg (fun both => notRemoved both.1)]
  have newOpens : opens (⟨.opened s.next,l⟩ :: s.log) s.next = 1 := by
    rw [opens_cons,noOpens]
    simp
  have newCloses : closes (⟨.opened s.next,l⟩ :: s.log) s.next = 0 := by
    rw [closes_cons,noCloses]
    rfl
  have newRemoved : ¬ wasRemoved (⟨.opened s.next,l⟩ :: s.log) s.next := by
    rw [wasRemoved_cons]
    simpa using notRemoved
  have quiet j (other : j ≠ s.next) := other_inode l s.log (Ne.symm other : (Op.opened s.next).inode ≠ j)
  have older x (here : x ∈ s.openInodes) : x.id ≠ s.next := Nat.ne_of_lt (counted.fresh_id here)
  have free : s.next ∉ s.openInodes.map Inode.id := by
    intro here
    obtain ⟨x,member,same⟩ := List.mem_map.mp here
    exact older x member same
  have accounted : Accounted (⟨.opened s.next,l⟩ :: s.log) l := by
    refine ⟨List.nodup_cons.mpr ⟨absent,counted.accounted.sectors⟩,fun x here => ?_,fun x here => ?_,fun j gone => ?_⟩
    · rcases List.mem_cons.mp here with rfl | here
      · rw [newOpens,newCloses]
      · rw [(quiet x.id (older x here)).1,(quiet x.id (older x here)).2.1]
        exact counted.accounted.counts x here
    · rcases List.mem_cons.mp here with rfl | here
      · exact Nat.one_pos
      · exact counted.accounted.used x here
    · have other : j ≠ s.next := fun same => gone (same ▸ List.mem_cons_self)
      rw [(quiet j other).1,(quiet j other).2.1]
      exact counted.accounted.others j fun here => gone (List.mem_cons_of_mem _ here)
  have released : ReleasedOnce (⟨.opened s.next,l⟩ :: s.log) := by
    intro j
    by_cases same : j = s.next
    · rw [same,if_neg (fun both => newRemoved both.1),releases_cons,noReleases]
      rfl
    · simp only [quiet j same]
      exact counted.released j
  refine counted.commit accounted released trivial (List.nodup_cons.mpr ⟨free,counted.ids⟩) (fun j new => ?_)
    (fun x here => ?_) fun j => ?_
  · have other := quiet j (by omega)
    exact ⟨other.1.trans (counted.fresh j (by omega)).1,other.2.1.trans (counted.fresh j (by omega)).2.1,
      fun removed => (counted.fresh j (by omega)).2.2 (other.2.2.2.mp removed)⟩
  · rcases List.mem_cons.mp here with rfl | here
    · exact iff_of_false Bool.false_ne_true newRemoved
    · exact (counted.flags x here).trans (quiet x.id (older x here)).2.2.2.symm
  · have holds := counted.holds j
    by_cases same : j = s.next
    · rw [same] at holds ⊢
      have unheld : more held s.next s.next = 1 := by
        rw [more,if_pos rfl]
        omega
      rw [unheld]
      exact newOpens.trans (congrArg (· + 1) newCloses.symm)
    · rw [more,if_neg same]
      exact (quiet j same).1.trans (holds.trans (congrArg (· + held j) (quiet j same).2.1.symm))

/-- The last reference to an inode is given up. -/
theorem Counted.closed (counted : Counted s held) (member : inode ∈ s.openInodes) (last : inode.openCnt = 1) :
    Counted (s.commit (.closed inode.id (if inode.removed then inode.blocks else []))
      (remove Inode.id inode.id s.openInodes)) (fewer held inode.id) := by
  let l := remove Inode.id inode.id s.openInodes
  let op : Op := .closed inode.id (if inode.removed then inode.blocks else [])
  have counts := counted.accounted.counts inode member
  have holds := counted.holds inode.id
  have flag := counted.flags inode member
  have newOpens : opens (⟨op,l⟩ :: s.log) inode.id = opens s.log inode.id := by
    rw [opens_cons]
    simp [op]
  have newCloses : closes (⟨op,l⟩ :: s.log) inode.id = closes s.log inode.id + 1 := by
    rw [closes_cons]
    simp [op,Op.closes]
  have newRemoved : wasRemoved (⟨op,l⟩ :: s.log) inode.id ↔ wasRemoved s.log inode.id := by
    rw [wasRemoved_cons]
    simp [op]
  have quiet j (other : j ≠ inode.id) := other_inode l s.log (Ne.symm other : op.inode ≠ j)
  have accounted : Accounted (⟨op,l⟩ :: s.log) l := by
    refine ⟨counted.accounted.sectors.sublist (List.filter_sublist.map _),fun x here => ?_,fun x here => ?_,fun j gone => ?_⟩
    · obtain ⟨here,other⟩ := mem_remove.mp here
      rw [(quiet x.id other).1,(quiet x.id other).2.1]
      exact counted.accounted.counts x here
    · exact counted.accounted.used x (mem_remove.mp here).1
    · by_cases same : j = inode.id
      · rw [same,newOpens,newCloses]
        omega
      · rw [(quiet j same).1,(quiet j same).2.1]
        refine counted.accounted.others j fun here => gone ?_
        obtain ⟨x,there,rfl⟩ := List.mem_map.mp here
        exact List.mem_map_of_mem (mem_remove.mpr ⟨there,same⟩)
  have released : ReleasedOnce (⟨op,l⟩ :: s.log) := by
    intro j
    by_cases same : j = inode.id
    · rw [same,releases_cons,counted.none_released member]
      simp only [newRemoved,newOpens,newCloses]
      cases removed : inode.removed with
      | true =>
        have both : wasRemoved s.log inode.id ∧ opens s.log inode.id = closes s.log inode.id + 1 := ⟨flag.mp removed,by omega⟩
        have gives : op.releases inode.id = true := by simp [op,Op.releases,removed,Inode.blocks]
        rw [gives,if_pos rfl,if_pos both]
      | false =>
        have kept : ¬ wasRemoved s.log inode.id := by
          rw [← flag,removed]
          exact Bool.false_ne_true
        have none : op.releases inode.id = false := by simp [op,Op.releases,removed]
        rw [none,if_neg Bool.false_ne_true,if_neg fun both => kept both.1]
    · simp only [quiet j same]
      exact counted.released j
  have gives : Gives s.openInodes op := by
    change (if inode.removed then inode.blocks else []) = [] ∨ _
    split
    · exact .inr ⟨inode,member,rfl,rfl⟩
    · exact .inl rfl
  refine counted.commit accounted released gives (counted.ids.sublist (List.filter_sublist.map _)) (fun j new => ?_)
    (fun x here => ?_) fun j => ?_
  · have below := counted.fresh_id member
    have other := quiet j (by omega)
    exact ⟨other.1.trans (counted.fresh j new).1,other.2.1.trans (counted.fresh j new).2.1,
      fun removed => (counted.fresh j new).2.2 (other.2.2.2.mp removed)⟩
  · obtain ⟨here,other⟩ := mem_remove.mp here
    exact (counted.flags x here).trans (quiet x.id other).2.2.2.symm
  · by_cases same : j = inode.id
    · subst same
      have split : opens s.log inode.id = closes s.log inode.id + 1 + fewer held inode.id inode.id := by
        rw [fewer,if_pos rfl]
        omega
      exact newOpens.trans (split.trans (congrArg (· + fewer held inode.id inode.id) newCloses.symm))
    · rw [fewer,if_neg same]
      exact (quiet j same).1.trans ((counted.holds j).trans (congrArg (· + held j) (quiet j same).2.1.symm))

theorem Counted.inodeClose (counted : Counted s held) (referred : 0 < held id) :
    ∃ s', inodeClose (some id) s = .ok ((),s') ∧ Counted s' (fewer held id) ∧ Only s s' := by
  obtain ⟨inode,member,rfl,found⟩ := counted.member referred
  have counts := counted.accounted.counts inode member
  have used := counted.accounted.used inode member
  have holds := counted.holds inode.id
  by_cases last : inode.openCnt - 1 = 0
  · refine ⟨_,?_,counted.closed member (by omega),⟨rfl,rfl,rfl,rfl⟩⟩
    refine (bind_go (findInode_ok found)).trans ?_
    rw [if_pos last]
    rfl
  · have done : InodeRefs.inodeClose (some inode.id) s = .ok ((),s.commit (.closed inode.id [])
        (Keyed.update Inode.id inode.id (fun inode => { inode with openCnt := inode.openCnt - 1 }) s.openInodes)) := by
      refine (bind_go (findInode_ok found)).trans ?_
      rw [if_neg last]
      rfl
    refine ⟨_,done,?_,⟨rfl,rfl,rfl,rfl⟩⟩
    have gives : Gives s.openInodes (.closed inode.id []) := .inl rfl
    refine counted.update (f := fun inode => { inode with openCnt := inode.openCnt - 1 }) member rfl (fun _ => rfl)
      (fun _ => rfl) ?_ (by dsimp only; omega) ?_ gives ?_ ?_ ?_ rfl
    · rw [opens_cons,closes_cons]
      simp only [Op.closes,beq_self_eq_true,reduceCtorEq,or_self,↓reduceIte]
      omega
    · simp [Op.releases]
    · rw [wasRemoved_cons,counted.flags inode member]
      simp
    · rw [opens_cons,closes_cons,fewer,if_pos rfl]
      simp only [Op.closes,beq_self_eq_true,reduceCtorEq,or_self,↓reduceIte]
      omega
    · exact fun j other => if_neg other

end

end OsProj.InodeRefs
