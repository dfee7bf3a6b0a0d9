import Mathlib.Data.List.Nodup
import OsProj.PageDirCalls

/-! Destroying a page directory: which pages are freed, each of them once. -/
namespace OsProj.PageDir

open OsProj.ByteMemory OsProj.Faulting OsProj.Palloc

def freePages : List Nat → M Unit
  | [] => return ()
  | p :: l => do
    pallocFreePage p
    freePages l

def tableFrames (m : Memory) (pt j n : Nat) : List Nat :=
  (List.range' j n).filterMap fun j => frameOf (load m (pt + 4 * j) 4)

def slotPages (m : Memory) (pd i : Nat) : List Nat :=
  match tableAt m pd i with
  | none => []
  | some pt => tableFrames m pt 0 1024 ++ [pt]

/-- The pages that a directory has, in the order in which they are freed. -/
def dirPages (m : Memory) (pd : Nat) : List Nat := (List.range' 0 768).flatMap (slotPages m pd) ++ [pd]

def Outstanding (out : List Group) (p : Nat) : Prop := ∃ user, page user p ∈ out

structure Freeable (kernel : Kernel) (s : State) (out : List Group) (l : List Nat) : Prop where
  sound : Sound kernel s out
  nodup : l.Nodup
  here : ∀ p ∈ l, Outstanding out p

section
variable {kernel : Kernel} {s s' : State} {out : List Group} {pd : Nat}

theorem Freeable.free (freeable : Freeable kernel s out (p :: l)) :
    ∃ s' out', pallocFreePage p s = .ok ((),s') ∧ Freeable kernel s' out' l ∧
      ∀ q, Outstanding out q → q ≠ p → Outstanding out' q ∧ Agree s'.memory s.memory q pgSize := by
  obtain ⟨user,here⟩ := freeable.here p List.mem_cons_self
  obtain ⟨s',freed,sound,kept⟩ := freeable.sound.free here
  obtain ⟨fresh,nodup⟩ := List.nodup_cons.mp freeable.nodup
  have stays (q : Nat) (different : q ≠ p) : Outstanding out q → Outstanding (out.erase (page user p)) q := by
    rintro ⟨user',here'⟩
    refine ⟨user',(List.mem_erase_of_ne ?_).mpr here'⟩
    simp [different]
  refine ⟨s',_,freed,⟨sound,nodup,fun q listed => ?_⟩,fun q outstanding different => ⟨stays q different outstanding,?_⟩⟩
  · refine stays q ?_ (freeable.here q (List.mem_cons_of_mem _ listed))
    rintro rfl
    exact fresh listed
  · obtain ⟨user',here'⟩ := outstanding
    have apart := freeable.sound.apart here here' (by simp [different.symm])
    intro a low high
    apply kept
    unfold Apart at apart
    omega

theorem Freeable.freePages (freeable : Freeable kernel s out (l ++ l')) :
    ∃ s' out', PageDir.freePages l s = .ok ((),s') ∧ Freeable kernel s' out' l' ∧
      ∀ q, Outstanding out q → q ∉ l → Outstanding out' q ∧ Agree s'.memory s.memory q pgSize := by
  induction l generalizing s out with
  | nil => exact ⟨s,out,rfl,freeable,fun q outstanding _ => ⟨outstanding,fun _ _ _ => rfl⟩⟩
  | cons p l ih =>
    obtain ⟨s₁,out₁,freed,freeable₁,kept₁⟩ := freeable.free
    obtain ⟨s',out',rest,freeable',kept⟩ := ih freeable₁
    refine ⟨s',out',(bind_go freed).trans rest,freeable',fun q outstanding other => ?_⟩
    obtain ⟨different,other⟩ := not_or.mp (mt List.mem_cons.mpr other)
    obtain ⟨outstanding₁,agree₁⟩ := kept₁ q outstanding different
    obtain ⟨outstanding',agree⟩ := kept q outstanding₁ other
    exact ⟨outstanding',fun a low high => (agree a low high).trans (agree₁ a low high)⟩

theorem freePages_append (freed : freePages l s = .ok ((),s')) : freePages (l ++ l') s = freePages l' s' := by
  induction l generalizing s with
  | nil =>
    obtain ⟨_,rfl⟩ := Prod.mk.inj (pure_ok.mp freed)
    rfl
  | cons p l ih =>
    obtain ⟨_,s₁,first,rest⟩ := bind_ok.mp freed
    exact (bind_go first).trans (ih rest)

theorem tableFrames_congr (agree : Agree m' m pt pgSize) (bound : j + n ≤ 1024) : tableFrames m' pt j n = tableFrames m pt j n := by
  unfold tableFrames
  apply List.filterMap_congr
  intro j member
  have low : j < 1024 := by
    have range := List.mem_range'_1.mp member
    omega
  rw [load_congr (agree.mono (word_inside low))]

theorem Freeable.inRam (freeable : Freeable kernel s out l) (listed : p ∈ l) : InRam kernel p := by
  obtain ⟨user,here⟩ := freeable.here p listed
  exact freeable.sound.inRam here

theorem destroyTable_eq (freeable : Freeable kernel s out (tableFrames s.memory pt j n ++ rest)) (bound : j + n ≤ 1024)
    (own : Outstanding out pt) (other : pt ∉ tableFrames s.memory pt j n) :
    destroyTable pt n j s = freePages (tableFrames s.memory pt j n) s := by
  induction n generalizing s out j with
  | zero => rfl
  | succ n ih =>
    have split : tableFrames s.memory pt j (n + 1) =
        (frameOf (load s.memory (pt + 4 * j) 4)).toList ++ tableFrames s.memory pt (j + 1) n := by
      rw [tableFrames,List.range'_succ,List.filterMap_cons]
      cases frameOf (load s.memory (pt + 4 * j) 4) <;> rfl
    rw [split] at freeable other ⊢
    refine (bind_go (readWord_ok _)).trans ?_
    by_cases present : load s.memory (pt + 4 * j) 4 &&& pteP ≠ 0
    · obtain ⟨p,mapped⟩ := (present_iff _).mp present
      rw [mapped] at freeable other ⊢
      rw [if_pos present]
      have ram := freeable.inRam (p := p) (by simp)
      refine (bind_go (lift_ok (pteGetPage_ok mapped (load_word_lt _ _) ram.lt))).trans ?_
      obtain ⟨s₁,out₁,freed,freeable₁,kept⟩ := Freeable.free (l := tableFrames s.memory pt (j + 1) n ++ rest) freeable
      have different : pt ≠ p := by
        rintro rfl
        exact other (by simp)
      obtain ⟨own₁,agree⟩ := kept pt own different
      have same := tableFrames_congr agree (show j + 1 + n ≤ 1024 by omega)
      refine (bind_go freed).trans ?_
      rw [← same] at freeable₁
      have next := ih freeable₁ (by omega) own₁ (by rw [same]; exact fun listed => other (List.mem_append_right _ listed))
      have whole : freePages (p :: tableFrames s.memory pt (j + 1) n) s = freePages (tableFrames s.memory pt (j + 1) n) s₁ :=
        bind_go freed
      rw [next,same]
      exact whole.symm
    · have none : frameOf (load s.memory (pt + 4 * j) 4) = none := by
        rw [Option.eq_none_iff_forall_ne_some]
        intro p mapped
        exact present ((present_iff _).mpr ⟨p,mapped⟩)
      rw [none] at freeable other ⊢
      rw [if_neg present]
      exact ih freeable (by omega) own other

def Present (m : Memory) (pd : Nat) : Prop := ∀ i < 768, load m (pd + 4 * i) 4 = 0 ∨ load m (pd + 4 * i) 4 % 2 = 1

theorem pdeGetPt_ok (found : tableOf pde = some pt) (odd : pde % 2 = 1) (small : pde < 4294967296) (low : pt < 4294967296) :
    pdeGetPt pde = .ok pt := by
  rw [tableOf] at found
  split at found
  · exact absurd found.symm (Option.some_ne_none _)
  · have address := Option.some.inj found
    have present : pde &&& pteP ≠ 0 := by
      rw [present_eq,odd]
      decide
    refine (go (assert_ok present)).trans ?_
    rw [addr_eq small,ptov_ok (by simp only [physBase] at *; omega),address]

/-- The pages behind an entry are read from the directory and from the table of the entry. -/
theorem slotPages_congr (agree : Agree m' m pd pgSize) (slot : i < 768)
    (tables : ∀ pt, tableAt m pd i = some pt → Agree m' m pt pgSize) : slotPages m' pd i = slotPages m pd i := by
  unfold slotPages
  rw [tableAt_congr agree (Nat.lt_trans slot (by decide))]
  cases found : tableAt m pd i with
  | none => rfl
  | some pt => exact congrArg (· ++ [pt]) (tableFrames_congr (tables pt found) (Nat.le_refl _))

theorem table_listed (found : tableAt m pd i = some pt) : pt ∈ slotPages m pd i := by
  unfold slotPages
  rw [found]
  simp

theorem destroyTables_eq (freeable : Freeable kernel s out ((List.range' i n).flatMap (slotPages s.memory pd) ++ [pd]))
    (bound : i + n ≤ 768) (present : Present s.memory pd) :
    destroyTables pd n i s = freePages ((List.range' i n).flatMap (slotPages s.memory pd)) s := by
  induction n generalizing s out i with
  | zero => rfl
  | succ n ih =>
    rw [List.range'_succ,List.flatMap_cons] at freeable ⊢
    refine (bind_go (readWord_ok _)).trans ?_
    rcases present i (by omega) with none | odd
    · have absent : slotPages s.memory pd i = [] := by
        unfold slotPages tableAt
        rw [none]
        rfl
      rw [absent] at freeable ⊢
      rw [none,if_neg (by decide)]
      exact ih freeable (by omega) present
    · have entry : load s.memory (pd + 4 * i) 4 &&& pteP ≠ 0 := by
        rw [present_eq,odd]
        decide
      obtain ⟨pt,found⟩ : ∃ pt, tableAt s.memory pd i = some pt := ⟨_,if_neg (by omega)⟩
      have pages : slotPages s.memory pd i = tableFrames s.memory pt 0 1024 ++ [pt] := by
        unfold slotPages
        rw [found]
      have nodup := freeable.nodup
      have listed := freeable.here
      rw [pages,List.append_assoc,List.append_assoc] at freeable
      have ram := freeable.inRam (p := pt) (by simp)
      have other : pt ∉ tableFrames s.memory pt 0 1024 := by
        have apart := (List.nodup_append.mp freeable.nodup).2.2
        intro listed
        exact apart pt listed pt (by simp) rfl
      have table := destroyTable_eq freeable (Nat.le_refl _) (freeable.here pt (by simp)) other
      obtain ⟨s₁,out₁,freed₁,freeable₁,kept₁⟩ := freeable.freePages
      obtain ⟨s₂,out₂,freed₂,freeable₂,kept₂⟩ := freeable₁.free
      rw [if_pos entry]
      refine (bind_go (lift_ok (pdeGetPt_ok found odd (load_word_lt _ _) ram.lt))).trans ?_
      refine (bind_go (table.trans freed₁)).trans ((bind_go freed₂).trans ?_)
      -- what is left of the directory has kept its bytes
      have kept (q : Nat) (outstanding : Outstanding out q) (outside : q ∉ slotPages s.memory pd i) :
          Agree s₂.memory s.memory q pgSize := by
        rw [pages,List.mem_append,List.mem_singleton,not_or] at outside
        obtain ⟨outstanding₁,agree₁⟩ := kept₁ q outstanding outside.1
        obtain ⟨_,agree₂⟩ := kept₂ q outstanding₁ outside.2
        exact fun a low high => (agree₂ a low high).trans (agree₁ a low high)
      have later (q : Nat) (member : q ∈ (List.range' (i + 1) n).flatMap (slotPages s.memory pd) ++ [pd]) :
          Agree s₂.memory s.memory q pgSize := by
        rw [List.append_assoc] at nodup listed
        refine kept q (listed q (List.mem_append_right _ member)) fun before => ?_
        exact (List.nodup_append.mp nodup).2.2 q before q member rfl
      have directory := later pd (by simp)
      have same : (List.range' (i + 1) n).flatMap (slotPages s₂.memory pd) =
          (List.range' (i + 1) n).flatMap (slotPages s.memory pd) := by
        refine List.flatMap_congr fun i' member => ?_
        have range := List.mem_range'_1.mp member
        refine slotPages_congr directory (by omega) fun pt' found' => later pt' (List.mem_append_left _ ?_)
        exact List.mem_flatMap.mpr ⟨i',member,table_listed found'⟩
      have present₂ : Present s₂.memory pd := by
        intro i' slot
        rw [load_congr (directory.mono (word_inside (Nat.lt_trans slot (by decide))))]
        exact present i' slot
      have first : freePages (slotPages s.memory pd i) s = .ok ((),s₂) := by
        rw [pages,freePages_append freed₁]
        exact bind_go freed₂
      rw [freePages_append first,← same]
      exact ih (by rw [same]; exact freeable₂) (by omega) present₂

/-- All pages of the directory are outstanding, and no two uses of it share one. -/
structure Owned (kernel : Kernel) (s : State) (out : List Group) (pd : Nat) : Prop where
  outstanding : ∀ v < userPages, ∀ p, pageAt s.memory pd v = some p → Outstanding out p
  distinct : ∀ v < userPages, ∀ w < userPages, ∀ p, pageAt s.memory pd v = some p → pageAt s.memory pd w = some p → v = w
  data : ∀ v < userPages, ∀ p, pageAt s.memory pd v = some p → p ≠ pd ∧ ∀ i < 768, tableAt s.memory pd i ≠ some p

theorem slot_page (found : tableAt m pd i = some pt) (index : j < 1024) :
    pageAt m pd (1024 * i + j) = frameOf (load m (pt + 4 * j) 4) := by
  have slot : (1024 * i + j) / 1024 = i := by omega
  have inside : (1024 * i + j) % 1024 = j := by omega
  rw [pageAt,slot,inside,found,Option.bind_some]

theorem slot_user (slot : i < 768) (index : j < 1024) : 1024 * i + j < userPages := by
  have count : userPages = 786432 := by decide
  omega

theorem mem_slotPages {m : Memory} : p ∈ slotPages m pd i ↔
    (∃ j < 1024, pageAt m pd (1024 * i + j) = some p) ∨ tableAt m pd i = some p := by
  unfold slotPages
  cases found : tableAt m pd i with
  | none =>
    simp only [List.not_mem_nil,reduceCtorEq,or_false,false_iff,not_exists,not_and]
    intro j index
    have slot : (1024 * i + j) / 1024 = i := by omega
    rw [pageAt,slot,found,Option.bind_none]
    exact (Option.some_ne_none _).symm
  | some pt =>
    simp only [tableFrames,List.mem_append,List.mem_filterMap,List.mem_range'_1,List.mem_singleton,Option.some.injEq]
    refine or_congr ⟨?_,?_⟩ eq_comm
    · rintro ⟨j,range,mapped⟩
      exact ⟨j,by omega,(slot_page found (by omega)).trans mapped⟩
    · rintro ⟨j,index,mapped⟩
      exact ⟨j,by omega,(slot_page found index).symm.trans mapped⟩

/-- The frames, the tables and the directory. -/
theorem mem_dirPages {m : Memory} : p ∈ dirPages m pd ↔
    (∃ v < userPages, pageAt m pd v = some p) ∨ (∃ i < 768, tableAt m pd i = some p) ∨ p = pd := by
  simp only [dirPages,List.mem_append,List.mem_flatMap,List.mem_range'_1,List.mem_singleton,mem_slotPages]
  constructor
  · rintro (⟨i,range,⟨j,index,mapped⟩ | table⟩ | rfl)
    · exact .inl ⟨_,slot_user (by omega) index,mapped⟩
    · exact .inr (.inl ⟨i,by omega,table⟩)
    · exact .inr (.inr rfl)
  · rintro (⟨v,user,mapped⟩ | ⟨i,slot,table⟩ | rfl)
    · have slot := page_slot user
      refine .inl ⟨v / 1024,by omega,.inl ⟨v % 1024,by omega,?_⟩⟩
      rw [← page_number]
      exact mapped
    · exact .inl ⟨i,by omega,.inr table⟩
    · exact .inr rfl

theorem slotPages_nodup (owned : Owned kernel s out pd) (slot : i < 768) : (slotPages s.memory pd i).Nodup := by
  unfold slotPages
  cases found : tableAt s.memory pd i with
  | none => exact List.nodup_nil
  | some pt =>
    refine List.nodup_append.mpr ⟨?_,List.nodup_singleton _,?_⟩
    · refine List.pairwise_filterMap.mpr (List.Pairwise.imp_of_mem ?_ (List.nodup_range' (s := 0) (n := 1024)))
      intro j j' member member' different p mapped p' mapped' same
      have range := List.mem_range'_1.mp member
      have range' := List.mem_range'_1.mp member'
      subst same
      have clash := owned.distinct _ (slot_user slot (show j < 1024 by omega)) _ (slot_user slot (show j' < 1024 by omega)) p
        ((slot_page found (by omega)).trans mapped) ((slot_page found (by omega)).trans mapped')
      omega
    · intro p listed q single same
      obtain ⟨j,member,mapped⟩ := List.mem_filterMap.mp listed
      have range := List.mem_range'_1.mp member
      rw [List.mem_singleton.mp single] at same
      have data := owned.data _ (slot_user slot (show j < 1024 by omega)) p ((slot_page found (by omega)).trans mapped)
      exact data.2 i slot (same ▸ found)

theorem slotPages_disjoint (directory : Directory kernel s out pd) (owned : Owned kernel s out pd) (slot : i < 768)
    (slot' : i' < 768) (different : i ≠ i') : (slotPages s.memory pd i).Disjoint (slotPages s.memory pd i') := by
  intro p listed listed'
  rcases mem_slotPages.mp listed with ⟨j,index,mapped⟩ | table <;> rcases mem_slotPages.mp listed' with ⟨j',index',mapped'⟩ | table'
  · have same := owned.distinct _ (slot_user slot index) _ (slot_user slot' index') p mapped mapped'
    omega
  · exact (owned.data _ (slot_user slot index) p mapped).2 i' slot' table'
  · exact (owned.data _ (slot_user slot' index') p mapped').2 i slot table
  · exact different (directory.distinct i slot i' slot' p table table')

theorem dirPages_freeable (directory : Directory kernel s out pd) (sound : Sound kernel s out) (owned : Owned kernel s out pd) :
    Freeable kernel s out (dirPages s.memory pd) := by
  refine ⟨sound,List.nodup_append.mpr ⟨List.nodup_flatMap.mpr ⟨?_,?_⟩,List.nodup_singleton _,?_⟩,?_⟩
  · intro i member
    have range := List.mem_range'_1.mp member
    exact slotPages_nodup owned (by omega)
  · refine List.Pairwise.imp_of_mem ?_ (List.nodup_range' (s := 0) (n := 768))
    intro i i' member member' different
    have range := List.mem_range'_1.mp member
    have range' := List.mem_range'_1.mp member'
    exact slotPages_disjoint directory owned (by omega) (by omega) different
  · intro p listed q single
    rw [List.mem_singleton.mp single]
    obtain ⟨i,member,listed⟩ := List.mem_flatMap.mp listed
    have range := List.mem_range'_1.mp member
    rcases mem_slotPages.mp listed with ⟨j,index,mapped⟩ | table
    · exact (owned.data _ (slot_user (by omega) index) p mapped).1
    · exact (directory.table_some sound (by omega) table).2.2
  · intro p listed
    rcases mem_dirPages.mp listed with ⟨v,user,mapped⟩ | ⟨i,slot,table⟩ | rfl
    · exact owned.outstanding v user p mapped
    · exact ⟨false,(directory.table_some sound slot table).2.1⟩
    · exact ⟨false,directory.own⟩

theorem Directory.present (directory : Directory kernel s out pd) (sound : Sound kernel s out) : Present s.memory pd := by
  intro i slot
  refine (directory.entries i slot).imp_right ?_
  rintro ⟨pt,entry,here,_⟩
  have aligned := ((sound.inRam here).entry (show 7 < pgSize by decide)).2.2.2.1
  rw [entry]
  simp only [pgSize] at aligned
  omega

/-- The directory is given back page by page. -/
theorem pagedirDestroy_ok (directory : Directory kernel s out pd) (sound : Sound kernel s out) (owned : Owned kernel s out pd) :
    ∃ s', pagedirDestroy kernel pd s = .ok ((),s') ∧ freePages (dirPages s.memory pd) s = .ok ((),s') ∧
      (dirPages s.memory pd).Nodup := by
  have freeable := dirPages_freeable directory sound owned
  have loop := destroyTables_eq freeable (Nat.le_refl _) (directory.present sound)
  obtain ⟨s₁,out₁,freed,freeable₁,_⟩ := freeable.freePages
  obtain ⟨s',_,last,_⟩ := freeable₁.free
  refine ⟨s',?_,?_,freeable.nodup⟩
  · have slots : pdNo physBase = 768 := by decide
    rw [pagedirDestroy,if_neg (directory.nonzero sound),slots]
    exact (bind_go (lift_ok (assert_ok directory.other))).trans ((bind_go (loop.trans freed)).trans last)
  · rw [dirPages,freePages_append freed]
    exact bind_go last

end

end OsProj.PageDir
