import OsProj.PageDirMap

/-! What the calls on a page directory do to its map, and what they leave alone. -/
namespace OsProj.PageDir

open OsProj.ByteMemory OsProj.Faulting OsProj.Palloc

/-- The directory in a later state: one page may be mapped otherwise, everything else is kept. -/
structure Updated (kernel : Kernel) (pd : Nat) (s : State) (out : List Group) (s' : State) (out' : List Group)
    (map : Nat → Option Nat) : Prop where
  sound : Sound kernel s' out'
  directory : Directory kernel s' out' pd
  pages : ∀ w < userPages, pageAt s'.memory pd w = map w
  outstanding : ∀ g ∈ out, g ∈ out'
  users : ∀ p, page true p ∈ out' → page true p ∈ out
  kernelEntries : ∀ i, 768 ≤ i → i < 1024 → load s'.memory (pd + 4 * i) 4 = load s.memory (pd + 4 * i) 4
  frames : ∀ p, page true p ∈ out → Agree s'.memory s.memory p pgSize

section
variable {kernel : Kernel} {s s' : State} {out : List Group} {pd : Nat}

theorem word_inside (slot : i < 1024) : a ≤ a + 4 * i ∧ a + 4 * i + 4 ≤ a + pgSize := by
  simp only [pgSize]
  omega

theorem page_slot (user : w < userPages) : w / 1024 < 768 := by
  have count : userPages = 786432 := by decide
  omega

/-- The tables of the directory are read from its own page. -/
theorem tableAt_congr (agree : Agree m m' pd pgSize) (slot : i < 1024) : tableAt m pd i = tableAt m' pd i := by
  rw [tableAt,tableAt,load_congr (agree.mono (word_inside slot))]

theorem Directory.congr (directory : Directory kernel s out pd) (agree : Agree s'.memory s.memory pd pgSize)
    (kept : ∀ g ∈ out, g.user = false → g ∈ out')
    (framed : ∀ v < userPages, ∀ p, pageAt s'.memory pd v = some p → InRam kernel p) : Directory kernel s' out' pd where
  own := kept _ directory.own rfl
  other := directory.other
  entries i slot := by
    rw [load_congr (agree.mono (word_inside (show i < 1024 by omega)))]
    exact (directory.entries i slot).imp_right fun ⟨pt,entry,here,other⟩ => ⟨pt,entry,kept _ here rfl,other⟩
  distinct i slot j slot' pt := by
    rw [tableAt_congr agree (by omega),tableAt_congr agree (by omega)]
    exact directory.distinct i slot j slot' pt
  framed := framed

/-- The map is read from the directory and its tables. -/
theorem pageAt_congr (own : Agree m' m pd pgSize) (tables : ∀ i < 768, ∀ pt, tableAt m pd i = some pt → Agree m' m pt pgSize)
    (user : v < userPages) : pageAt m' pd v = pageAt m pd v := by
  have slot := page_slot user
  rw [pageAt,pageAt,tableAt_congr own (Nat.lt_trans slot (by decide))]
  cases found : tableAt m pd (v / 1024) with
  | none => rw [Option.bind_none,Option.bind_none]
  | some pt =>
    have inside := word_inside (a := pt) (Nat.mod_lt v (show 1024 > 0 by decide))
    rw [Option.bind_some,Option.bind_some,load_congr ((tables _ slot pt found).mono inside)]

/-- Writing an entry of a table leaves the directory alone. -/
theorem Directory.store_apart (directory : Directory kernel s out pd) (sound : Sound kernel s out) (slot : i < 768)
    (index : j < 1024) (found : tableAt s.memory pd i = some pt) (entry : Nat) :
    Agree (store s.memory (pt + 4 * j) 4 entry) s.memory pd pgSize := by
  obtain ⟨_,here,other⟩ := directory.table_some sound slot found
  have apart : Apart (pt + 4 * j) 4 pd pgSize :=
    (sound.apart here directory.own (by simpa using other)).mono (word_inside index) ⟨Nat.le_refl _,Nat.le_refl _⟩
  exact store_agree apart _ _

/-- The other entries of the table are kept. -/
theorem load_other_entry (m : Memory) (pt entry : Nat) (different : j' ≠ j) :
    load (store m (pt + 4 * j) 4 entry) (pt + 4 * j') 4 = load m (pt + 4 * j') 4 := by
  apply load_store_apart
  unfold Apart
  omega

theorem load_entry (m : Memory) (a : Nat) (small : entry < 4294967296) : load (store m a 4 entry) a 4 = entry := by
  rw [load_store_same]
  exact Nat.mod_eq_of_lt small

theorem page_split (index : j < 1024) : w = 1024 * i + j ↔ w / 1024 = i ∧ w % 1024 = j := by omega

theorem Directory.pageAt_store (directory : Directory kernel s out pd) (sound : Sound kernel s out) (slot : i < 768)
    (index : j < 1024) (found : tableAt s.memory pd i = some pt) (small : entry < 4294967296) (user : w < userPages) :
    pageAt (store s.memory (pt + 4 * j) 4 entry) pd w =
      if w = 1024 * i + j then frameOf entry else pageAt s.memory pd w := by
  have agree := directory.store_apart sound slot index found entry
  have slot' := page_slot user
  have here := (directory.table_some sound slot found).2.1
  unfold pageAt
  rw [tableAt_congr agree (Nat.lt_trans slot' (by decide))]
  simp only [page_split index]
  by_cases sameSlot : w / 1024 = i
  · rw [sameSlot,found,Option.bind_some,Option.bind_some]
    by_cases same : w % 1024 = j
    · rw [if_pos ⟨rfl,same⟩,same,load_entry _ _ small]
    · rw [if_neg (fun both => same both.2),load_other_entry _ _ _ same]
  · rw [if_neg (fun both => sameSlot both.1)]
    cases found' : tableAt s.memory pd (w / 1024) with
    | none => rw [Option.bind_none,Option.bind_none]
    | some pt' =>
      have different : pt ≠ pt' := by
        rintro rfl
        exact sameSlot (directory.distinct _ slot' _ slot _ found' found)
      have here' := (directory.table_some sound slot' found').2.1
      have apart := (sound.apart here here' (by simpa using different)).mono (word_inside index)
        (word_inside (Nat.mod_lt w (show 1024 > 0 by decide)))
      rw [Option.bind_some,Option.bind_some,load_store_apart apart]

/-- An entry of a table is written. -/
theorem Directory.write_entry (directory : Directory kernel s out pd) (sound : Sound kernel s out) (slot : i < 768)
    (index : j < 1024) (found : tableAt s.memory pd i = some pt) (small : entry < 4294967296)
    (ram : ∀ p, frameOf entry = some p → InRam kernel p) :
    Updated kernel pd s out { s with memory := store s.memory (pt + 4 * j) 4 entry } out
      fun w => if w = 1024 * i + j then frameOf entry else pageAt s.memory pd w := by
  have agree := directory.store_apart sound slot index found entry
  have here := (directory.table_some sound slot found).2.1
  have pages (w : Nat) (user : w < userPages) := directory.pageAt_store sound slot index found small user
  refine ⟨sound.write _,directory.congr agree (fun _ here _ => here) ?_,pages,fun _ here => here,fun _ here => here,?_,?_⟩
  · intro w user p
    dsimp only
    rw [pages w user]
    split
    · exact ram p
    · exact directory.framed w user p
  · intro i' _ low
    exact load_congr (agree.mono (word_inside low))
  · intro p frame
    exact store_agree ((sound.apart here frame (by simp)).mono (word_inside index) ⟨Nat.le_refl _,Nat.le_refl _⟩) _ _

/-! A new table. -/

theorem load_zero (zero : ∀ b, a ≤ b → b < a + n → m b = 0) : load m a n = 0 := by
  induction n generalizing a with
  | zero => rfl
  | succ n ih =>
    have first : m a = 0 := zero a (Nat.le_refl _) (by omega)
    have rest : load m (a + 1) n = 0 := ih fun b low high => zero b (by omega) (by omega)
    rw [load,first,rest]
    rfl

/-- The pages that were outstanding keep their bytes when a page is handed out. -/
theorem fresh_agree (sound' : Sound kernel s' (page user p :: out)) (here : page user' q ∈ out)
    (kept : ∀ a, a < p ∨ p + pgSize ≤ a → s'.memory a = s.memory a) : Agree s'.memory s.memory q pgSize := by
  have different : page user p ≠ page user' q := by
    intro same
    have fresh := (List.nodup_cons.mp sound'.nodup).1
    rw [same] at fresh
    exact fresh here
  have apart := sound'.apart List.mem_cons_self (List.mem_cons_of_mem _ here) different
  intro a low high
  apply kept
  unfold Apart at apart
  omega

structure NewTable (kernel : Kernel) (s : State) (out : List Group) (s' : State) (pt : Nat) : Prop where
  sound : Sound kernel s' (page false pt :: out)
  kept : ∀ a, a < pt ∨ pt + pgSize ≤ a → s'.memory a = s.memory a
  zeroed : ∀ a, pt ≤ a → a < pt + pgSize → s'.memory a = 0

/-- The entries of the directory after a table has been put into one of them. -/
theorem Directory.created_entry (directory : Directory kernel s out pd) (new : NewTable kernel s out s' pt) (low : j < 1024) :
    load (store s'.memory (pd + 4 * i) 4 (pt - physBase + 7)) (pd + 4 * j) 4 =
      if j = i then pt - physBase + 7 else load s.memory (pd + 4 * j) 4 := by
  split
  · rename_i same
    rw [same]
    exact load_entry _ _ ((new.sound.inRam List.mem_cons_self).entry (by decide)).1
  · rename_i different
    rw [load_other_entry _ _ _ different]
    exact load_congr ((fresh_agree new.sound directory.own new.kept).mono (word_inside low))

theorem Directory.created_table (directory : Directory kernel s out pd) (new : NewTable kernel s out s' pt) (low : j < 1024) :
    tableAt (store s'.memory (pd + 4 * i) 4 (pt - physBase + 7)) pd j =
      if j = i then some pt else tableAt s.memory pd j := by
  rw [tableAt,directory.created_entry new low]
  split
  · exact (new.sound.inRam List.mem_cons_self).tableOf
  · rfl

/-- Other pages keep their bytes. -/
theorem Directory.created_agree (directory : Directory kernel s out pd) (new : NewTable kernel s out s' pt) (slot : i < 768)
    (here : page user q ∈ page false pt :: out) (different : page user q ≠ page false pd) :
    Agree (store s'.memory (pd + 4 * i) 4 (pt - physBase + 7)) s'.memory q pgSize := by
  have apart := new.sound.apart (List.mem_cons_of_mem _ directory.own) here different.symm
  exact store_agree (apart.mono (word_inside (Nat.lt_trans slot (by decide))) ⟨Nat.le_refl _,Nat.le_refl _⟩) _ _

theorem Directory.created_page (directory : Directory kernel s out pd) (sound : Sound kernel s out)
    (new : NewTable kernel s out s' pt) (slot : i < 768) (absent : tableAt s.memory pd i = none) (user : w < userPages) :
    pageAt (store s'.memory (pd + 4 * i) 4 (pt - physBase + 7)) pd w = pageAt s.memory pd w := by
  have slot' := page_slot user
  have index := word_inside (a := pt) (Nat.mod_lt w (show 1024 > 0 by decide))
  have fresh := (List.nodup_cons.mp new.sound.nodup).1
  have other : pt ≠ pd := by
    rintro rfl
    exact fresh directory.own
  unfold pageAt
  rw [directory.created_table new (Nat.lt_trans slot' (by decide))]
  split
  · rename_i same
    -- all entries of the new table are zero
    have agree := directory.created_agree new slot List.mem_cons_self (by simpa using other)
    have zero : load s'.memory (pt + 4 * (w % 1024)) 4 = 0 :=
      load_zero fun b low high => new.zeroed b (by omega) (by omega)
    rw [same,absent,Option.bind_some,Option.bind_none,load_congr (agree.mono index),zero]
    rfl
  · cases found : tableAt s.memory pd (w / 1024) with
    | none => rw [Option.bind_none,Option.bind_none]
    | some pt' =>
      obtain ⟨_,here,different⟩ := directory.table_some sound slot' found
      have agree := directory.created_agree new slot (List.mem_cons_of_mem _ here) (by simpa using different)
      have inside := word_inside (a := pt') (Nat.mod_lt w (show 1024 > 0 by decide))
      rw [Option.bind_some,Option.bind_some,load_congr (agree.mono inside),
        load_congr ((fresh_agree new.sound here new.kept).mono inside)]

theorem Directory.create_table (directory : Directory kernel s out pd) (sound : Sound kernel s out)
    (new : NewTable kernel s out s' pt) (slot : i < 768) (absent : tableAt s.memory pd i = none) :
    Updated kernel pd s out { s' with memory := store s'.memory (pd + 4 * i) 4 (pt - physBase + 7) }
      (page false pt :: out) (pageAt s.memory pd) := by
  have fresh := (List.nodup_cons.mp new.sound.nodup).1
  have other : pt ≠ pd := by
    rintro rfl
    exact fresh directory.own
  have old (j : Nat) (low : j < 768) : tableAt s.memory pd j ≠ some pt := by
    intro found
    exact fresh (directory.table_some sound low found).2.1
  refine ⟨new.sound.write _,⟨List.mem_cons_of_mem _ directory.own,directory.other,?_,?_,?_⟩,?_,
    fun g here => List.mem_cons_of_mem _ here,fun p here => by simpa using here,?_,?_⟩
  · intro j low
    dsimp only
    rw [directory.created_entry new (Nat.lt_trans low (by decide))]
    split
    · exact .inr ⟨pt,rfl,List.mem_cons_self,other⟩
    · refine (directory.entries j low).imp_right ?_
      rintro ⟨pt',entry,here,other'⟩
      exact ⟨pt',entry,List.mem_cons_of_mem _ here,other'⟩
  · intro j low j' low' q found found'
    dsimp only at found found'
    rw [directory.created_table new (Nat.lt_trans low (by decide))] at found
    rw [directory.created_table new (Nat.lt_trans low' (by decide))] at found'
    split at found <;> split at found'
    · omega
    · exact absurd (found'.trans found.symm) (old j' low')
    · exact absurd (found.trans found'.symm) (old j low)
    · exact directory.distinct j low j' low' q found found'
  · intro w user p
    dsimp only
    rw [directory.created_page sound new slot absent user]
    exact directory.framed w user p
  · intro w user
    exact directory.created_page sound new slot absent user
  · intro j high low
    dsimp only
    rw [directory.created_entry new low,if_neg (by omega)]
  · intro p frame a low high
    have stored := directory.created_agree new slot (List.mem_cons_of_mem _ frame) (by simp)
    exact (stored a low high).trans (fresh_agree new.sound frame new.kept a low high)

/-! The calls. -/

theorem Updated.trans {s'' : State} (first : Updated kernel pd s out s' out' map) (second : Updated kernel pd s' out' s'' out'' map') :
    Updated kernel pd s out s'' out'' map' where
  sound := second.sound
  directory := second.directory
  pages := second.pages
  outstanding g here := second.outstanding g (first.outstanding g here)
  users p here := first.users p (second.users p here)
  kernelEntries i high low := (second.kernelEntries i high low).trans (first.kernelEntries i high low)
  frames p here a low high :=
    (second.frames p (first.outstanding _ here) a low high).trans (first.frames p here a low high)

theorem Updated.refl (directory : Directory kernel s out pd) (sound : Sound kernel s out) :
    Updated kernel pd s out s out (pageAt s.memory pd) :=
  ⟨sound,directory,fun _ _ => rfl,fun _ here => here,fun _ here => here,fun _ _ _ => rfl,fun _ _ _ _ _ => rfl⟩

theorem Directory.nonzero (directory : Directory kernel s out pd) (sound : Sound kernel s out) : pd ≠ 0 := by
  have high := (sound.inRam directory.own).high
  simp only [physBase] at high
  omega

theorem readWord_ok (a : Nat) : readWord a s = .ok (load s.memory a 4,s) := rfl

theorem lookupPage_found (directory : Directory kernel s out pd) (sound : Sound kernel s out) (user : va < physBase)
    (found : tableAt s.memory pd (va / pgSize / 1024) = some pt) (create : Bool) :
    lookupPage pd va create s = .ok (pt + 4 * (va / pgSize % 1024),s) := by
  obtain ⟨entry,here,_⟩ := directory.table_some sound (user_slot user).1 found
  have allowed : (!create || isUserVaddr va) = true := by simp [isUserVaddr,user]
  refine (bind_go (lift_ok (assert_ok (directory.nonzero sound)))).trans ?_
  refine (bind_go (lift_ok (if_pos allowed))).trans ?_
  rw [pdNo_eq]
  refine (bind_go (readWord_ok _)).trans ?_
  rw [entry,if_neg (by omega)]
  refine (bind_go (readWord_ok _)).trans ?_
  rw [entry]
  refine (bind_go (lift_ok (sound.inRam here).pdeGetPt)).trans ?_
  rw [ptNo_eq]
  rfl

theorem lookupPage_missing (directory : Directory kernel s out pd) (sound : Sound kernel s out) (user : va < physBase)
    (absent : tableAt s.memory pd (va / pgSize / 1024) = none) : lookupPage pd va false s = .ok (0,s) := by
  have zero := directory.table_none sound (user_slot user).1 absent
  refine (bind_go (lift_ok (assert_ok (directory.nonzero sound)))).trans ?_
  refine (bind_go (lift_ok rfl)).trans ?_
  rw [pdNo_eq]
  refine (bind_go (readWord_ok _)).trans ?_
  rw [zero,if_pos rfl]
  rfl

/-- The table of the page is missing and the kernel's pool has no page for it. -/
def Refused (s : State) (pd upage : Nat) : Prop :=
  tableAt s.memory pd (upage / pgSize / 1024) = none ∧ ∀ q, ¬Available s false q

theorem lookupPage_created (directory : Directory kernel s out pd) (sound : Sound kernel s out) (user : va < physBase)
    (absent : tableAt s.memory pd (va / pgSize / 1024) = none) :
    lookupPage pd va true s = .ok (0,s) ∧ Refused s pd va ∨
    ∃ pt s', lookupPage pd va true s = .ok (pt + 4 * (va / pgSize % 1024),s') ∧ ¬Refused s pd va ∧
      Updated kernel pd s out s' (page false pt :: out) (pageAt s.memory pd) ∧
      tableAt s'.memory pd (va / pgSize / 1024) = some pt := by
  have slot := (user_slot user).1
  have zero := directory.table_none sound slot absent
  have reached (result : Except Panic (Nat × State)) (rest : (do
      let pt ← pallocGetPage ⟨false,true,false⟩
      if pt = 0 then return 0
      else
        writeWord (pd + 4 * (va / pgSize / 1024)) (← pdeCreate pt)
        let pt ← pdeGetPt (← readWord (pd + 4 * (va / pgSize / 1024)))
        return pt + 4 * ptNo va : M Nat) s = result) : lookupPage pd va true s = result := by
    refine (bind_go (lift_ok (assert_ok (directory.nonzero sound)))).trans ?_
    refine (bind_go (lift_ok (if_pos (decide_eq_true user)))).trans ?_
    rw [pdNo_eq]
    refine (bind_go (readWord_ok _)).trans ?_
    rw [zero,if_pos rfl]
    exact rest
  rcases sound.get true false with none | ⟨pt,s₁,got,some,sound₁,kept,zeroed⟩
  · exact .inl ⟨reached _ (bind_go none),absent,(sound.available none).1 rfl⟩
  have new : NewTable kernel s out s₁ pt := ⟨sound₁,kept,zeroed rfl⟩
  have ram := sound₁.inRam List.mem_cons_self
  have room : ¬Refused s pd va := fun refused => refused.2 pt ((sound.available got).2 some)
  refine .inr ⟨pt,_,reached _ ?_,room,directory.create_table sound new slot absent,?_⟩
  · refine (bind_go got).trans ?_
    rw [if_neg some]
    refine (bind_go (lift_ok ram.pdeCreate)).trans ((bind_go rfl).trans ?_)
    refine (bind_go (readWord_ok _)).trans ?_
    dsimp only
    rw [load_entry _ _ (ram.entry (by decide)).1]
    refine (bind_go (lift_ok ram.pdeGetPt)).trans ?_
    rw [ptNo_eq]
    rfl
  · dsimp only
    rw [directory.created_table new (Nat.lt_trans slot (by decide)),if_pos rfl]

/-- The entry of a page lies behind the first megabyte of memory. -/
theorem Directory.entry_nonzero (directory : Directory kernel s out pd) (sound : Sound kernel s out) (slot : i < 768)
    (found : tableAt s.memory pd i = some pt) : pt + 4 * j ≠ 0 := by
  have high := (sound.inRam (directory.table_some sound slot found).2.1).high
  simp only [physBase] at high
  omega

theorem InRam.lt (ram : InRam kernel p) : p < 4294967296 := by
  have low := ram.low
  have capped := kernel.capped
  simp only [physBase,pgSize] at *
  omega

theorem present_iff (entry : Nat) : entry &&& pteP ≠ 0 ↔ ∃ p, frameOf entry = some p := by
  rw [present_eq,frameOf]
  split
  · rename_i odd
    simp [odd]
  · rename_i even
    simp only [reduceCtorEq,exists_false,iff_false]
    omega

theorem pagedirGetPage_ok (directory : Directory kernel s out pd) (sound : Sound kernel s out) (user : va < physBase) :
    pagedirGetPage pd va s = .ok ((pageAt s.memory pd (va / pgSize)).elim 0 (· + pgOfs va),s) := by
  obtain ⟨slot,index,number⟩ := user_slot user
  refine (bind_go (lift_ok (if_pos (decide_eq_true user)))).trans ?_
  cases found : tableAt s.memory pd (va / pgSize / 1024) with
  | none =>
    refine (bind_go (lookupPage_missing directory sound user found)).trans ?_
    rw [pageAt,found,Option.bind_none]
    rfl
  | some pt =>
    have frame : pageAt s.memory pd (va / pgSize) = frameOf (load s.memory (pt + 4 * (va / pgSize % 1024)) 4) := by
      rw [pageAt,found,Option.bind_some]
    refine (bind_go (lookupPage_found directory sound user found false)).trans ?_
    rw [if_pos (directory.entry_nonzero sound slot found)]
    refine (bind_go (readWord_ok _)).trans ?_
    rw [frame]
    split
    · rename_i present
      obtain ⟨p,mapped⟩ := (present_iff _).mp present
      have ram := directory.framed _ number p (frame.trans mapped)
      refine (bind_go (lift_ok (pteGetPage_ok mapped (load_word_lt _ _) ram.lt))).trans ?_
      rw [mapped]
      rfl
    · rename_i missing
      have none : frameOf (load s.memory (pt + 4 * (va / pgSize % 1024)) 4) = none := by
        rw [Option.eq_none_iff_forall_ne_some]
        intro p mapped
        exact missing ((present_iff _).mpr ⟨p,mapped⟩)
      rw [none]
      rfl

theorem Updated.congr (updated : Updated kernel pd s out s' out' map) (same : ∀ w < userPages, map w = map' w) :
    Updated kernel pd s out s' out' map' :=
  { updated with pages := fun w user => (updated.pages w user).trans (same w user) }

theorem page_number (v : Nat) : v = 1024 * (v / 1024) + v % 1024 := by omega

/-- The entry of a page in a table that is there is overwritten. -/
theorem setEntry_ok (directory : Directory kernel s out pd) (sound : Sound kernel s out) (user : upage < physBase)
    (ram : InRam kernel kpage) (unmapped : pageAt s.memory pd (upage / pgSize) = none) (writable : Bool)
    (found : tableAt s.memory pd (upage / pgSize / 1024) = some pt) :
    ∃ s', (do
      let old ← readWord (pt + 4 * (upage / pgSize % 1024))
      assert (old &&& pteP = 0)
      writeWord (pt + 4 * (upage / pgSize % 1024)) (← pteCreateUser kpage writable)
      return true : M Bool) s = .ok (true,s') ∧
      Updated kernel pd s out s' out fun w => if w = upage / pgSize then some kpage else pageAt s.memory pd w := by
  obtain ⟨slot,index,number⟩ := user_slot user
  obtain ⟨small,frame⟩ := ram.frameOf writable
  have absent : load s.memory (pt + 4 * (upage / pgSize % 1024)) 4 &&& pteP = 0 := by
    by_contra present
    obtain ⟨p,mapped⟩ := (present_iff _).mp present
    rw [pageAt,found,Option.bind_some,mapped] at unmapped
    exact Option.some_ne_none _ unmapped
  have written := directory.write_entry sound slot index found small fun p mapped => by
    rw [frame] at mapped
    rwa [← Option.some.inj mapped]
  refine ⟨_,?_,written.congr fun w _ => ?_⟩
  · refine (bind_go (readWord_ok _)).trans ((bind_go (lift_ok (assert_ok absent))).trans ?_)
    exact bind_go (lift_ok (ram.pteCreateUser writable))
  · rw [← page_number,frame]

theorem pagedirSetPage_ok (directory : Directory kernel s out pd) (sound : Sound kernel s out) (aligned : pgOfs upage = 0)
    (user : upage < physBase) (ram : InRam kernel kpage) (unmapped : pageAt s.memory pd (upage / pgSize) = none) (writable : Bool) :
    pagedirSetPage kernel pd upage kpage writable s = .ok (false,s) ∧ Refused s pd upage ∨
    ∃ s' out', pagedirSetPage kernel pd upage kpage writable s = .ok (true,s') ∧ ¬Refused s pd upage ∧
      Updated kernel pd s out s' out' fun w => if w = upage / pgSize then some kpage else pageAt s.memory pd w := by
  obtain ⟨slot,_,number⟩ := user_slot user
  have inside : (kpage - physBase) >>> 12 < kernel.ramPages := by
    rw [Nat.shiftRight_eq_div_pow]
    exact (ram.entry (show 0 < pgSize by decide)).2.2.2.2
  have reached (result : Except Panic (Bool × State)) (rest : (lookupPage pd upage true >>= fun pte =>
      if pte ≠ 0 then do
        let old ← readWord pte
        assert (old &&& pteP = 0)
        writeWord pte (← pteCreateUser kpage writable)
        return true
      else return false : M Bool) s = result) : pagedirSetPage kernel pd upage kpage writable s = result := by
    refine (bind_go (lift_ok (assert_ok aligned))).trans ((bind_go (lift_ok (assert_ok ram.aligned))).trans ?_)
    refine (bind_go (lift_ok (if_pos (decide_eq_true user)))).trans ((bind_go (lift_ok (vtop_ok ram.high))).trans ?_)
    exact (bind_go (lift_ok (assert_ok inside))).trans ((bind_go (lift_ok (assert_ok directory.other))).trans rest)
  cases found : tableAt s.memory pd (upage / pgSize / 1024) with
  | some pt =>
    right
    obtain ⟨s',written,updated⟩ := setEntry_ok directory sound user ram unmapped writable found
    have there : ¬Refused s pd upage := fun refused => Option.some_ne_none _ (found.symm.trans refused.1)
    refine ⟨s',out,reached _ ((bind_go (lookupPage_found directory sound user found true)).trans ?_),there,updated⟩
    rw [if_pos (directory.entry_nonzero sound slot found)]
    exact written
  | none =>
    rcases lookupPage_created directory sound user found with ⟨failed,refused⟩ | ⟨pt,s₁,made,room,created,found₁⟩
    · exact .inl ⟨reached _ (bind_go failed),refused⟩
    · right
      have unmapped₁ : pageAt s₁.memory pd (upage / pgSize) = none := (created.pages _ number).trans unmapped
      obtain ⟨s',written,updated⟩ := setEntry_ok created.directory created.sound user ram unmapped₁ writable found₁
      refine ⟨s',_,reached _ ((bind_go made).trans ?_),room,created.trans (updated.congr fun w user => ?_)⟩
      · rw [if_pos (created.directory.entry_nonzero created.sound slot found₁)]
        exact written
      · rw [created.pages w user]

theorem pagedirClearPage_ok (directory : Directory kernel s out pd) (sound : Sound kernel s out) (aligned : pgOfs upage = 0)
    (user : upage < physBase) :
    ∃ s', pagedirClearPage pd upage s = .ok ((),s') ∧
      Updated kernel pd s out s' out fun w => if w = upage / pgSize then none else pageAt s.memory pd w := by
  obtain ⟨slot,index,number⟩ := user_slot user
  have unchanged (absent : pageAt s.memory pd (upage / pgSize) = none) :
      Updated kernel pd s out s out fun w => if w = upage / pgSize then none else pageAt s.memory pd w := by
    refine (Updated.refl directory sound).congr fun w _ => ?_
    split
    · rename_i same
      rw [same,absent]
    · rfl
  have reached (result : Except Panic (Unit × State)) (rest : (lookupPage pd upage false >>= fun pte =>
      if pte ≠ 0 then do
        let entry ← readWord pte
        if entry &&& pteP ≠ 0 then writeWord pte (entry &&& (4294967295 - pteP)) else return ()
      else return () : M Unit) s = result) : pagedirClearPage pd upage s = result := by
    refine (bind_go (lift_ok (assert_ok aligned))).trans ?_
    exact (bind_go (lift_ok (if_pos (decide_eq_true user)))).trans rest
  cases found : tableAt s.memory pd (upage / pgSize / 1024) with
  | none =>
    refine ⟨s,reached _ (bind_go (lookupPage_missing directory sound user found)),unchanged ?_⟩
    rw [pageAt,found,Option.bind_none]
  | some pt =>
    have frame : pageAt s.memory pd (upage / pgSize) = frameOf (load s.memory (pt + 4 * (upage / pgSize % 1024)) 4) := by
      rw [pageAt,found,Option.bind_some]
    by_cases present : load s.memory (pt + 4 * (upage / pgSize % 1024)) 4 &&& pteP ≠ 0
    · have cleared : frameOf (load s.memory (pt + 4 * (upage / pgSize % 1024)) 4 &&& (4294967295 - pteP)) = none := by
        rw [frameOf,cleared_even,if_neg (by decide)]
      have small := Nat.lt_of_le_of_lt (Nat.and_le_left (n := load s.memory (pt + 4 * (upage / pgSize % 1024)) 4)
        (m := 4294967295 - pteP)) (load_word_lt _ _)
      refine ⟨_,reached _ ((bind_go (lookupPage_found directory sound user found false)).trans ?_),
        (directory.write_entry sound slot index found small fun p mapped => ?_).congr fun w _ => ?_⟩
      · rw [if_pos (directory.entry_nonzero sound slot found)]
        refine (bind_go (readWord_ok _)).trans ?_
        rw [if_pos present]
        rfl
      · rw [cleared] at mapped
        contradiction
      · rw [← page_number,cleared]
    · refine ⟨s,reached _ ((bind_go (lookupPage_found directory sound user found false)).trans ?_),unchanged ?_⟩
      · rw [if_pos (directory.entry_nonzero sound slot found)]
        refine (bind_go (readWord_ok _)).trans ?_
        rw [if_neg present]
        rfl
      · rw [frame,Option.eq_none_iff_forall_ne_some]
        intro p mapped
        exact present ((present_iff _).mpr ⟨p,mapped⟩)

end

end OsProj.PageDir
