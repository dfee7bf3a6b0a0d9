import Mathlib.Data.Finset.Card
import OsProj.UserMemory

/-! Frames of the user pool: every mapped page has a frame of its own that is allocated. What
loading and the break do to pages and frames. -/
namespace OsProj.UserMemory

open OsProj.Bitmap OsProj.ByteMemory OsProj.Faulting

section
variable {s s' : Process}

theorem assert_bind {f : Unit → M β} : (assert c >>= f) s = .ok r ↔ c = true ∧ f () s = .ok r :=
  checked_bind rfl

def Ram.kpage (ram : Ram) (f : Nat) : Nat := ram.base + pgSize * f

theorem Ram.kpage_inj {ram : Ram} (same : ram.kpage f = ram.kpage g) : f = g := by
  simp only [Ram.kpage,pgSize] at same
  omega

theorem Ram.kpage_valid (ram : Ram) (inside : f < ram.count) :
    pgOfs (ram.kpage f) = 0 ∧ physBase ≤ ram.kpage f ∧ (ram.kpage f - physBase) / pgSize < ram.pages ∧
      ram.kpage f < ram.base + pgSize * ram.count := by
  have aligned := ram.aligned
  have low := ram.low
  have high := ram.high
  simp only [Ram.kpage,pgOfs,pgSize,physBase] at *
  omega

theorem Ram.kpage_real (ram : Ram) (inside : f < ram.count) : ram.kpage f ≠ null := by
  obtain ⟨_,low,_⟩ := ram.kpage_valid inside
  simp only [physBase,null] at *
  omega

/-! Pages of the directory. -/

theorem page_setPage_other (different : w ≠ v) : (s.setPage v pte).page w = s.page w := by
  unfold Process.page Process.setPage
  by_cases table : w / 1024 = v / 1024
  · have entry : w % 1024 ≠ v % 1024 := by omega
    simp only [table,Function.update_self]
    cases s.pagedir (v / 1024) with
    | none => rfl
    | some pt => simp [entry]
  · simp only [Function.update_of_ne table]

theorem page_setPage (present : (s.pagedir (v / 1024)).isSome = true) : (s.setPage v pte).page v = pte := by
  obtain ⟨pt,table⟩ := Option.isSome_iff_exists.mp present
  simp [Process.page,Process.setPage,table]

theorem setPage_absent (absent : s.page v = none) : s.setPage v none = s := by
  unfold Process.page at absent
  unfold Process.setPage
  have same : (s.pagedir (v / 1024)).map (Function.update · (v % 1024) none) = s.pagedir (v / 1024) := by
    cases table : s.pagedir (v / 1024) with
    | none => rfl
    | some pt =>
      rw [table] at absent
      have entry : pt (v % 1024) = none := absent
      rw [Option.map_some,← entry,Function.update_eq_self]
  simp only [same,Function.update_eq_self]

/-- Clearing a page. -/
theorem page_cleared : (s.setPage v none).page w = if w = v then none else s.page w := by
  by_cases same : w = v
  · subst same
    cases table : s.pagedir (w / 1024) with
    | none => simp [Process.page,Process.setPage,table]
    | some pt => rw [page_setPage (by simp [table]),if_pos rfl]
  · rw [page_setPage_other same,if_neg same]

def Process.withTable (s : Process) (t : Nat) : Process :=
  if (s.pagedir t).isSome then s
  else { s with pagedir := Function.update s.pagedir t (some fun _ => none) }

theorem withTable_page : (s.withTable t).page w = s.page w := by
  unfold Process.withTable
  split
  · rfl
  · rename_i missing
    have none : s.pagedir t = none := by simpa using missing
    unfold Process.page
    by_cases table : w / 1024 = t
    · simp [table,none]
    · simp [table]

theorem withTable_table : ((s.withTable t).pagedir t).isSome = true := by
  unfold Process.withTable
  split
  · assumption
  · simp

theorem withTable_keeps (present : (s.pagedir t').isSome = true) : ((s.withTable t).pagedir t').isSome = true := by
  unfold Process.withTable
  split
  · exact present
  · by_cases same : t' = t
    · simp [same]
    · simpa [same] using present

def Process.map (s : Process) (v : Nat) (pte : Pte) : Process := (s.withTable (v / 1024)).setPage v (some pte)

theorem page_map : (s.map v pte).page w = if w = v then some pte else s.page w := by
  unfold Process.map
  by_cases same : w = v
  · rw [if_pos same,same,page_setPage withTable_table]
  · rw [if_neg same,page_setPage_other same,withTable_page]

theorem map_tables (present : (s.pagedir t).isSome = true) : ((s.map v pte).pagedir t).isSome = true := by
  have kept := withTable_keeps (t := v / 1024) present
  simp only [Process.map,Process.setPage]
  by_cases same : t = v / 1024
  · subst same
    simpa using kept
  · simpa [same] using kept

@[simp] theorem map_used : (s.map v pte).used = s.used := by
  unfold Process.map Process.withTable
  split <;> rfl

@[simp] theorem map_mem : (s.map v pte).mem = s.mem := by
  unfold Process.map Process.withTable
  split <;> rfl

@[simp] theorem map_segbreak : (s.map v pte).segbreak = s.segbreak := by
  unfold Process.map Process.withTable
  split <;> rfl

@[simp] theorem map_startHeap : (s.map v pte).startHeap = s.startHeap := by
  unfold Process.map Process.withTable
  split <;> rfl

/-! The operations, one equation each. -/

theorem pallocGetMultiple_cases (ok : pallocGetMultiple ram owner zero cnt s = .ok (kpages,s')) :
    (kpages = null ∧ s' = s) ∨
    (∃ idx, 0 < cnt ∧ kpages = ram.kpage idx ∧ idx + cnt ≤ ram.count ∧
      (∀ f, idx ≤ f → f < idx + cnt → s.used f = none) ∧
      s' = { s with
        used := setMultiple s.used idx cnt (some owner)
        mem := if zero then fill s.mem (ram.kpage idx) (pgSize * cnt) 0 else s.mem }) := by
  unfold pallocGetMultiple at ok
  split at ok
  · obtain ⟨rfl,rfl⟩ := Prod.mk.inj (Except.ok.inj ok)
    exact .inl ⟨rfl,rfl⟩
  rename_i some
  split at ok
  · rename_i idx found
    obtain ⟨rfl,rfl⟩ := Prod.mk.inj (Except.ok.inj ok)
    obtain ⟨_,inside,free⟩ := scan_some found
    refine .inr ⟨idx,Nat.pos_of_ne_zero some,rfl,inside,?_,rfl⟩
    intro f low high
    simpa using free f low high
  · obtain ⟨rfl,rfl⟩ := Prod.mk.inj (Except.ok.inj ok)
    exact .inl ⟨rfl,rfl⟩

theorem pallocGetMultiple_total (ram : Ram) (owner : Owner) (zero : Bool) (cnt : Nat) (s : Process) :
    ∃ out, pallocGetMultiple ram owner zero cnt s = .ok out := by
  unfold pallocGetMultiple
  split
  · exact ⟨_,rfl⟩
  · split <;> exact ⟨_,rfl⟩

theorem lookupPage_find : lookupPage vaddr false granted s =
    .ok ((s.pagedir (vaddr / pgSize / 1024)).isSome,s) := by
  refine assert_bind.mpr ⟨rfl,get_bind.mpr ?_⟩
  cases (s.pagedir (vaddr / pgSize / 1024)).isSome <;> rfl

theorem lookupPage_create (user : vaddr < physBase) : lookupPage vaddr true granted s =
    .ok ((s.pagedir (vaddr / pgSize / 1024)).isSome || granted,
      if (s.pagedir (vaddr / pgSize / 1024)).isSome || granted then s.withTable (vaddr / pgSize / 1024) else s) := by
  have confined : isUserVaddr vaddr = true := by simpa [isUserVaddr] using user
  refine assert_bind.mpr ⟨confined,get_bind.mpr ?_⟩
  unfold Process.withTable
  cases (s.pagedir (vaddr / pgSize / 1024)).isSome <;> cases granted <;> rfl

theorem pagedirGetPage_eq (user : uaddr < physBase) : pagedirGetPage uaddr s =
    .ok (match s.page (uaddr / pgSize) with | some pte => pte.frame + pgOfs uaddr | none => null,s) := by
  have confined : isUserVaddr uaddr = true := by simpa [isUserVaddr] using user
  refine assert_bind.mpr ⟨confined,bind_ok.mpr ⟨_,s,lookupPage_find,get_bind.mpr ?_⟩⟩
  cases s.page (uaddr / pgSize) <;> rfl

theorem pagedirClearPage_eq (aligned : pgOfs upage = 0) (user : upage < physBase) :
    pagedirClearPage upage s = .ok ((),s.setPage (upage / pgSize) none) := by
  have confined : isUserVaddr upage = true := by simpa [isUserVaddr] using user
  refine assert_bind.mpr ⟨by simp [aligned],assert_bind.mpr ⟨confined,?_⟩⟩
  refine bind_ok.mpr ⟨_,s,lookupPage_find,get_bind.mpr ?_⟩
  cases present : s.page (upage / pgSize) with
  | none =>
    rw [setPage_absent present]
    rfl
  | some pte => rfl

theorem pallocFreePage_null : pallocFreePage ram null s = .ok ((),s) := rfl

theorem pallocFreePage_frame (inside : f < ram.count) (used : (s.used f).isSome = true) :
    pallocFreePage ram (ram.kpage f) s = .ok ((),{ s with
      mem := fill s.mem (ram.kpage f) pgSize 204
      used := Function.update s.used f none }) := by
  obtain ⟨aligned,_,_,high⟩ := ram.kpage_valid inside
  have index : (ram.kpage f - ram.base) / pgSize = f := by simp [Ram.kpage,pgSize]
  refine assert_bind.mpr ⟨by simp [aligned],?_⟩
  rw [if_neg (ram.kpage_real inside),if_pos ⟨by simp [Ram.kpage],high⟩]
  refine modify_bind.mpr (get_bind.mpr ?_)
  rw [index]
  exact assert_bind.mpr ⟨used,rfl⟩

def Process.canMap (s : Process) (v : Nat) (granted : Bool) : Bool :=
  (s.page v).isNone && ((s.pagedir (v / 1024)).isSome || granted)

theorem installPage_eq (aligned : pgOfs upage = 0) (user : upage < physBase) (inside : f < ram.count)
    (real : ∀ pte, s.page (upage / pgSize) = some pte → pte.frame ≠ null) :
    installPage ram granted upage (ram.kpage f) writable s =
      .ok (s.canMap (upage / pgSize) granted,if s.canMap (upage / pgSize) granted then
        s.map (upage / pgSize) ⟨ram.kpage f,writable⟩ else s) := by
  refine bind_ok.mpr ⟨_,s,pagedirGetPage_eq user,?_⟩
  unfold Process.canMap
  cases present : s.page (upage / pgSize) with
  | some pte =>
    have mapped : ¬pte.frame + pgOfs upage = null := by
      have frame := real pte present
      simp only [null] at *
      omega
    rw [if_neg mapped]
    rfl
  | none =>
    obtain ⟨aligned',low,high,_⟩ := ram.kpage_valid inside
    have confined : isUserVaddr upage = true := by simpa [isUserVaddr] using user
    rw [if_pos rfl]
    refine assert_bind.mpr ⟨by simp [aligned],assert_bind.mpr ⟨by simp [aligned'],?_⟩⟩
    refine assert_bind.mpr ⟨confined,assert_bind.mpr ⟨by simpa using low,?_⟩⟩
    refine assert_bind.mpr ⟨by simpa using high,?_⟩
    refine bind_ok.mpr ⟨_,_,lookupPage_create user,?_⟩
    simp only [Option.isNone_none,Bool.true_and]
    split
    · rename_i available
      rw [available]
      refine get_bind.mpr (assert_bind.mpr ⟨?_,rfl⟩)
      rw [withTable_page,present]
      rfl
    · rename_i missing
      rw [Bool.eq_false_iff.mpr missing]
      rfl

end

def Owner.Ours (owner : Option Owner) : Prop := owner = some .heap ∨ owner = some .image

instance (owner : Option Owner) : Decidable (Owner.Ours owner) := inferInstanceAs (Decidable (_ ∨ _))

/-- Every mapped user page has a frame that is allocated for the process, and no frame is
mapped twice. -/
structure Framed (ram : Ram) (s : Process) : Prop where
  owned : ∀ v pte, s.page v = some pte →
    v < physBase / pgSize ∧ ∃ f < ram.count, pte.frame = ram.kpage f ∧ Owner.Ours (s.used f)
  distinct : ∀ v w pte pte', s.page v = some pte → s.page w = some pte' → pte.frame = pte'.frame → v = w

def Unmapped (ram : Ram) (s : Process) (f : Nat) : Prop := ∀ v pte, s.page v = some pte → pte.frame ≠ ram.kpage f

section
variable {ram : Ram} {s s' : Process}

theorem Framed.real (framed : Framed ram s) (v : Nat) : ∀ pte, s.page v = some pte → pte.frame ≠ null := by
  intro pte present
  obtain ⟨_,f,inside,frame,_⟩ := framed.owned v pte present
  rw [frame]
  exact ram.kpage_real inside

/-- Frames that are not allocated are not mapped. -/
theorem Framed.free_unmapped (framed : Framed ram s) (free : s.used f = none) : Unmapped ram s f := by
  intro v pte present same
  obtain ⟨_,g,_,frame,ours⟩ := framed.owned v pte present
  obtain rfl := Ram.kpage_inj (same.symm.trans frame)
  rw [free] at ours
  rcases ours with ours | ours <;> contradiction

theorem Framed.map (framed : Framed ram s) (user : v < physBase / pgSize) (inside : f < ram.count)
    (ours : Owner.Ours (s.used f)) (unmapped : Unmapped ram s f) :
    Framed ram (s.map v ⟨ram.kpage f,writable⟩) := by
  constructor
  · intro w pte present
    rw [page_map] at present
    rw [map_used]
    split at present
    · rename_i same
      obtain rfl := Option.some.inj present
      exact ⟨same ▸ user,f,inside,rfl,ours⟩
    · exact framed.owned w pte present
  · intro w w' pte pte' present present' same
    rw [page_map] at present present'
    split at present <;> split at present'
    · rename_i first second
      exact first.trans second.symm
    · obtain rfl := Option.some.inj present
      exact absurd same.symm (unmapped w' pte' present')
    · obtain rfl := Option.some.inj present'
      exact absurd same (unmapped w pte present)
    · exact framed.distinct w w' pte pte' present present' same

/-- Allocating frames keeps those that are mapped. -/
theorem Framed.allocate (framed : Framed ram s) (free : ∀ f, idx ≤ f → f < idx + cnt → s.used f = none)
    (owner : Owner) (m : Memory) :
    Framed ram { s with used := setMultiple s.used idx cnt (some owner), mem := m } := by
  refine ⟨?_,framed.distinct⟩
  intro v pte present
  obtain ⟨user,f,inside,frame,ours⟩ := framed.owned v pte present
  refine ⟨user,f,inside,frame,?_⟩
  simp only [setMultiple]
  rw [if_neg ?_]
  · exact ours
  · rintro ⟨low,high⟩
    rw [free f low high] at ours
    rcases ours with ours | ours <;> contradiction

/-- A page and its frame are given up together. -/
theorem Framed.release (framed : Framed ram s) (present : s.page v = some pte) (frame : pte.frame = ram.kpage f)
    (m : Memory) :
    Framed ram { s.setPage v none with mem := m, used := Function.update s.used f none } := by
  have other (w : Nat) (pte' : Pte) (kept : (s.setPage v none).page w = some pte') :
      w ≠ v ∧ s.page w = some pte' := by
    rw [page_cleared] at kept
    split at kept
    · contradiction
    · rename_i different
      exact ⟨different,kept⟩
  constructor
  · intro w pte' kept
    obtain ⟨different,old⟩ := other w pte' kept
    obtain ⟨user,g,inside,frame',ours⟩ := framed.owned w pte' old
    refine ⟨user,g,inside,frame',?_⟩
    have apart : g ≠ f := by
      rintro rfl
      exact different (framed.distinct w v pte' pte old present (frame'.trans frame.symm))
    simpa [Function.update_of_ne apart] using ours
  · intro w w' pte₁ pte₂ kept kept' same
    exact framed.distinct w w' pte₁ pte₂ (other w pte₁ kept).2 (other w' pte₂ kept').2 same

/-- A page behind or before another one. -/
theorem displace_page {v w : Nat} {k : Int} (inside : v + k = w) (user : w < physBase / pgSize) :
    displace (v * pgSize) (k * pgSize) = w * pgSize := by
  simp only [displace,physBase,pgSize] at *
  omega

theorem page_number (w : Nat) : pgOfs (w * pgSize) = 0 ∧ w * pgSize / pgSize = w := by
  simp only [pgOfs,pgSize]
  omega

/-- What installing frames from `idx + i` on at the pages from `first + i` on has done. Pages
that cannot be mapped are passed over. -/
structure Grown (ram : Ram) (grants : Nat → Bool) (s : Process) (first idx i left : Nat) (s' : Process) :
    Prop where
  framed : Framed ram s'
  used : s'.used = s.used
  mem : s'.mem = s.mem
  segbreak : s'.segbreak = s.segbreak
  kept : ∀ w pte, s.page w = some pte → s'.page w = some pte
  only : ∀ w pte, s'.page w = some pte → s.page w = some pte ∨
    ∃ j, i ≤ j ∧ j < i + left ∧ w = first + j ∧ pte = ⟨ram.kpage (idx + j),true⟩
  added : ∀ j, i ≤ j → j < i + left → s.canMap (first + j) (grants (first + j)) = true →
    s'.page (first + j) = some ⟨ram.kpage (idx + j),true⟩

theorem canMap_map (other : w ≠ v) (able : s.canMap w granted = true) :
    (s.map v pte).canMap w granted = true := by
  simp only [Process.canMap,Bool.and_eq_true,Bool.or_eq_true] at able ⊢
  rw [page_map,if_neg other]
  exact ⟨able.1,able.2.imp_left map_tables⟩

theorem Grown.place (able : s.canMap (first + i) (grants (first + i)) = true)
    (grown : Grown ram grants (s.map (first + i) ⟨ram.kpage (idx + i),true⟩) first idx (i + 1) left s') :
    Grown ram grants s first idx i (left + 1) s' := by
  refine ⟨grown.framed,grown.used.trans map_used,grown.mem.trans map_mem,
    grown.segbreak.trans map_segbreak,?_,?_,?_⟩
  · intro w pte present
    refine grown.kept w pte ?_
    rw [page_map,if_neg ?_]
    · exact present
    · rintro rfl
      simp [Process.canMap,present] at able
  · intro w pte present
    rcases grown.only w pte present with old | ⟨j,low,high,rest⟩
    · rw [page_map] at old
      split at old
      · rename_i same
        obtain rfl := Option.some.inj old
        exact .inr ⟨i,Nat.le_refl _,by omega,same,rfl⟩
      · exact .inl old
    · exact .inr ⟨j,by omega,by omega,rest⟩
  · intro j low high able'
    by_cases same : j = i
    · subst same
      refine grown.kept _ _ ?_
      rw [page_map,if_pos rfl]
    · exact grown.added j (by omega) (by omega) (canMap_map (by omega) able')

theorem Grown.skip (unable : ¬s.canMap (first + i) (grants (first + i)) = true)
    (grown : Grown ram grants s first idx (i + 1) left s') : Grown ram grants s first idx i (left + 1) s' := by
  refine ⟨grown.framed,grown.used,grown.mem,grown.segbreak,grown.kept,?_,?_⟩
  · intro w pte present
    refine (grown.only w pte present).imp_right ?_
    rintro ⟨j,low,high,rest⟩
    exact ⟨j,by omega,by omega,rest⟩
  · intro j low high able
    by_cases same : j = i
    · subst same
      exact absurd able unable
    · exact grown.added j (by omega) (by omega) able

theorem Unmapped.map (unmapped : Unmapped ram s g) (other : f ≠ g) :
    Unmapped ram (s.map v ⟨ram.kpage f,writable⟩) g := by
  intro w pte present
  rw [page_map] at present
  split at present
  · obtain rfl := Option.some.inj present
    exact fun same => other (Ram.kpage_inj same)
  · exact unmapped w pte present

theorem growPages_spec (framed : Framed ram s) (start : pgRoundUp s.segbreak = first * pgSize)
    (user : first + i + left ≤ physBase / pgSize)
    (pending : ∀ j, i ≤ j → j < i + left →
      idx + j < ram.count ∧ Owner.Ours (s.used (idx + j)) ∧ Unmapped ram s (idx + j)) :
    ∃ s', growPages ram grants (ram.kpage idx) left i s = .ok ((),s') ∧
      Grown ram grants s first idx i left s' := by
  induction left generalizing i s with
  | zero =>
    refine ⟨s,rfl,framed,rfl,rfl,rfl,fun _ _ => id,fun _ _ => .inl,?_⟩
    intro j low high
    omega
  | succ left ih =>
    obtain ⟨inside,ours,unmapped⟩ := pending i (Nat.le_refl _) (by omega)
    have here : first + i < physBase / pgSize := by omega
    have upage : displace (pgRoundUp s.segbreak) (i * pgSize) = (first + i) * pgSize := by
      rw [start]
      exact displace_page rfl here
    have frame : ram.kpage idx + i * pgSize = ram.kpage (idx + i) := by
      simp only [Ram.kpage,pgSize]
      omega
    obtain ⟨aligned,number⟩ := page_number (first + i)
    have confined : (first + i) * pgSize < physBase := by
      simp only [physBase,pgSize] at *
      omega
    have real := framed.real ((first + i) * pgSize / pgSize)
    have installed : installPage ram (grants (first + i)) ((first + i) * pgSize) (ram.kpage (idx + i)) true s =
      .ok _ := installPage_eq aligned confined inside real
    rw [number] at installed
    -- The loop goes on from the process after `install_page`, whatever it returned.
    have goesOn (t s' : Process) (placed : Bool)
        (done : installPage ram (grants (first + i)) ((first + i) * pgSize) (ram.kpage (idx + i)) true s = .ok (placed,t))
        (rest : growPages ram grants (ram.kpage idx) left (i + 1) t = .ok ((),s')) :
        growPages ram grants (ram.kpage idx) (left + 1) i s = .ok ((),s') := by
      refine get_bind.mpr ?_
      rw [upage,frame,number]
      exact bind_ok.mpr ⟨placed,t,done,rest⟩
    by_cases able : s.canMap (first + i) (grants (first + i)) = true
    · rw [if_pos able] at installed
      have framed₁ : Framed ram (s.map (first + i) ⟨ram.kpage (idx + i),true⟩) :=
        framed.map here inside ours unmapped
      have pending₁ (j : Nat) (low : i + 1 ≤ j) (high : j < i + 1 + left) : idx + j < ram.count ∧
          Owner.Ours ((s.map (first + i) ⟨ram.kpage (idx + i),true⟩).used (idx + j)) ∧
          Unmapped ram (s.map (first + i) ⟨ram.kpage (idx + i),true⟩) (idx + j) := by
        obtain ⟨inside',ours',unmapped'⟩ := pending j (by omega) (by omega)
        exact ⟨inside',by rw [map_used]; exact ours',unmapped'.map (by omega)⟩
      obtain ⟨s',done,grown⟩ := ih framed₁ (by rw [map_segbreak,start]) (by omega) pending₁
      exact ⟨s',goesOn _ _ _ installed done,grown.place able⟩
    · rw [if_neg able] at installed
      obtain ⟨s',done,grown⟩ := ih (i := i + 1) framed start (by omega)
        (fun j low high => pending j (by omega) (by omega))
      exact ⟨s',goesOn _ _ _ installed done,grown.skip able⟩

def Process.frames (s : Process) (ram : Ram) : Finset Nat :=
  (Finset.range ram.count).filter fun f => Owner.Ours (s.used f)

theorem mem_frames : f ∈ s.frames ram ↔ f < ram.count ∧ Owner.Ours (s.used f) := by
  simp [Process.frames]

/-- What giving up the pages from `last - i` on downwards has done: the frames of those that
were mapped are free, and no others. -/
structure Shrunk (ram : Ram) (s : Process) (last i left : Nat) (s' : Process) : Prop where
  framed : Framed ram s'
  segbreak : s'.segbreak = s.segbreak
  pages : ∀ w, s'.page w = if w + i ≤ last ∧ last < w + i + left then none else s.page w
  freed : ∀ f, s'.used f = s.used f ∨ ∃ w pte, w + i ≤ last ∧ last < w + i + left ∧
    s.page w = some pte ∧ pte.frame = ram.kpage f
  released : ∀ w pte f, w + i ≤ last → last < w + i + left → s.page w = some pte →
    pte.frame = ram.kpage f → s'.used f = none
  budget : (s.frames ram).card ≤ (s'.frames ram).card + left

theorem Shrunk.skip (absent : s.page w = none) (here : w + i = last)
    (shrunk : Shrunk ram s last (i + 1) left s') : Shrunk ram s last i (left + 1) s' := by
  have inside (v : Nat) (different : v ≠ w) (low : v + i ≤ last) : v + (i + 1) ≤ last := by omega
  refine ⟨shrunk.framed,shrunk.segbreak,?_,?_,?_,?_⟩
  · intro v
    rw [shrunk.pages]
    by_cases same : v = w
    · subst same
      simp [absent]
    · have range : (v + (i + 1) ≤ last ∧ last < v + (i + 1) + left) ↔
          (v + i ≤ last ∧ last < v + i + (left + 1)) := by omega
      simp only [range]
  · intro f
    refine (shrunk.freed f).imp_right ?_
    rintro ⟨v,pte,low,high,rest⟩
    exact ⟨v,pte,by omega,by omega,rest⟩
  · intro v pte f low high present frame
    have different : v ≠ w := by
      rintro rfl
      rw [absent] at present
      contradiction
    exact shrunk.released v pte f (inside v different low) (by omega) present frame
  · have := shrunk.budget
    omega

def Process.drop (s : Process) (ram : Ram) (v f : Nat) : Process :=
  { s.setPage v none with
    mem := fill s.mem (ram.kpage f) pgSize 204
    used := Function.update s.used f none }

theorem drop_page : (s.drop ram v f).page w = if w = v then none else s.page w := page_cleared

theorem Shrunk.drop (framed : Framed ram s) (present : s.page w = some pte) (frame : pte.frame = ram.kpage f)
    (here : w + i = last) (shrunk : Shrunk ram (s.drop ram w f) last (i + 1) left s') :
    Shrunk ram s last i (left + 1) s' := by
  have kept (v : Nat) (different : v ≠ w) : (s.drop ram w f).page v = s.page v := by
    rw [drop_page,if_neg different]
  refine ⟨shrunk.framed,shrunk.segbreak,?_,?_,?_,?_⟩
  · intro v
    rw [shrunk.pages,drop_page]
    by_cases same : v = w
    · subst same
      rw [if_pos rfl,ite_self,if_pos ⟨by omega,by omega⟩]
    · have range : (v + (i + 1) ≤ last ∧ last < v + (i + 1) + left) ↔
          (v + i ≤ last ∧ last < v + i + (left + 1)) := by omega
      simp only [range,if_neg same]
  · intro g
    rcases shrunk.freed g with same | ⟨v,pte',low,high,present',frame'⟩
    · by_cases this : g = f
      · subst this
        exact .inr ⟨w,pte,by omega,by omega,present,frame⟩
      · exact .inl (same.trans (Function.update_of_ne this _ _))
    · have different : v ≠ w := by omega
      rw [kept v different] at present'
      exact .inr ⟨v,pte',by omega,by omega,present',frame'⟩
  · intro v pte' g low high present' frame'
    by_cases same : v = w
    · subst same
      obtain rfl := Option.some.inj (present.symm.trans present')
      obtain rfl := Ram.kpage_inj (frame.symm.trans frame')
      rcases shrunk.freed f with same | ⟨u,pte',low',_,present',frame'⟩
      · rw [same]
        exact Function.update_self _ _ _
      · have different : u ≠ v := by omega
        rw [kept u different] at present'
        exact absurd (framed.distinct u v pte' pte present' present (frame'.trans frame.symm)) different
    · exact shrunk.released v pte' g (by omega) (by omega) (by rw [kept v same]; exact present') frame'
  · have lost : s.frames ram ⊆ insert f ((s.drop ram w f).frames ram) := by
      intro g member
      by_cases same : g = f
      · exact Finset.mem_insert.mpr (.inl same)
      · refine Finset.mem_insert_of_mem ?_
        rw [mem_frames] at member ⊢
        have kept : (s.drop ram w f).used g = s.used g := Function.update_of_ne same _ _
        rw [kept]
        exact member
    have := (Finset.card_le_card lost).trans (Finset.card_insert_le _ _)
    have := shrunk.budget
    omega

theorem shrinkPages_spec (framed : Framed ram s) (start : pgRoundDown s.segbreak = last * pgSize)
    (user : last < physBase / pgSize) (low : i + left ≤ last + 1) :
    ∃ s', shrinkPages ram left i s = .ok ((),s') ∧ Shrunk ram s last i left s' := by
  induction left generalizing i s with
  | zero =>
    refine ⟨s,rfl,framed,rfl,?_,fun _ => .inl rfl,?_,Nat.le_refl _⟩
    · intro w
      rw [if_neg (by omega)]
    · intro w pte f before behind
      omega
  | succ left ih =>
    obtain ⟨w,here⟩ : ∃ w, w + i = last := ⟨last - i,by omega⟩
    have confined : w < physBase / pgSize := by omega
    have upage : displace (pgRoundDown s.segbreak) (-(i * pgSize)) = w * pgSize := by
      rw [start,← Int.neg_mul]
      exact displace_page (by omega) confined
    obtain ⟨aligned,number⟩ := page_number w
    have user' : w * pgSize < physBase := by
      simp only [physBase,pgSize] at *
      omega
    have looked := pagedirGetPage_eq (s := s) user'
    have cleared := pagedirClearPage_eq (s := s) aligned user'
    rw [number] at looked cleared
    cases present : s.page w with
    | none =>
      rw [present] at looked
      rw [setPage_absent present] at cleared
      obtain ⟨s',done,shrunk⟩ := ih (i := i + 1) framed start (by omega)
      refine ⟨s',get_bind.mpr ?_,shrunk.skip present here⟩
      rw [upage]
      refine bind_ok.mpr ⟨_,_,looked,bind_ok.mpr ⟨_,_,cleared,?_⟩⟩
      exact bind_ok.mpr ⟨_,_,pallocFreePage_null,done⟩
    | some pte =>
      obtain ⟨_,f,inside,frame,ours⟩ := framed.owned w pte present
      rw [present] at looked
      simp only [aligned,frame,Nat.add_zero] at looked
      have used : ((s.setPage w none).used f).isSome = true := by
        rcases ours with ours | ours
        · exact Option.isSome_of_eq_some ours
        · exact Option.isSome_of_eq_some ours
      have framed₁ : Framed ram (s.drop ram w f) := framed.release present frame _
      obtain ⟨s',done,shrunk⟩ := ih (i := i + 1) framed₁ start (by omega)
      refine ⟨s',get_bind.mpr ?_,shrunk.drop framed present frame here⟩
      rw [upage]
      refine bind_ok.mpr ⟨_,_,looked,bind_ok.mpr ⟨_,_,cleared,?_⟩⟩
      exact bind_ok.mpr ⟨_,_,pallocFreePage_frame inside used,done⟩

end

end OsProj.UserMemory
