import OsProj.MallocRuns

/-! Requests of any size to the kernel allocator. A request near the top of the range wraps
around when the header is added to it, and `calloc` compares the wrapped product with the two
factors: there a block can come out smaller than what was asked for. -/
namespace OsProj.Malloc

open OsProj.ByteMemory
open OsProj.Faulting
open OsProj.KernelList (sizeMod null)

/-- The block has so many bytes, and they lie in one group of pages. -/
def Honoured (s : State) (block size : Nat) : Prop :=
  ∃ k, blockSize block s = .ok (k,s) ∧ size ≤ k ∧
    ∃ group ∈ s.pages, group.1 ≤ block ∧ block + k ≤ group.1 + pgSize * group.2

/-- What the page allocator answers; for no pages there is no page. -/
structure Answering (descs : Nat) (s : State) (answers : Answers) : Prop where
  offers : Offers descs s answers
  zero : answers 0 = null

/-- Runs with requests of any size. A `malloc` for which the header wraps around gives the
rest of one page, and the client is taken to stay within that; the others are only asked for
what can be counted, since they write to the new block themselves. -/
inductive Used (descs : Nat) : State → List (Nat × Nat) → Prop
  | init (placed : 0 < descs ∧ descs + descSize * descMax ≤ sizeMod) (ran : mallocInit descs ⟨m,[],0⟩ = .ok ((),s)) :
      Used descs s []
  | call {c : Call} (before : Used descs s out) (answering : Answering descs s answers)
      (counted : c.request + arenaSize ≤ sizeMod) (outstanding : c.block = null ∨ ∃ n, (c.block,n) ∈ out)
      (ran : c.run descs answers s = .ok (r,s')) : Used descs s' (c.after r out)
  | oversized (before : Used descs s out) (answering : Answering descs s answers)
      (bound : size < sizeMod) (wraps : sizeMod < size + arenaSize)
      (ran : malloc descs answers size s = .ok (r,s')) :
      Used descs s' ((Call.malloc (pgSize - arenaSize)).after r out)
  | write (before : Used descs s out) (only : ∀ b, m b = s.memory b ∨ Client descs s out b) :
      Used descs { s with memory := m } out

theorem pageCount_none (counted : size + arenaSize ≤ sizeMod) (beyond : sizeMod ≤ size + arenaSize + (pgSize - 1)) :
    pageCount size = 0 := by
  unfold pageCount arenaSize pgSize sizeMod at *
  omega

theorem pageCount_wraps (bound : size < sizeMod) (wraps : sizeMod < size + arenaSize) : pageCount size = 1 := by
  unfold pageCount arenaSize pgSize sizeMod at *
  omega

/-- Only a page of its own has a block of that size. -/
theorem Piece.one_page (piece : Piece g p (pgSize * 1 - arenaSize)) : g.size = pgSize := by
  generalize named : pgSize * 1 - arenaSize = n at piece
  cases piece with
  | block inside =>
    rename_i k i a
    have small := (class_bounds i).2
    rw [← named] at small
    exact absurd small (by decide)
  | whole =>
    rename_i a pageCnt
    change pgSize * pageCnt = pgSize
    unfold pgSize arenaSize at *
    omega

section
variable {h : Heap} {s : State} {c : Call} {out : List (Nat × Nat)}

/-- A live block has its bytes and no more. -/
theorem Inv.honoured_iff (inv : Inv descs s h) (live : h.Live p n) : Honoured s p size ↔ size ≤ n := by
  obtain ⟨g,held,piece,_⟩ := live
  have sized := inv.shape.blockSize_run held piece
  have within := piece.within (inv.shape.sound.laid g held)
  constructor
  · rintro ⟨k,told,room,_⟩
    rw [sized] at told
    cases told
    exact room
  · intro room
    refine ⟨n,sized,room,g.held,inv.pages.mem_iff.mpr (List.mem_map_of_mem held),?_,within.2.1⟩
    change g.page ≤ p
    omega

/-- Whatever is honoured ends with the pages of its block. -/
theorem Inv.honoured_page (inv : Inv descs s h) (held : g ∈ h.groups) (piece : Piece g p n) (positive : 0 < size)
    {s' : State} (honoured : Honoured s' p size) (same : s'.pages = s.pages) : p + size ≤ g.page + g.size := by
  obtain ⟨k,_,room,group,member,low,high⟩ := honoured
  rw [same] at member
  obtain ⟨g',held',rfl⟩ := List.mem_map.mp (inv.pages.mem_iff.mp member)
  change g'.page ≤ p at low
  change p + k ≤ g'.page + g'.size at high
  rw [inv.shape.sound.group_unique held held' piece low (by omega)]
  omega

/-- No page can be counted for the request. -/
theorem Inv.malloc_none (inv : Inv descs s h) (answering : Answering descs s answers)
    (counted : size + arenaSize ≤ sizeMod) (beyond : sizeMod ≤ size + arenaSize + (pgSize - 1)) :
    malloc descs answers size s = .ok (null,s) := by
  have big : 1024 < size := by
    unfold arenaSize pgSize sizeMod at *
    omega
  rw [inv.malloc_big big,mallocBig_refused]
  rw [pageCount_none counted beyond]
  exact answering.zero

/-- The header wraps around, and one page is asked for. -/
theorem Inv.malloc_wraps (inv : Inv descs s h) (answering : Answering descs s answers) (bound : size < sizeMod)
    (wraps : sizeMod < size + arenaSize) :
    answers 1 = null ∧ malloc descs answers size s = .ok (null,s) ∨
    answers 1 ≠ null ∧ ∃ p s' h', malloc descs answers size s = .ok (p,s') ∧ p ≠ null ∧
      Grants descs s h s' h' p (pgSize - arenaSize) := by
  have big : 1024 < size := by
    unfold arenaSize sizeMod at *
    omega
  have one := pageCount_wraps bound wraps
  rw [inv.malloc_big big]
  by_cases refused : answers 1 = null
  · exact .inl ⟨refused,mallocBig_refused (one ▸ refused)⟩
  · obtain ⟨p,s',h',ran,nonnull,grants⟩ := inv.mallocBig_granted answering.offers (one ▸ Nat.one_pos) (one ▸ refused)
    rw [one] at grants
    exact .inr ⟨refused,p,s',h',ran,nonnull,grants⟩

/-- A request that can be counted is served or refused. -/
theorem Inv.malloc_counted (inv : Inv descs s h) (answering : Answering descs s answers)
    (counted : size + arenaSize ≤ sizeMod) :
    ∃ p s', malloc descs answers size s = .ok (p,s') ∧ (p = null ∧ s' = s ∨ ∃ h' n, Grants descs s h s' h' p n ∧ size ≤ n) := by
  by_cases fits : size + arenaSize + (pgSize - 1) < sizeMod
  · obtain ⟨p,s',ran,⟨rfl,rfl,_⟩ | granted⟩ := inv.malloc_run answering.offers fits
    · exact ⟨null,s',ran,.inl ⟨rfl,rfl⟩⟩
    · exact ⟨p,s',ran,.inr granted⟩
  · exact ⟨null,s,inv.malloc_none answering counted (by omega),.inl ⟨rfl,rfl⟩⟩

theorem Inv.serve_counted (inv : Inv descs s h) (tracks : Tracks h out) (answering : Answering descs s answers)
    (counted : c.request + arenaSize ≤ sizeMod) (outstanding : c.block = null ∨ ∃ n, (c.block,n) ∈ out) :
    ∃ r s' h', c.run descs answers s = .ok (r,s') ∧ Served descs c out s h s' h' r := by
  by_cases fits : c.request + arenaSize + (pgSize - 1) < sizeMod
  · exact inv.serve tracks answering.offers ⟨fits,outstanding⟩
  · have nonzero : c.request ≠ 0 := by
      intro zero
      rw [zero] at fits
      exact fits (by decide)
    have refused : malloc descs answers c.request s = .ok (null,s) := inv.malloc_none answering counted (by omega)
    refine ⟨null,s,h,?_,inv.unserved tracks (.inl nonzero)⟩
    cases c with
    | malloc size => exact refused
    | calloc a b =>
      change calloc descs answers a b s = _
      unfold calloc
      by_cases wrapped : (a * b % sizeMod < a || a * b % sizeMod < b) = true
      · rw [if_pos wrapped]
        rfl
      · rw [if_neg wrapped]
        exact bind_go refused
    | realloc p size =>
      change realloc descs answers p size s = _
      change size ≠ 0 at nonzero
      change malloc descs answers size s = _ at refused
      unfold realloc
      rw [if_neg nonzero,bind_go refused,if_neg (fun both => both.2 rfl)]
      rfl
    | free p => exact absurd rfl nonzero

theorem Used.inv (used : Used descs s out) : ∃ h, Inv descs s h ∧ Tracks h out := by
  induction used with
  | init placed ran => exact (Reached.init placed ran).inv
  | call _ answering counted outstanding ran ih =>
    obtain ⟨h,inv,tracks⟩ := ih
    obtain ⟨r,s',h',ran',served⟩ := inv.serve_counted tracks answering counted outstanding
    rw [ran] at ran'
    cases ran'
    exact ⟨h',served.inv,served.tracks⟩
  | oversized _ answering bound wraps ran ih =>
    obtain ⟨h,inv,tracks⟩ := ih
    rcases inv.malloc_wraps answering bound wraps with ⟨_,ran'⟩ | ⟨_,p,s',h',ran',nonnull,grants⟩
    all_goals
      rw [ran] at ran'
      cases ran'
    · exact ⟨h,inv,(inv.unserved tracks (.inr rfl)).tracks⟩
    · exact ⟨h',grants.inv,(grants.served inv tracks rfl (Nat.le_refl _)).tracks⟩
  | write _ only ih =>
    obtain ⟨h,inv,tracks⟩ := ih
    exact ⟨h,inv.written tracks only,tracks⟩

end

section
variable {s : State}

/-- `malloc` returns for every request, and the block that it returns has the bytes asked
for unless the request is so big that the header wraps around and there is a page to give. -/
theorem malloc_honours_request (used : Used descs s out) (answering : Answering descs s answers) (bound : size < sizeMod) :
    ∃ r s', malloc descs answers size s = .ok (r,s') ∧
      ((r ≠ null → Honoured s' r size) ↔ size + arenaSize ≤ sizeMod ∨ answers 1 = null) := by
  obtain ⟨h,inv,tracks⟩ := used.inv
  by_cases counted : size + arenaSize ≤ sizeMod
  · obtain ⟨r,s',ran,result⟩ := inv.malloc_counted answering counted
    refine ⟨r,s',ran,iff_of_true ?_ (.inl counted)⟩
    intro granted
    rcases result with ⟨none_,_⟩ | ⟨h',n,grants,room⟩
    · exact absurd none_ granted
    · exact (grants.inv.honoured_iff grants.granted).mpr room
  · rcases inv.malloc_wraps answering bound (by omega) with ⟨none_,ran⟩ | ⟨page,r,s',h',ran,granted,grants⟩
    · exact ⟨null,s,ran,iff_of_true (fun other => absurd rfl other) (.inr none_)⟩
    · refine ⟨r,s',ran,iff_of_false ?_ (fun either => either.elim counted page)⟩
      intro honoured
      have room := (grants.inv.honoured_iff grants.granted).mp (honoured granted)
      unfold arenaSize pgSize sizeMod at *
      omega

end

def pagesFor (n : Nat) : Answers := fun pageCnt => if pageCnt = n then 65536 else 0

/-- Right after the start, with pages to give. -/
theorem pagesFor_answering (started : mallocInit 4096 ⟨fun _ => 0,[],0⟩ = .ok ((),s)) (some_ : 0 < n)
    (inside : 65536 + pgSize * n ≤ sizeMod) : Used 4096 s [] ∧ Answering 4096 s (pagesFor n) := by
  have placed : 0 < 4096 ∧ 4096 + descSize * descMax ≤ sizeMod := by decide
  obtain ⟨s',started',inv⟩ := mallocInit_run placed (fun _ => 0)
  rw [started] at started'
  cases started'
  refine ⟨.init placed started,?_,if_neg (by omega)⟩
  intro pageCnt _ answered
  have same : pageCnt = n := by
    by_contra other
    exact answered (if_neg other)
  subst same
  have page : pagesFor pageCnt pageCnt = 65536 := if_pos rfl
  rw [page,inv.pages.eq_nil]
  refine ⟨by decide,inside,.inr (by decide),?_⟩
  intro held member
  cases member

/-- The largest request gets one page. -/
theorem malloc_largest_request :
    ∃ s r s', mallocInit 4096 ⟨fun _ => 0,[],0⟩ = .ok ((),s) ∧ Used 4096 s [] ∧ Answering 4096 s (pagesFor 1) ∧
      malloc 4096 (pagesFor 1) 4294967295 s = .ok (r,s') ∧ r ≠ null ∧ ¬Honoured s' r 4294967295 := by
  obtain ⟨s,started,inv⟩ := mallocInit_run (by decide : 0 < 4096 ∧ 4096 + descSize * descMax ≤ sizeMod) (fun _ => 0)
  obtain ⟨used,answering⟩ := pagesFor_answering started (by decide : 0 < 1) (by decide)
  rcases inv.malloc_wraps answering (by decide : 4294967295 < sizeMod) (by decide) with ⟨none_,_⟩ | ⟨_,r,s',h',ran,granted,grants⟩
  · exact absurd none_ (by decide)
  · refine ⟨s,r,s',started,used,answering,ran,granted,?_⟩
    rw [grants.inv.honoured_iff grants.granted]
    decide

theorem malloc_honours_request_small :
    ∃ s, Used 4096 s [] ∧ Answering 4096 s (pagesFor 1) ∧ ∃ r s', malloc 4096 (pagesFor 1) 1000 s = .ok (r,s') ∧
      (r ≠ null → Honoured s' r 1000) := by
  obtain ⟨s,started,_⟩ := mallocInit_run (by decide : 0 < 4096 ∧ 4096 + descSize * descMax ≤ sizeMod) (fun _ => 0)
  obtain ⟨used,answering⟩ := pagesFor_answering started (by decide : 0 < 1) (by decide)
  obtain ⟨r,s',ran,exactly⟩ := malloc_honours_request used answering (by decide : 1000 < sizeMod)
  exact ⟨s,used,answering,r,s',ran,exactly.mpr (.inl (by decide))⟩

/-! `calloc` -/

/-- A product that wraps around without being caught is far from small. -/
theorem product_uncaught (beyond : sizeMod ≤ a * b) (first : a ≤ a * b % sizeMod) (second : b ≤ a * b % sizeMod) :
    1024 < a * b % sizeMod := by
  have large : 65536 ≤ a ∨ 65536 ≤ b := by
    by_contra both
    have small : a * b ≤ 65535 * 65535 := Nat.mul_le_mul (by omega) (by omega)
    unfold sizeMod at beyond
    omega
  omega

section
variable {h : Heap} {s : State}

/-- The test does not catch the request, and the pages for what it has become are there. -/
theorem Inv.calloc_big (inv : Inv descs s h) (answering : Answering descs s answers) (uncaught : a ≤ a * b % sizeMod ∧ b ≤ a * b % sizeMod)
    (big : 1024 < a * b % sizeMod) :
    answers (pageCount (a * b % sizeMod)) = null ∧ calloc descs answers a b s = .ok (null,s) ∨
    answers (pageCount (a * b % sizeMod)) ≠ null ∧ ∃ p s' h', p ≠ null ∧
      calloc descs answers a b s = .ok (p,{ s' with memory := fill s'.memory p (a * b % sizeMod) 0 }) ∧
      Grants descs s h s' h' p (pgSize * pageCount (a * b % sizeMod) - arenaSize) := by
  have passed : ¬(a * b % sizeMod < a || a * b % sizeMod < b) = true := by
    simp only [Bool.or_eq_true,decide_eq_true_eq]
    omega
  unfold calloc
  rw [if_neg passed]
  by_cases refused : answers (pageCount (a * b % sizeMod)) = null
  · left
    have none_ := mallocBig_refused (s := s) refused
    rw [← inv.malloc_big big] at none_
    rw [bind_go none_]
    exact ⟨refused,rfl⟩
  · right
    have positive : 0 < pageCount (a * b % sizeMod) := by
      by_contra zero
      rw [Nat.eq_zero_of_not_pos zero] at refused
      exact refused answering.zero
    obtain ⟨p,s',h',ran,nonnull,grants⟩ := inv.mallocBig_granted answering.offers positive refused
    rw [← inv.malloc_big big] at ran
    refine ⟨refused,p,s',h',nonnull,?_,grants⟩
    rw [bind_go ran,if_pos nonnull]
    rfl

/-- A product that can be counted is served with zeros or refused. -/
theorem Inv.calloc_counted (inv : Inv descs s h) (answering : Answering descs s answers) (counted : a * b + arenaSize ≤ sizeMod) :
    ∃ r s', calloc descs answers a b s = .ok (r,s') ∧
      (r ≠ null → Honoured s' r (a * b) ∧ ∀ j < a * b, s'.memory (r + j) = 0) := by
  have whole : a * b % sizeMod = a * b := Nat.mod_eq_of_lt (by unfold arenaSize at counted; omega)
  by_cases fits : a * b + arenaSize + (pgSize - 1) < sizeMod
  · rw [← whole] at fits
    obtain ⟨r,s',ran,result⟩ := inv.calloc_run answering.offers fits
    refine ⟨r,s',ran,?_⟩
    intro granted
    rcases result with ⟨none_,_⟩ | ⟨h',n,grants,room,zeros⟩
    · exact absurd none_ granted
    · rw [whole] at room zeros
      exact ⟨(grants.inv.honoured_iff grants.granted).mpr room,zeros⟩
  · have refused := inv.malloc_none answering (whole.symm ▸ counted) (by omega : sizeMod ≤ a * b % sizeMod + arenaSize + (pgSize - 1))
    refine ⟨null,s,?_,fun other => absurd rfl other⟩
    unfold calloc
    split
    · rfl
    · rw [bind_go refused]
      rfl

/-- `calloc` returns for all factors, and the block that it returns has the bytes of their
product, all zero, exactly when the product can be counted, when the test catches it, or when
there are no pages for what is left of it. -/
theorem calloc_detects_overflow (used : Used descs s out) (answering : Answering descs s answers)
    (bound : a < sizeMod ∧ b < sizeMod) :
    ∃ r s', calloc descs answers a b s = .ok (r,s') ∧
      ((r ≠ null → Honoured s' r (a * b) ∧ ∀ j < a * b, s'.memory (r + j) = 0) ↔
        a * b + arenaSize ≤ sizeMod ∨ a * b % sizeMod < a ∨ a * b % sizeMod < b ∨
          answers (pageCount (a * b % sizeMod)) = null) := by
  obtain ⟨h,inv,tracks⟩ := used.inv
  by_cases counted : a * b + arenaSize ≤ sizeMod
  · obtain ⟨r,s',ran,served⟩ := inv.calloc_counted answering counted
    exact ⟨r,s',ran,iff_of_true served (.inl counted)⟩
  by_cases caught : a * b % sizeMod < a ∨ a * b % sizeMod < b
  · refine ⟨null,s,?_,iff_of_true (fun other => absurd rfl other) (.inr (or_assoc.mp (.inl caught)))⟩
    unfold calloc
    rw [if_pos (by simpa using caught)]
    rfl
  · have uncaught : a ≤ a * b % sizeMod ∧ b ≤ a * b % sizeMod := by omega
    have big : 1024 < a * b % sizeMod := by
      by_cases beyond : sizeMod ≤ a * b
      · exact product_uncaught beyond uncaught.1 uncaught.2
      · rw [Nat.mod_eq_of_lt (by omega)]
        unfold arenaSize sizeMod at *
        omega
    rcases inv.calloc_big answering uncaught big with ⟨none_,ran⟩ | ⟨pages,r,s',h',granted,ran,grants⟩
    · exact ⟨null,s,ran,iff_of_true (fun other => absurd rfl other) (.inr (.inr (.inr none_)))⟩
    · refine ⟨r,_,ran,iff_of_false ?_ (by tauto)⟩
      intro served
      obtain ⟨honoured,_⟩ := served granted
      obtain ⟨g,held,piece,_⟩ := grants.granted
      have laid := grants.inv.shape.sound.laid g held
      have positive : 0 < a * b := by
        unfold arenaSize sizeMod at counted
        omega
      have ends := grants.inv.honoured_page held piece positive honoured rfl
      have inside := laid.inside
      have start := (piece.within laid).1
      have under : a * b < sizeMod := by omega
      have wraps : sizeMod < a * b + arenaSize := by omega
      rw [Nat.mod_eq_of_lt under,pageCount_wraps under wraps] at piece
      have page : g.size = pgSize := piece.one_page
      unfold arenaSize pgSize sizeMod at *
      omega

end

/-- What is left of the product takes thirty-three pages. -/
theorem calloc_uncaught_product :
    ∃ s r s', mallocInit 4096 ⟨fun _ => 0,[],0⟩ = .ok ((),s) ∧ Used 4096 s [] ∧ Answering 4096 s (pagesFor 33) ∧
      calloc 4096 (pagesFor 33) 65537 65537 s = .ok (r,s') ∧ r ≠ null ∧ ¬Honoured s' r (65537 * 65537) := by
  obtain ⟨s,started,inv⟩ := mallocInit_run (by decide : 0 < 4096 ∧ 4096 + descSize * descMax ≤ sizeMod) (fun _ => 0)
  obtain ⟨used,answering⟩ := pagesFor_answering started (by decide : 0 < 33) (by decide)
  rcases inv.calloc_big answering (by decide : 65537 ≤ 65537 * 65537 % sizeMod ∧ 65537 ≤ 65537 * 65537 % sizeMod) (by decide) with
    ⟨none_,_⟩ | ⟨_,r,s',h',granted,ran,grants⟩
  · exact absurd none_ (by decide)
  · refine ⟨s,r,_,started,used,answering,ran,granted,?_⟩
    intro honoured
    obtain ⟨g,held,piece,_⟩ := grants.granted
    have laid := grants.inv.shape.sound.laid g held
    have ends := grants.inv.honoured_page held piece (by decide) honoured rfl
    have inside := laid.inside
    have start := (piece.within laid).1
    unfold sizeMod at inside
    omega

theorem calloc_detects_overflow_small :
    ∃ s, Used 4096 s [] ∧ Answering 4096 s (pagesFor 1) ∧ ∃ r s', calloc 4096 (pagesFor 1) 10 20 s = .ok (r,s') ∧
      (r ≠ null → Honoured s' r 200 ∧ ∀ j < 200, s'.memory (r + j) = 0) := by
  obtain ⟨s,started,_⟩ := mallocInit_run (by decide : 0 < 4096 ∧ 4096 + descSize * descMax ≤ sizeMod) (fun _ => 0)
  obtain ⟨used,answering⟩ := pagesFor_answering started (by decide : 0 < 1) (by decide)
  obtain ⟨r,s',ran,exactly⟩ := calloc_detects_overflow used answering (by decide : 10 < sizeMod ∧ 20 < sizeMod)
  exact ⟨s,used,answering,r,s',ran,exactly.mpr (.inl (by decide))⟩

end OsProj.Malloc
