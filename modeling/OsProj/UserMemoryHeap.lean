import OsProj.UserMemoryBreak

/-! The pages of the heap. They are those between its start and the break as long as every
new page can be mapped and no page is given up from a break on a page boundary: the code
ignores a page that could not be installed, and rounds the break down to find the pages that
it gives up. -/
namespace OsProj.UserMemory

open OsProj.Bitmap OsProj.ByteMemory OsProj.Faulting OsProj.History

def HeapPage (ram : Ram) (s : Process) (v : Nat) : Prop :=
  ∃ pte f, s.page v = some pte ∧ f < ram.count ∧ pte.frame = ram.kpage f ∧ s.used f = some .heap

structure HeapMapped (ram : Ram) (heapStart : Nat) (s : Process) : Prop where
  pages : ∀ v, HeapPage ram s v ↔ heapStart ≤ v * pgSize ∧ v * pgSize < pgRoundUp s.segbreak
  distinct : ∀ v w pte pte', s.page v = some pte → s.page w = some pte' → pte.frame = pte'.frame → v = w
  mapped : ∀ f < ram.count, s.used f = some .heap → ∃ v pte, s.page v = some pte ∧ pte.frame = ram.kpage f
  allocated : ∀ v pte, s.page v = some pte → ∃ f < ram.count, pte.frame = ram.kpage f ∧ (s.used f).isSome = true

/-- A call that gets frames can map every page they are for, and one that gives up pages does
not start from a page boundary. -/
structure HeapCall (ram : Ram) (heapStart : Nat) (s : Process) (grants : Nat → Bool) (increment : Int) :
    Prop where
  above : StaysAbove heapStart s increment
  maps : 0 < increment → displace s.segbreak increment < physBase →
    (scan (fun i => (s.used i).isSome) ram.count 0 (pagesAdded s.segbreak (displace s.segbreak increment))
      false).isSome = true →
    ∀ i < pagesAdded s.segbreak (displace s.segbreak increment),
      s.canMap (pgRoundUp s.segbreak / pgSize + i) (grants (pgRoundUp s.segbreak / pgSize + i)) = true
  inside : increment < 0 → pgRoundUp (displace s.segbreak increment) ≠ pgRoundUp s.segbreak →
    s.segbreak % pgSize ≠ 0

def KeepsHeap (ram : Ram) (heapStart : Nat) (_ : List Event) (s : Process) : Event → Prop
  | (.sbrk grants increment,_) => HeapCall ram heapStart s grants increment
  | (.elsewhere,_) => True

structure Filled (ram : Ram) (first : Nat) (s : Process) : Prop where
  pages : ∀ v, HeapPage ram s v ↔ first ≤ v ∧ v < pageUp s.segbreak
  mapped : ∀ f < ram.count, s.used f = some .heap → ∃ v pte, s.page v = some pte ∧ pte.frame = ram.kpage f

section
variable {ram : Ram} {s s' : Process} {new : Nat}

theorem Filled.grown (filled : Filled ram first s) (framed : Framed ram s)
    (more : pageUp s.segbreak < pageUp new) (low : first ≤ pageUp s.segbreak)
    (inside : idx + (pageUp new - pageUp s.segbreak) ≤ ram.count)
    (free : ∀ f, idx ≤ f → f < idx + (pageUp new - pageUp s.segbreak) → s.used f = none)
    (able : ∀ i < pageUp new - pageUp s.segbreak,
      s.canMap (pageUp s.segbreak + i) (grants (pageUp s.segbreak + i)) = true)
    (grown : Grown ram grants { s with
        used := setMultiple s.used idx (pageUp new - pageUp s.segbreak) (some .heap), mem := m }
      (pageUp s.segbreak) idx 0 (pageUp new - pageUp s.segbreak) t) :
    Filled ram first { t with segbreak := new } := by
  obtain ⟨n,count⟩ : ∃ n, n = pageUp new - pageUp s.segbreak := ⟨_,rfl⟩
  rw [← count] at inside free able grown
  have old (f : Nat) (ours : Owner.Ours (s.used f)) : t.used f = s.used f := by
    rw [grown.used]
    refine if_neg ?_
    rintro ⟨low,high⟩
    rw [free f low high] at ours
    rcases ours with ours | ours <;> contradiction
  have added (j : Nat) (small : j < n) :
      t.page (pageUp s.segbreak + j) = some ⟨ram.kpage (idx + j),true⟩ ∧ t.used (idx + j) = some .heap := by
    refine ⟨grown.added j (Nat.zero_le _) (by omega) (able j small),?_⟩
    rw [grown.used]
    exact if_pos ⟨by omega,by omega⟩
  constructor
  · intro v
    constructor
    · rintro ⟨pte,f,present,bound,frame,heap⟩
      rcases grown.only v pte present with before | ⟨j,_,small,rfl,_⟩
      · obtain ⟨_,g,_,frame',ours⟩ := framed.owned v pte before
        obtain rfl := Ram.kpage_inj (frame.symm.trans frame')
        have range := (filled.pages v).mp ⟨pte,f,before,bound,frame,(old f ours).symm.trans heap⟩
        exact ⟨range.1,by dsimp only; omega⟩
      · exact ⟨by omega,by dsimp only; omega⟩
    · rintro ⟨low,high⟩
      dsimp only at high
      by_cases before : v < pageUp s.segbreak
      · obtain ⟨pte,f,present,bound,frame,heap⟩ := (filled.pages v).mpr ⟨low,before⟩
        exact ⟨pte,f,grown.kept v pte present,bound,frame,(old f (.inl heap)).trans heap⟩
      · obtain ⟨j,rfl⟩ := Nat.exists_eq_add_of_le (Nat.le_of_not_lt before)
        obtain ⟨present,heap⟩ := added j (by omega)
        exact ⟨_,idx + j,present,by omega,rfl,heap⟩
  · intro f bound heap
    by_cases new : idx ≤ f ∧ f < idx + n
    · obtain ⟨j,rfl⟩ := Nat.exists_eq_add_of_le new.1
      exact ⟨_,_,(added j (by omega)).1,rfl⟩
    · have same : t.used f = s.used f := by
        rw [grown.used]
        exact if_neg new
      obtain ⟨v,pte,present,frame⟩ := filled.mapped f bound (same.symm.trans heap)
      exact ⟨v,pte,grown.kept v pte present,frame⟩

theorem Filled.shrunk (filled : Filled ram first s) (framed : Framed ram s)
    (fewer : pageUp new < pageUp s.segbreak) (unaligned : s.segbreak % pgSize ≠ 0)
    (shrunk : Shrunk ram s (s.segbreak / pgSize) 0 (pageUp s.segbreak - pageUp new) t) :
    Filled ram first { t with segbreak := new } := by
  have last : s.segbreak / pgSize + 1 = pageUp s.segbreak := by
    simp only [pageUp,pgSize] at *
    omega
  have pages (v : Nat) : t.page v = if pageUp new ≤ v ∧ v < pageUp s.segbreak then none else s.page v := by
    rw [shrunk.pages]
    have range : (v + 0 ≤ s.segbreak / pgSize ∧
        s.segbreak / pgSize < v + 0 + (pageUp s.segbreak - pageUp new)) ↔
        (pageUp new ≤ v ∧ v < pageUp s.segbreak) := by omega
    simp only [range]
  have kept (v : Nat) (pte : Pte) (f : Nat) (present : s.page v = some pte) (frame : pte.frame = ram.kpage f)
      (outside : ¬(pageUp new ≤ v ∧ v < pageUp s.segbreak)) : t.used f = s.used f := by
    rcases shrunk.freed f with same | ⟨w,pte',low,high,present',frame'⟩
    · exact same
    · have same := framed.distinct v w pte pte' present present' (frame.trans frame'.symm)
      omega
  constructor
  · intro v
    constructor
    · rintro ⟨pte,f,present,bound,frame,heap⟩
      have present₁ : t.page v = some pte := present
      rw [pages] at present₁
      split at present₁
      · contradiction
      · rename_i outside
        have heap₁ := (kept v pte f present₁ frame outside).symm.trans heap
        have range := (filled.pages v).mp ⟨pte,f,present₁,bound,frame,heap₁⟩
        exact ⟨range.1,by dsimp only; omega⟩
    · rintro ⟨low,high⟩
      dsimp only at high
      obtain ⟨pte,f,present,bound,frame,heap⟩ := (filled.pages v).mpr ⟨low,by omega⟩
      have outside : ¬(pageUp new ≤ v ∧ v < pageUp s.segbreak) := by omega
      refine ⟨pte,f,?_,bound,frame,(kept v pte f present frame outside).trans heap⟩
      exact (pages v).trans ((if_neg outside).trans present)
  · intro f bound heap
    have heap₁ : t.used f = some .heap := heap
    have same : t.used f = s.used f := by
      rcases shrunk.freed f with same | ⟨w,pte,low,high,present,frame⟩
      · exact same
      · rw [shrunk.released w pte f low high present frame] at heap₁
        contradiction
    obtain ⟨v,pte,present,frame⟩ := filled.mapped f bound (same.symm.trans heap)
    by_cases removed : pageUp new ≤ v ∧ v < pageUp s.segbreak
    · rw [shrunk.released v pte f (by omega) (by omega) present frame] at heap₁
      contradiction
    · exact ⟨v,pte,(pages v).trans ((if_neg removed).trans present),frame⟩

theorem Filled.elsewhere (filled : Filled ram first s) (elsewhere : Elsewhere s s') : Filled ram first s' := by
  have heap (f : Nat) : s'.used f = some .heap ↔ s.used f = some .heap := by
    rcases elsewhere.used f with same | ⟨before,behind⟩
    · rw [same]
    · exact iff_of_false (fun ours => behind (.inl ours)) (fun ours => before (.inl ours))
  constructor
  · intro v
    simp only [HeapPage,elsewhere.page,elsewhere.segbreak,heap]
    exact filled.pages v
  · intro f bound owned
    simp only [elsewhere.page]
    exact filled.mapped f bound ((heap f).mp owned)

/-- The condition on a call that maps pages, by their numbers. -/
theorem HeapCall.able (call : HeapCall ram heapStart s grants increment) (high : s.segbreak < physBase)
    (moved : (new : Int) = s.segbreak + increment) (limit : new < physBase)
    (more : pageUp s.segbreak < pageUp new) (inside : idx + (pageUp new - pageUp s.segbreak) ≤ ram.count)
    (free : ∀ f, idx ≤ f → f < idx + (pageUp new - pageUp s.segbreak) → s.used f = none) :
    ∀ i < pageUp new - pageUp s.segbreak,
      s.canMap (pageUp s.segbreak + i) (grants (pageUp s.segbreak + i)) = true := by
  have positive : 0 < increment := by
    simp only [pageUp,pgSize] at more
    omega
  have same : displace s.segbreak increment = new := by
    simp only [displace,physBase] at *
    omega
  have maps := call.maps positive
  rw [same,pagesAdded_eq (by omega) (Nat.le_of_lt limit),pgRoundUp_eq (Nat.le_of_lt high),
    (page_number _).2] at maps
  refine maps limit ?_
  rw [Option.isSome_iff_ne_none]
  intro absent
  obtain ⟨f,low,less,taken⟩ := scan_none absent (Nat.zero_le idx) inside
  rw [free f low less] at taken
  contradiction

theorem Filled.moved (filled : Filled ram first s) (bounded : Bounded ram heapStart s)
    (start : heapStart = first * pgSize) (call : HeapCall ram heapStart s grants increment)
    (target : (new : Int) = s.segbreak + increment) (limit : new < physBase)
    (moved : Moved ram grants s new p s') : Filled ram first s' := by
  have low := bounded.low
  cases moved with
  | refused => exact filled
  | within same =>
    refine ⟨?_,filled.mapped⟩
    dsimp only
    rw [same]
    exact filled.pages
  | grown more inside free grown =>
    have able := call.able bounded.high target limit more inside free
    refine filled.grown bounded.framed more ?_ inside free able grown
    simp only [pageUp,pgSize] at *
    omega
  | shrunk fewer shrunk =>
    refine filled.shrunk bounded.framed fewer ?_ shrunk
    have high := bounded.high
    have same : displace s.segbreak increment = new := by
      simp only [displace,physBase] at *
      omega
    refine call.inside ?_ ?_
    · simp only [pageUp,pgSize] at fewer
      omega
    · rw [same,pgRoundUp_eq (Nat.le_of_lt limit),pgRoundUp_eq (Nat.le_of_lt high)]
      simp only [pgSize]
      omega

/-- What carries the pages of the heap along a run. -/
structure Kept (ram : Ram) (heapStart : Nat) (s : Process) : Prop where
  bounded : Bounded ram heapStart s
  filled : ∃ first, heapStart = first * pgSize ∧ Filled ram first s

theorem Kept.call (kept : Kept ram heapStart s) (range : InRange increment)
    (call : HeapCall ram heapStart s grants increment) :
    ∃ p s', syscallSbrk ram grants increment s = .ok (p,s') ∧ Kept ram heapStart s' ∧
      ((p = sbrkFailed ∧ s' = s) ∨ ∃ new : Nat, (new : Int) = s.segbreak + increment ∧ new < physBase ∧
        Moved ram grants s new p s') := by
  obtain ⟨p,s',done,outcome⟩ := syscallSbrk_spec kept.bounded range call.above grants
  refine ⟨p,s',done,?_⟩
  rcases outcome with ⟨rfl,rfl⟩ | ⟨new,target,limit,low,moved⟩
  · exact ⟨kept,.inl ⟨rfl,rfl⟩⟩
  · obtain ⟨first,start,filled⟩ := kept.filled
    exact ⟨⟨kept.bounded.moved limit low moved,first,start,
      filled.moved kept.bounded start call target limit moved⟩,.inr ⟨new,target,limit,moved⟩⟩

theorem Kept.step (kept : Kept ram heapStart s) (step : Step ram h s e s')
    (condition : KeepsHeap ram heapStart h s e) : Kept ram heapStart s' := by
  obtain ⟨call,p⟩ := e
  cases call with
  | elsewhere =>
    obtain ⟨first,start,filled⟩ := kept.filled
    exact ⟨kept.bounded.elsewhere step,first,start,filled.elsewhere step⟩
  | sbrk grants increment =>
    obtain ⟨range,ok⟩ := step
    obtain ⟨p',t,done,kept',_⟩ := kept.call range condition
    obtain ⟨rfl,rfl⟩ := Prod.mk.inj (Except.ok.inj (done.symm.trans ok))
    exact kept'

theorem kept_boot (boot : Boot ram) : Kept ram boot.heapStart boot.process := by
  have loaded := load_spec boot.others boot.loaded
  have aligned := loaded.aligned
  refine ⟨bounded_boot boot,boot.heapStart / pgSize,?_,?_,?_⟩
  · simp only [Boot.heapStart,pgSize] at *
    omega
  · intro v
    refine iff_of_false ?_ ?_
    · rintro ⟨pte,f,_,_,_,heap⟩
      exact loaded.heapless f heap
    · simp only [Boot.heapStart,pageUp,pgSize] at *
      omega
  · intro f _ heap
    exact absurd heap (loaded.heapless f)

theorem run_kept (boot : Boot ram)
    (run : Path (Guarded (Step ram) (KeepsHeap ram boot.heapStart)) [] boot.process h s) :
    Kept ram boot.heapStart s :=
  run.invariant (fun _ s => Kept ram boot.heapStart s)
    (fun _ _ _ _ kept step => kept.step step.1 step.2) (kept_boot boot)

theorem Kept.heapMapped (kept : Kept ram heapStart s) : HeapMapped ram heapStart s := by
  obtain ⟨first,rfl,filled⟩ := kept.filled
  have framed := kept.bounded.framed
  refine ⟨?_,framed.distinct,filled.mapped,?_⟩
  · intro v
    rw [filled.pages,pgRoundUp_eq (Nat.le_of_lt kept.bounded.high)]
    simp only [pgSize]
    omega
  · intro v pte present
    obtain ⟨_,f,inside,frame,ours⟩ := framed.owned v pte present
    refine ⟨f,inside,frame,?_⟩
    rcases ours with ours | ours
    · exact Option.isSome_of_eq_some ours
    · exact Option.isSome_of_eq_some ours

end

/-- In every run whose calls can map the pages they add and give up pages only from inside a
page, the heap's pages are those up to the break, each with a frame of its own. -/
theorem heap_mapped (boot : Boot ram)
    (run : Path (Guarded (Step ram) (KeepsHeap ram boot.heapStart)) [] boot.process h s) :
    HeapMapped ram boot.heapStart s := (run_kept boot run).heapMapped

instance (ram : Ram) (heapStart : Nat) (s : Process) (grants : Nat → Bool) (increment : Int) :
    Decidable (HeapCall ram heapStart s grants increment) :=
  decidable_of_iff (StaysAbove heapStart s increment ∧
    (0 < increment → displace s.segbreak increment < physBase →
      (scan (fun i => (s.used i).isSome) ram.count 0 (pagesAdded s.segbreak (displace s.segbreak increment))
        false).isSome = true →
      ∀ i < pagesAdded s.segbreak (displace s.segbreak increment),
        s.canMap (pgRoundUp s.segbreak / pgSize + i) (grants (pgRoundUp s.segbreak / pgSize + i)) = true) ∧
    (increment < 0 → pgRoundUp (displace s.segbreak increment) ≠ pgRoundUp s.segbreak →
      s.segbreak % pgSize ≠ 0))
    ⟨fun both => ⟨both.1,both.2.1,both.2.2⟩,fun call => ⟨call.above,call.maps,call.inside⟩⟩

instance (ram : Ram) (heapStart : Nat) (h : List Event) (s : Process) :
    (e : Event) → Decidable (KeepsHeap ram heapStart h s e)
  | (.sbrk grants increment,_) => inferInstanceAs (Decidable (HeapCall ram heapStart s grants increment))
  | (.elsewhere,_) => inferInstanceAs (Decidable True)

/-- Three pages are added, one is given up, and the break moves inside the last. -/
theorem heap_mapped_moved :
    let reached := outcome bootLow [.sbrk always 10000,.sbrk always (-5000),.sbrk always 3000]
    reached.2.segbreak = bootLow.heapStart + 8000 ∧ HeapMapped sixFrames bootLow.heapStart reached.2 := by
  intro reached
  exact ⟨by decide +kernel,heap_mapped bootLow (arrive_guarded perform_step (by decide +kernel))⟩

/-- The calls the heap is meant for: the break stays between its start and the stack page. -/
def WithinHeap (heapStart : Nat) (_ : List Event) (s : Process) : Event → Prop
  | (.sbrk _ increment,_) => (heapStart : Int) ≤ s.segbreak + increment ∧
    s.segbreak + increment < physBase - pgSize
  | (.elsewhere,_) => True

instance (heapStart : Nat) (h : List Event) (s : Process) : (e : Event) → Decidable (WithinHeap heapStart h s e)
  | (.sbrk ..,_) => inferInstanceAs (Decidable (_ ∧ _))
  | (.elsewhere,_) => inferInstanceAs (Decidable True)

/-- A page that is added and given up again stays mapped. -/
theorem released_page_stays_mapped :
    let reached := outcome bootLow [.sbrk always 4096,.sbrk always (-4096)]
    Path (Guarded (Step sixFrames) (WithinHeap bootLow.heapStart)) [] bootLow.process reached.1 reached.2 ∧
      ¬HeapMapped sixFrames bootLow.heapStart reached.2 := by
  intro reached
  refine ⟨arrive_guarded perform_step (by decide +kernel),?_⟩
  intro heap
  have present : reached.2.page 32842 = some ⟨sixFrames.kpage 3,true⟩ := by decide +kernel
  have owned : reached.2.used 3 = some .heap := by decide +kernel
  have range := (heap.pages 32842).mp ⟨_,3,present,by decide,rfl,owned⟩
  exact absurd range (by decide +kernel)

/-- A call that fails changes neither the page directory, the pool nor the break. One that
does not fail returns the old break; all bytes up to the new one lie on pages of the heap, and
the pages it added are zero. -/
structure AllOrNothing (ram : Ram) (s : Process) (p : Nat) (s' : Process) : Prop where
  nothing : p = sbrkFailed → s'.pagedir = s.pagedir ∧ s'.used = s.used ∧ s'.segbreak = s.segbreak
  old : p ≠ sbrkFailed → p = s.segbreak
  backed : p ≠ sbrkFailed → ∀ a, s.segbreak ≤ a → a < s'.segbreak → HeapPage ram s' (a / pgSize)
  zero : p ≠ sbrkFailed → ∀ v pte, pgRoundUp s.segbreak ≤ v * pgSize → v * pgSize < pgRoundUp s'.segbreak →
    s'.page v = some pte → ∀ a, pte.frame ≤ a → a < pte.frame + pgSize → s'.mem a = 0

section
variable {ram : Ram} {s s' : Process} {new : Nat}

/-- The pages a call added are zero. -/
theorem Moved.zero (moved : Moved ram grants s new p s') (bounded : Bounded ram heapStart s)
    (call : HeapCall ram heapStart s grants increment) (target : (new : Int) = s.segbreak + increment)
    (limit : new < physBase) (low : pageUp s.segbreak ≤ v) (high : v < pageUp s'.segbreak)
    (present : s'.page v = some pte) (before : pte.frame ≤ a) (behind : a < pte.frame + pgSize) :
    s'.mem a = 0 := by
  cases moved with
  | refused => omega
  | within same =>
    dsimp only at high
    omega
  | shrunk fewer =>
    dsimp only at high
    omega
  | grown more inside free grown =>
    have able := call.able bounded.high target limit more inside free
    dsimp only at high
    obtain ⟨j,rfl⟩ := Nat.exists_eq_add_of_le low
    rcases grown.only _ _ present with old | ⟨j',_,small,same,rfl⟩
    · have none := able j (by omega)
      simp only [Process.canMap,Bool.and_eq_true,Option.isNone_iff_eq_none] at none
      exact absurd (old.symm.trans none.1) (by simp)
    · change _ = _
      rw [grown.mem]
      refine if_pos ?_
      simp only [Ram.kpage,pgSize] at *
      omega

theorem Kept.allOrNothing (kept : Kept ram heapStart s) (range : InRange increment)
    (call : HeapCall ram heapStart s grants increment) :
    ∃ p s', syscallSbrk ram grants increment s = .ok (p,s') ∧ AllOrNothing ram s p s' := by
  obtain ⟨p,s',done,kept',outcome⟩ := kept.call range call
  refine ⟨p,s',done,?_⟩
  have high := kept.bounded.high
  have high' := kept'.bounded.high
  rcases outcome with ⟨rfl,rfl⟩ | ⟨new,target,limit,moved⟩
  · exact ⟨fun _ => ⟨rfl,rfl,rfl⟩,fun served => absurd rfl served,fun served => absurd rfl served,
      fun served => absurd rfl served⟩
  have served (failed : p = sbrkFailed) : s' = s := by
    have real : s.segbreak ≠ sbrkFailed := by
      simp only [physBase,sbrkFailed] at *
      omega
    cases moved with
    | refused => rfl
    | within | grown | shrunk => exact absurd failed real
  refine ⟨?_,?_,?_,?_⟩
  · intro failed
    rw [served failed]
    exact ⟨rfl,rfl,rfl⟩
  · intro ok
    cases moved with
    | refused => exact absurd rfl ok
    | within | grown | shrunk => rfl
  · intro _ a low less
    obtain ⟨first,start,filled⟩ := kept'.filled
    have start' := kept.bounded.low
    refine (filled.pages _).mpr ?_
    simp only [pageUp,pgSize] at *
    omega
  · intro _ v pte low less present a before behind
    rw [pgRoundUp_eq (Nat.le_of_lt high)] at low
    rw [pgRoundUp_eq (Nat.le_of_lt high')] at less
    exact moved.zero kept.bounded call target limit (Nat.le_of_mul_le_mul_right low (by decide))
      (Nat.lt_of_mul_lt_mul_right less) present before behind

end

/-- In every run whose calls can map the pages they add and give up pages only from inside a
page, a further such call returns, and it does all or nothing. -/
theorem sbrk_allOrNothing (boot : Boot ram)
    (run : Path (Guarded (Step ram) (KeepsHeap ram boot.heapStart)) [] boot.process h s)
    (range : InRange increment) (call : HeapCall ram boot.heapStart s grants increment) :
    ∃ p s', syscallSbrk ram grants increment s = .ok (p,s') ∧ AllOrNothing ram s p s' :=
  (run_kept boot run).allOrNothing range call

theorem sbrk_allOrNothing_moved :
    let reached := outcome bootLow [.sbrk always 10000,.sbrk always (-5000)]
    InRange 4000 ∧ HeapCall sixFrames bootLow.heapStart reached.2 always 4000 ∧
      ∃ p s', syscallSbrk sixFrames always 4000 reached.2 = .ok (p,s') ∧ AllOrNothing sixFrames reached.2 p s' := by
  intro reached
  have run : Path (Guarded (Step sixFrames) (KeepsHeap sixFrames bootLow.heapStart)) [] bootLow.process
    reached.1 reached.2 := arrive_guarded perform_step (by decide +kernel)
  have range : InRange 4000 := by decide
  have call : HeapCall sixFrames bootLow.heapStart reached.2 always 4000 := by decide +kernel
  exact ⟨range,call,sbrk_allOrNothing bootLow run range call⟩

def bootHigh : Boot sixFrames := bootSegment 3221213184 (by decide +kernel)

/-- The heap grows over the stack page, which is no page of the heap. -/
theorem heap_grows_over_stack : ∃ p s', syscallSbrk sixFrames always 16 bootHigh.process = .ok (p,s') ∧
    ¬AllOrNothing sixFrames bootHigh.process p s' := by
  have found : ((syscallSbrk sixFrames always 16 bootHigh.process).toOption.any fun out =>
      decide (out.1 ≠ sbrkFailed ∧ bootHigh.process.segbreak = 3221221376 ∧ out.2.segbreak = 3221221392 ∧
        out.2.page 786431 = some ⟨sixFrames.kpage 2,true⟩ ∧ out.2.used 2 = some .image)) = true := by
    decide +kernel
  cases done : syscallSbrk sixFrames always 16 bootHigh.process with
  | error panic =>
    rw [done] at found
    exact absurd found Bool.false_ne_true
  | ok out =>
    rw [done] at found
    obtain ⟨served,start,ends,present,owner⟩ := of_decide_eq_true found
    refine ⟨out.1,out.2,rfl,?_⟩
    intro all
    obtain ⟨pte,f,present',_,frame,heap⟩ := all.backed served 3221221376 (by omega) (by omega)
    obtain rfl := Option.some.inj (present.symm.trans present')
    obtain rfl := Ram.kpage_inj frame
    rw [owner] at heap
    exact absurd heap (by decide)

end OsProj.UserMemory
