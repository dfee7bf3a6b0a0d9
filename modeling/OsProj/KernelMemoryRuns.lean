import OsProj.KernelMemory

/-! Runs of the kernel's memory: clients of malloc, clients that take whole pages, and what they write. -/
namespace OsProj.KernelMemory

open OsProj.Bitmap
open OsProj.ByteMemory
open OsProj.Faulting
open OsProj.Simulating
open OsProj.KernelList (null sizeMod)
open OsProj.Malloc (arenaSize descSize descMax Heap Tracks Served Offers Foreign Confined)
open OsProj.Palloc (pgSize physBase initRamPages)

section
variable {lo mid hi : Nat} {pools : Palloc.State} {out : List Palloc.Group} {g g' : Palloc.Group}

theorem inv_some (inv : Palloc.Inv lo mid hi pools out) (here : g ∈ out) : 0 < g.pageCnt := (inv.inside g here).some_

theorem inv_range (inv : Palloc.Inv lo mid hi pools out) (here : g ∈ out) (has : g.Has b) : lo ≤ b ∧ b < hi := by
  obtain ⟨first,last,located,low,_,high⟩ := inv.pool_at g.user
  have range := (inv.inside g here).range located has
  have room := located.room
  omega

theorem inv_above (inv : Palloc.Inv lo mid hi pools out) (here : g ∈ out) : lo ≤ g.pages ∧ g.pages + pgSize * g.pageCnt ≤ hi := by
  have some_ := inv_some inv here
  have first := inv_range (b := g.pages) inv here ⟨Nat.le_refl _,by unfold pgSize; omega⟩
  have last := inv_range (b := g.pages + pgSize * g.pageCnt - 1) inv here ⟨by unfold pgSize; omega,by unfold pgSize; omega⟩
  unfold pgSize at *
  omega

theorem inv_apart (inv : Palloc.Inv lo mid hi pools out) (here : g ∈ out) (there : g' ∈ out) (apart : g.Apart g') :
    Apart g.pages (pgSize * g.pageCnt) g'.pages (pgSize * g'.pageCnt) := by
  have some_ := inv_some inv here
  have some' := inv_some inv there
  have first := apart g.pages
  have second := apart g'.pages
  unfold Palloc.Group.Has Apart pgSize at *
  omega

end

/-- The kernel's memory with the outstanding blocks of malloc and the outstanding groups of pages of
others. Who has a block or a group may write to it, and the rest of the kernel has its own data below
the pools, where the descriptors of malloc are. -/
inductive Reached (ram : UInt16) (userPageLimit descs : Nat) : State → List (Nat × Nat) → List Palloc.Group → Prop
  | boot (placed : 0 < descs ∧ descs + descSize * descMax ≤ physBase + 1048576)
      (made : Palloc.pallocInit boot (initRamPages ram) userPageLimit = .ok pools)
      (ran : mallocInit descs ⟨pools,0⟩ = .ok ((),k)) : Reached ram userPageLimit descs k [] []
  | call {c : Malloc.Call} (before : Reached ram userPageLimit descs k out others) (allowed : c.Allowed out)
      (ran : serve descs c k = .ok (r,k')) : Reached ram userPageLimit descs k' (c.after r out) others
  | getMultiple (before : Reached ram userPageLimit descs k out others)
      (ran : onPools (Palloc.pallocGetMultiple flags pageCnt) k = .ok (pages,k')) :
      Reached ram userPageLimit descs k' out (if pages = 0 then others else ⟨pages,pageCnt,flags.user⟩ :: others)
  | freeMultiple (before : Reached ram userPageLimit descs k out others) (member : g ∈ others)
      (ran : onPools (Palloc.pallocFreeMultiple g.pages g.pageCnt) k = .ok ((),k')) :
      Reached ram userPageLimit descs k' out (others.erase g)
  | write (before : Reached ram userPageLimit descs k out others)
      (own : ∀ b, memory b ≠ k.pools.memory b → (∃ p n, (p,n) ∈ out ∧ p ≤ b ∧ b < p + n) ∨ (∃ g ∈ others, g.Has b) ∨
        b < descs ∨ descs + descSize * descMax ≤ b ∧ b < physBase + 1048576) :
      Reached ram userPageLimit descs { k with pools := { k.pools with memory := memory } } out others

/-- What holds between any two steps: malloc's heap is in the pages that it holds. -/
structure Whole (lo mid hi descs : Nat) (k : State) (out : List (Nat × Nat)) (others : List Palloc.Group) (s : Malloc.State)
    (h : Heap) : Prop where
  below : descs + descSize * descMax ≤ lo
  tied : Tied lo mid hi others k s
  inv : Malloc.Inv descs s h
  tracks : Tracks h out

def Reach (k : State) (s : Malloc.State) : Set (Nat × Nat) :=
  fun held => held ∈ s.pages ∨ 0 < held.2 ∧ offered k.pools held.2 ≠ null ∧ held.1 = offered k.pools held.2

section
variable {lo mid hi descs : Nat} {k k' : State} {out : List (Nat × Nat)} {others : List Palloc.Group} {s s' : Malloc.State}
  {h h' : Heap}

theorem Tied.fresh (tied : Tied lo mid hi others k s) (some_ : offered k.pools pageCnt ≠ null) :
    ∃ pools', Palloc.Inv lo mid hi pools' (⟨offered k.pools pageCnt,pageCnt,false⟩ :: (s.pages.map groupOf ++ others)) := by
  rcases tied.pools.get noFlags pageCnt with ⟨pages,pools',_,inv,_,_,_,place⟩ | ⟨_,asserted,_⟩
  · have answer : pages = offered k.pools pageCnt := place
    subst answer
    rw [if_neg (show offered k.pools pageCnt ≠ 0 from some_)] at inv
    exact ⟨pools',inv⟩
  · cases asserted

theorem Whole.offers (whole : Whole lo mid hi descs k out others s h) : Offers descs s (offered k.pools) := by
  intro pageCnt _ some_
  obtain ⟨pools',inv⟩ := whole.tied.fresh some_
  have aligned := (inv.placed (List.mem_cons_self ..)).aligned
  have above := inv_above inv (List.mem_cons_self ..)
  have high := inv.high
  have below := whole.below
  refine ⟨aligned,?_,.inr (Nat.le_trans below above.1),fun held inside => ?_⟩
  · exact Nat.le_of_lt (Nat.lt_of_le_of_lt above.2 high)
  · have there : groupOf held ∈ s.pages.map groupOf ++ others := List.mem_append_left _ (List.mem_map_of_mem inside)
    exact inv_apart inv (List.mem_cons_self ..) (List.mem_cons_of_mem _ there) ((List.pairwise_cons.mp inv.apart).1 _ there)

/-- A byte in a group of pages of another client is not in the descriptors and not in malloc's pages. -/
theorem away_of_group (below : descs + descSize * descMax ≤ lo) (inv : Palloc.Inv lo mid hi pools (s.pages.map groupOf ++ others))
    (here : g ∈ others) (has : g.Has b) : Foreign descs {held | held ∈ s.pages} b := by
  have range := inv_range inv (List.mem_append_right _ here) has
  refine ⟨.inr (by omega),?_⟩
  rintro ⟨page,pageCnt⟩ held
  have apart := (List.pairwise_append.mp inv.apart).2.2 (groupOf (page,pageCnt)) (List.mem_map_of_mem held) g here b
  have outside : ¬(page ≤ b ∧ b < page + pgSize * pageCnt) := fun inside => apart inside has
  change b < page ∨ page + pgSize * pageCnt ≤ b
  omega

/-- Other clients' pages are foreign to malloc. -/
theorem Whole.foreign (whole : Whole lo mid hi descs k out others s h) (here : g ∈ others) (has : g.Has b) :
    Foreign descs (Reach k s) b := by
  have away := away_of_group whole.below whole.tied.pools here has
  refine ⟨away.1,?_⟩
  rintro ⟨page,pageCnt⟩ (held | ⟨_,some_,place⟩)
  · exact away.2 _ held
  · obtain ⟨pools',inv⟩ := whole.tied.fresh some_
    have apart := (List.pairwise_cons.mp inv.apart).1 g (List.mem_append_right _ here) b
    have outside : ¬(offered k.pools pageCnt ≤ b ∧ b < offered k.pools pageCnt + pgSize * pageCnt) := fun inside => apart inside has
    change page = offered k.pools pageCnt at place
    change b < page ∨ page + pgSize * pageCnt ≤ b
    omega

/-- A call of malloc in the whole. -/
theorem Whole.serve {c : Malloc.Call} (whole : Whole lo mid hi descs k out others s h) (allowed : c.Allowed out) :
    ∃ r k' s' h', serve descs c k = .ok (r,k') ∧ c.run descs (offered k.pools) s = .ok (r,s') ∧
      Whole lo mid hi descs k' (c.after r out) others s' h' ∧ Served descs c out s h s' h' r ∧
      Confined descs (Reach k s) s.memory s'.memory := by
  obtain ⟨r,s',h',ran,served⟩ := whole.inv.serve whole.tracks whole.offers allowed
  obtain ⟨k',done,tied⟩ := simulates_serve descs c k s r s' (Asks.start whole.tied) ran
  refine ⟨r,k',s',h',done,ran,⟨whole.below,tied,served.inv,served.tracks⟩,served,?_⟩
  exact whole.inv.serve_stays whole.tracks whole.offers allowed (fun held inside => .inl inside)
    (fun pageCnt positive some_ => .inr ⟨positive,some_,rfl⟩) r s' ran

/-- Other steps change no byte of malloc's. -/
theorem Whole.beside (whole : Whole lo mid hi descs k out others s h)
    (pools_ : Palloc.Inv lo mid hi pools (s.pages.map groupOf ++ others'))
    (only : ∀ b, pools.memory b ≠ k.pools.memory b → Malloc.Client descs s out b) :
    Whole lo mid hi descs { k with pools := pools } out others' { s with memory := pools.memory } h where
  below := whole.below
  tied := ⟨rfl,whole.tied.descCnt,pools_⟩
  inv := by
    refine whole.inv.written whole.tracks fun b => ?_
    rw [whole.tied.memory]
    by_cases same : pools.memory b = k.pools.memory b
    · exact .inl same
    · exact .inr (only b same)
  tracks := whole.tracks

theorem Whole.getMultiple (whole : Whole lo mid hi descs k out others s h)
    (ran : onPools (Palloc.pallocGetMultiple flags pageCnt) k = .ok (pages,k')) :
    ∃ s', Whole lo mid hi descs k' out (if pages = 0 then others else ⟨pages,pageCnt,flags.user⟩ :: others) s' h := by
  rcases whole.tied.pools.get flags pageCnt with ⟨pages',pools,got,inv,changed,_⟩ | ⟨failed,_⟩
  · rw [onPools,onPart_ok got] at ran
    cases ran
    have inv' : Palloc.Inv lo mid hi pools
        (s.pages.map groupOf ++ if pages = 0 then others else ⟨pages,pageCnt,flags.user⟩ :: others) := by
      split at inv
      · rename_i none_
        rwa [if_pos none_]
      · rename_i some_
        rw [if_neg some_]
        exact inv_perm inv List.perm_middle
    refine ⟨_,whole.beside inv' fun b differs => .inr ?_⟩
    obtain ⟨some_,has⟩ := changed b differs
    rw [if_neg some_] at inv'
    exact away_of_group whole.below inv' (List.mem_cons_self ..) has
  · rw [onPools,onPart,failed] at ran
    cases ran

theorem Whole.freeMultiple (whole : Whole lo mid hi descs k out others s h) (member : g ∈ others) :
    ∃ k' s', onPools (Palloc.pallocFreeMultiple g.pages g.pageCnt) k = .ok ((),k') ∧
      Whole lo mid hi descs k' out (others.erase g) s' h ∧ ∀ b, k'.pools.memory b ≠ k.pools.memory b → g.Has b := by
  obtain ⟨pools,ran,inv,_,changed⟩ := whole.tied.pools.free (List.mem_append_right _ member)
  have apart := (List.pairwise_append.mp whole.tied.pools.apart).2.2
  have absent : g ∉ s.pages.map groupOf := by
    intro held
    have some_ := inv_some whole.tied.pools (List.mem_append_right _ member)
    have has : g.Has g.pages := ⟨Nat.le_refl _,by unfold pgSize; omega⟩
    exact apart g held g member g.pages has has
  rw [List.erase_append_right _ absent] at inv
  refine ⟨_,_,onPart_ok ran,whole.beside inv fun b differs => .inr ?_,changed⟩
  exact away_of_group whole.below whole.tied.pools member (changed b differs)

theorem Whole.write (whole : Whole lo mid hi descs k out others s h)
    (own : ∀ b, memory b ≠ k.pools.memory b → (∃ p n, (p,n) ∈ out ∧ p ≤ b ∧ b < p + n) ∨ (∃ g ∈ others, g.Has b) ∨
      b < descs ∨ descs + descSize * descMax ≤ b ∧ b < lo) :
    ∃ s', Whole lo mid hi descs { k with pools := { k.pools with memory := memory } } out others s' h := by
  refine ⟨_,whole.beside (inv_memory whole.tied.pools memory) fun b differs => ?_⟩
  have lower (low : b < lo) (held : Nat × Nat) (inside : held ∈ s.pages) : b < held.1 := by
    have here : groupOf held ∈ s.pages.map groupOf ++ others := List.mem_append_left _ (List.mem_map_of_mem inside)
    have above : lo ≤ held.1 := (inv_above whole.tied.pools here).1
    omega
  rcases own b differs with block | ⟨g,here,has⟩ | before | ⟨behind,low⟩
  · exact .inl block
  · exact .inr (away_of_group whole.below whole.tied.pools here has)
  · have below := whole.below
    exact .inr ⟨.inl before,fun held inside => .inl (lower (by omega) held inside)⟩
  · exact .inr ⟨.inr behind,fun held inside => .inl (lower low held inside)⟩

end

/-- The pages and the blocks in use; `held` are the groups of pages that malloc has. -/
structure Layout (k : State) (out : List (Nat × Nat)) (others held : List Palloc.Group) : Prop where
  apart : (held ++ others).Pairwise Palloc.Group.Apart
  placed : ∀ g ∈ held ++ others, g.Placed k.pools
  marked : ∀ user, ∀ i < (k.pools.pool user).usedMap.bitCnt, (k.pools.pool user).usedMap.bits i = true ↔
    ∃ g ∈ held ++ others, g.user = user ∧ g.Has ((k.pools.pool user).base + pgSize * i)
  kernel : ∀ g ∈ held, g.user = false
  used : ∀ g ∈ held, ∃ p n, (p,n) ∈ out ∧ g.Has p
  inside : ∀ p n, (p,n) ∈ out → ∃ g ∈ held, g.pages + arenaSize ≤ p ∧ p + n ≤ g.pages + pgSize * g.pageCnt
  disjoint : out.Pairwise fun p q => Apart p.1 p.2 q.1 q.2

def NoRun (pools : Palloc.State) (pageCnt : Nat) : Prop :=
  ∀ start, start + pageCnt ≤ pools.kernelPool.usedMap.bitCnt →
    ∃ i, start ≤ i ∧ i < start + pageCnt ∧ pools.kernelPool.usedMap.bits i = true

/-- What a call of malloc leaves alone, what realloc keeps, and when there is nothing to be had. -/
structure Answers (descs : Nat) (k : State) (out : List (Nat × Nat)) (others : List Palloc.Group) (c : Malloc.Call) (r : Nat)
    (k' : State) : Prop where
  blocks : ∀ p n, (p,n) ∈ out → (p,n) ∈ c.after r out → Agree k.pools.memory k'.pools.memory p n
  pages : ∀ g ∈ others, Agree k.pools.memory k'.pools.memory g.pages (pgSize * g.pageCnt)
  kernel : ∀ b < physBase + 1048576, b < descs ∨ descs + descSize * descMax ≤ b → k'.pools.memory b = k.pools.memory b
  copied : ∀ old size n, c = .realloc old size → r ≠ null → (old,n) ∈ out →
    ∀ j < min n size, k'.pools.memory (r + j) = k.pools.memory (old + j)
  refused : r = null → c.request ≠ 0 → k'.pools.memory = k.pools.memory
  full : ∀ size, c = .malloc size → r = null → size ≠ 0 →
    ∃ pageCnt, 0 < pageCnt ∧ pgSize * pageCnt < size + arenaSize + pgSize ∧ NoRun k.pools pageCnt

section
variable {lo mid hi descs : Nat} {k k' : State} {out : List (Nat × Nat)} {others : List Palloc.Group} {s s' : Malloc.State}
  {h h' : Heap}

theorem Whole.layout (whole : Whole lo mid hi descs k out others s h) : Layout k out others (s.pages.map groupOf) where
  apart := whole.tied.pools.apart
  placed := fun _ here => whole.tied.pools.placed here
  marked := whole.tied.pools.marked
  kernel := by
    intro g here
    obtain ⟨held,_,rfl⟩ := List.mem_map.mp here
    rfl
  used := by
    intro g here
    obtain ⟨held,inside,rfl⟩ := List.mem_map.mp here
    obtain ⟨g,there,rfl⟩ := List.mem_map.mp (whole.inv.pages.mem_iff.mp inside)
    obtain ⟨x,n,piece,unlisted⟩ := whole.inv.kept g there
    obtain ⟨size,member⟩ := whole.tracks.known x n ⟨g,there,piece,unlisted⟩
    have within := piece.within (whole.inv.shape.sound.laid g there)
    refine ⟨x,size,member,?_⟩
    change g.page ≤ x ∧ x < g.page + g.size
    omega
  inside := by
    intro p n member
    obtain ⟨g,there,low,high⟩ := (whole.inv.represents whole.tracks).inside p n member
    refine ⟨groupOf g.held,List.mem_map_of_mem ?_,low,high⟩
    exact whole.inv.pages.mem_iff.mpr (List.mem_map_of_mem there)
  disjoint := (whole.inv.represents whole.tracks).disjoint

theorem offered_null (base : 0 < pools.kernelPool.base) (positive : 0 < pageCnt) (none_ : offered pools pageCnt = null) :
    NoRun pools pageCnt := by
  intro start fits
  unfold offered at none_
  cases found : scan pools.kernelPool.usedMap.bits pools.kernelPool.usedMap.bitCnt 0 pageCnt false with
  | none => exact scan_none found (Nat.zero_le start) fits
  | some idx =>
    rw [found,Option.elim_some,if_neg (by omega)] at none_
    change pools.kernelPool.base + pgSize * idx = 0 at none_
    omega

/-- The rest of the kernel is foreign to malloc. -/
theorem Whole.foreign_below (whole : Whole lo mid hi descs k out others s h) (low : b < lo)
    (outside : b < descs ∨ descs + descSize * descMax ≤ b) : Foreign descs (Reach k s) b := by
  refine ⟨outside,?_⟩
  rintro ⟨page,pageCnt⟩ (held | ⟨_,some_,place⟩)
  · have here : groupOf (page,pageCnt) ∈ s.pages.map groupOf ++ others := List.mem_append_left _ (List.mem_map_of_mem held)
    have above : lo ≤ page := (inv_above whole.tied.pools here).1
    exact .inl (Nat.lt_of_lt_of_le low above)
  · obtain ⟨pools',inv⟩ := whole.tied.fresh some_
    have above : lo ≤ offered k.pools pageCnt := (inv_above inv (List.mem_cons_self ..)).1
    change page = offered k.pools pageCnt at place
    exact .inl (by change b < page; omega)

theorem Whole.answers {c : Malloc.Call} (whole : Whole (physBase + 1048576) mid hi descs k out others s h)
    (allowed : c.Allowed out) : ∃ r k', KernelMemory.serve descs c k = .ok (r,k') ∧ Answers descs k out others c r k' := by
  obtain ⟨r,k',s',h',done,ran,whole',served,confined⟩ := whole.serve allowed
  have before := whole.tied.memory
  have after := whole'.tied.memory
  rw [before,after] at confined
  refine ⟨r,k',done,⟨?_,?_,?_,?_,?_,?_⟩⟩
  · intro p n member member'
    rw [← before,← after]
    exact served.untouched whole.inv whole.tracks member member'
  · intro g here b low high
    exact (confined b (whole.foreign here ⟨low,high⟩)).symm
  · intro b low outside
    exact confined b (whole.foreign_below low outside)
  · rintro old size n rfl granted member j inside
    obtain ⟨k,live,room⟩ := whole.tracks.live old n member
    rw [← before,← after]
    refine served.copied granted k live j ?_
    change j < min size k
    omega
  · intro none_ some_
    rw [← before,← after,served.refused none_ some_]
  · rintro size rfl rfl nonzero
    have fits : size + arenaSize + (Malloc.pgSize - 1) < sizeMod := allowed.fits
    obtain ⟨p,t,ran',⟨_,_,zero | ⟨pageCnt,positive,little,nothing⟩⟩ | ⟨h'',n,grants,_⟩⟩ := whole.inv.malloc_run whole.offers fits
    · exact absurd zero nonzero
    · exact ⟨pageCnt,positive,little,offered_null (whole.tied.pools.base_pos false) positive nothing⟩
    · have same : p = null := by
        change Malloc.malloc descs (offered k.pools) size s = .ok (null,s') at ran
        rw [ran'] at ran
        cases ran
        rfl
      exact absurd same (grants.inv.shape.sound.live_nonnull grants.granted)

end

section
variable {ram : UInt16} {userPageLimit descs : Nat} {k : State} {out : List (Nat × Nat)} {others : List Palloc.Group}

theorem Reached.whole (reached : Reached ram userPageLimit descs k out others) :
    ∃ mid s h, Whole (physBase + 1048576) mid (physBase + pgSize * initRamPages ram) descs k out others s h := by
  induction reached with
  | @boot boot pools k placed made ran =>
    rcases Palloc.pallocInit_cases boot ram userPageLimit with ⟨name,failed⟩ | ⟨pools',mid,made',inv⟩
    · rw [made] at failed
      cases failed
    · rw [made] at made'
      cases made'
      have small : 0 < descs ∧ descs + descSize * descMax ≤ sizeMod := by
        unfold physBase at placed
        unfold sizeMod
        omega
      obtain ⟨s,ran',heap⟩ := Malloc.mallocInit_run small pools.memory
      have started : mallocInit descs ⟨pools,0⟩ = .ok ((),⟨{ pools with memory := s.memory },s.descCnt⟩) := by
        rw [mallocInit,onHeap,onPart,ran']
      rw [started] at ran
      cases ran
      have none_ : s.pages = [] := heap.pages.eq_nil
      refine ⟨mid,s,Heap.empty,placed.2,⟨rfl,rfl,?_⟩,heap,?_⟩
      · rw [none_]
        exact inv_memory inv s.memory
      · refine ⟨fun _ _ member => (by cases member),?_,.nil⟩
        rintro p n ⟨g,held,_⟩
        cases held
  | call _ allowed ran ih =>
    obtain ⟨mid,s,h,whole⟩ := ih
    obtain ⟨r,k',s',h',ran',_,whole',_⟩ := whole.serve allowed
    rw [ran] at ran'
    cases ran'
    exact ⟨mid,s',h',whole'⟩
  | getMultiple _ ran ih =>
    obtain ⟨mid,s,h,whole⟩ := ih
    obtain ⟨s',whole'⟩ := whole.getMultiple ran
    exact ⟨mid,s',h,whole'⟩
  | freeMultiple _ member ran ih =>
    obtain ⟨mid,s,h,whole⟩ := ih
    obtain ⟨k',s',ran',whole',_⟩ := whole.freeMultiple member
    rw [ran] at ran'
    cases ran'
    exact ⟨mid,s',h,whole'⟩
  | write _ own ih =>
    obtain ⟨mid,s,h,whole⟩ := ih
    obtain ⟨s',whole'⟩ := whole.write own
    exact ⟨mid,s',h,whole'⟩

/-- In every state that is reached the groups of pages of malloc and of the other clients are apart, are
marked in the bitmaps and nothing else is, each group of malloc's has an outstanding block in it, and the
blocks are in malloc's groups and apart. Every call of malloc, every request for pages without `PAL_ASSERT`
and every return of pages passes all checks. Calls of malloc leave the other blocks, the pages of others
and the rest of the kernel alone and are refused only when the kernel pool has no such run of pages. -/
theorem blocks_over_pages (reached : Reached ram userPageLimit descs k out others) :
    (∃ held, Layout k out others held) ∧
    (∀ c : Malloc.Call, c.Allowed out → ∃ r k', serve descs c k = .ok (r,k') ∧ Answers descs k out others c r k') ∧
    (∀ flags pageCnt, flags.assert = false → ∃ pages k', onPools (Palloc.pallocGetMultiple flags pageCnt) k = .ok (pages,k')) ∧
    ∀ g ∈ others, ∃ k', onPools (Palloc.pallocFreeMultiple g.pages g.pageCnt) k = .ok ((),k') ∧
      ∀ b, k'.pools.memory b ≠ k.pools.memory b → g.Has b := by
  obtain ⟨mid,s,h,whole⟩ := reached.whole
  refine ⟨⟨_,whole.layout⟩,fun c allowed => whole.answers allowed,?_,?_⟩
  · intro flags pageCnt checked
    rcases whole.tied.pools.get flags pageCnt with ⟨pages,pools,got,_⟩ | ⟨_,asserted,_⟩
    · exact ⟨pages,_,onPart_ok got⟩
    · rw [checked] at asserted
      cases asserted
  · intro g member
    obtain ⟨k',_,ran,_,changed⟩ := whole.freeMultiple member
    exact ⟨k',ran,changed⟩

end

/-- Memory that is all zero, but for the bits where the bitmaps come to be. -/
def smallBoot : Palloc.Boot := ⟨fun _ => 0,fun _ _ => true⟩

theorem smallBoot_ok : ∃ pools, Palloc.pallocInit smallBoot (initRamPages 1024) 100 = .ok pools ∧
    0 < pools.kernelPool.usedMap.bitCnt := by
  have some_ : ((Palloc.pallocInit smallBoot (initRamPages 1024) 100).map fun pools =>
      decide (0 < pools.kernelPool.usedMap.bitCnt)).toOption = some true := by decide +kernel
  cases booted : Palloc.pallocInit smallBoot (initRamPages 1024) 100 with
  | error panic =>
    rw [booted] at some_
    cases some_
  | ok pools =>
    rw [booted] at some_
    exact ⟨pools,rfl,of_decide_eq_true (Option.some.inj some_)⟩

theorem blocks_over_pages_first :
    ∃ k p, p ≠ null ∧ Reached 1024 100 (physBase + 4 * pgSize) k [(p,1000)] [] ∧
      ∃ held, Layout k [(p,1000)] [] held ∧ ∃ g ∈ held, g.pages + arenaSize ≤ p := by
  have placed : 0 < physBase + 4 * pgSize ∧ physBase + 4 * pgSize + descSize * descMax ≤ physBase + 1048576 := by decide
  obtain ⟨pools,booted,some_⟩ := smallBoot_ok
  have small : 0 < physBase + 4 * pgSize ∧ physBase + 4 * pgSize + descSize * descMax ≤ sizeMod := by decide
  obtain ⟨s,ran,_⟩ := Malloc.mallocInit_run small pools.memory
  have started : mallocInit (physBase + 4 * pgSize) ⟨pools,0⟩ = .ok ((),⟨{ pools with memory := s.memory },s.descCnt⟩) := by
    rw [mallocInit,onHeap,onPart,ran]
  have start : Reached 1024 100 (physBase + 4 * pgSize) ⟨{ pools with memory := s.memory },s.descCnt⟩ [] [] :=
    .boot placed booted started
  have allowed : (Malloc.Call.malloc 1000).Allowed [] := ⟨by decide,.inl rfl⟩
  obtain ⟨⟨held,layout⟩,calls,_⟩ := blocks_over_pages start
  obtain ⟨p,k,served,answers⟩ := calls (.malloc 1000) allowed
  have nonnull : p ≠ null := by
    intro none_
    obtain ⟨pageCnt,positive,little,full⟩ := answers.full 1000 rfl none_ (by decide)
    have one : pageCnt = 1 := by
      unfold pgSize arenaSize at little
      omega
    subst one
    obtain ⟨i,_,first,taken⟩ := full 0 some_
    obtain ⟨g,here,_⟩ := (layout.marked false i (by change i < pools.kernelPool.usedMap.bitCnt; omega)).mp taken
    rw [List.append_nil] at here
    obtain ⟨_,_,member,_⟩ := layout.used g here
    cases member
  have after : (Malloc.Call.malloc 1000).after p [] = [(p,1000)] := if_pos nonnull
  have reached := start.call allowed served
  rw [after] at reached
  obtain ⟨⟨held',layout'⟩,_⟩ := blocks_over_pages reached
  obtain ⟨g,here,above,_⟩ := layout'.inside p 1000 (List.mem_singleton.mpr rfl)
  exact ⟨k,p,nonnull,reached,held',layout',g,here,above⟩

end OsProj.KernelMemory
