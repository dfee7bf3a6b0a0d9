import OsProj.MmAllocShape

/-! When nothing is in use any more, one free block holds all memory. Two free neighbours
never stand in the list: this survives blocks that are handed out while still marked free,
but not a split, nor an append behind a tail that was merged away. -/
namespace OsProj.MmAlloc

open OsProj.ByteMemory OsProj.Faulting OsProj.History

/-- `mem_tail` is the last node of the list. -/
def TailLast (s : Heap) : Prop :=
  ∀ a, Listed s a → (nodeAt s.mem a).next = null → s.memTail = a

/-- The request splits no block, comes behind the last node if it comes behind the break,
and fits the size field if it is the first. -/
def ServedInPlace (s : Heap) (size : Nat) : Prop :=
  (s.memHead = null → size < 4294967296) ∧ (Extends s size → TailLast s) ∧
  (0 < size → size < 4294967295 → ∀ curr, FirstFit s.mem size s.memHead curr →
    (nodeAt s.mem curr).size < 1 + size + nodeSize)

def KeepsMerged (_ : List Event) (s : System) : Event → Prop
  | (.malloc _ size,_) => ServedInPlace s.heap size
  | (.realloc _ ptr size,_) =>
    ServedInPlace s.heap size ∧ (size < 4294967295 → MergeFits s.heap ptr)
  | (.free ptr,_) => MergeFits s.heap ptr
  | (.write _ _,_) => True

/-- A block that is not marked free is in use, and ranges in use lie inside blocks. A range
may lie in a block that is marked free. -/
structure Merged (s : System) (blocks : List Block) : Prop where
  compact : Compact s.heap blocks
  separated : blocks.IsChain (fun b c => b.free = true → c.free = false)
  held : ∀ b ∈ blocks, b.free = false → ∃ r ∈ s.live, r.1 = b.payload
  inside : ∀ r ∈ s.live, ∃ b ∈ blocks, b.payload ≤ r.1 ∧ r.1 + r.2 ≤ b.payload + b.size

theorem TailLast.list (last : TailLast s) (chain : Chain s blocks) (some : blocks ≠ []) :
    s.memTail = lastAddr null blocks := by
  obtain rfl | ⟨front,b,rfl⟩ := List.eq_nil_or_concat blocks
  · exact absurd rfl some
  · rw [List.concat_eq_append] at chain ⊢
    have ends : (nodeAt s.mem b.addr).next = null := by rw [chain.node]; rfl
    rw [last b.addr chain.reached ends]
    simp [lastAddr]

/-- Freeing leaves no two free neighbours. -/
theorem Freed.separated (freed : Freed ptr blocks blocks')
    (separated : blocks.IsChain (fun b c => b.free = true → c.free = false)) :
    blocks'.IsChain (fun b c => b.free = true → c.free = false) := by
  cases freed with
  | absent => exact separated
  | found payload sound left right =>
    rename_i xs b xs₁ b₁ ys b₂ ys₂
    obtain ⟨front,back,_⟩ := List.isChain_append.mp separated
    have behind := (List.isChain_cons.mp back).2
    have early : xs₁.IsChain (fun b c => b.free = true → c.free = false) ∧
        ∀ a ∈ xs₁.getLast?, a.free = false := by
      cases left with
      | none taken => exact ⟨front,taken⟩
      | absorb free =>
        obtain ⟨front,_,apart⟩ := List.isChain_append.mp front
        refine ⟨front,?_⟩
        intro a last
        rw [Bool.eq_false_iff]
        intro free'
        rw [apart a last _ (by simp) free'] at free
        contradiction
    have late : ys₂.IsChain (fun b c => b.free = true → c.free = false) ∧
        ∀ c ∈ ys₂.head?, c.free = false := by
      cases right with
      | none taken => exact ⟨behind,taken⟩
      | absorb free =>
        obtain ⟨apart,behind⟩ := List.isChain_cons.mp behind
        exact ⟨behind,fun c first => apart c first free⟩
    refine List.isChain_append.mpr ⟨early.1,List.isChain_cons.mpr ⟨fun c first _ => late.2 c first,late.1⟩,?_⟩
    intro a last c _ free
    rw [early.2 a last] at free
    contradiction

theorem Compact.payload_ne {b c : Block} (compact : Compact s (xs ++ b :: ys)) (member : c ∈ xs ++ ys) :
    c.payload ≠ b.payload := by
  have increasing := compact.chain.laid.increasing
  rw [List.map_append,List.map_cons,List.pairwise_append,List.pairwise_cons] at increasing
  obtain ⟨_,⟨behind,_⟩,before⟩ := increasing
  rw [compact.payload (mem_around.mpr (.inr member)),compact.payload (mem_around.mpr (.inl rfl))]
  rcases List.mem_append.mp member with early | late
  · have := before c.addr (List.mem_map_of_mem early) b.addr (by simp)
    omega
  · have := behind c.addr (List.mem_map_of_mem late)
    omega

/-- What is not marked free after freeing a pointer was there before and is another's. -/
theorem Compact.freed_others (compact : Compact s blocks) (freed : Freed ptr blocks blocks')
    (member : c ∈ blocks') (taken : c.free = false) : c ∈ blocks ∧ c.payload ≠ ptr := by
  cases freed with
  | absent none => exact ⟨member,none c member⟩
  | found payload sound left right =>
    rename_i xs b xs₁ b₁ ys b₂ ys₂
    have marked : b₂.free = true := by
      have first : b₁.free = true := by
        cases left with
        | none => rfl
        | absorb free => exact free
      cases right <;> exact first
    have beside : c ∈ xs ++ ys := by
      rcases mem_around.mp member with rfl | beside
      · rw [marked] at taken
        contradiction
      refine List.mem_append.mpr ((List.mem_append.mp beside).imp ?_ ?_)
      · intro early
        cases left with
        | none => exact early
        | absorb => exact List.mem_append_left _ early
      · intro late
        cases right with
        | none => exact late
        | absorb => exact List.mem_cons_of_mem _ late
    exact ⟨mem_around.mpr (.inr beside),payload ▸ compact.payload_ne beside⟩

/-- A live pointer is no failure and not null. -/
theorem Merged.real (merged : Merged s blocks) (held : ∃ r ∈ s.live, r.1 = ptr) :
    ptr ≠ sbrkFailed ∧ ptr ≠ null := by
  obtain ⟨r,member,rfl⟩ := held
  obtain ⟨b,listed,low,high⟩ := merged.inside r member
  have position := merged.compact.payload_le listed
  have limit := merged.compact.chain.high
  have real := merged.compact.chain.payload_ne_null listed
  simp only [sbrkFailed,addressLimit,null] at *
  omega

theorem Merged.congr (merged : Merged s blocks) {m : Memory}
    (same : ∀ b ∈ blocks, nodeAt m b.addr = nodeAt s.heap.mem b.addr) :
    Merged { s with heap := { s.heap with mem := m } } blocks :=
  ⟨merged.compact.congr same,merged.separated,merged.held,merged.inside⟩

/-- Freeing a pointer, with what the client still holds of its ranges. -/
theorem Merged.free (merged : Merged s blocks) (fits : ListFits ptr blocks) (real : ptr ≠ sbrkFailed)
    {live : Ranges} (kept : ∀ r ∈ s.live, r.1 ≠ ptr → r ∈ live) (within : ∀ r ∈ live, r ∈ s.live)
    (ok : mmFree fuel ptr s.heap = .ok (u,heap)) : ∃ blocks', Merged ⟨heap,live⟩ blocks' := by
  have compact := merged.compact
  obtain ⟨m',blocks',rfl,chain',freed⟩ := mmFree_spec compact.chain real ok
  have compact' := compact.freed fits chain' freed
  refine ⟨blocks',compact',freed.separated merged.separated,?_,?_⟩
  · intro c member taken
    obtain ⟨old,other⟩ := compact.freed_others freed member taken
    obtain ⟨r,held,same⟩ := merged.held c old taken
    exact ⟨r,kept r held (by rw [same]; exact other),same⟩
  · intro r member
    obtain ⟨b,listed,low,high⟩ := merged.inside r (within r member)
    obtain ⟨c,listed',before,behind⟩ := (compact.tight.freed fits freed).2 b listed
    rw [compact.payload listed] at low high
    refine ⟨c,listed',?_,?_⟩ <;> rw [compact'.payload listed'] <;> omega

/-- The bytes a request that is granted is given. -/
theorem Merged.malloc (merged : Merged s blocks) (place : ServedInPlace s.heap size)
    (succeeds : Extends s.heap size → grants.Suffice s.heap size)
    (ok : mmMalloc fuel grants size s.heap = .ok (p,heap)) :
    ∃ blocks', Merged ⟨heap,s.live.add p size⟩ blocks' ∧
      (blocks' = blocks ∨ (Extends s.heap size ∧ blocks' = blocks ++ [⟨s.heap.brk,size,false,false⟩])) ∧
      (p ≠ null → (s.heap.memHead = null ∨ size < 4294967295) ∧
        ∀ c ∈ blocks', Apart p size c.addr nodeSize) := by
  obtain ⟨small,tail,whole⟩ := place
  have compact := merged.compact
  rcases compact.malloc (fun extends' => (tail extends').list compact.chain) small whole succeeds ok with
    ⟨_,rfl,rfl⟩ | ⟨_,most,rfl,b,listed,_,_,room,rfl⟩ | ⟨extends',rfl,extended⟩
  · exact ⟨blocks,merged,.inl rfl,fun impossible => absurd rfl impossible⟩
  · have served := compact.chain.payload_ne_null listed
    rw [Ranges.add,if_neg served]
    refine ⟨blocks,⟨compact,merged.separated,?_,?_⟩,.inl rfl,?_⟩
    · intro c member taken
      obtain ⟨r,held,same⟩ := merged.held c member taken
      exact ⟨r,List.mem_cons_of_mem _ held,same⟩
    · intro r member
      rcases List.mem_cons.mp member with rfl | old
      · exact ⟨b,listed,Nat.le_refl _,Nat.add_le_add_left room _⟩
      · exact merged.inside r old
    · refine fun _ => ⟨.inr most,?_⟩
      intro c member
      exact compact.inside_apart listed (Nat.le_refl _) (Nat.add_le_add_left room _) member
  · have served : s.heap.brk + nodeSize ≠ null := by simp only [nodeSize,null]; omega
    rw [Ranges.add,if_neg served]
    refine ⟨_,⟨extended.compact,?_,?_,?_⟩,.inr ⟨extends',rfl⟩,
      fun _ => ⟨extends'.2.imp_right And.left,fun _ => compact.behind_apart⟩⟩
    · refine List.isChain_append.mpr ⟨merged.separated,.singleton _,?_⟩
      intro a _ c first _
      rw [← Option.some.inj first]
    · intro c member taken
      rcases List.mem_append.mp member with old | new
      · obtain ⟨r,held,same⟩ := merged.held c old taken
        exact ⟨r,List.mem_cons_of_mem _ held,same⟩
      · rw [List.mem_singleton.mp new]
        exact ⟨_,List.mem_cons_self,rfl⟩
    · intro r member
      rcases List.mem_cons.mp member with rfl | old
      · exact ⟨_,List.mem_append_right _ (List.mem_singleton_self _),Nat.le_refl _,Nat.le_refl _⟩
      · obtain ⟨b,listed,range⟩ := merged.inside r old
        exact ⟨b,List.mem_append_left _ listed,range⟩

theorem Merged.realloc (merged : Merged s blocks) (held : ∃ r ∈ s.live, r.1 = ptr)
    (positive : size ≠ 0) (place : ServedInPlace s.heap size)
    (succeeds : Extends s.heap size → grants.Suffice s.heap size)
    (fits : size < 4294967295 → ListFits ptr blocks)
    (ok : mmRealloc fuel grants ptr size s.heap = .ok (p,heap)) :
    ∃ blocks', Merged ⟨heap,if p = null then s.live else (s.live.remove ptr).add p size⟩ blocks' := by
  obtain ⟨real,present⟩ := merged.real held
  have compact := merged.compact
  have listed : s.heap.memHead ≠ null := by
    obtain ⟨r,member,_⟩ := held
    obtain ⟨b,listed,_⟩ := merged.inside r member
    exact compact.listed listed
  obtain ⟨heap₁,allocated,rest⟩ := mmRealloc_spec compact.chain real present positive ok
  obtain ⟨blocks₁,merged₁,grown,clear⟩ := merged.malloc place succeeds allocated
  have kept : ∀ b ∈ blocks, b ∈ blocks₁ := by
    rcases grown with rfl | ⟨_,rfl⟩
    · exact fun b member => member
    · exact fun b member => List.mem_append_left _ member
  rcases rest blocks₁ merged₁.compact.chain (fun b member _ => kept b member)
    (fun served => (clear served).2) with
    ⟨rfl,rfl⟩ | ⟨served,b,member,_,payload,freed⟩
  · exact ⟨blocks₁,merged₁⟩
  obtain ⟨most,apart⟩ := clear served
  have fits₁ : ListFits ptr blocks₁ := by
    have total := fits (most.resolve_left listed)
    rcases grown with rfl | ⟨_,rfl⟩
    · exact total
    · exact total.extend rfl (fun same => compact.fresh member (payload.trans same.symm))
  have copied := merged₁.congr (m := copy heap₁.mem p ptr (min b.size size))
    (fun c listed => nodeAt_copy_apart ((apart c listed).mono (by omega) (by omega)) _ _)
  rw [if_neg served]
  refine copied.free fits₁ real ?_ ?_ freed
  · intro r member other
    simp only [Ranges.add,if_neg served,List.mem_cons] at member ⊢
    exact member.imp_right (fun old => mem_remove old other)
  · intro r member
    simp only [Ranges.add,if_neg served,List.mem_cons] at member ⊢
    exact member.imp_right (fun kept => (remove_sublist s.live ptr).subset kept)

theorem Merged.step (merged : Merged s blocks) (step : Step h s e s') (succeeds : SbrkSucceeds s e.1)
    (condition : KeepsMerged h s e) : ∃ blocks', Merged s' blocks' := by
  obtain ⟨q,p⟩ := e
  have chain := merged.compact.chain
  have removed (ptr : Nat) (held : ∃ r ∈ s.live, r.1 = ptr) (fits : MergeFits s.heap ptr) {heap : Heap}
      {fuel : Nat} {u : Unit} (ok : mmFree fuel ptr s.heap = .ok (u,heap)) :
      ∃ blocks', Merged ⟨heap,s.live.remove ptr⟩ blocks' :=
    merged.free (fits.list chain) (merged.real held).1 (fun _ => mem_remove)
      (fun _ kept => (remove_sublist s.live ptr).subset kept) ok
  cases step.moves (fun r member => (merged.real ⟨r,member,rfl⟩).2) with
  | idle => exact ⟨blocks,merged⟩
  | malloc same ok =>
    rcases same with rfl | rfl
    · obtain ⟨blocks',merged',_⟩ := merged.malloc condition succeeds ok
      exact ⟨blocks',merged'⟩
    · obtain ⟨blocks',merged',_⟩ := merged.malloc condition.1 succeeds ok
      exact ⟨blocks',merged'⟩
  | free same held ok =>
    rcases same with rfl | ⟨grants,rfl⟩
    · exact removed _ held condition ok
    · exact removed _ held (condition.2 (by decide)) ok
  | realloc same positive held ok =>
    subst same
    exact merged.realloc held positive condition.1 succeeds (fun most => (condition.2 most).list chain) ok
  | write _ held =>
    obtain ⟨r,member,low,high⟩ := held
    obtain ⟨b,listed,before,behind⟩ := merged.inside r member
    refine ⟨blocks,merged.congr ?_⟩
    intro c listed'
    exact nodeAt_fill_apart
      (merged.compact.inside_apart listed (by omega) (by omega) listed') _ _

/-- One free block is all there is, and it holds all memory behind its header. -/
structure Coalesced (s : Heap) (a : Nat) : Prop where
  head : s.memHead = a
  real : a ≠ null
  alone : (nodeAt s.mem a).prev = null ∧ (nodeAt s.mem a).next = null
  free : (nodeAt s.mem a).free = true
  whole : s.start + nodeSize + (nodeAt s.mem a).size = s.brk

/-- Where nothing is in use, no block is left to stand between free ones. -/
theorem Merged.single (merged : Merged s blocks) (idle : s.live = []) (obtained : s.heap.start < s.heap.brk) :
    ∃ b, blocks = [b] ∧ b.free = true := by
  have free (b : Block) (member : b ∈ blocks) : b.free = true := by
    rw [← Bool.not_eq_false]
    intro taken
    obtain ⟨r,held,_⟩ := merged.held b member taken
    rw [idle] at held
    contradiction
  have tight := merged.compact.tight
  have separated := merged.separated
  rcases blocks with _ | ⟨b,_ | ⟨c,blocks⟩⟩
  · exact absurd tight (Nat.ne_of_lt obtained)
  · exact ⟨b,rfl,free b (by simp)⟩
  · have taken := (List.isChain_cons_cons.mp separated).1 (free b (by simp))
    rw [free c (by simp)] at taken
    contradiction

theorem Merged.coalesced (merged : Merged s [b]) (free : b.free = true) : Coalesced s.heap b.addr := by
  have chain : Chain s.heap ([] ++ b :: []) := merged.compact.chain
  obtain ⟨first,last⟩ := merged.compact.tight
  refine ⟨chain.head,chain.addr_ne_null (by simp),?_,?_,?_⟩
  · rw [chain.node]
    exact ⟨rfl,rfl⟩
  · rw [chain.node]
    exact free
  · rw [chain.node,← first]
    exact last

theorem Heap.mapped_mem {s : Heap} : ({ s with mem := m } : Heap).mapped a n = s.mapped a n := rfl

theorem Heap.mapped_inside {s : Heap} (low : s.start ≤ a) (high : a + n ≤ s.brk) : s.mapped a n = true := by
  have round : s.brk ≤ (s.brk + pageSize - 1) / pageSize * pageSize := by
    simp only [pageSize]
    omega
  simp only [Heap.mapped,decide_eq_true_eq]
  omega

/-- The only block is split, if the bytes the split clears are mapped. They lie 32 nodes
behind the new header and reach past the break. -/
theorem Compact.split (compact : Compact s [b]) (large : 1 + size + nodeSize ≤ b.size)
    (cleared : s.mapped (b.addr + nodeSize + size + nodeSize * nodeSize) (b.size - nodeSize - size) = true) :
    ∃ m', splitBlock b.addr size s = .ok (b.payload,{ s with mem := m' }) := by
  have chain : Chain s ([] ++ b :: []) := compact.chain
  have node := chain.node
  have payload := compact.payload (List.mem_singleton_self b)
  obtain ⟨first,last⟩ := compact.tight
  have limit := chain.high
  have small : b.size < 4294967296 := by
    have read := load_lt s.mem (b.addr + 20) 4
    have field : load s.mem (b.addr + 20) 4 = b.size := congrArg Node.size node
    rw [field] at read
    exact read
  have inside (a n : Nat) (low : b.addr ≤ a) (high : a + n ≤ b.addr + nodeSize + b.size) :
      s.mapped a n = true := Heap.mapped_inside (by omega) (last ▸ high)
  simp only [Tight,addressLimit,nodeSize] at *
  obtain ⟨c,size',free,failed⟩ := b
  dsimp only at *
  obtain ⟨n,new⟩ : ∃ n, n = c + 32 + size := ⟨_,rfl⟩
  obtain ⟨m₁,halved⟩ : ∃ m₁, m₁ = store (store s.mem (c + 20) 4 size) (c + 16) 1 false.toNat := ⟨_,rfl⟩
  have node₁ : nodeAt m₁ c = ⟨null,null,false,size,c + 32⟩ := by
    rw [halved,nodeAt_setFree,nodeAt_setSize,node,payload,Nat.mod_eq_of_lt (by omega)]
    rfl
  obtain ⟨m₂,linked⟩ : ∃ m₂, m₂ = store (store (store m₁ n 8 c) (n + 8) 8 null) (c + 8) 8 n := ⟨_,rfl⟩
  have node₂ : nodeAt m₂ c = ⟨null,n,false,size,c + 32⟩ := by
    rw [linked,nodeAt_setNext _ _ (by omega),nodeAt_store_apart (.inr (by simp only [nodeSize]; omega)),
      nodeAt_store_apart (.inr (by simp only [nodeSize]; omega)),node₁]
  obtain ⟨m₃,filled⟩ : ∃ m₃, m₃ = store (store (store m₂ (n + 20) 4 (size' - 32 - size)) (n + 16) 1
    true.toNat) (n + 24) 8 (n + 1024) := ⟨_,rfl⟩
  have apart (offset width : Nat) : Apart (n + offset) width c nodeSize := .inr (by simp only [nodeSize]; omega)
  have node₃ : nodeAt m₃ c = ⟨null,n,false,size,c + 32⟩ := by
    rw [filled,nodeAt_store_apart (apart _ _),nodeAt_store_apart (apart _ _),
      nodeAt_store_apart (apart _ _),node₂]
  have remainder : (nodeAt m₃ n).size = size' - 32 - size ∧ (nodeAt m₃ n).allocated = n + 1024 := by
    rw [filled,nodeAt_setAllocated _ _ (by omega),nodeAt_setFree,nodeAt_setSize,
      Nat.mod_eq_of_lt (by omega)]
    exact ⟨rfl,rfl⟩
  refine ⟨fill m₃ (n + 1024) (size' - 32 - size) 0,?_⟩
  have wrapped : (c + 32 + size) % 18446744073709551616 = n := by omega
  have moved : n + 32 * 32 = n + 1024 := rfl
  have kept : (nodeAt (fill m₃ (n + 1024) (size' - 32 - size) 0) c).allocated = c + 32 := by
    rw [nodeAt_fill_apart (apart _ _),node₃]
  simp only [splitBlock,getSize_bind,setSize_bind,setFree_bind,getAllocated_bind,node,← halved,node₁]
  simp only [wrapped,getNext_bind,setPrev_bind,setNext_bind,linkBack_bind,node₁,linkedBack,if_pos,
    ← linked,setSize_bind,setFree_bind,setAllocated_bind,nodeSize,moved,← filled]
  simp only [getAllocated_bind,getSize_bind,remainder,memset_bind,getAllocated_ok,kept,payload,
    Heap.mapped_mem]
  have touched (offset width : Nat) (within : offset + width ≤ 32) :
      s.mapped (c + offset) width = true ∧ s.mapped (n + offset) width = true :=
    ⟨inside _ _ (by omega) (by omega),inside _ _ (by omega) (by omega)⟩
  have here : s.mapped n 8 = true := inside _ _ (by omega) (by omega)
  simp [touched,here,new ▸ cleared]

/-- A request that is not larger than the only block is served from it. -/
theorem Compact.serves (compact : Compact s [b]) (free : b.free = true) (least : 0 < size)
    (most : size < 4294967295) (room : size ≤ b.size)
    (cleared : 1 + size + nodeSize ≤ b.size →
      s.mapped (b.addr + nodeSize + size + nodeSize * nodeSize) (b.size - nodeSize - size) = true) :
    ∃ m', mmMalloc (fuel + 1) grants size s = .ok (b.payload,{ s with mem := m' }) := by
  have chain : Chain s ([] ++ b :: []) := compact.chain
  have node := chain.node
  have head : s.memHead = b.addr := chain.head
  have real : b.addr ≠ null := chain.addr_ne_null (by simp)
  obtain ⟨first,last⟩ := compact.tight
  have header (offset width : Nat) (within : offset + width ≤ nodeSize) :
      s.mapped (b.addr + offset) width = true := by
    simp only [Tight] at last
    exact Heap.mapped_inside (by omega) (by omega)
  have suits : fits b.addr size s = .ok (true,s) := by
    rw [fits,getSize_bind]
    refine ⟨header 20 4 (by decide),?_⟩
    rw [node,if_pos room,← bind_pure (getFree b.addr),getFree_bind]
    refine ⟨header 16 1 (by decide),?_⟩
    rw [node,free]
    rfl
  have found : findFit size (fuel + 1) s.memHead s = .ok (b.addr,s) := by
    rw [head,findFit,if_neg real]
    exact bind_ok.mpr ⟨true,s,suits,rfl⟩
  have reused : ∃ m', mallocReuse b.addr size s = .ok (b.payload,{ s with mem := m' }) := by
    simp only [mallocReuse,getSize_bind,node]
    by_cases large : 1 + size + nodeSize ≤ b.size
    · obtain ⟨m',done⟩ := compact.split large (cleared large)
      rw [if_pos large]
      exact ⟨m',header 20 4 (by decide),done⟩
    · rw [if_neg large]
      refine ⟨s.mem,header 20 4 (by decide),getAllocated_ok.mpr ⟨header 24 8 (by decide),?_⟩⟩
      rw [node]
  obtain ⟨m',done⟩ := reused
  refine ⟨m',?_⟩
  unfold mmMalloc
  rw [if_neg (Nat.ne_of_gt least)]
  apply get_bind.mpr
  rw [if_neg (compact.listed List.mem_cons_self),if_neg (Nat.not_le.mpr most)]
  refine bind_ok.mpr ⟨b.addr,s,found,?_⟩
  rw [if_neg real]
  exact done

theorem merged_boot (image : Image) : Merged image.boot [] :=
  ⟨(shaped_boot image).compact,.nil,by simp,by simp [Image.boot]⟩

/-- The request fits the search and, if it splits the block at the address, the bytes that
the split clears are mapped. -/
def ClearsMapped (s : Heap) (a size : Nat) : Prop :=
  size < 4294967295 ∧ (1 + size + nodeSize ≤ (nodeAt s.mem a).size →
    s.mapped (a + nodeSize + size + nodeSize * nodeSize) ((nodeAt s.mem a).size - nodeSize - size) = true)

/-- In every run in which `sbrk` succeeds, no block is split, sizes fit their fields and no
block is appended behind a stale tail: once memory was obtained and none of it is in use,
the list is one free block of all memory, and what fits it is served without `sbrk`. -/
theorem idle_heap_coalesced (image : Image)
    (run : Path (Guarded Step (fun h s e => SbrkSucceeds s e.1 ∧ KeepsMerged h s e)) [] image.boot h s)
    (idle : s.live = []) (obtained : s.heap.start < s.heap.brk) :
    ∃ a, Coalesced s.heap a ∧ ∀ fuel grants size, 0 < size → size ≤ (nodeAt s.heap.mem a).size →
      ClearsMapped s.heap a size →
      ∃ p m', mmMalloc (fuel + 1) grants size s.heap = .ok (p,{ s.heap with mem := m' }) ∧ p ≠ null := by
  have merged : ∃ blocks, Merged s blocks := run.invariant (fun _ s => ∃ blocks, Merged s blocks)
    (fun _ _ _ _ ⟨_,merged⟩ step => merged.step step.1 step.2.1 step.2.2) ⟨[],merged_boot image⟩
  obtain ⟨blocks,merged⟩ := merged
  obtain ⟨b,rfl,free⟩ := merged.single idle obtained
  have compact := merged.compact
  have member : b ∈ [b] := List.mem_singleton_self b
  obtain ⟨_,size',_⟩ := compact.node member
  refine ⟨b.addr,merged.coalesced free,?_⟩
  intro fuel grants size least room clears
  rw [ClearsMapped,size'] at clears
  rw [size'] at room
  obtain ⟨m',served⟩ := compact.serves free least clears.1 room clears.2
  exact ⟨b.payload,m',served,compact.chain.payload_ne_null member⟩

theorem FirstFit.present (fit : FirstFit m size a b) : a ≠ null := by
  cases fit <;> assumption

theorem firstFit_sound (ok : firstFit m size fuel a = some curr) (present : curr ≠ null) :
    FirstFit m size a curr := by
  induction fuel generalizing a with
  | zero => contradiction
  | succ fuel ih =>
    unfold firstFit at ok
    split at ok
    · exact absurd (Option.some.inj ok).symm present
    rename_i listed
    split at ok
    · rename_i suited
      obtain rfl := Option.some.inj ok
      exact .here listed suited
    · rename_i unsuited
      exact .later listed unsuited (ih ok)

def InPlaceWithin (fuel : Nat) (s : Heap) (size : Nat) : Prop :=
  size < 4294967296 ∧ match firstFit s.mem size fuel s.memHead,nodesFrom s.mem fuel s.memHead with
  | some curr,some nodes => (curr = null ∧ ∀ a ∈ nodes, (nodeAt s.mem a).next = null → s.memTail = a) ∨
    (curr ≠ null ∧ (nodeAt s.mem curr).size < 1 + size + nodeSize)
  | _,_ => False

instance (fuel : Nat) (s : Heap) (size : Nat) : Decidable (InPlaceWithin fuel s size) :=
  match fit : firstFit s.mem size fuel s.memHead,found : nodesFrom s.mem fuel s.memHead with
  | some curr,some nodes => decidable_of_iff (size < 4294967296 ∧
      ((curr = null ∧ ∀ a ∈ nodes, (nodeAt s.mem a).next = null → s.memTail = a) ∨
      (curr ≠ null ∧ (nodeAt s.mem curr).size < 1 + size + nodeSize))) (by
    simp only [InPlaceWithin,fit,found])
  | none,_ => .isFalse (by simp only [InPlaceWithin,fit,and_false,not_false_eq_true])
  | some _,none => .isFalse (by simp only [InPlaceWithin,fit,found,and_false,not_false_eq_true])

theorem InPlaceWithin.served (within : InPlaceWithin fuel s size) : ServedInPlace s size := by
  obtain ⟨small,searched⟩ := within
  split at searched
  · rename_i curr nodes fit found
    refine ⟨fun _ => small,?_,?_⟩
    · rintro ⟨least,from'⟩ a listed last
      rcases searched with ⟨_,tail⟩ | ⟨present,_⟩
      · exact tail a (listed.search found) last
      · have first := firstFit_sound fit present
        rcases from' with empty | ⟨_,noFit⟩
        · exact absurd empty first.present
        · exact absurd first (noFit curr)
    · intro _ _ curr' fit'
      obtain rfl := fit'.search fit
      exact (searched.resolve_left (fun none => fit'.suited.1 none.1)).2
  · exact searched.elim

def MergedWithin (fuel : Nat) (_ : List Event) (s : System) : Event → Prop
  | (.malloc grants size,_) => grants.Suffice s.heap size ∧ InPlaceWithin fuel s.heap size
  | (.realloc grants ptr size,_) => grants.Suffice s.heap size ∧ InPlaceWithin fuel s.heap size ∧
    BlocksWithin fuel s.heap ptr (FitsMerged s.heap.mem)
  | (.free ptr,_) => BlocksWithin fuel s.heap ptr (FitsMerged s.heap.mem)
  | (.write ..,_) => True

instance (fuel : Nat) (h : List Event) (s : System) : (e : Event) → Decidable (MergedWithin fuel h s e)
  | (.malloc ..,_) => inferInstanceAs (Decidable (_ ∧ _))
  | (.realloc ..,_) => inferInstanceAs (Decidable (_ ∧ _ ∧ _))
  | (.free ptr,_) => inferInstanceAs (Decidable (BlocksWithin fuel s.heap ptr (FitsMerged s.heap.mem)))
  | (.write ..,_) => inferInstanceAs (Decidable True)

theorem MergedWithin.keeps (within : MergedWithin fuel h s e) : SbrkSucceeds s e.1 ∧ KeepsMerged h s e := by
  obtain ⟨q,p⟩ := e
  cases q with
  | malloc grants size => exact ⟨fun _ => within.1,within.2.served⟩
  | realloc grants ptr size => exact ⟨fun _ => within.1,within.2.1.served,fun _ => within.2.2.listed⟩
  | free ptr => exact ⟨trivial,BlocksWithin.listed within⟩
  | write a v => exact ⟨trivial,trivial⟩

theorem outcome_merged (fuel : Nat) (requests : List Request)
    (handled : (replay (perform fuel) (fun h s e => e.1.Admissible s ∧ MergedWithin fuel h s e) requests
      ([],zeroed.boot)).isSome = true) :
    Path (Guarded Step (fun h s e => SbrkSucceeds s e.1 ∧ KeepsMerged h s e)) [] zeroed.boot
      (outcome fuel requests).1 (outcome fuel requests).2 := by
  have path : Path (Guarded Step (MergedWithin fuel)) [] zeroed.boot
    (outcome fuel requests).1 (outcome fuel requests).2 := arrive_guarded (perform_step fuel) handled
  exact path.mono (fun _ _ _ _ step => ⟨step.1,step.2.keeps⟩)

/-- Two blocks become one, which is handed out and given back. -/
theorem idle_heap_coalesced_reused :
    let reached := outcome 4 [.malloc granted 100,.malloc granted 50,.free 4260,.free 4128,
      .malloc granted 170,.free 4128]
    reached.2.live = [] ∧ reached.2.heap.start < reached.2.heap.brk ∧
      ∃ a, Coalesced reached.2.heap a ∧ ∀ fuel grants size, 0 < size →
        size ≤ (nodeAt reached.2.heap.mem a).size → ClearsMapped reached.2.heap a size →
        ∃ p m', mmMalloc (fuel + 1) grants size reached.2.heap =
          .ok (p,{ reached.2.heap with mem := m' }) ∧ p ≠ null := by
  intro reached
  have idle : reached.2.live = [] := by decide +kernel
  have obtained : reached.2.heap.start < reached.2.heap.brk := by decide +kernel
  exact ⟨idle,obtained,idle_heap_coalesced zeroed (outcome_merged 4 _ (by decide +kernel)) idle obtained⟩

/-- Behind a tail that was merged away, a new block is never found again. -/
theorem appended_block_is_lost :
    let reached := outcome 4 [.malloc granted 100,.malloc granted 50,.free 4128,.free 4260,
      .malloc granted 300,.free 4342]
    Path (Guarded Step (fun _ s e => SbrkSucceeds s e.1)) [] zeroed.boot reached.1 reached.2 ∧
      reached.2.live = [] ∧ reached.2.heap.start < reached.2.heap.brk ∧
      ¬∃ a, Coalesced reached.2.heap a := by
  intro reached
  refine ⟨outcome_granted 4 _ (by decide +kernel),by decide +kernel,by decide +kernel,?_⟩
  rintro ⟨a,coalesced⟩
  have head : reached.2.heap.memHead = 4096 := by decide +kernel
  have whole := coalesced.whole
  rw [← coalesced.head,head] at whole
  exact absurd whole (by decide +kernel)

end OsProj.MmAlloc
