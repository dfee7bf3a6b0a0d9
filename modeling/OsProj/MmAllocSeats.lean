import OsProj.MmAllocShape

/-! The bytes of the client. Every live pointer is the payload of a block of the list, and a block that is marked
free holds zeros wherever no range in use lies. This survives blocks that are handed out while still marked free, but
not their being merged, nor a split, nor an append behind a tail that was merged away. -/
namespace OsProj.MmAlloc

open OsProj.ByteMemory OsProj.Faulting OsProj.History

structure Seated (s : Heap) (blocks : List Block) (live : Ranges) : Prop where
  working : Working s blocks live
  seat : ∀ r ∈ live, ∃ b ∈ blocks, b.failed = false ∧ b.payload = r.1
  positive : ∀ r ∈ live, 0 < r.2

/-- What is marked free is zero where it is not in use. -/
def Zeros (m : Memory) (blocks : List Block) (live : Ranges) : Prop :=
  ∀ b ∈ blocks, b.free = true → ∀ x, b.payload ≤ x → x < b.payload + b.size →
    m x = 0 ∨ ∃ r ∈ live, r.1 ≤ x ∧ x < r.1 + r.2

/-- A request for more memory finds `mem_tail` in the list. -/
def TailInList (s : Heap) (size : Nat) : Prop :=
  Extends s size → s.memHead ≠ null → s.memTail = null ∨ Listed s s.memTail

/-- The free neighbours of the block at the address carry no range in use. -/
def MergesUnused (s : System) (a : Nat) : Prop :=
  ∀ n, n = (nodeAt s.heap.mem a).prev ∨ n = (nodeAt s.heap.mem a).next → FreeNeighbour s.heap.mem n →
    ∀ r ∈ s.live, r.1 ≠ (nodeAt s.heap.mem n).allocated

def FreesUnused (s : System) (ptr : Nat) : Prop :=
  ∀ a, Listed s.heap a → (nodeAt s.heap.mem a).allocated = ptr → MergesUnused s a

/-- The block that serves the request does not stand next to the block of the pointer. -/
def ServedElsewhere (s : Heap) (ptr size : Nat) : Prop :=
  0 < size → size < 4294967295 → ∀ curr, FirstFit s.mem size s.memHead curr →
    ∀ a, Listed s a → (nodeAt s.mem a).allocated = ptr → curr ≠ (nodeAt s.mem a).prev ∧ curr ≠ (nodeAt s.mem a).next

def KeepsContents (_ : List Event) (s : System) : Event → Prop
  | (.malloc _ size,_) => ServedWhole s size ∧ TailInList s.heap size
  | (.realloc _ ptr size,_) => ServedWhole s size ∧ TailInList s.heap size ∧
    (size < 4294967295 → FreesUnused s ptr ∧ ServedElsewhere s.heap ptr size)
  | (.free ptr,_) => FreesUnused s ptr
  | (.write _ _,_) => True

/-! The same for the list of blocks. -/

def ListUnused (ptr : Nat) (blocks : List Block) (live : Ranges) : Prop :=
  ∀ xs b ys, blocks = xs ++ b :: ys → b.payload = ptr → ∀ c, c ∈ xs.getLast? ∨ c ∈ ys.head? → c.free = true →
    ∀ r ∈ live, r.1 ≠ c.payload

section
variable {s s' : Heap} {blocks blocks' : List Block} {live : Ranges}

theorem FreesUnused.list {s : System} (unused : FreesUnused s ptr) (chain : Chain s.heap blocks) :
    ListUnused ptr blocks s.live := by
  rintro xs b ys rfl payload c beside free r member
  have merges := unused b.addr chain.reached (by rw [chain.node]; exact payload)
  unfold MergesUnused at merges
  rw [chain.node] at merges
  rcases beside with before | behind
  · obtain ⟨front,rfl⟩ : ∃ front, xs = front ++ [c] := ⟨xs.dropLast,(List.dropLast_append_getLast? c before).symm⟩
    have earlier : Chain s.heap (front ++ c :: b :: ys) := by simpa using chain
    have node := earlier.node
    have place : lastAddr null (front ++ [c]) = c.addr := by simp [lastAddr]
    have apart := merges c.addr (.inl place.symm) ⟨earlier.addr_ne_null (by simp),by rw [node]; exact free⟩ r member
    rwa [node] at apart
  · obtain ⟨rest,rfl⟩ : ∃ rest, ys = c :: rest := ⟨ys.tail,(List.cons_head?_tail behind).symm⟩
    have node := chain.advance.node
    have apart := merges c.addr (.inr rfl) ⟨chain.addr_ne_null (by simp),by rw [node]; exact free⟩ r member
    rwa [node] at apart

/-- Two blocks with one payload pointer are one. -/
theorem Chain.payload_inj (chain : Chain s blocks) (member : b ∈ blocks) (member' : c ∈ blocks) (sound : b.failed = false)
    (same : c.payload = b.payload) : c = b := by
  obtain ⟨front,after,rfl⟩ := List.append_of_mem member
  rcases mem_around.mp member' with equal | beside
  · exact equal
  · exfalso
    rcases List.mem_append.mp beside with early | late
    · obtain ⟨front',middle,rfl⟩ := List.append_of_mem early
      have real : c.failed = false := by
        rw [Bool.eq_false_iff]
        intro failed
        have position := (chain.position member).2
        rw [Block.payload_eq sound] at same
        simp only [Block.payload,failed,↓reduceIte,Block.extent,sbrkFailed,nodeSize,addressLimit] at *
        omega
      have chain' : Chain s (front' ++ c :: (middle ++ b :: after)) := by simpa using chain
      exact chain'.payload_ne real (by simp) same.symm
    · exact chain.payload_ne sound late same

/-- A range does not reach beyond the blocks behind its own. -/
theorem Working.territory {b : Block} (working : Working s blocks live) (member : r ∈ live) (sound : b.failed = false)
    (seat : b.payload = r.1) (listed : c ∈ blocks) : c.addr ≤ b.addr ∨ r.1 + r.2 ≤ c.addr := by
  have apart := working.placed.headers r member c listed
  rw [Block.payload_eq sound] at seat
  unfold Apart at apart
  omega

theorem Seated.distinct (seated : Seated s blocks live) : (live.map Prod.fst).Nodup := by
  refine List.pairwise_map.mpr (seated.working.placed.apart.imp_of_mem ?_)
  intro r q first second apart same
  have some_ := seated.positive r first
  have some_' := seated.positive q second
  unfold Apart at apart
  omega

theorem MergesLeft.parts (merges : MergesLeft xs b xs' b') : (∀ c ∈ xs', c ∈ xs) ∧
    ∀ c ∈ xs, (∀ a ∈ xs.getLast?, a.free = true → c ≠ a) → c ∈ xs' := by
  cases merges with
  | none => exact ⟨fun _ => id,fun _ member _ => member⟩
  | absorb free =>
    refine ⟨fun _ => List.mem_append_left _,fun c member other => ?_⟩
    refine (List.mem_append.mp member).resolve_right fun last => ?_
    exact other _ (by simp) free (List.mem_singleton.mp last)

theorem MergesRight.parts (merges : MergesRight b ys b' ys') : (∀ c ∈ ys', c ∈ ys) ∧
    ∀ c ∈ ys, (∀ a ∈ ys.head?, a.free = true → c ≠ a) → c ∈ ys' := by
  cases merges with
  | none => exact ⟨fun _ => id,fun _ member _ => member⟩
  | absorb free =>
    refine ⟨fun _ => List.mem_cons_of_mem _,fun c member other => ?_⟩
    exact (List.mem_cons.mp member).resolve_left (other _ (by simp) free)

/-- The blocks of a list in which a pointer has been freed: the one that is left of it is zero, and the others hold
what they held, up to the blocks behind them. -/
structure Around (ptr : Nat) (m : Memory) (blocks : List Block) (live : Ranges) (m' : Memory) (blocks' : List Block)
    (b : Block) (others : List Block) : Prop where
  members : ∀ c ∈ blocks', c = b ∨ c ∈ others
  marked : b.free = true
  zero : b.Zero m'
  old : ∀ c ∈ others, c ∈ blocks ∧ c ∈ blocks' ∧ c.payload ≠ ptr
  kept : ∀ c ∈ others, c.failed = false → ∀ x, c.payload ≤ x → (∀ d ∈ blocks, d.addr ≤ c.addr ∨ x < d.addr) → m' x = m x
  stays : ∀ c ∈ blocks, (∃ r ∈ live, r.1 = c.payload) → c.payload ≠ ptr → c ∈ others

theorem Chain.around (chain : Chain s blocks) (chain' : Chain { s with mem := m' } blocks')
    (released : Released ptr s.mem blocks m' blocks') (unused : ListUnused ptr blocks live)
    (held : ∃ b ∈ blocks, b.payload = ptr) : ∃ b others, Around ptr s.mem blocks live m' blocks' b others := by
  have within := chain.freed_within released.freed
  cases released with
  | absent none =>
    obtain ⟨b,listed,payload⟩ := held
    exact absurd payload (none b listed)
  | found payload sound left right order above wipes zero =>
    rename_i xs b xs₁ b₁ ys b₂ ys₂ high
    have merged := unused xs b ys rfl payload
    have marked : b₂.free = true := by
      have first : b₁.free = true := by
        cases left with
        | none => rfl
        | absorb free => exact free
      cases right <;> exact first
    obtain ⟨earlier,remains⟩ := left.parts
    obtain ⟨later,remains'⟩ := right.parts
    have beside {c : Block} (member : c ∈ xs₁ ++ ys₂) : c ∈ xs ++ ys :=
      List.mem_append.mpr ((List.mem_append.mp member).imp (earlier c) (later c))
    obtain ⟨middle,front,first,_⟩ := laid_append.mp chain'.laid
    refine ⟨b₂,xs₁ ++ ys₂,fun c => mem_around.mp,marked,zero,?_,?_,?_⟩
    · intro c member
      refine ⟨mem_around.mpr (.inr (beside member)),mem_around.mpr (.inr member),fun same => ?_⟩
      have equal := chain.payload_inj (b := b) (by simp) (mem_around.mpr (.inr (beside member))) sound (same.trans payload.symm)
      have apart := chain.laid.headers_apart (beside member)
      rw [equal] at apart
      simp only [Apart,nodeSize] at apart
      omega
    · intro c member real x low beyond
      rw [Block.payload_eq real] at low
      refine wipes x (fun d listed => ?_) ?_
      · rcases beyond d listed with before | behind <;> omega
      · rcases List.mem_append.mp member with early | late
        · obtain ⟨d,listed,same,_⟩ := within b₂ (by simp)
          have position := (front.mem early).2
          have header := c.header_le
          have behind := beyond d listed
          simp only [nodeSize] at header
          omega
        · have position := above c late
          omega
    · rintro c listed ⟨r,member,seat⟩ other
      rcases mem_around.mp listed with rfl | aside
      · exact absurd payload other
      refine List.mem_append.mpr ((List.mem_append.mp aside).imp ?_ ?_)
      · intro early
        refine remains c early fun a last free same => ?_
        exact merged a (.inl last) free r member (same ▸ seat)
      · intro late
        refine remains' c late fun a first free same => ?_
        exact merged a (.inr first) free r member (same ▸ seat)

/-- Freeing a live pointer keeps the bytes of all others. -/
theorem Seated.free (seated : Seated s blocks live) (zeros : Zeros s.mem blocks live) (held : ∃ r ∈ live, r.1 = ptr)
    (unused : ListUnused ptr blocks live) (ok : mmFree fuel ptr s = .ok (u,s')) :
    ∃ blocks', Seated s' blocks' (live.remove ptr) ∧ Zeros s'.mem blocks' (live.remove ptr) ∧
      (∀ r ∈ live, r.1 ≠ ptr → Agree s'.mem s.mem r.1 r.2) ∧ ∀ b ∈ blocks', b.payload = ptr → b.free = true := by
  have working := seated.working
  have real := working.placed.real working.chain.high held
  obtain ⟨m',blocks',rfl,chain',released⟩ := mmFree_released working.chain real ok
  obtain ⟨q,owned,rfl⟩ := held
  obtain ⟨b,listed,sound,payload⟩ := seated.seat q owned
  obtain ⟨b₂,others,around⟩ := working.chain.around chain' released unused ⟨b,listed,payload⟩
  have within := working.chain.freed_within released.freed
  have sub := remove_sublist live q.1
  have working' : Working { s with mem := m' } blocks' live := by
    refine ⟨chain',working.tail.within within rfl rfl,working.listed,working.placed.grow rfl (Nat.le_refl _) ?_⟩
    intro c listed
    obtain ⟨d,old,same,_⟩ := within c listed
    exact .inl ⟨d,old,same⟩
  refine ⟨blocks',⟨⟨chain',working'.tail,working'.listed,working'.placed.sublist sub⟩,?_,?_⟩,?_,?_,?_⟩
  · intro r member
    obtain ⟨c,known,sound',seat⟩ := seated.seat r (sub.subset member)
    have other : c.payload ≠ q.1 := by
      rw [seat]
      exact remove_ne seated.distinct member
    exact ⟨c,(around.old c (around.stays c known ⟨r,sub.subset member,seat.symm⟩ other)).2.1,sound',seat⟩
  · exact fun r member => seated.positive r (sub.subset member)
  · intro c known free x low high
    rcases around.members c known with rfl | other
    · exact .inl (around.zero x low high)
    obtain ⟨old,_,elsewhere⟩ := around.old c other
    have sound' := working.chain.free_sound old free
    have beyond : ∀ d ∈ blocks, d.addr ≤ c.addr ∨ x < d.addr := by
      intro d listed'
      obtain ⟨front,after,rfl⟩ := List.append_of_mem old
      have apart := working.chain.laid.payload_apart (n := c.size) (by rw [Block.extent_eq sound']) listed'
      rw [Block.payload_eq sound'] at low high
      unfold Apart at apart
      omega
    dsimp only
    rw [around.kept c other sound' x low beyond]
    refine (zeros c old free x low high).imp_right ?_
    rintro ⟨r,member,inside⟩
    refine ⟨r,mem_remove member fun same => ?_,inside⟩
    -- the range that is given back lies in its own block
    have reach := working.territory member sound (payload.trans same.symm) old
    have reach' := beyond b listed
    rw [Block.payload_eq sound'] at low elsewhere
    rw [Block.payload_eq sound] at payload
    simp only [nodeSize] at *
    omega
  · intro r member other x low high
    obtain ⟨c,known,sound',seat⟩ := seated.seat r member
    have rest := around.stays c known ⟨r,member,seat.symm⟩ (by rw [seat]; exact other)
    refine around.kept c rest sound' x (by rw [seat]; exact low) fun d listed' => ?_
    rcases working.territory member sound' seat listed' with before | behind
    · exact .inl before
    · exact .inr (by omega)
  · intro c known same
    rcases around.members c known with rfl | other
    · exact around.marked
    · exact absurd same (around.old c other).2.2

/-- With `mem_tail` in the list, a new block comes behind it. -/
theorem Grown.behind (grown : Grown grants s blocks size p b s' blocks') (chain : Chain s blocks) (some_ : blocks ≠ [])
    (inList : s.memTail = null ∨ Listed s s.memTail) :
    ∃ front t after, blocks = front ++ t :: after ∧ blocks' = front ++ [t,b] ∧ t.addr = s.memTail ∧
      ∀ c ∈ after, c.failed = true := by
  cases grown.joins with
  | alone => exact absurd rfl some_
  | behind atTail gone => exact ⟨_,_,_,rfl,rfl,atTail,gone⟩
  | beside other =>
    rcases inList with none | listed
    · have above := grown.linked.resolve_left some_
      have low := chain.low
      simp only [none,null,pageSize] at above low
      omega
    · obtain ⟨t,member,same⟩ := chain.listed listed
      exact absurd same (other t member)

end

/-- What an allocation gives: zeros, in a block of the list, and no byte of the client has changed. -/
structure Serves (s : System) (blocks : List Block) (size p : Nat) (heap : Heap) (blocks' : List Block) : Prop where
  seated : Seated heap blocks' (s.live.add p size)
  zeros : Zeros heap.mem blocks' (s.live.add p size)
  kept : ∀ r ∈ s.live, Agree heap.mem s.heap.mem r.1 r.2
  old : ∀ b ∈ blocks, b.failed = false → b ∈ blocks'
  clear : p ≠ null → ∀ c ∈ blocks', Apart p size c.addr nodeSize
  bytes : p ≠ null → ∀ x, p ≤ x → x < p + size → heap.mem x = 0
  place : p ≠ null → size < 4294967295 ∧
    ((∃ d ∈ blocks, blocks' = blocks ∧ d.failed = false ∧ d.payload = p ∧ FirstFit s.heap.mem size s.heap.memHead d.addr) ∨
    ∃ front t after b, blocks = front ++ t :: after ∧ blocks' = front ++ [t,b] ∧ (∀ c ∈ after, c.failed = true) ∧
      b.free = false ∧ b.failed = false ∧ b.payload = p)

section
variable {s : System} {heap : Heap} {blocks blocks' : List Block}

theorem Zeros.add {m : Memory} {live : Ranges} (zeros : Zeros m blocks live) (p size : Nat) : Zeros m blocks (live.add p size) := by
  intro b member free x low high
  refine (zeros b member free x low high).imp_right ?_
  rintro ⟨r,held,inside⟩
  refine ⟨r,?_,inside⟩
  unfold Ranges.add
  split
  · exact held
  · exact List.mem_cons_of_mem _ held

/-- A request that is not served leaves the heap as it was. -/
theorem Seated.unserved (seated : Seated s.heap blocks s.live) (zeros : Zeros s.heap.mem blocks s.live) (size : Nat) :
    Serves s blocks size null s.heap blocks :=
  ⟨seated,zeros,fun _ _ _ _ _ => rfl,fun _ member _ => member,fun impossible => absurd rfl impossible,
    fun impossible => absurd rfl impossible,fun impossible => absurd rfl impossible⟩

theorem Seated.reused (seated : Seated s.heap blocks s.live) (zeros : Zeros s.heap.mem blocks s.live)
    (served : ServedWhole s size) (least : 0 < size) (most : size < 4294967295) (member : b ∈ blocks) (free : b.free = true)
    (large : size ≤ b.size) (fit : FirstFit s.heap.mem size s.heap.memHead b.addr) :
    Serves s blocks size b.payload s.heap blocks := by
  have working := seated.working
  have chain := working.chain
  have sound := chain.free_sound member free
  have present := chain.payload_ne_null member
  obtain ⟨low,high,clear⟩ := chain.reuse_range member free large
  have unused : ∀ r ∈ s.live, Apart b.payload size r.1 r.2 := by
    have apart := (served least most b.addr fit).2
    obtain ⟨front,after,rfl⟩ := List.append_of_mem member
    rwa [chain.node] at apart
  have added : s.live.add b.payload size = (b.payload,size) :: s.live := if_neg present
  refine ⟨⟨⟨chain,working.tail,working.listed,?_⟩,?_,?_⟩,zeros.add _ _,fun _ _ _ _ _ => rfl,fun _ known _ => known,
    fun _ => clear,?_,fun _ => ⟨most,.inl ⟨b,member,rfl,sound,rfl,fit⟩⟩⟩
  · rw [added]
    exact working.placed.cons ⟨low,high⟩ clear unused
  · intro r known
    rw [added] at known
    rcases List.mem_cons.mp known with rfl | old
    · exact ⟨b,member,sound,rfl⟩
    · exact seated.seat r old
  · intro r known
    rw [added] at known
    rcases List.mem_cons.mp known with rfl | old
    · exact least
    · exact seated.positive r old
  · intro _ x first last
    rcases zeros b member free x first (by omega) with zero | ⟨r,held,inside⟩
    · exact zero
    · have apart := unused r held
      unfold Apart at apart
      omega

/-- A block behind the break, with a payload or without. -/
theorem Seated.grown (seated : Seated s.heap blocks s.live) (zeros : Zeros s.heap.mem blocks s.live) (least : 0 < size)
    (most : size < 4294967295) (inList : s.heap.memTail = null ∨ Listed s.heap s.heap.memTail)
    (grown : Grown grants s.heap blocks size p b heap blocks') : Serves s blocks size p heap blocks' := by
  have working := seated.working
  have chain := working.chain
  have some_ : blocks ≠ [] := by
    rintro rfl
    exact working.listed chain.head
  obtain ⟨allocates,above⟩ := grown.allocates chain
  obtain ⟨front,t,after,parts,parts',atTail,gone⟩ := grown.behind chain some_ inList
  have tailListed : t ∈ blocks := by simp [parts]
  have link {x : Nat} (below : x < s.heap.brk) (outside : x < t.addr ∨ t.addr + nodeSize ≤ x) : heap.mem x = s.heap.mem x := by
    refine grown.kept x below ?_
    rw [← atTail]
    simp only [nodeSize] at outside
    omega
  have placed : Placed heap blocks' s.live := by
    refine working.placed.grow grown.start allocates.grows fun c known => ?_
    exact (allocates.origin c known).imp_left fun old => ⟨c,old,rfl⟩
  have kept : ∀ r ∈ s.live, Agree heap.mem s.heap.mem r.1 r.2 := by
    intro r held x low high
    have inside := (working.placed.inside r held).2
    have apart := working.placed.headers r held t tailListed
    unfold Apart at apart
    exact link (by omega) (by omega)
  have zeros' : Zeros heap.mem blocks' s.live := by
    intro c known free x low high
    rcases grown.joins.members known with rfl | old
    · rw [grown.taken] at free
      contradiction
    · have sound := chain.free_sound old free
      have inside := (chain.laid.mem old).2
      have apart : Apart (c.addr + nodeSize) c.size t.addr nodeSize := by
        obtain ⟨front',after',rfl⟩ := List.append_of_mem old
        exact chain.laid.payload_apart (by rw [Block.extent_eq sound]) tailListed
      rw [Block.extent_eq sound] at inside
      have same : heap.mem x = s.heap.mem x := by
        rw [Block.payload_eq sound] at low high
        unfold Apart at apart
        exact link (by omega) (by omega)
      rw [same]
      exact zeros c old free x low high
  have seats : ∀ r ∈ s.live, ∃ c ∈ blocks', c.failed = false ∧ c.payload = r.1 := by
    intro r held
    obtain ⟨c,known,sound,seat⟩ := seated.seat r held
    exact ⟨c,grown.joins.kept known sound,sound,seat⟩
  refine ⟨?_,zeros'.add _ _,kept,fun _ => grown.joins.kept,fun present => (allocates.range present).2.2,?_,?_⟩
  · by_cases none : p = null
    · subst none
      exact ⟨⟨grown.chain,grown.tail,grown.listed,placed⟩,seats,seated.positive⟩
    · rcases grown.outcome with ⟨_,null,_⟩ | ⟨sound,address,_⟩
      · exact absurd null none
      obtain ⟨low,high,clear⟩ := allocates.range none
      have fresh : ∀ r ∈ s.live, Apart p size r.1 r.2 := by
        intro r held
        have inside := (working.placed.inside r held).2
        exact .inr (by omega)
      rw [Ranges.add,if_neg none]
      refine ⟨⟨grown.chain,grown.tail,grown.listed,placed.cons ⟨low,high⟩ clear fresh⟩,?_,?_⟩
      · intro r known
        rcases List.mem_cons.mp known with rfl | old
        · exact ⟨b,by simp [parts'],sound,by rw [Block.payload_eq sound,grown.addr,address]⟩
        · exact seats r old
      · intro r known
        rcases List.mem_cons.mp known with rfl | old
        · exact least
        · exact seated.positive r old
  · intro present
    rcases grown.outcome with ⟨_,null,_⟩ | ⟨_,_,_,_,cleared⟩
    · exact absurd null present
    · exact cleared
  · intro present
    rcases grown.outcome with ⟨_,null,_⟩ | ⟨sound,address,_⟩
    · exact absurd null present
    · exact ⟨most,.inr ⟨front,t,after,b,parts,parts',gone,grown.taken,sound,by rw [Block.payload_eq sound,grown.addr,address]⟩⟩

theorem Seated.malloc (seated : Seated s.heap blocks s.live) (zeros : Zeros s.heap.mem blocks s.live)
    (served : ServedWhole s size) (inList : TailInList s.heap size)
    (ok : mmMalloc fuel grants size s.heap = .ok (p,heap)) : ∃ blocks', Serves s blocks size p heap blocks' := by
  have working := seated.working
  rcases mmMalloc_cases working.chain (fun _ => working.tail) working.listed
    (fun least most curr fit => (served least most curr fit).1) ok with
    ⟨_,rfl,rfl⟩ | ⟨least,most,rfl,b,member,fit,free,large,rfl⟩ | ⟨extends',most,b,blocks',grown⟩
  · exact ⟨blocks,seated.unserved zeros size⟩
  · exact ⟨blocks,seated.reused zeros served least most member free large fit⟩
  · exact ⟨blocks',seated.grown zeros extends'.1 most (inList extends' working.listed) grown⟩

end

end OsProj.MmAlloc
