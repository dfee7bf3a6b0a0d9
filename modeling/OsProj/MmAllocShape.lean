import Mathlib.Data.List.Chain
import OsProj.MmAllocSafety

/-! The block list as long as every call of `sbrk` succeeds: no gap between the blocks and
no block without a payload. A block that is split, one that is reused without being marked,
a size that does not fit its field and a tail that was merged away each break the shape. -/
namespace OsProj.MmAlloc

open OsProj.ByteMemory OsProj.Faulting OsProj.History

/-- The blocks fill the range between two addresses without a gap. -/
def Tight (low : Nat) (blocks : List Block) (high : Nat) : Prop :=
  match blocks with
  | [] => low = high
  | b :: rest => b.addr = low ∧ Tight (b.addr + nodeSize + b.size) rest high

theorem tight_append : Tight low (xs ++ ys) high ↔ ∃ middle, Tight low xs middle ∧ Tight middle ys high := by
  induction xs generalizing low with
  | nil => simp [Tight]
  | cons b xs ih => simp [Tight,ih,and_assoc]

/-- Two neighbours in one block, or one block in another state, fill the same bytes. -/
theorem Tight.replace {b b' : Block} (tight : Tight low (xs ++ b :: ys) high) (addr : b'.addr = b.addr)
    (size : b'.size = b.size) : Tight low (xs ++ b' :: ys) high := by
  obtain ⟨middle,front,first,back⟩ := tight_append.mp tight
  refine tight_append.mpr ⟨middle,front,addr.trans first,?_⟩
  rw [addr,size]
  exact back

theorem Tight.absorb {x y : Block} (tight : Tight low (xs ++ x :: y :: zs) high)
    (fits : x.size + (nodeSize + y.size) < 4294967296) : Tight low (xs ++ x.absorb y :: zs) high := by
  obtain ⟨middle,front,first,second,back⟩ := tight_append.mp tight
  refine tight_append.mpr ⟨middle,front,first,?_⟩
  have whole : (x.absorb y).addr + nodeSize + (x.absorb y).size = y.addr + nodeSize + y.size := by
    simp only [Block.absorb,Nat.mod_eq_of_lt fits,second]
    omega
  rw [whole]
  exact back

structure Compact (s : Heap) (blocks : List Block) : Prop where
  chain : Chain s blocks
  sound : ∀ b ∈ blocks, b.failed = false
  tight : Tight s.start blocks s.brk

theorem Compact.congr (compact : Compact s blocks) {m' : Memory}
    (same : ∀ b ∈ blocks, nodeAt m' b.addr = nodeAt s.mem b.addr) : Compact { s with mem := m' } blocks :=
  ⟨compact.chain.congr same,compact.sound,compact.tight⟩

theorem Compact.payload (compact : Compact s blocks) (member : b ∈ blocks) :
    b.payload = b.addr + nodeSize := Block.payload_eq (compact.sound b member)

/-- There is a list as soon as there is a block. -/
theorem Compact.listed (compact : Compact s blocks) (member : b ∈ blocks) : s.memHead ≠ null := by
  cases blocks with
  | nil => contradiction
  | cons c blocks =>
    have head : s.memHead = c.addr := compact.chain.head
    rw [head]
    exact compact.chain.addr_ne_null (by simp)

/-- Any block of the chain is reached from `mem_head`. -/
theorem Chain.reached {b : Block} (chain : Chain s (xs ++ b :: ys)) : Listed s b.addr := by
  induction xs using List.reverseRecOn generalizing b ys with
  | nil =>
    have head : s.memHead = b.addr := chain.head
    rw [← head]
    refine .head ?_
    rw [head]
    exact chain.addr_ne_null (by simp)
  | append_singleton xs a ih =>
    have before : Chain s (xs ++ a :: b :: ys) := by simpa using chain
    have next : (nodeAt s.mem a.addr).next = b.addr := by rw [before.node]; rfl
    rw [← next]
    refine .next (ih before) ?_
    rw [next]
    exact chain.addr_ne_null (by simp)

/-- A neighbour that freeing a block merges with it. -/
def FreeNeighbour (m : Memory) (n : Nat) : Prop := n ≠ null ∧ (nodeAt m n).free = true

instance (m : Memory) (n : Nat) : Decidable (FreeNeighbour m n) := inferInstanceAs (Decidable (_ ∧ _))

def freeBytes (m : Memory) (n : Nat) : Nat := if FreeNeighbour m n then nodeSize + (nodeAt m n).size else 0

/-- The block at the address and its free neighbours together fit one size field. -/
def FitsMerged (m : Memory) (a : Nat) : Prop :=
  (nodeAt m a).size + freeBytes m (nodeAt m a).prev + freeBytes m (nodeAt m a).next < 4294967296

/-- Neither the block at the address nor a free one behind it is the last of the list and
merged into the one before. -/
def BeforeTail (m : Memory) (a : Nat) : Prop :=
  ((nodeAt m a).next = null → ¬FreeNeighbour m (nodeAt m a).prev) ∧
  (FreeNeighbour m (nodeAt m a).next → (nodeAt m (nodeAt m a).next).next ≠ null)

instance (m : Memory) : DecidablePred (FitsMerged m) := fun _ => inferInstanceAs (Decidable (_ < _))

instance (m : Memory) : DecidablePred (BeforeTail m) := fun _ => inferInstanceAs (Decidable (_ ∧ _))

def MergeFits (s : Heap) (ptr : Nat) : Prop :=
  ∀ a, Listed s a → (nodeAt s.mem a).allocated = ptr → FitsMerged s.mem a

/-- Freeing the pointer does not merge the last block of the list into the one before. -/
def KeepsTail (s : Heap) (ptr : Nat) : Prop :=
  ∀ a, Listed s a → (nodeAt s.mem a).allocated = ptr → BeforeTail s.mem a

/-! The same for the list of blocks. -/

def mergedBytes : Option Block → Nat
  | some c => if c.free then nodeSize + c.size else 0
  | none => 0

def ListFits (ptr : Nat) (blocks : List Block) : Prop :=
  ∀ xs b ys, blocks = xs ++ b :: ys → b.payload = ptr →
    b.size + mergedBytes xs.getLast? + mergedBytes ys.head? < 4294967296

def TailStays (ptr : Nat) (blocks : List Block) : Prop :=
  ∀ xs b ys, blocks = xs ++ b :: ys → b.payload = ptr →
    (ys = [] → ∀ a ∈ xs.getLast?, a.free = false) ∧ (∀ c, ys = [c] → c.free = false)

theorem Chain.before_free (chain : Chain s (xs ++ b :: ys)) :
    (FreeNeighbour s.mem (lastAddr null xs) ↔ ∃ a ∈ xs.getLast?, a.free = true) ∧
      freeBytes s.mem (lastAddr null xs) = mergedBytes xs.getLast? := by
  obtain rfl | ⟨front,a,rfl⟩ := List.eq_nil_or_concat xs
  · simp [freeBytes,FreeNeighbour,mergedBytes,lastAddr]
  · have before : Chain s (front ++ a :: b :: ys) := by simpa using chain
    have present : a.addr ≠ null := before.addr_ne_null (by simp)
    simp [freeBytes,FreeNeighbour,mergedBytes,lastAddr,present,before.node]

theorem Chain.behind_free (chain : Chain s (xs ++ b :: ys)) :
    (FreeNeighbour s.mem (headAddr ys null) ↔ ∃ c ∈ ys.head?, c.free = true) ∧
      freeBytes s.mem (headAddr ys null) = mergedBytes ys.head? := by
  cases ys with
  | nil => simp [freeBytes,FreeNeighbour,mergedBytes,headAddr]
  | cons c ys =>
    have behind : Chain s ((xs ++ [b]) ++ c :: ys) := chain.advance
    have present : c.addr ≠ null := behind.addr_ne_null (by simp)
    simp [freeBytes,FreeNeighbour,mergedBytes,present,behind.node]

theorem MergeFits.list (fits : MergeFits s ptr) (chain : Chain s blocks) : ListFits ptr blocks := by
  rintro xs b ys rfl payload
  have total := fits b.addr chain.reached (by rw [chain.node]; exact payload)
  rw [FitsMerged,chain.node] at total
  simpa only [chain.before_free.2,chain.behind_free.2] using total

theorem KeepsTail.list (keeps : KeepsTail s ptr) (chain : Chain s blocks) : TailStays ptr blocks := by
  rintro xs b ys rfl payload
  obtain ⟨left,right⟩ := keeps b.addr chain.reached (by rw [chain.node]; exact payload)
  rw [chain.node] at left right
  simp only [chain.before_free.1,chain.behind_free.1] at left right
  constructor
  · rintro rfl a last
    have taken := left rfl
    simpa using fun free => taken ⟨a,last,free⟩
  · rintro c rfl
    have behind : Chain s ((xs ++ [b]) ++ [c]) := chain.advance
    have last : (nodeAt s.mem c.addr).next = null := by rw [behind.node]; rfl
    simpa using fun free => right ⟨c,rfl,free⟩ last

/-- A place in a list with one more block at its end. -/
theorem split_concat {blocks : List Block} (split : blocks ++ [b] = xs ++ c :: ys) :
    c = b ∨ ∃ ys', ys = ys' ++ [b] ∧ blocks = xs ++ c :: ys' := by
  obtain rfl | ⟨ys,last,rfl⟩ := List.eq_nil_or_concat ys
  · obtain ⟨_,same⟩ := List.append_inj' split rfl
    exact .inl (List.singleton_inj.mp same).symm
  · rw [List.concat_eq_append,← List.cons_append,← List.append_assoc] at split
    obtain ⟨rfl,same⟩ := List.append_inj' split rfl
    obtain rfl := List.singleton_inj.mp same
    exact .inr ⟨ys,by simp,rfl⟩

theorem ListFits.extend {b : Block} (fits : ListFits ptr blocks) (taken : b.free = false) (other : b.payload ≠ ptr) :
    ListFits ptr (blocks ++ [b]) := by
  intro xs c ys split payload
  rcases split_concat split with rfl | ⟨ys,rfl,rfl⟩
  · exact absurd payload other
  · have total := fits xs c ys rfl payload
    cases ys with
    | nil => simpa [mergedBytes,taken] using total
    | cons => simpa using total

theorem tailStays_extend {b : Block} (taken : b.free = false) (other : b.payload ≠ ptr) :
    TailStays ptr (blocks ++ [b]) := by
  intro xs c ys split payload
  rcases split_concat split with rfl | ⟨ys,rfl,rfl⟩
  · exact absurd payload other
  · refine ⟨by simp,?_⟩
    intro d single
    obtain ⟨_,same⟩ := List.append_inj' (show ys ++ [b] = [] ++ [d] from single) rfl
    rwa [← List.singleton_inj.mp same]

def Covered (blocks blocks' : List Block) : Prop :=
  ∀ b ∈ blocks, ∃ c ∈ blocks', c.addr ≤ b.addr ∧ b.addr + b.size ≤ c.addr + c.size

theorem Covered.refl (blocks : List Block) : Covered blocks blocks :=
  fun b member => ⟨b,member,Nat.le_refl _,Nat.le_refl _⟩

theorem Covered.trans (first : Covered xs ys) (second : Covered ys zs) : Covered xs zs := by
  intro b member
  obtain ⟨c,listed,low,high⟩ := first b member
  obtain ⟨d,listed',low',high'⟩ := second c listed
  exact ⟨d,listed',low'.trans low,high.trans high'⟩

theorem covered_replace {b b' : Block} (low : b'.addr ≤ b.addr) (high : b.addr + b.size ≤ b'.addr + b'.size) :
    Covered (xs ++ b :: ys) (xs ++ b' :: ys) := by
  intro c member
  rcases mem_around.mp member with rfl | beside
  · exact ⟨b',mem_around.mpr (.inl rfl),low,high⟩
  · exact ⟨c,mem_around.mpr (.inr beside),Nat.le_refl _,Nat.le_refl _⟩

/-- Two neighbours in one block. -/
theorem Tight.absorb_covered {x y : Block} (tight : Tight low (xs ++ x :: y :: zs) high)
    (fits : x.size + (nodeSize + y.size) < 4294967296) :
    Covered (xs ++ x :: y :: zs) (xs ++ x.absorb y :: zs) := by
  obtain ⟨_,_,_,second,_⟩ := tight_append.mp tight
  have whole : (x.absorb y).size = x.size + (nodeSize + y.size) := Nat.mod_eq_of_lt fits
  intro c member
  rcases mem_around.mp member with rfl | beside
  · exact ⟨_,mem_around.mpr (.inl rfl),Nat.le_refl _,by dsimp only [Block.absorb] at whole ⊢; omega⟩
  rcases List.mem_append.mp beside with early | late
  · exact ⟨c,by simp [early],Nat.le_refl _,Nat.le_refl _⟩
  rcases List.mem_cons.mp late with rfl | late
  · exact ⟨_,mem_around.mpr (.inl rfl),by dsimp only [Block.absorb]; omega,
      by dsimp only [Block.absorb] at whole ⊢; omega⟩
  · exact ⟨c,by simp [late],Nat.le_refl _,Nat.le_refl _⟩

/-- Freeing leaves no gap and gives up no block. -/
theorem Tight.freed (tight : Tight low blocks high) (fits : ListFits ptr blocks)
    (freed : Freed ptr blocks blocks') : Tight low blocks' high ∧ Covered blocks blocks' := by
  cases freed with
  | absent => exact ⟨tight,.refl _⟩
  | found payload sound left right =>
    rename_i xs b xs₁ b₁ ys b₂ ys₂
    have total := fits xs b ys rfl payload
    have marked : Tight low (xs ++ { b with free := true } :: ys) high := tight.replace rfl rfl
    have covered : Covered (xs ++ b :: ys) (xs ++ { b with free := true } :: ys) :=
      covered_replace (Nat.le_refl _) (Nat.le_refl _)
    have merged : Tight low (xs₁ ++ b₁ :: ys) high ∧ Covered (xs ++ b :: ys) (xs₁ ++ b₁ :: ys) ∧
        b₁.size + mergedBytes ys.head? < 4294967296 := by
      cases left with
      | none => exact ⟨marked,covered,by dsimp only; omega⟩
      | absorb free =>
        rename_i a
        simp only [List.getLast?_concat,mergedBytes,free,↓reduceIte] at total
        have small : a.size + (nodeSize + b.size) < 4294967296 := by omega
        have joined : Tight low (xs₁ ++ a :: { b with free := true } :: ys) high := by simpa using marked
        refine ⟨joined.absorb small,covered.trans ?_,?_⟩
        · simpa using joined.absorb_covered small
        · simp only [Block.absorb,Nat.mod_eq_of_lt small,mergedBytes]
          omega
    obtain ⟨tight₁,covered₁,small⟩ := merged
    cases right with
    | none => exact ⟨tight₁,covered₁⟩
    | absorb free =>
      simp only [List.head?_cons,mergedBytes,free,↓reduceIte] at small
      exact ⟨tight₁.absorb small,covered₁.trans (tight₁.absorb_covered small)⟩

theorem Compact.freed (compact : Compact s blocks) (fits : ListFits ptr blocks)
    (chain' : Chain { s with mem := m' } blocks') (freed : Freed ptr blocks blocks') :
    Compact { s with mem := m' } blocks' := by
  refine ⟨chain',?_,(compact.tight.freed fits freed).1⟩
  intro b member
  obtain ⟨c,old,_,same⟩ := compact.chain.freed_within freed b member
  exact same.trans (compact.sound c old)

/-- The last block keeps its place. -/
theorem Freed.last (freed : Freed ptr blocks blocks') (stays : TailStays ptr blocks) :
    lastAddr null blocks' = lastAddr null blocks := by
  cases freed with
  | absent => rfl
  | found payload sound left right =>
    rename_i xs b xs₁ b₁ ys b₂ ys₂
    obtain ⟨leftStays,rightStays⟩ := stays xs b ys rfl payload
    cases right with
    | absorb free =>
      rename_i c
      have behind : ys₂ ≠ [] := by
        rintro rfl
        rw [rightStays c rfl] at free
        contradiction
      cases ys₂ with
      | nil => exact absurd rfl behind
      | cons d ys₂ => simp [lastAddr]
    | none =>
      cases left with
      | none => simp [lastAddr]
      | absorb free =>
        rename_i a
        have behind : ys ≠ [] := by
          intro none
          rw [leftStays none a (by simp)] at free
          contradiction
        cases ys with
        | nil => exact absurd rfl behind
        | cons d ys => simp [lastAddr]

/-- Freeing one pointer keeps the blocks of all others that are in use. -/
theorem Freed.kept (freed : Freed ptr blocks blocks') (member : c ∈ blocks) (taken : c.free = false)
    (other : c.payload ≠ ptr) : c ∈ blocks' := by
  cases freed with
  | absent => exact member
  | found payload sound left right =>
    rename_i xs b xs₁ b₁ ys b₂ ys₂
    rcases mem_around.mp member with rfl | beside
    · exact absurd payload other
    refine mem_around.mpr (.inr (List.mem_append.mpr ?_))
    refine (List.mem_append.mp beside).imp ?_ ?_
    · intro early
      cases left with
      | none => exact early
      | absorb free =>
        refine (List.mem_append.mp early).resolve_right ?_
        intro last
        rw [List.mem_singleton.mp last,free] at taken
        contradiction
    · intro late
      cases right with
      | none => exact late
      | absorb free =>
        refine (List.mem_cons.mp late).resolve_left ?_
        rintro rfl
        rw [free] at taken
        contradiction

structure Extended (s : Heap) (blocks : List Block) (size : Nat) (s' : Heap) : Prop where
  compact : Compact s' (blocks ++ [⟨s.brk,size,false,false⟩])
  tail : s'.memTail = s.brk
  start : s'.start = s.start
  brk : s'.brk = s.brk + nodeSize + size

section
variable {s s' : Heap} {blocks : List Block}

theorem Compact.mallocFirst (compact : Compact s []) (small : size < 4294967296)
    (suffice : grants.Suffice s size) (ok : mallocFirst grants size s = .ok (p,s')) :
    p = s.brk + nodeSize ∧ Extended s [] size s' := by
  have start : s.start = s.brk := compact.tight
  have low := compact.chain.low
  rcases mallocFirst_cases compact.chain.high ok with ⟨refused,_⟩ | ⟨room,⟨refused,_⟩ | ⟨room',rfl,rfl⟩⟩
  · exact absurd suffice refused
  · exact absurd suffice refused
  have high : s.brk + nodeSize < 18446744073709551616 := by
    simp only [addressLimit] at room
    omega
  let b : Block := ⟨s.brk,size,false,false⟩
  have extent : b.addr + b.extent = s.brk + nodeSize + size := by
    rw [Block.extent_eq (b := b) rfl]
    exact (Nat.add_assoc _ _ _).symm
  have node : nodeAt (fill (firstHeader s.mem s.brk size (s.brk + nodeSize)) (s.brk + nodeSize) size 0)
      s.brk = ⟨null,null,b.free,b.size,b.payload⟩ := by
    rw [nodeAt_fill_apart (.inr (Nat.le_refl _)),firstHeader_node _ _ _ high,Nat.mod_eq_of_lt small]
    rfl
  refine ⟨rfl,⟨?_,?_,?_⟩,rfl,rfl,rfl⟩
  · exact chain_single (b := b) rfl node rfl (Nat.le_of_eq start) (Nat.le_of_eq extent) low room'
  · intro c member
    rw [List.mem_singleton.mp member]
  · exact ⟨start.symm,rfl⟩

/-- In a list without failed blocks `mem_tail` is anchored at the last block. -/
theorem Compact.anchored (compact : Compact s (front ++ [t])) (tail : s.memTail = t.addr) : Anchored s (front ++ [t]) := by
  have chain := compact.chain
  obtain ⟨middle,before,behind,_⟩ := laid_append.mp chain.laid
  refine ⟨by rw [tail]; exact chain.below (by simp),?_,fun b member here => ⟨compact.sound b member,?_⟩⟩
  · intro b member other
    rw [tail] at other ⊢
    have early : b ∈ front := (List.mem_append.mp member).resolve_right fun last =>
      other (by rw [List.mem_singleton.mp last])
    exact chain.laid.headers_apart (by simpa using early)
  · intro c listed later
    rw [here,tail] at later
    rcases List.mem_append.mp listed with early | last
    · have position := (before.mem early).2
      omega
    · rw [List.mem_singleton.mp last] at later
      omega

/-- A block that joins such a list comes behind its last block. -/
theorem Grown.extended (grown : Grown grants s (front ++ [t]) size p b s' blocks') (compact : Compact s (front ++ [t]))
    (tail : s.memTail = t.addr) (small : size < 4294967296) (suffice : grants.Suffice s size) :
    p = s.brk + nodeSize ∧ Extended s (front ++ [t]) size s' := by
  rcases grown.outcome with ⟨_,_,refused,_⟩ | ⟨sound,address,brk,tail',_⟩
  · exact absurd suffice refused
  have block : b = ⟨s.brk,size,false,false⟩ := by
    obtain ⟨addr,size',free,failed⟩ := b
    have addr_eq : addr = s.brk := grown.addr
    have free_eq : free = false := grown.taken
    have failed_eq : failed = false := sound
    have size_eq : size' = size := grown.field.trans (Nat.mod_eq_of_lt small)
    rw [addr_eq,size_eq,free_eq,failed_eq]
  have joined : blocks' = front ++ [t] ++ [b] := by
    generalize same : front ++ [t] = blocks at grown compact
    cases grown.joins with
    | alone => simp at same
    | behind atTail gone =>
      rename_i after _ _
      cases after with
      | nil => simp
      | cons c after =>
        have failed := gone c (by simp)
        rw [compact.sound c (by simp)] at failed
        contradiction
    | beside other =>
      subst same
      exact absurd tail.symm (other t (by simp))
  subst joined block
  refine ⟨address,⟨grown.chain,?_,?_⟩,tail',grown.start,brk⟩
  · intro c member
    rcases List.mem_append.mp member with old | new
    · exact compact.sound c old
    · rw [List.mem_singleton.mp new]
  · rw [grown.start,brk]
    exact tight_append.mpr ⟨s.brk,compact.tight,rfl,rfl⟩

/-- Every outcome of a request that splits no block. -/
theorem Compact.malloc (compact : Compact s blocks)
    (tail : Extends s size → blocks ≠ [] → s.memTail = lastAddr null blocks)
    (small : s.memHead = null → size < 4294967296)
    (whole : 0 < size → size < 4294967295 → ∀ curr, FirstFit s.mem size s.memHead curr →
      (nodeAt s.mem curr).size < 1 + size + nodeSize)
    (suffice : Extends s size → grants.Suffice s size)
    (ok : mmMalloc fuel grants size s = .ok (p,s')) :
    (¬Extends s size ∧ p = null ∧ s' = s) ∨
    (0 < size ∧ size < 4294967295 ∧ s' = s ∧
      ∃ b ∈ blocks, FirstFit s.mem size s.memHead b.addr ∧ b.free = true ∧ size ≤ b.size ∧
        p = b.payload) ∨
    (Extends s size ∧ p = s.brk + nodeSize ∧ Extended s blocks size s') := by
  by_cases empty : s.memHead = null
  · have none : blocks = [] := by
      cases blocks with
      | nil => rfl
      | cons => exact absurd empty (compact.listed List.mem_cons_self)
    subst none
    rcases mmMalloc_empty empty ok with ⟨zero,rfl,rfl⟩ | ⟨extends',first⟩
    · exact .inl ⟨fun extends' => absurd zero (Nat.pos_iff_ne_zero.mp extends'.1),rfl,rfl⟩
    · exact .inr (.inr ⟨extends',compact.mallocFirst (small empty) (suffice extends') first⟩)
  obtain rfl | ⟨front,last,rfl⟩ := List.eq_nil_or_concat blocks
  · exact absurd compact.chain.head empty
  rw [List.concat_eq_append] at *
  have atTail (extends' : Extends s size) : s.memTail = last.addr := by
    simpa [lastAddr] using tail extends' (by simp)
  rcases mmMalloc_cases compact.chain (fun extends' => .inr (compact.anchored (atTail extends'))) empty whole ok with
    ⟨refused,none,unchanged⟩ | reused | ⟨extends',most,b,blocks',grown⟩
  · exact .inl ⟨fun extends' => refused extends' (suffice extends'),none,unchanged⟩
  · exact .inr (.inl reused)
  · exact .inr (.inr ⟨extends',grown.extended compact (atTail extends') (by omega) (suffice extends')⟩)

end

/-- The nodes are linked in both directions, the first to `prev` and the last to null. -/
def Linked (m : Memory) (prev : Nat) : List Nat → Prop
  | [] => True
  | a :: rest => (nodeAt m a).prev = prev ∧ (nodeAt m a).next = rest.headD null ∧ Linked m a rest

/-- The list from `mem_head` on, by the addresses of its nodes. -/
structure WellShaped (s : System) (nodes : List Nat) : Prop where
  head : s.heap.memHead = nodes.headD null
  linked : Linked s.heap.mem null nodes
  real : null ∉ nodes
  increasing : nodes.Pairwise (· < ·)
  payload : ∀ a ∈ nodes, (nodeAt s.heap.mem a).allocated = a + nodeSize
  adjacent : nodes.IsChain
    (fun a b => b = (nodeAt s.heap.mem a).allocated + (nodeAt s.heap.mem a).size)
  tail : s.heap.memTail = nodes.getLastD null
  live : ∀ r ∈ s.live, ∃! a, a ∈ nodes ∧ (nodeAt s.heap.mem a).allocated = r.1 ∧
    (nodeAt s.heap.mem a).free = false

/-- What carries the shape: every live pointer has a block of its own that is marked. -/
structure Shaped (s : System) (blocks : List Block) : Prop where
  compact : Compact s.heap blocks
  tail : s.heap.memTail = lastAddr null blocks
  live : ∀ r ∈ s.live, ∃ b ∈ blocks, b.payload = r.1 ∧ b.free = false ∧ r.2 ≤ b.size
  distinct : (s.live.map Prod.fst).Nodup

theorem Segment.addresses (linked : Segment m prev blocks null) :
    Linked m prev (blocks.map Block.addr) := by
  induction blocks generalizing prev with
  | nil => trivial
  | cons b blocks ih =>
    refine ⟨by rw [linked.1],?_,ih linked.2⟩
    rw [linked.1]
    cases blocks <;> rfl

theorem Laid.increasing (laid : Laid low blocks high) : (blocks.map Block.addr).Pairwise (· < ·) := by
  induction blocks generalizing low with
  | nil => exact .nil
  | cons b blocks ih =>
    refine List.pairwise_cons.mpr ⟨?_,ih laid.2⟩
    intro a member
    obtain ⟨c,behind,rfl⟩ := List.mem_map.mp member
    have position := (laid.2.mem behind).1
    have header := b.header_le
    simp only [nodeSize] at header
    omega

theorem Compact.node (compact : Compact s blocks) (member : b ∈ blocks) :
    (nodeAt s.mem b.addr).allocated = b.addr + nodeSize ∧ (nodeAt s.mem b.addr).size = b.size ∧
      (nodeAt s.mem b.addr).free = b.free := by
  have payload := compact.payload member
  obtain ⟨front,after,rfl⟩ := List.append_of_mem member
  rw [compact.chain.node]
  exact ⟨payload,rfl,rfl⟩

theorem Tight.adjacent (tight : Tight low blocks high) :
    blocks.IsChain (fun b c => c.addr = b.addr + nodeSize + b.size) := by
  induction blocks generalizing low with
  | nil => exact .nil
  | cons b blocks ih =>
    cases blocks with
    | nil => exact .singleton b
    | cons c blocks => exact .cons_cons tight.2.1 (ih tight.2)

theorem lastAddr_map (prev : Nat) (blocks : List Block) :
    lastAddr prev blocks = (blocks.map Block.addr).getLastD prev := by
  induction blocks generalizing prev with
  | nil => rfl
  | cons b blocks ih =>
    rw [lastAddr,ih]
    cases blocks <;> simp [List.getLast?_cons]

theorem Shaped.wellShaped (shaped : Shaped s blocks) : WellShaped s (blocks.map Block.addr) := by
  have compact := shaped.compact
  constructor
  · rw [compact.chain.head]
    cases blocks <;> rfl
  · exact compact.chain.linked.addresses
  · intro member
    obtain ⟨b,listed,isNull⟩ := List.mem_map.mp member
    exact compact.chain.addr_ne_null listed isNull
  · exact compact.chain.laid.increasing
  · intro a member
    obtain ⟨b,listed,rfl⟩ := List.mem_map.mp member
    exact (compact.node listed).1
  · rw [List.isChain_map]
    refine compact.tight.adjacent.imp_of_mem_imp ?_
    intro b c listed _ adjacent
    obtain ⟨payload,size,_⟩ := compact.node listed
    rw [payload,size,adjacent]
  · rw [shaped.tail,lastAddr_map]
  · intro r member
    obtain ⟨b,listed,payload,taken,_⟩ := shaped.live r member
    have own := compact.payload listed
    refine ⟨b.addr,⟨List.mem_map_of_mem listed,?_,?_⟩,?_⟩
    · rw [(compact.node listed).1,← own,payload]
    · rw [(compact.node listed).2.2,taken]
    · rintro a ⟨member',allocated,_⟩
      obtain ⟨c,listed',rfl⟩ := List.mem_map.mp member'
      rw [(compact.node listed').1] at allocated
      omega

def SbrkSucceeds (s : System) : Request → Prop
  | .malloc grants size | .realloc grants _ size => Extends s.heap size → grants.Suffice s.heap size
  | _ => True

/-- No free block is large enough for the request, and a first block's size fits its field. -/
def FromBreak (s : Heap) (size : Nat) : Prop :=
  (s.memHead = null → size < 4294967296) ∧
    (0 < size → size < 4294967295 → ∀ curr, ¬FirstFit s.mem size s.memHead curr)

/-- Nothing is served from a free block, sizes fit their fields, and freeing does not merge
the last block away. -/
def KeepsShape (_ : List Event) (s : System) : Event → Prop
  | (.malloc _ size,_) => FromBreak s.heap size
  | (.realloc _ ptr size,_) => FromBreak s.heap size ∧
    (size < 4294967295 → MergeFits s.heap ptr) ∧ (size = 0 → KeepsTail s.heap ptr)
  | (.free ptr,_) => MergeFits s.heap ptr ∧ KeepsTail s.heap ptr
  | (.write _ _,_) => True

theorem Compact.payload_le (compact : Compact s blocks) (member : b ∈ blocks) :
    b.payload + b.size ≤ s.brk := by
  have position := (compact.chain.laid.mem member).2
  rw [Block.extent_eq (compact.sound b member)] at position
  rw [compact.payload member]
  omega

/-- The block of the pointer that was just allocated is none of the old ones. -/
theorem Compact.fresh (compact : Compact s blocks) (member : b ∈ blocks) :
    b.payload ≠ s.brk + nodeSize := by
  have position := compact.payload_le member
  simp only [nodeSize]
  omega

/-- The pointer that is given back is live no more. -/
theorem remove_ne {live : Ranges} (distinct : (live.map Prod.fst).Nodup) (member : r ∈ live.remove ptr) :
    r.1 ≠ ptr := by
  induction live with
  | nil => contradiction
  | cons q live ih =>
    obtain ⟨fresh,distinct⟩ := List.nodup_cons.mp distinct
    unfold Ranges.remove at member
    by_cases here : q.1 = ptr
    · rw [List.eraseP_cons_of_pos (by simpa using here)] at member
      rintro rfl
      exact fresh (List.mem_map.mpr ⟨r,member,here.symm⟩)
    · rw [List.eraseP_cons_of_neg (by simpa using here)] at member
      rcases List.mem_cons.mp member with rfl | later
      · exact here
      · exact ih distinct later

theorem mem_remove {live : Ranges} (member : r ∈ live) (other : r.1 ≠ ptr) : r ∈ live.remove ptr :=
  (List.mem_eraseP_of_neg (by simpa using other)).mpr member

theorem Shaped.malloc (shaped : Shaped s blocks) (fromBreak : FromBreak s.heap size)
    (succeeds : Extends s.heap size → grants.Suffice s.heap size)
    (ok : mmMalloc fuel grants size s.heap = .ok (p,heap)) :
    (p = null ∧ heap = s.heap) ∨
    (Extends s.heap size ∧ p = s.heap.brk + nodeSize ∧ Extended s.heap blocks size heap) := by
  obtain ⟨small,none⟩ := fromBreak
  rcases shaped.compact.malloc (fun _ _ => shaped.tail) small
    (fun least most curr fit => absurd fit (none least most curr)) succeeds ok with
    ⟨_,rfl,rfl⟩ | ⟨least,most,_,b,_,fit,_⟩ | extended
  · exact .inl ⟨rfl,rfl⟩
  · exact absurd fit (none least most b.addr)
  · exact .inr extended

/-- A new block with its pointer. -/
theorem Shaped.extended (shaped : Shaped s blocks) (extended : Extended s.heap blocks size heap) :
    Shaped ⟨heap,(s.heap.brk + nodeSize,size) :: s.live⟩
      (blocks ++ [⟨s.heap.brk,size,false,false⟩]) := by
  refine ⟨extended.compact,by simpa [lastAddr] using extended.tail,?_,?_⟩
  · intro r member
    rcases List.mem_cons.mp member with rfl | old
    · exact ⟨_,List.mem_append_right _ (List.mem_singleton_self _),rfl,rfl,Nat.le_refl _⟩
    · obtain ⟨b,listed,facts⟩ := shaped.live r old
      exact ⟨b,List.mem_append_left _ listed,facts⟩
  · refine List.nodup_cons.mpr ⟨?_,shaped.distinct⟩
    intro member
    obtain ⟨r,old,same⟩ := List.mem_map.mp member
    obtain ⟨b,listed,payload,_⟩ := shaped.live r old
    exact shaped.compact.fresh listed (payload.trans same)

/-- Freeing one of the live pointers. -/
theorem Shaped.free (shaped : Shaped s blocks) (fits : ListFits ptr blocks)
    (stays : TailStays ptr blocks) (real : ptr ≠ sbrkFailed)
    (ok : mmFree fuel ptr s.heap = .ok (u,heap)) :
    ∃ blocks', Shaped ⟨heap,s.live.remove ptr⟩ blocks' := by
  obtain ⟨m',blocks',rfl,chain',freed⟩ := mmFree_spec shaped.compact.chain real ok
  refine ⟨blocks',shaped.compact.freed fits chain' freed,?_,?_,?_⟩
  · rw [freed.last stays]
    exact shaped.tail
  · intro r member
    obtain ⟨b,listed,payload,taken,room⟩ := shaped.live r ((remove_sublist s.live ptr).subset member)
    refine ⟨b,freed.kept listed taken ?_,payload,taken,room⟩
    rw [payload]
    exact remove_ne shaped.distinct member
  · exact shaped.distinct.sublist ((remove_sublist s.live ptr).map Prod.fst)

theorem Shaped.congr (shaped : Shaped s blocks) {m : Memory}
    (same : ∀ b ∈ blocks, nodeAt m b.addr = nodeAt s.heap.mem b.addr) :
    Shaped { s with heap := { s.heap with mem := m } } blocks :=
  ⟨shaped.compact.congr same,shaped.tail,shaped.live,shaped.distinct⟩

/-- Bytes inside the payload of a block lie apart from every header. -/
theorem Compact.inside_apart (compact : Compact s blocks) (member : b ∈ blocks)
    (low : b.payload ≤ a) (high : a + n ≤ b.payload + b.size) (listed : c ∈ blocks) :
    Apart a n c.addr nodeSize := by
  have payload := compact.payload member
  have sound := compact.sound b member
  obtain ⟨front,after,rfl⟩ := List.append_of_mem member
  have apart := compact.chain.laid.payload_apart (n := b.size)
    (by rw [Block.extent_eq sound]) listed
  exact apart.mono (by omega) (by omega)

theorem Shaped.real (shaped : Shaped s blocks) (held : ∃ r ∈ s.live, r.1 = ptr) :
    s.heap.memHead ≠ null ∧ ptr ≠ sbrkFailed ∧ ptr ≠ null ∧ ptr ≠ s.heap.brk + nodeSize := by
  obtain ⟨r,member,rfl⟩ := held
  obtain ⟨b,listed,payload,_⟩ := shaped.live r member
  rw [← payload]
  refine ⟨shaped.compact.listed listed,?_,shaped.compact.chain.payload_ne_null listed,
    shaped.compact.fresh listed⟩
  have position := shaped.compact.payload_le listed
  have high := shaped.compact.chain.high
  simp only [sbrkFailed,addressLimit] at *
  omega

/-- The bytes handed out behind the old break lie apart from every header. -/
theorem Compact.behind_apart (compact : Compact s blocks)
    (listed : c ∈ blocks ++ [⟨s.brk,size,false,false⟩]) :
    Apart (s.brk + nodeSize) size c.addr nodeSize := by
  right
  rcases List.mem_append.mp listed with old | new
  · have position := compact.chain.below old
    omega
  · rw [List.mem_singleton.mp new]

/-- Reallocation of a live pointer: a new block, and the old one freed in front of it. -/
theorem Shaped.realloc (shaped : Shaped s blocks) (held : ∃ r ∈ s.live, r.1 = ptr)
    (positive : size ≠ 0) (fromBreak : FromBreak s.heap size)
    (succeeds : Extends s.heap size → grants.Suffice s.heap size)
    (fits : size < 4294967295 → ListFits ptr blocks)
    (ok : mmRealloc fuel grants ptr size s.heap = .ok (p,heap)) :
    ∃ blocks', Shaped ⟨heap,if p = null then s.live else (s.live.remove ptr).add p size⟩ blocks' := by
  obtain ⟨some,real,present,old⟩ := shaped.real held
  have compact := shaped.compact
  obtain ⟨heap₁,allocated,rest⟩ := mmRealloc_spec compact.chain real present positive ok
  rcases shaped.malloc fromBreak succeeds allocated with ⟨rfl,rfl⟩ | ⟨extends',rfl,extended⟩
  · rcases rest blocks compact.chain (fun _ member _ => member) (fun impossible => absurd rfl impossible) with
      ⟨_,rfl⟩ | ⟨impossible,_⟩
    · exact ⟨blocks,by simpa using shaped⟩
    · exact absurd rfl impossible
  · have served : s.heap.brk + nodeSize ≠ null := by simp only [nodeSize,null]; omega
    rcases rest _ extended.compact.chain (fun _ member _ => List.mem_append_left _ member)
      (fun _ _ listed => compact.behind_apart listed) with ⟨impossible,_⟩ | ⟨_,b,_,_,_,freed⟩
    · exact absurd impossible served
    have copied := (shaped.extended extended).congr (m := copy heap₁.mem (s.heap.brk + nodeSize) ptr (min b.size size))
      (fun c listed => nodeAt_copy_apart
        ((compact.behind_apart listed).mono (by omega) (by omega)) _ _)
    have most := extends'.2.resolve_left some
    obtain ⟨blocks',freed'⟩ := copied.free ((fits most.1).extend rfl (Ne.symm old))
      (tailStays_extend rfl (Ne.symm old)) real freed
    refine ⟨blocks',?_⟩
    have other : ¬s.heap.brk + nodeSize = ptr := Ne.symm old
    simpa [Ranges.remove,Ranges.add,served,List.eraseP_cons,other] using freed'

theorem Shaped.mallocStep (shaped : Shaped s blocks) (fromBreak : FromBreak s.heap size)
    (succeeds : Extends s.heap size → grants.Suffice s.heap size)
    (ok : mmMalloc fuel grants size s.heap = .ok (p,heap)) :
    ∃ blocks', Shaped ⟨heap,s.live.add p size⟩ blocks' := by
  rcases shaped.malloc fromBreak succeeds ok with ⟨rfl,rfl⟩ | ⟨_,rfl,extended⟩
  · exact ⟨blocks,shaped⟩
  · have served : s.heap.brk + nodeSize ≠ null := by simp only [nodeSize,null]; omega
    rw [Ranges.add,if_neg served]
    exact ⟨_,shaped.extended extended⟩

theorem Shaped.step (shaped : Shaped s blocks) (step : Step h s e s') (succeeds : SbrkSucceeds s e.1)
    (condition : KeepsShape h s e) : ∃ blocks', Shaped s' blocks' := by
  obtain ⟨q,p⟩ := e
  have chain := shaped.compact.chain
  cases step.moves (fun r member => (shaped.real ⟨r,member,rfl⟩).2.2.1) with
  | idle => exact ⟨blocks,shaped⟩
  | malloc same ok =>
    rcases same with rfl | rfl
    · exact shaped.mallocStep condition succeeds ok
    · exact shaped.mallocStep condition.1 succeeds ok
  | free same held ok =>
    obtain ⟨_,real,_⟩ := shaped.real held
    rcases same with rfl | ⟨grants,rfl⟩
    · exact shaped.free (condition.1.list chain) (condition.2.list chain) real ok
    · exact shaped.free ((condition.2.1 (by decide)).list chain) ((condition.2.2 rfl).list chain) real ok
  | realloc same positive held ok =>
    subst same
    exact shaped.realloc held positive condition.1 succeeds (fun most => (condition.2.1 most).list chain) ok
  | write _ held =>
    obtain ⟨r,member,low,high⟩ := held
    obtain ⟨b,listed,payload,_,room⟩ := shaped.live r member
    refine ⟨blocks,shaped.congr ?_⟩
    intro c listed'
    exact nodeAt_fill_apart
      (shaped.compact.inside_apart listed (by omega) (by omega) listed') _ _

theorem shaped_boot (image : Image) : Shaped image.boot [] := by
  have bare : Chain image.boot.heap [] :=
    ⟨rfl,trivial,Nat.le_refl _,by simp,image.low,image.high⟩
  exact ⟨⟨bare,by simp,rfl⟩,rfl,by simp [Image.boot],by simp [Image.boot]⟩

/-- In every run in which `sbrk` succeeds, nothing is served from a free block, sizes fit
their fields and the last block is not merged away, the list has its shape. -/
theorem list_wellShaped (image : Image)
    (run : Path (Guarded Step (fun h s e => SbrkSucceeds s e.1 ∧ KeepsShape h s e)) [] image.boot h s) :
    ∃ nodes, WellShaped s nodes := by
  have shaped : ∃ blocks, Shaped s blocks := run.invariant (fun _ s => ∃ blocks, Shaped s blocks)
    (fun _ _ _ _ ⟨_,shaped⟩ step => shaped.step step.1 step.2.1 step.2.2) ⟨[],shaped_boot image⟩
  obtain ⟨blocks,shaped⟩ := shaped
  exact ⟨_,shaped.wellShaped⟩

def nodesFrom (m : Memory) : Nat → Nat → Option (List Nat)
  | 0, _ => none
  | fuel + 1, a => if a = null then some [] else (nodesFrom m fuel (nodeAt m a).next).map (a :: ·)

theorem Linked.search (linked : Linked m prev nodes) (real : null ∉ nodes)
    (ok : nodesFrom m fuel (nodes.headD null) = some found) : found = nodes := by
  induction nodes generalizing prev fuel found with
  | nil =>
    cases fuel with
    | zero => contradiction
    | succ fuel => exact (Option.some.inj ok).symm
  | cons a nodes ih =>
    cases fuel with
    | zero => contradiction
    | succ fuel =>
      rw [List.mem_cons,not_or] at real
      rw [List.headD_cons,nodesFrom,if_neg (Ne.symm real.1),linked.2.1] at ok
      obtain ⟨rest,later,rfl⟩ := Option.map_eq_some_iff.mp ok
      rw [ih linked.2.2 real.2 later]

/-- The search lists exactly the nodes of a list that has its shape. -/
theorem WellShaped.search (shaped : WellShaped s nodes)
    (ok : nodesFrom s.heap.mem fuel s.heap.memHead = some found) : found = nodes :=
  shaped.linked.search shaped.real (shaped.head ▸ ok)

theorem nodesFrom_closed (ok : nodesFrom m fuel a = some found) :
    (a ≠ null → a ∈ found) ∧ ∀ b ∈ found, (nodeAt m b).next ≠ null → (nodeAt m b).next ∈ found := by
  induction fuel generalizing a found with
  | zero => contradiction
  | succ fuel ih =>
    unfold nodesFrom at ok
    split at ok
    · rename_i none
      obtain rfl := Option.some.inj ok
      exact ⟨fun some => absurd none some,by simp⟩
    · obtain ⟨rest,later,rfl⟩ := Option.map_eq_some_iff.mp ok
      obtain ⟨first,closed⟩ := ih later
      refine ⟨fun _ => List.mem_cons_self,?_⟩
      intro b member present
      rcases List.mem_cons.mp member with rfl | behind
      · exact List.mem_cons_of_mem _ (first present)
      · exact List.mem_cons_of_mem _ (closed b behind present)

theorem Listed.search (listed : Listed s a) (ok : nodesFrom s.mem fuel s.memHead = some found) :
    a ∈ found := by
  obtain ⟨first,closed⟩ := nodesFrom_closed ok
  induction listed with
  | head present => exact first present
  | next _ present ih => exact closed _ ih present

/-- What holds of every listed block of a pointer, as one search decides it. -/
def BlocksWithin (fuel : Nat) (s : Heap) (ptr : Nat) (property : Nat → Prop) : Prop :=
  match nodesFrom s.mem fuel s.memHead with
  | some nodes => ∀ a ∈ nodes, (nodeAt s.mem a).allocated = ptr → property a
  | none => False

instance (fuel : Nat) (s : Heap) (ptr : Nat) (property : Nat → Prop) [DecidablePred property] :
    Decidable (BlocksWithin fuel s ptr property) :=
  match found : nodesFrom s.mem fuel s.memHead with
  | some nodes => decidable_of_iff (∀ a ∈ nodes, (nodeAt s.mem a).allocated = ptr → property a) (by
    simp only [BlocksWithin,found])
  | none => .isFalse (by simp only [BlocksWithin,found,not_false_eq_true])

theorem BlocksWithin.listed {property : Nat → Prop} (within : BlocksWithin fuel s ptr property) :
    ∀ a, Listed s a → (nodeAt s.mem a).allocated = ptr → property a := by
  intro a listed
  unfold BlocksWithin at within
  split at within
  · rename_i ok
    exact within a (listed.search ok)
  · exact within.elim

def NoFitWithin (fuel : Nat) (s : Heap) (size : Nat) : Prop :=
  firstFit s.mem size fuel s.memHead = some null

instance (fuel : Nat) (s : Heap) (size : Nat) : Decidable (NoFitWithin fuel s size) :=
  inferInstanceAs (Decidable (_ = _))

theorem NoFitWithin.none (within : NoFitWithin fuel s size) (curr : Nat) :
    ¬FirstFit s.mem size s.memHead curr := by
  intro fit
  exact fit.suited.1 (fit.search within).symm

def ShapeWithin (fuel : Nat) (_ : List Event) (s : System) : Event → Prop
  | (.malloc grants size,_) => grants.Suffice s.heap size ∧ size < 4294967296 ∧ NoFitWithin fuel s.heap size
  | (.realloc grants ptr size,_) => grants.Suffice s.heap size ∧ size < 4294967296 ∧
    NoFitWithin fuel s.heap size ∧ BlocksWithin fuel s.heap ptr (FitsMerged s.heap.mem) ∧
    (size = 0 → BlocksWithin fuel s.heap ptr (BeforeTail s.heap.mem))
  | (.free ptr,_) => BlocksWithin fuel s.heap ptr (FitsMerged s.heap.mem) ∧
    BlocksWithin fuel s.heap ptr (BeforeTail s.heap.mem)
  | (.write ..,_) => True

instance (fuel : Nat) (h : List Event) (s : System) : (e : Event) → Decidable (ShapeWithin fuel h s e)
  | (.malloc ..,_) => inferInstanceAs (Decidable (_ ∧ _ ∧ _))
  | (.realloc ..,_) => inferInstanceAs (Decidable (_ ∧ _ ∧ _ ∧ _ ∧ _))
  | (.free _,_) => inferInstanceAs (Decidable (_ ∧ _))
  | (.write ..,_) => inferInstanceAs (Decidable True)

theorem ShapeWithin.keeps (within : ShapeWithin fuel h s e) : SbrkSucceeds s e.1 ∧ KeepsShape h s e := by
  obtain ⟨q,p⟩ := e
  cases q with
  | malloc grants size =>
    obtain ⟨suffice,small,noFit⟩ := within
    exact ⟨fun _ => suffice,fun _ => small,fun _ _ => noFit.none⟩
  | realloc grants ptr size =>
    obtain ⟨suffice,small,noFit,fits,tail⟩ := within
    exact ⟨fun _ => suffice,⟨fun _ => small,fun _ _ => noFit.none⟩,fun _ => fits.listed,
      fun zero => (tail zero).listed⟩
  | free ptr => exact ⟨trivial,within.1.listed,within.2.listed⟩
  | write a v => exact ⟨trivial,trivial⟩

theorem outcome_shape (fuel : Nat) (requests : List Request)
    (handled : (replay (perform fuel) (fun h s e => e.1.Admissible s ∧ ShapeWithin fuel h s e) requests
      ([],zeroed.boot)).isSome = true) :
    Path (Guarded Step (fun h s e => SbrkSucceeds s e.1 ∧ KeepsShape h s e)) [] zeroed.boot
      (outcome fuel requests).1 (outcome fuel requests).2 := by
  have path : Path (Guarded Step (ShapeWithin fuel)) [] zeroed.boot
    (outcome fuel requests).1 (outcome fuel requests).2 := arrive_guarded (perform_step fuel) handled
  exact path.mono (fun _ _ _ _ step => ⟨step.1,step.2.keeps⟩)

/-- Three blocks, the first two freed and merged, the third moved behind the break. -/
theorem list_wellShaped_merged :
    let reached := outcome 5 [.malloc granted 100,.malloc granted 50,.malloc granted 20,
      .free 4128,.free 4260,.realloc granted 4342 300]
    reached.2.live = [(4394,300)] ∧ ∃ nodes, WellShaped reached.2 nodes :=
  ⟨by decide +kernel,list_wellShaped zeroed (outcome_shape 5 _ (by decide +kernel))⟩

def Granted (_ : List Event) (s : System) : Event → Prop
  | (.malloc grants size,_) | (.realloc grants _ size,_) => grants.Suffice s.heap size
  | _ => True

instance (h : List Event) (s : System) : (e : Event) → Decidable (Granted h s e)
  | (.malloc grants size,_) | (.realloc grants _ size,_) =>
    inferInstanceAs (Decidable (grants.Suffice s.heap size))
  | (.free _,_) | (.write ..,_) => inferInstanceAs (Decidable True)

theorem outcome_granted (fuel : Nat) (requests : List Request)
    (handled : (replay (perform fuel) (fun h s e => e.1.Admissible s ∧ Granted h s e) requests
      ([],zeroed.boot)).isSome = true) :
    Path (Guarded Step (fun _ s e => SbrkSucceeds s e.1)) [] zeroed.boot
      (outcome fuel requests).1 (outcome fuel requests).2 := by
  have path : Path (Guarded Step Granted) [] zeroed.boot
    (outcome fuel requests).1 (outcome fuel requests).2 := arrive_guarded (perform_step fuel) handled
  refine path.mono ?_
  rintro h s ⟨q,p⟩ s' step
  refine ⟨step.1,?_⟩
  cases q with
  | malloc grants size => exact fun _ => step.2
  | realloc grants ptr size => exact fun _ => step.2
  | _ => trivial

/-- The only node of a list is in use if anything is. -/
theorem WellShaped.only_taken (shaped : WellShaped s nodes) (only : nodesFrom s.heap.mem fuel s.heap.memHead = some [a])
    (live : r ∈ s.live) : (nodeAt s.heap.mem a).free = false := by
  obtain ⟨b,⟨member,_,taken⟩,_⟩ := shaped.live r live
  rw [← shaped.search only] at member
  rwa [List.mem_singleton.mp member] at taken

/-- A freed block that is handed out again stays marked as free. -/
theorem reused_block_stays_free :
    let reached := outcome 4 [.malloc granted 100,.free 4128,.malloc granted 100]
    Path (Guarded Step (fun _ s e => SbrkSucceeds s e.1)) [] zeroed.boot reached.1 reached.2 ∧
      ¬∃ nodes, WellShaped reached.2 nodes := by
  intro reached
  refine ⟨outcome_granted 4 _ (by decide +kernel),?_⟩
  rintro ⟨nodes,shaped⟩
  have listed : nodesFrom reached.2.heap.mem 2 reached.2.heap.memHead = some [4096] := by decide +kernel
  have live : (4128,100) ∈ reached.2.live := by decide +kernel
  exact absurd (shaped.only_taken listed live) (by decide +kernel)

end OsProj.MmAlloc
