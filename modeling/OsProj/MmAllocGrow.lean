import OsProj.MmAllocOps

/-! Allocation: a block at the break, in the list or beside it, or the payload of a block
that is free. -/
namespace OsProj.MmAlloc

open OsProj.ByteMemory OsProj.Faulting

/-- `mem_tail` names a header below the break. If it is one of the list, only failed
blocks follow it; if it is not, it lies apart from the list. -/
structure Anchored (s : Heap) (blocks : List Block) : Prop where
  inside : s.memTail + nodeSize ≤ s.brk
  apart : ∀ b ∈ blocks, b.addr ≠ s.memTail → Apart s.memTail nodeSize b.addr nodeSize
  last : ∀ b ∈ blocks, b.addr = s.memTail →
    b.failed = false ∧ ∀ c ∈ blocks, b.addr < c.addr → c.failed = true

def TailOk (s : Heap) (blocks : List Block) : Prop := s.memTail = null ∨ Anchored s blocks

theorem TailOk.within (tail : TailOk s blocks) (within : Within blocks' blocks)
    (same : s'.memTail = s.memTail) (same' : s'.brk = s.brk) : TailOk s' blocks' := by
  rcases tail with none | anchored
  · exact .inl (same.trans none)
  · right
    constructor
    · rw [same,same']
      exact anchored.inside
    · intro b member other
      obtain ⟨c,member',addr,_⟩ := within b member
      rw [same,addr] at other ⊢
      exact anchored.apart c member' other
    · intro b member atTail
      obtain ⟨b₀,member₀,addr,failed⟩ := within b member
      rw [same,addr] at atTail
      obtain ⟨sound,later⟩ := anchored.last b₀ member₀ atTail
      refine ⟨failed.trans sound,?_⟩
      intro c member' above
      obtain ⟨c₀,member₀',addr',failed'⟩ := within c member'
      rw [addr,addr'] at above
      exact failed'.trans (later c₀ member₀' above)

/-- A failed block behind the break leaves `mem_tail` as it is. -/
theorem Anchored.failed (anchored : Anchored s blocks) {b : Block}
    (members : ∀ c ∈ blocks', c = b ∨ c ∈ blocks) (addr : b.addr = s.brk) (failed : b.failed = true)
    (same : s'.memTail = s.memTail) (grows : s.brk ≤ s'.brk) : Anchored s' blocks' := by
  have inside := anchored.inside
  constructor
  · rw [same]
    omega
  · intro c member other
    rw [same] at other ⊢
    rcases members c member with rfl | old
    · exact .inl (by omega)
    · exact anchored.apart c old other
  · intro c member atTail
    rw [same] at atTail
    rcases members c member with rfl | old
    · simp only [nodeSize] at inside
      omega
    · obtain ⟨sound,later⟩ := anchored.last c old atTail
      refine ⟨sound,?_⟩
      intro d member' above
      rcases members d member' with rfl | old'
      · exact failed
      · exact later d old' above

/-- A new block behind all others is where the list can be continued. -/
theorem anchored_new {b : Block} {blocks : List Block} (below : ∀ c ∈ blocks, c.addr + nodeSize ≤ b.addr)
    (members : ∀ c ∈ blocks', c = b ∨ c ∈ blocks) (sound : b.failed = false)
    (tail : s.memTail = b.addr) (room : b.addr + b.extent ≤ s.brk) : Anchored s blocks' := by
  have extent := b.header_le
  constructor
  · rw [tail]
    omega
  · intro c member other
    rw [tail] at other ⊢
    rcases members c member with rfl | old
    · exact absurd rfl other
    · exact .inr (below c old)
  · intro c member atTail
    rw [tail] at atTail
    rcases members c member with rfl | old
    · refine ⟨sound,?_⟩
      intro d member' above
      rcases members d member' with rfl | old'
      · exact absurd above (Nat.lt_irrefl _)
      · have position := below d old'
        simp only [nodeSize] at position
        omega
    · have position := below c old
      simp only [nodeSize] at position
      omega

structure Appends (m m' : Memory) (tail : Nat) (b : Block) : Prop where
  self : nodeAt m' b.addr = ⟨tail,null,false,b.size,b.payload⟩
  before : nodeAt m' tail = { nodeAt m tail with next := b.addr }
  other : ∀ c, c + nodeSize ≤ b.addr → Apart tail nodeSize c nodeSize → nodeAt m' c = nodeAt m c

theorem Chain.below (chain : Chain s blocks) (member : c ∈ blocks) : c.addr + nodeSize ≤ s.brk := by
  have position := (chain.laid.mem member).2
  have header := c.header_le
  omega

/-- A new block linked behind block `t`; whatever followed `t` leaves the list. -/
theorem Chain.extend (chain : Chain s (front ++ t :: after)) (s' : Heap) {b : Block}
    (taken : b.free = false) (appends : Appends s.mem s'.mem t.addr b) (addr : b.addr = s.brk)
    (room : b.addr + b.extent ≤ s'.brk) (high : s'.brk ≤ addressLimit) (start : s'.start = s.start)
    (head : s'.memHead = s.memHead) : Chain s' (front ++ [t,b]) := by
  obtain ⟨first,node,_⟩ := segment_append.mp chain.linked
  obtain ⟨middle,laid,laid',laid''⟩ := laid_append.mp chain.laid
  have behind := laid''.le
  refine ⟨?_,?_,?_,?_,?_,high⟩
  · rw [head,chain.head]
    simp
  · refine segment_append.mpr ⟨first.congr ?_,?_,?_,trivial⟩
    · intro c early
      refine appends.other c.addr ?_ (chain.laid.headers_apart (List.mem_append_left _ early))
      rw [addr]
      exact chain.below (List.mem_append_left _ early)
    · rw [appends.before,node]
      rfl
    · rw [appends.self,taken]
      rfl
  · rw [start]
    exact laid_append.mpr ⟨middle,laid,laid',by omega,room⟩
  · intro c present failed
    rcases List.mem_append.mp present with early | late
    · exact chain.taken c (by simp [early]) failed
    · rcases List.mem_cons.mp late with rfl | new
      · exact chain.taken c (by simp) failed
      · rw [List.mem_singleton.mp new]
        exact taken
  · rw [start]
    exact chain.low

/-- Where a new block stands: alone, behind the block `mem_tail` names, in place of the failed ones that
followed it, or beside the list if that block is not in it. -/
inductive Joins (tail : Nat) (b : Block) : List Block → List Block → Prop where
  | alone : Joins tail b [] [b]
  | behind : t.addr = tail → (∀ c ∈ after, c.failed = true) → Joins tail b (front ++ t :: after) (front ++ [t,b])
  | beside : (∀ t ∈ blocks, t.addr ≠ tail) → Joins tail b blocks blocks

theorem Joins.members (joins : Joins tail b blocks blocks') (member : c ∈ blocks') : c = b ∨ c ∈ blocks := by
  cases joins with
  | alone => exact .inl (List.mem_singleton.mp member)
  | behind =>
    rcases List.mem_append.mp member with early | late
    · exact .inr (by simp [early])
    · rcases List.mem_cons.mp late with rfl | new
      · exact .inr (by simp)
      · exact .inl (List.mem_singleton.mp new)
  | beside => exact .inr member

theorem Joins.kept (joins : Joins tail b blocks blocks') (member : c ∈ blocks) (sound : c.failed = false) :
    c ∈ blocks' := by
  cases joins with
  | alone => contradiction
  | behind _ gone =>
    rcases List.mem_append.mp member with early | late
    · simp [early]
    · rcases List.mem_cons.mp late with rfl | later
      · simp
      · rw [gone c later] at sound
        contradiction
  | beside => exact member

theorem Chain.append (chain : Chain s blocks) (anchored : Anchored s blocks) {b : Block} (s' : Heap)
    (taken : b.free = false) (appends : Appends s.mem s'.mem s.memTail b) (addr : b.addr = s.brk)
    (room : b.addr + b.extent ≤ s'.brk) (high : s'.brk ≤ addressLimit) (start : s'.start = s.start)
    (head : s'.memHead = s.memHead) : ∃ blocks', Chain s' blocks' ∧ Joins s.memTail b blocks blocks' := by
  by_cases listed : ∃ t ∈ blocks, t.addr = s.memTail
  · obtain ⟨t,member,atTail⟩ := listed
    obtain ⟨sound,failing⟩ := anchored.last t member atTail
    obtain ⟨front,after,rfl⟩ := List.append_of_mem member
    obtain ⟨middle,laid,laid',laid''⟩ := laid_append.mp chain.laid
    have gone : ∀ c ∈ after, c.failed = true := by
      intro c later
      have position := laid''.mem later
      have extent := t.header_le
      exact failing c (by simp [later]) (by simp only [nodeSize] at extent; omega)
    rw [← atTail] at appends
    exact ⟨front ++ [t,b],chain.extend s' taken appends addr room high start head,.behind atTail gone⟩
  · have other : ∀ t ∈ blocks, t.addr ≠ s.memTail := fun t member same => listed ⟨t,member,same⟩
    have kept : ∀ c ∈ blocks, nodeAt s'.mem c.addr = nodeAt s.mem c.addr := by
      intro c member
      refine appends.other c.addr ?_ (anchored.apart c member (other c member))
      rw [addr]
      exact chain.below member
    refine ⟨blocks,⟨head.trans chain.head,chain.linked.congr kept,?_,chain.taken,start ▸ chain.low,high⟩,.beside other⟩
    rw [start]
    exact chain.laid.mono (Nat.le_refl _) (by omega)

theorem sbrk_cases {f : Nat → M β} (ok : (sbrk granted n >>= f) s = .ok r) :
    (s.brk + n ≤ addressLimit ∧ f s.brk { s with brk := s.brk + n } = .ok r) ∨
      (¬(granted = true ∧ s.brk + n ≤ addressLimit) ∧ f sbrkFailed s = .ok r) := by
  obtain ⟨a,t,moved,next⟩ := bind_ok.mp ok
  unfold sbrk at moved
  simp only [Bool.and_eq_true,decide_eq_true_eq] at moved
  split at moved
  · rename_i within
    obtain ⟨rfl,rfl⟩ := Prod.mk.inj (Except.ok.inj moved)
    exact .inl ⟨within.2,next⟩
  · rename_i refused
    obtain ⟨rfl,rfl⟩ := Prod.mk.inj (Except.ok.inj moved)
    exact .inr ⟨refused,next⟩

def Grants.Suffice (grants : Grants) (s : Heap) (size : Nat) : Prop :=
  grants = ⟨true,true⟩ ∧ s.brk + nodeSize + size ≤ addressLimit

instance (grants : Grants) (s : Heap) (size : Nat) : Decidable (grants.Suffice s size) :=
  inferInstanceAs (Decidable (_ ∧ _))

theorem Grants.Suffice.header {grants : Grants} (suffice : grants.Suffice s size) :
    grants.header = true ∧ s.brk + nodeSize ≤ addressLimit := by
  obtain ⟨rfl,room⟩ := suffice
  exact ⟨rfl,by omega⟩

theorem Grants.Suffice.payload {grants : Grants} (suffice : grants.Suffice s size) :
    grants.payload = true ∧ s.brk + nodeSize + size ≤ addressLimit := by
  obtain ⟨rfl,room⟩ := suffice
  exact ⟨rfl,room⟩

theorem fits_ok (ok : fits curr size s = .ok (v,s')) : s' = s ∧
    (v = true ↔ size ≤ (nodeAt s.mem curr).size ∧ (nodeAt s.mem curr).free = true) := by
  simp only [fits,getSize_bind] at ok
  obtain ⟨_,ok⟩ := ok
  split at ok
  · rename_i large
    rw [← bind_pure (getFree curr),getFree_bind,pure_ok] at ok
    obtain ⟨rfl,rfl⟩ := Prod.mk.inj ok.2
    exact ⟨rfl,fun free => ⟨large,free⟩,fun both => both.2⟩
  · rename_i small
    obtain ⟨rfl,rfl⟩ := Prod.mk.inj (pure_ok.mp ok)
    exact ⟨rfl,fun impossible => by contradiction,fun both => absurd both.1 small⟩

/-- The first block of the list, from `a` on, that is free and large enough lies at `b`. -/
inductive FirstFit (m : Memory) (size : Nat) : Nat → Nat → Prop where
  | here : a ≠ null → size ≤ (nodeAt m a).size ∧ (nodeAt m a).free = true → FirstFit m size a a
  | later : a ≠ null → ¬(size ≤ (nodeAt m a).size ∧ (nodeAt m a).free = true) →
      FirstFit m size (nodeAt m a).next b → FirstFit m size a b

theorem FirstFit.suited (fit : FirstFit m size a b) :
    b ≠ null ∧ size ≤ (nodeAt m b).size ∧ (nodeAt m b).free = true := by
  induction fit with
  | here present suited => exact ⟨present,suited⟩
  | later _ _ _ ih => exact ih

def Extends (s : Heap) (size : Nat) : Prop :=
  0 < size ∧ (s.memHead = null ∨ (size < 4294967295 ∧ ∀ curr, ¬FirstFit s.mem size s.memHead curr))

/-- The search returns null or the first fit, and changes nothing. -/
theorem findFit_spec (ok : findFit size fuel a s = .ok (curr,s')) :
    s' = s ∧ (curr = null ∨ FirstFit s.mem size a curr) := by
  induction fuel generalizing a with
  | zero => contradiction
  | succ fuel ih =>
    unfold findFit at ok
    split at ok
    · obtain ⟨rfl,rfl⟩ := Prod.mk.inj (pure_ok.mp ok)
      exact ⟨rfl,.inl rfl⟩
    rename_i present
    obtain ⟨large,t,tested,rest⟩ := bind_ok.mp ok
    obtain ⟨rfl,suited⟩ := fits_ok tested
    split at rest
    · rename_i yes
      obtain ⟨rfl,rfl⟩ := Prod.mk.inj (pure_ok.mp rest)
      exact ⟨rfl,.inr (.here present (suited.mp yes))⟩
    · rename_i no
      obtain ⟨same,found⟩ := ih (getNext_bind.mp rest).2
      exact ⟨same,found.imp_right (.later present (mt suited.mpr no))⟩

/-- When the search returns null, nothing fits. -/
theorem findFit_none (ok : findFit size fuel a s = .ok (null,s')) : ¬FirstFit s.mem size a b := by
  intro fit
  induction fuel generalizing a with
  | zero => contradiction
  | succ fuel ih =>
    unfold findFit at ok
    split at ok
    · rename_i isNull
      cases fit <;> contradiction
    rename_i present
    obtain ⟨large,t,tested,rest⟩ := bind_ok.mp ok
    obtain ⟨rfl,suited⟩ := fits_ok tested
    split at rest
    · rename_i yes
      exact absurd (Prod.mk.inj (pure_ok.mp rest)).1.symm present
    · rename_i no
      cases fit with
      | here _ found => exact no (suited.mpr found)
      | later _ _ fit => exact ih (getNext_bind.mp rest).2 fit

/-- In a chain the first fit is one of its blocks. -/
theorem Chain.firstFit (chain : Chain s (xs ++ ys)) (fit : FirstFit s.mem size (headAddr ys null) curr) :
    ∃ b ∈ xs ++ ys, curr = b.addr := by
  induction ys generalizing xs with
  | nil => cases fit <;> contradiction
  | cons b ys ih =>
    cases fit with
    | here => exact ⟨b,by simp,rfl⟩
    | later _ _ rest =>
      rw [headAddr_cons,chain.node] at rest
      simpa using ih chain.advance rest

/-- The search of `mm_realloc` returns null or the block with the pointer. -/
theorem findBlock_spec (chain : Chain s (xs ++ ys))
    (ok : findBlock ptr fuel (headAddr ys null) s = .ok (curr,s')) :
    s' = s ∧ (curr = null ∨ ∃ b ∈ xs ++ ys, curr = b.addr ∧ b.payload = ptr) := by
  induction fuel generalizing xs ys with
  | zero => contradiction
  | succ fuel ih =>
    unfold findBlock at ok
    split at ok
    · obtain ⟨rfl,rfl⟩ := Prod.mk.inj (pure_ok.mp ok)
      exact ⟨rfl,.inl rfl⟩
    rename_i present
    cases ys with
    | nil => exact absurd rfl present
    | cons b ys =>
      have node := chain.node
      simp only [headAddr_cons,getAllocated_bind,node] at ok
      obtain ⟨_,rest⟩ := ok
      split at rest
      · rename_i found
        obtain ⟨rfl,rfl⟩ := Prod.mk.inj (pure_ok.mp rest)
        exact ⟨rfl,.inr ⟨b,by simp,rfl,found⟩⟩
      · simp only [getNext_bind,node] at rest
        simpa using ih chain.advance rest.2

/-- Null is not mapped. -/
theorem Chain.unmapped (chain : Chain s blocks) (small : a < pageSize) (touches : n ≠ 0) :
    s.mapped a n = false := by
  have low := chain.low
  simp only [Heap.mapped,touches,false_or,decide_eq_false_iff_not]
  omega

/-- The header of a new block and the link to it, as the append branch writes them. -/
def appended (m : Memory) (tail brk size payload : Nat) : Memory :=
  store (store (store (store (store (store m brk 8 tail) (tail + 8) 8 brk)
    (brk + 8) 8 null) (brk + 20) 4 size) (brk + 16) 1 false.toNat) (brk + 24) 8 payload

theorem appended_node (m : Memory) {tail brk payload : Nat} (size : Nat)
    (inside : tail + nodeSize ≤ brk) (fits : brk < 18446744073709551616)
    (fits' : payload < 18446744073709551616) :
    nodeAt (appended m tail brk size payload) brk = ⟨tail,null,false,size % 4294967296,payload⟩ ∧
    nodeAt (appended m tail brk size payload) tail = { nodeAt m tail with next := brk } ∧
    ∀ c, c + nodeSize ≤ brk → Apart tail nodeSize c nodeSize →
      nodeAt (appended m tail brk size payload) c = nodeAt m c := by
  unfold appended
  have apart : Apart tail nodeSize brk nodeSize := .inl inside
  have small : tail < 18446744073709551616 := by omega
  refine ⟨?_,?_,?_⟩
  · rw [nodeAt_setAllocated _ _ fits',nodeAt_setFree,nodeAt_setSize,nodeAt_setNext _ _ (by decide),
      nodeAt_store_apart (field_apart 8 8 (by decide) apart),nodeAt_setPrev _ _ small]
  · rw [nodeAt_store_apart (field_apart 24 8 (by decide) apart.symm),
      nodeAt_store_apart (field_apart 16 1 (by decide) apart.symm),
      nodeAt_store_apart (field_apart 20 4 (by decide) apart.symm),
      nodeAt_store_apart (field_apart 8 8 (by decide) apart.symm),nodeAt_setNext _ _ fits,
      nodeAt_store_apart (prev_apart apart.symm)]
  · intro c below first
    have second : Apart brk nodeSize c nodeSize := .inr below
    rw [nodeAt_store_apart (field_apart 24 8 (by decide) second),
      nodeAt_store_apart (field_apart 16 1 (by decide) second),
      nodeAt_store_apart (field_apart 20 4 (by decide) second),
      nodeAt_store_apart (field_apart 8 8 (by decide) second),
      nodeAt_store_apart (field_apart 8 8 (by decide) first),
      nodeAt_store_apart (prev_apart second)]

/-- The append branch with the payload cleared. -/
theorem appends_cleared (m : Memory) (size : Nat) (inside : tail + nodeSize ≤ brk)
    (high : brk + nodeSize < 18446744073709551616) :
    Appends m (fill (appended m tail brk size (brk + nodeSize)) (brk + nodeSize) size 0) tail
      ⟨brk,size % 4294967296,false,false⟩ := by
  obtain ⟨self,before,other⟩ := appended_node m size inside (by omega) high
  constructor
  · rw [nodeAt_fill_apart (.inr (Nat.le_refl _)),self]
    rfl
  · rw [nodeAt_fill_apart (.inr (by omega)),before]
  · intro c below apart
    have below : c + nodeSize ≤ brk := below
    rw [nodeAt_fill_apart (.inr (by omega)),other c below apart]

/-- The outcome of an allocation: a chain in which every block that had a payload is left
as it was and new headers lie behind the old break, and null or a range of the heap that
no header of the list touches. -/
structure Allocates (s : Heap) (blocks : List Block) (size p : Nat) (s' : Heap)
    (blocks' : List Block) : Prop where
  chain : Chain s' blocks'
  tail : TailOk s' blocks'
  listed : s'.memHead ≠ null
  start : s'.start = s.start
  grows : s.brk ≤ s'.brk
  origin : ∀ c ∈ blocks', c ∈ blocks ∨ s.brk ≤ c.addr
  kept : ∀ b ∈ blocks, b.failed = false → b ∈ blocks'
  range : p ≠ null → s'.start ≤ p ∧ p + size ≤ s'.brk ∧
    ∀ c ∈ blocks', Apart p size c.addr nodeSize

/-- Every outcome of the append branch. -/
theorem mallocAppend_cases (high : s.brk ≤ addressLimit)
    (ok : mallocAppend grants size s = .ok (p,s')) :
    (¬grants.Suffice s size ∧ p = null ∧ s' = s) ∨
    (s.brk + nodeSize ≤ addressLimit ∧ s.start ≤ s.memTail + 8 ∧
      ((¬grants.Suffice s size ∧ p = null ∧ s' = { s with
          mem := appended s.mem s.memTail s.brk size sbrkFailed
          brk := s.brk + nodeSize }) ∨
      (s.brk + nodeSize + size ≤ addressLimit ∧ p = s.brk + nodeSize ∧ s' = { s with
          mem := fill (appended s.mem s.memTail s.brk size (s.brk + nodeSize))
            (s.brk + nodeSize) size 0
          brk := s.brk + nodeSize + size
          memTail := s.brk }))) := by
  rcases sbrk_cases ok with ⟨room,first⟩ | ⟨refused,failed⟩
  · rw [if_neg (by simp only [sbrkFailed,addressLimit] at *; omega)] at first
    have linked := get_bind.mp first
    simp only [setPrev_bind,setNext_bind,setSize_bind,setFree_bind] at linked
    obtain ⟨_,mapped,_,_,_,second⟩ := linked
    have above : s.start ≤ s.memTail + 8 := by
      simp only [Heap.mapped,Bool.decide_or,Bool.or_eq_true,decide_eq_true_eq] at mapped
      omega
    rcases sbrk_cases second with ⟨room',granted⟩ | ⟨refused,failed⟩
    · simp only [setAllocated_bind] at granted
      rw [if_neg (by simp only [sbrkFailed,addressLimit,nodeSize] at *; omega)] at granted
      simp only [memset_bind,modify_bind,pure_ok] at granted
      obtain ⟨rfl,rfl⟩ := Prod.mk.inj granted.2.2
      exact .inr ⟨room,above,.inr ⟨room',rfl,rfl⟩⟩
    · simp only [setAllocated_bind,↓reduceIte,pure_ok] at failed
      obtain ⟨rfl,rfl⟩ := Prod.mk.inj failed.2
      exact .inr ⟨room,above,.inl ⟨fun suffice => refused suffice.payload,rfl,rfl⟩⟩
  · obtain ⟨rfl,rfl⟩ := Prod.mk.inj (pure_ok.mp failed)
    exact .inl ⟨fun suffice => refused suffice.header,rfl,rfl⟩

/-- A block at the old break. Below the break only the link in the block `mem_tail` names is written. -/
structure Grown (grants : Grants) (s : Heap) (blocks : List Block) (size p : Nat) (b : Block) (s' : Heap)
    (blocks' : List Block) : Prop where
  chain : Chain s' blocks'
  tail : TailOk s' blocks'
  joins : Joins s.memTail b blocks blocks'
  listed : s'.memHead ≠ null
  start : s'.start = s.start
  addr : b.addr = s.brk
  taken : b.free = false
  field : b.size = size % 4294967296
  linked : blocks = [] ∨ s.start ≤ s.memTail + 8
  kept : ∀ x < s.brk, x < s.memTail + 8 ∨ s.memTail + 16 ≤ x → s'.mem x = s.mem x
  outcome : (b.failed = true ∧ p = null ∧ ¬grants.Suffice s size ∧ s'.brk = s.brk + nodeSize ∧ s'.memTail = s.memTail) ∨
    (b.failed = false ∧ p = s.brk + nodeSize ∧ s'.brk = s.brk + nodeSize + size ∧ s'.memTail = s.brk ∧
      ∀ x, p ≤ x → x < p + size → s'.mem x = 0)

theorem appended_kept (m : Memory) (size payload : Nat) (below : x < brk) (other : x < tail + 8 ∨ tail + 16 ≤ x) :
    appended m tail brk size payload x = m x := by
  unfold appended store
  rw [if_neg (by omega),if_neg (by omega),if_neg (by omega),if_neg (by omega),if_neg (by omega),if_neg (by omega)]

/-- The append branch is refused a header, or adds a block. -/
theorem mallocAppend_grown (chain : Chain s blocks) (tail : TailOk s blocks) (listed : s.memHead ≠ null)
    (ok : mallocAppend grants size s = .ok (p,s')) :
    (¬grants.Suffice s size ∧ p = null ∧ s' = s) ∨ ∃ b blocks', Grown grants s blocks size p b s' blocks' := by
  rcases mallocAppend_cases chain.high ok with refused | ⟨room,above,outcome⟩
  · exact .inl refused
  right
  have anchored : Anchored s blocks := by
    rcases tail with none | anchored
    · have low := chain.low
      simp only [none,null,pageSize] at above low
      omega
    · exact anchored
  have fits : s.brk < 18446744073709551616 := by
    simp only [addressLimit] at room
    omega
  have small := Nat.mod_le size 4294967296
  rcases outcome with ⟨refused,rfl,rfl⟩ | ⟨room',rfl,rfl⟩
  · -- The header stays in the list without a payload, and `mem_tail` stays before it.
    let b : Block := ⟨s.brk,size % 4294967296,false,true⟩
    have appends : Appends s.mem (appended s.mem s.memTail s.brk size sbrkFailed) s.memTail b := by
      have failed : sbrkFailed < 18446744073709551616 := by decide
      obtain ⟨self,before,other⟩ := appended_node s.mem size anchored.inside fits failed
      exact ⟨self,before,other⟩
    obtain ⟨blocks',chain',joins⟩ := chain.append anchored { s with
      mem := appended s.mem s.memTail s.brk size sbrkFailed
      brk := s.brk + nodeSize } rfl appends rfl (Nat.le_refl _) room rfl rfl
    exact ⟨b,blocks',chain',.inr (anchored.failed (fun _ => joins.members) rfl rfl rfl (by simp)),joins,listed,rfl,rfl,rfl,rfl,
      .inr above,fun x => appended_kept _ _ _,.inl ⟨rfl,rfl,refused,rfl,rfl⟩⟩
  · let b : Block := ⟨s.brk,size % 4294967296,false,false⟩
    have high : s.brk + nodeSize < 18446744073709551616 := by
      simp only [addressLimit] at room
      omega
    have appends := appends_cleared s.mem size anchored.inside high
    have extent : b.addr + b.extent ≤ s.brk + nodeSize + size := by
      rw [Block.extent_eq (b := b) rfl]
      simp only [b]
      omega
    obtain ⟨blocks',chain',joins⟩ := chain.append anchored { s with
      mem := fill (appended s.mem s.memTail s.brk size (s.brk + nodeSize)) (s.brk + nodeSize) size 0
      brk := s.brk + nodeSize + size
      memTail := s.brk } rfl appends rfl extent room' rfl rfl
    refine ⟨b,blocks',chain',.inr (anchored_new (fun _ old => chain.below old) (fun _ => joins.members) rfl rfl extent),joins,
      listed,rfl,rfl,rfl,rfl,.inr above,?_,.inr ⟨rfl,rfl,rfl,rfl,fun x low high => if_pos ⟨low,high⟩⟩⟩
    intro x below other
    exact (if_neg (by omega)).trans (appended_kept _ _ _ below other)

/-- What a block at the old break means for the client. -/
theorem Grown.allocates (grown : Grown grants s blocks size p b s' blocks') (chain : Chain s blocks) :
    Allocates s blocks size p s' blocks' ∧ (p = null ∨ s.brk ≤ p) := by
  have order := chain.laid.le
  have grows : s.brk ≤ s'.brk := by
    rcases grown.outcome with ⟨_,_,_,brk,_⟩ | ⟨_,_,brk,_⟩
    · rw [brk]
      exact Nat.le_add_right _ _
    · rw [brk]
      exact Nat.le_trans (Nat.le_add_right _ _) (Nat.le_add_right _ _)
  refine ⟨⟨grown.chain,grown.tail,grown.listed,grown.start,grows,?_,fun _ => grown.joins.kept,?_⟩,?_⟩
  · intro c member
    rcases grown.joins.members member with rfl | old
    · exact .inr (Nat.le_of_eq grown.addr.symm)
    · exact .inl old
  · intro served
    rcases grown.outcome with ⟨_,none,_⟩ | ⟨_,rfl,brk,_⟩
    · exact absurd none served
    refine ⟨by rw [grown.start]; omega,Nat.le_of_eq brk.symm,?_⟩
    intro c member
    right
    rcases grown.joins.members member with rfl | old
    · rw [grown.addr]
    · have position := chain.below old
      omega
  · rcases grown.outcome with ⟨_,none,_⟩ | ⟨_,rfl,_⟩
    · exact .inl none
    · exact .inr (Nat.le_add_right _ _)

def firstHeader (m : Memory) (a size payload : Nat) : Memory :=
  store (store (store (store (store m a 8 null) (a + 16) 1 false.toNat) (a + 8) 8 null)
    (a + 20) 4 size) (a + 24) 8 payload

theorem firstHeader_node (m : Memory) (a size : Nat) (fits : payload < 18446744073709551616) :
    nodeAt (firstHeader m a size payload) a = ⟨null,null,false,size % 4294967296,payload⟩ := by
  rw [firstHeader,nodeAt_setAllocated _ _ fits,nodeAt_setSize,nodeAt_setNext _ _ (by decide),
    nodeAt_setFree,nodeAt_setPrev _ _ (by decide)]

/-- Every outcome of the first allocation. -/
theorem mallocFirst_cases (high : s.brk ≤ addressLimit)
    (ok : mallocFirst grants size s = .ok (p,s')) :
    (¬grants.Suffice s size ∧ p = null ∧ s' = { s with memHead := sbrkFailed }) ∨
    (s.brk + nodeSize ≤ addressLimit ∧
      ((¬grants.Suffice s size ∧ p = null ∧ s' = { s with
          mem := firstHeader s.mem s.brk size sbrkFailed
          brk := s.brk + nodeSize
          memHead := s.brk }) ∨
      (s.brk + nodeSize + size ≤ addressLimit ∧ p = s.brk + nodeSize ∧ s' = { s with
          mem := fill (firstHeader s.mem s.brk size (s.brk + nodeSize)) (s.brk + nodeSize) size 0
          brk := s.brk + nodeSize + size
          memHead := s.brk
          memTail := s.brk }))) := by
  rcases sbrk_cases ok with ⟨room,first⟩ | ⟨refused,failed⟩
  · have written := modify_bind.mp first
    rw [if_neg (by simp only [sbrkFailed,addressLimit] at *; omega)] at written
    simp only [setPrev_bind,setNext_bind,setSize_bind,setFree_bind] at written
    obtain ⟨_,_,_,_,second⟩ := written
    rcases sbrk_cases second with ⟨room',granted⟩ | ⟨refused,failed⟩
    · simp only [setAllocated_bind] at granted
      rw [if_neg (by simp only [sbrkFailed,addressLimit,nodeSize] at *; omega)] at granted
      simp only [memset_bind,modify_bind,pure_ok] at granted
      obtain ⟨rfl,rfl⟩ := Prod.mk.inj granted.2.2
      exact .inr ⟨room,.inr ⟨room',rfl,rfl⟩⟩
    · simp only [setAllocated_bind,↓reduceIte,pure_ok] at failed
      obtain ⟨rfl,rfl⟩ := Prod.mk.inj failed.2
      exact .inr ⟨room,.inl ⟨fun suffice => refused suffice.payload,rfl,rfl⟩⟩
  · have written := modify_bind.mp failed
    rw [if_pos rfl] at written
    obtain ⟨rfl,rfl⟩ := Prod.mk.inj (pure_ok.mp written)
    exact .inl ⟨fun suffice => refused suffice.header,rfl,rfl⟩

/-- A chain of one block. -/
theorem chain_single {b : Block} (head : s.memHead = b.addr)
    (node : nodeAt s.mem b.addr = ⟨null,null,b.free,b.size,b.payload⟩) (taken : b.free = false)
    (start : s.start ≤ b.addr) (room : b.addr + b.extent ≤ s.brk) (low : pageSize ≤ s.start)
    (high : s.brk ≤ addressLimit) : Chain s [b] := by
  refine ⟨head,⟨node,trivial⟩,⟨start,room⟩,?_,low,high⟩
  intro c member _
  rw [List.mem_singleton.mp member]
  exact taken

theorem firstHeader_kept (m : Memory) (size payload : Nat) (below : x < a) : firstHeader m a size payload x = m x := by
  unfold firstHeader store
  rw [if_neg (by omega),if_neg (by omega),if_neg (by omega),if_neg (by omega),if_neg (by omega)]

/-- The first allocation fails for good, or makes a list of one block. -/
theorem mallocFirst_grown (empty : s.memTail = null) (low : pageSize ≤ s.start) (start : s.start ≤ s.brk)
    (high : s.brk ≤ addressLimit) (ok : mallocFirst grants size s = .ok (p,s')) :
    (¬grants.Suffice s size ∧ p = null ∧ s' = { s with memHead := sbrkFailed }) ∨
      ∃ b, Grown grants s [] size p b s' [b] := by
  have small := Nat.mod_le size 4294967296
  have listed : s.brk ≠ null := by
    simp only [pageSize,null] at *
    omega
  rcases mallocFirst_cases high ok with refused | ⟨room,⟨refused,rfl,rfl⟩ | ⟨room',rfl,rfl⟩⟩
  · exact .inl refused
  · right
    let b : Block := ⟨s.brk,size % 4294967296,false,true⟩
    have chain : Chain { s with
        mem := firstHeader s.mem s.brk size sbrkFailed
        brk := s.brk + nodeSize
        memHead := s.brk } [b] :=
      chain_single rfl (firstHeader_node _ _ _ (by decide)) rfl start (Nat.le_refl _) low room
    exact ⟨b,chain,.inl empty,.alone,listed,rfl,rfl,rfl,rfl,.inl rfl,fun x below _ => firstHeader_kept _ _ _ below,
      .inl ⟨rfl,rfl,refused,rfl,rfl⟩⟩
  · right
    let b : Block := ⟨s.brk,size % 4294967296,false,false⟩
    have extent : b.addr + b.extent ≤ s.brk + nodeSize + size := by
      rw [Block.extent_eq (b := b) rfl]
      simp only [b]
      omega
    have node : nodeAt (fill (firstHeader s.mem s.brk size (s.brk + nodeSize)) (s.brk + nodeSize) size 0)
        s.brk = ⟨null,null,false,size % 4294967296,s.brk + nodeSize⟩ := by
      rw [nodeAt_fill_apart (.inr (Nat.le_refl _))]
      exact firstHeader_node _ _ _ (by simp only [addressLimit] at room; omega)
    have chain : Chain { s with
        mem := fill (firstHeader s.mem s.brk size (s.brk + nodeSize)) (s.brk + nodeSize) size 0
        brk := s.brk + nodeSize + size
        memHead := s.brk
        memTail := s.brk } [b] := chain_single rfl node rfl start extent low room'
    have only : ∀ c ∈ [b], c = b ∨ c ∈ [] := fun c member => .inl (List.mem_singleton.mp member)
    refine ⟨b,chain,.inr (anchored_new (by simp) only rfl rfl extent),.alone,listed,rfl,rfl,rfl,rfl,.inl rfl,?_,
      .inr ⟨rfl,rfl,rfl,rfl,fun x low high => if_pos ⟨low,high⟩⟩⟩
    intro x below _
    exact (if_neg (by omega)).trans (firstHeader_kept _ _ _ below)

/-- A request for which the list is empty. -/
theorem mmMalloc_empty (empty : s.memHead = null) (ok : mmMalloc fuel grants size s = .ok (p,s')) :
    (size = 0 ∧ p = null ∧ s' = s) ∨ (Extends s size ∧ mallocFirst grants size s = .ok (p,s')) := by
  unfold mmMalloc at ok
  split at ok
  · rename_i zero
    obtain ⟨rfl,rfl⟩ := Prod.mk.inj (pure_ok.mp ok)
    exact .inl ⟨zero,rfl,rfl⟩
  · rename_i positive
    have started := get_bind.mp ok
    rw [if_pos empty] at started
    exact .inr ⟨⟨Nat.pos_of_ne_zero positive,.inl empty⟩,started⟩

/-- Every outcome of a request to a list that exists, if it splits no block. -/
theorem mmMalloc_cases (chain : Chain s blocks) (tail : Extends s size → TailOk s blocks) (listed : s.memHead ≠ null)
    (whole : 0 < size → size < 4294967295 → ∀ curr, FirstFit s.mem size s.memHead curr →
      (nodeAt s.mem curr).size < 1 + size + nodeSize)
    (ok : mmMalloc fuel grants size s = .ok (p,s')) :
    ((Extends s size → ¬grants.Suffice s size) ∧ p = null ∧ s' = s) ∨
    (0 < size ∧ size < 4294967295 ∧ s' = s ∧
      ∃ b ∈ blocks, FirstFit s.mem size s.memHead b.addr ∧ b.free = true ∧ size ≤ b.size ∧ p = b.payload) ∨
    (Extends s size ∧ size < 4294967295 ∧ ∃ b blocks', Grown grants s blocks size p b s' blocks') := by
  unfold mmMalloc at ok
  split at ok
  · rename_i none
    obtain ⟨rfl,rfl⟩ := Prod.mk.inj (pure_ok.mp ok)
    exact .inl ⟨fun extends' => absurd none (Nat.pos_iff_ne_zero.mp extends'.1),rfl,rfl⟩
  rename_i positive
  have least := Nat.pos_of_ne_zero positive
  have started := get_bind.mp ok
  rw [if_neg listed] at started
  split at started
  · rename_i large
    obtain ⟨rfl,rfl⟩ := Prod.mk.inj (pure_ok.mp started)
    refine .inl ⟨?_,rfl,rfl⟩
    rintro ⟨_,empty | ⟨most,_⟩⟩
    · exact absurd empty listed
    · omega
  rename_i bounded
  have most := Nat.lt_of_not_le bounded
  obtain ⟨curr,t,searched,rest⟩ := bind_ok.mp started
  obtain ⟨rfl,found⟩ := findFit_spec searched
  split at rest
  · rename_i none
    rw [none] at searched
    have extends' : Extends t size := ⟨least,.inr ⟨most,fun _ => findFit_none searched⟩⟩
    rcases mallocAppend_grown chain (tail extends') listed rest with ⟨refused,rfl,rfl⟩ | grown
    · exact .inl ⟨fun _ => refused,rfl,rfl⟩
    · exact .inr (.inr ⟨extends',most,grown⟩)
  rename_i present
  have fit := found.resolve_left present
  have located := fit
  rw [chain.head] at located
  obtain ⟨b,member,rfl⟩ := Chain.firstFit (show Chain t ([] ++ blocks) from chain) located
  have short := whole least most b.addr fit
  simp only [mallocReuse,getSize_bind] at rest
  rw [if_neg (Nat.not_le.mpr short),getAllocated_ok] at rest
  obtain ⟨place,unchanged⟩ := Prod.mk.inj rest.2.2
  obtain ⟨_,large,free⟩ := fit.suited
  obtain ⟨front,after,rfl⟩ := List.append_of_mem member
  rw [chain.node] at large free place
  exact .inr (.inl ⟨least,most,unchanged,b,by simp,fit,free,large,place⟩)

/-- The bytes of a free block that a request is given touch no header. -/
theorem Chain.reuse_range (chain : Chain s blocks) (member : b ∈ blocks) (free : b.free = true) (large : size ≤ b.size) :
    s.start ≤ b.payload ∧ b.payload + size ≤ s.brk ∧ ∀ c ∈ blocks, Apart b.payload size c.addr nodeSize := by
  have inside := chain.laid.mem member
  have sound := chain.free_sound member free
  obtain ⟨front,after,rfl⟩ := List.append_of_mem member
  rw [Block.extent_eq sound] at inside
  rw [Block.payload_eq sound]
  refine ⟨by omega,by omega,?_⟩
  intro c member'
  exact chain.laid.payload_apart (by rw [Block.extent_eq sound]; omega) member'

/-- Allocation from a list that exists, when the block found is not split. -/
theorem mmMalloc_spec (chain : Chain s blocks) (tail : TailOk s blocks) (listed : s.memHead ≠ null)
    (whole : 0 < size → size < 4294967295 → ∀ curr, FirstFit s.mem size s.memHead curr →
      (nodeAt s.mem curr).size < 1 + size + nodeSize)
    (ok : mmMalloc fuel grants size s = .ok (p,s')) :
    (∃ blocks', Allocates s blocks size p s' blocks') ∧
    (p = null ∨ s.brk ≤ p ∨ ∃ curr, 0 < size ∧ size < 4294967295 ∧
      FirstFit s.mem size s.memHead curr ∧ p = (nodeAt s.mem curr).allocated) := by
  rcases mmMalloc_cases chain (fun _ => tail) listed whole ok with
    ⟨_,rfl,rfl⟩ | ⟨least,most,rfl,b,member,fit,free,large,rfl⟩ | ⟨_,_,b,blocks',grown⟩
  · exact ⟨⟨blocks,chain,tail,listed,rfl,Nat.le_refl _,fun _ => .inl,fun _ member _ => member,
      fun impossible => absurd rfl impossible⟩,.inl rfl⟩
  · refine ⟨⟨blocks,chain,tail,listed,rfl,Nat.le_refl _,fun _ => .inl,fun _ member _ => member,
      fun _ => chain.reuse_range member free large⟩,.inr (.inr ⟨b.addr,least,most,fit,?_⟩)⟩
    obtain ⟨front,after,rfl⟩ := List.append_of_mem member
    rw [chain.node]
  · obtain ⟨allocates,fresh⟩ := grown.allocates chain
    exact ⟨⟨blocks',allocates⟩,fresh.elim .inl (fun above => .inr (.inl above))⟩

/-- Reallocation of a pointer: what was allocated is copied into and the old block freed,
in any chain that the allocation has left. -/
theorem mmRealloc_spec (chain : Chain s blocks) (real : ptr ≠ sbrkFailed) (present : ptr ≠ null)
    (positive : size ≠ 0) (ok : mmRealloc fuel grants ptr size s = .ok (p,s')) :
    ∃ s₁, mmMalloc fuel grants size s = .ok (p,s₁) ∧
      ∀ blocks₁, Chain s₁ blocks₁ → (∀ b ∈ blocks, b.failed = false → b ∈ blocks₁) →
        (p ≠ null → ∀ c ∈ blocks₁, Apart p size c.addr nodeSize) →
        (p = null ∧ s' = s₁) ∨ (p ≠ null ∧ ∃ b ∈ blocks, b.failed = false ∧ b.payload = ptr ∧
          mmFree fuel ptr { s₁ with mem := copy s₁.mem p ptr (min b.size size) } = .ok ((),s')) := by
  unfold mmRealloc at ok
  rw [if_neg positive,if_neg present] at ok
  have started := get_bind.mp ok
  obtain ⟨curr,t,searched,rest⟩ := bind_ok.mp started
  rw [chain.head] at searched
  obtain ⟨rfl,found⟩ := findBlock_spec (show Chain s ([] ++ blocks) from chain) searched
  obtain ⟨newPtr,s₁,allocated,rest⟩ := bind_ok.mp rest
  split at rest
  · rename_i none
    obtain ⟨rfl,rfl⟩ := Prod.mk.inj (pure_ok.mp rest)
    rw [none] at allocated
    exact ⟨_,allocated,fun _ _ _ _ => .inl ⟨rfl,rfl⟩⟩
  rename_i served
  obtain ⟨mapped,rest⟩ := getSize_bind.mp rest
  simp only [getAllocated_bind,memcpy_bind] at rest
  obtain ⟨_,_,_,rest⟩ := rest
  obtain ⟨u,s₂,freed,rest⟩ := bind_ok.mp rest
  obtain ⟨rfl,rfl⟩ := Prod.mk.inj (pure_ok.mp rest)
  refine ⟨s₁,allocated,?_⟩
  intro blocks₁ chain₁ kept clear
  refine .inr ⟨served,?_⟩
  rcases found with rfl | ⟨b,member,rfl,payload⟩
  · -- Reading the size of a block that was not found is an access to page zero.
    rw [chain₁.unmapped (by decide) (by decide)] at mapped
    exact absurd mapped Bool.false_ne_true
  have sound : b.failed = false := by
    rw [Bool.eq_false_iff]
    intro failed
    simp only [Block.payload,failed,↓reduceIte] at payload
    exact real payload.symm
  have listed := kept b member sound
  have node : (nodeAt s₁.mem b.addr).allocated = ptr ∧ (nodeAt s₁.mem b.addr).size = b.size := by
    obtain ⟨front,after,rfl⟩ := List.append_of_mem listed
    rw [chain₁.node]
    exact ⟨payload,rfl⟩
  have count : (if b.size < size then b.size else size) = min b.size size := by
    split <;> omega
  have copied : nodeAt (copy s₁.mem p ptr (min b.size size)) b.addr = nodeAt s₁.mem b.addr :=
    nodeAt_copy_apart ((clear served b listed).mono (by omega) (by omega)) _ _
  rw [node.1,node.2,count,copied,node.1] at freed
  exact ⟨b,member,sound,payload,freed⟩

end OsProj.MmAlloc
