import OsProj.Faulting
import OsProj.MmAllocChain

/-! What the operations of the allocator do to a chain, when they return. -/
namespace OsProj.MmAlloc

open OsProj.ByteMemory OsProj.Faulting

/-! Running an operation: each primitive goes on exactly when its access is mapped. -/

section
variable {s s' : Heap} {f : α → M β} {r : β × Heap}

theorem loadAt_bind {f : Nat → M β} : (loadAt a n >>= f) s = .ok r ↔
    s.mapped a n = true ∧ f (load s.mem a n) s = .ok r := checked_bind rfl

theorem storeAt_bind {f : Unit → M β} : (storeAt a n v >>= f) s = .ok r ↔
    s.mapped a n = true ∧ f () { s with mem := store s.mem a n v } = .ok r := checked_bind rfl

theorem memset_bind {f : Unit → M β} : (memset a v n >>= f) s = .ok r ↔
    s.mapped a n = true ∧ f () { s with mem := fill s.mem a n v } = .ok r := checked_bind rfl

theorem memcpy_bind {f : Unit → M β} : (memcpy a b n >>= f) s = .ok r ↔
    (s.mapped a n && s.mapped b n) = true ∧ f () { s with mem := copy s.mem a b n } = .ok r :=
  checked_bind rfl

theorem memset_ok {out : Unit × Heap} : memset a v n s = .ok out ↔
    s.mapped a n = true ∧ out = ((),{ s with mem := fill s.mem a n v }) := by
  unfold memset
  split
  · rename_i mapped
    simp [mapped,eq_comm]
  · rename_i unmapped
    simp [unmapped]

theorem getPrev_bind {f : Nat → M β} : (getPrev a >>= f) s = .ok r ↔
    s.mapped a 8 = true ∧ f (nodeAt s.mem a).prev s = .ok r := loadAt_bind

theorem getNext_bind {f : Nat → M β} : (getNext a >>= f) s = .ok r ↔
    s.mapped (a + 8) 8 = true ∧ f (nodeAt s.mem a).next s = .ok r := loadAt_bind

theorem getFree_bind {f : Bool → M β} : (getFree a >>= f) s = .ok r ↔
    s.mapped (a + 16) 1 = true ∧ f (nodeAt s.mem a).free s = .ok r := by
  rw [getFree,bind_assoc]
  exact loadAt_bind

theorem getSize_bind {f : Nat → M β} : (getSize a >>= f) s = .ok r ↔
    s.mapped (a + 20) 4 = true ∧ f (nodeAt s.mem a).size s = .ok r := loadAt_bind

theorem getAllocated_bind {f : Nat → M β} : (getAllocated a >>= f) s = .ok r ↔
    s.mapped (a + 24) 8 = true ∧ f (nodeAt s.mem a).allocated s = .ok r := loadAt_bind

theorem getAllocated_ok {out : Nat × Heap} : getAllocated a s = .ok out ↔
    s.mapped (a + 24) 8 = true ∧ out = ((nodeAt s.mem a).allocated,s) := by
  rw [← bind_pure (getAllocated a),getAllocated_bind,pure_ok]

theorem setPrev_bind {f : Unit → M β} : (setPrev a v >>= f) s = .ok r ↔
    s.mapped a 8 = true ∧ f () { s with mem := store s.mem a 8 v } = .ok r := storeAt_bind

theorem setNext_bind {f : Unit → M β} : (setNext a v >>= f) s = .ok r ↔
    s.mapped (a + 8) 8 = true ∧ f () { s with mem := store s.mem (a + 8) 8 v } = .ok r := storeAt_bind

theorem setFree_bind {f : Unit → M β} {v : Bool} : (setFree a v >>= f) s = .ok r ↔
    s.mapped (a + 16) 1 = true ∧
      f () { s with mem := store s.mem (a + 16) 1 v.toNat } = .ok r := storeAt_bind

theorem setSize_bind {f : Unit → M β} : (setSize a v >>= f) s = .ok r ↔
    s.mapped (a + 20) 4 = true ∧ f () { s with mem := store s.mem (a + 20) 4 v } = .ok r := storeAt_bind

theorem setAllocated_bind {f : Unit → M β} : (setAllocated a v >>= f) s = .ok r ↔
    s.mapped (a + 24) 8 = true ∧
      f () { s with mem := store s.mem (a + 24) 8 v } = .ok r := storeAt_bind

/-- The memory after `if (node) node->prev = v;`. -/
def linkedBack (m : Memory) (node v : Nat) : Memory := if node = null then m else store m node 8 v

theorem linkBack_bind {f : Unit → M β} : (linkBack a v >>= f) s = .ok r ↔
    (a ≠ null → s.mapped a 8 = true) ∧ f () { s with mem := linkedBack s.mem a v } = .ok r := by
  unfold linkBack linkedBack
  split
  · rename_i isNull
    simp only [isNull,ne_eq,not_true_eq_false,false_implies,true_and]
    rfl
  · rename_i present
    simp only [present,ne_eq,not_false_eq_true,true_implies]
    exact setPrev_bind

end

structure Chain (s : Heap) (blocks : List Block) : Prop where
  head : s.memHead = headAddr blocks null
  linked : Segment s.mem null blocks null
  laid : Laid s.start blocks s.brk
  taken : ∀ b ∈ blocks, b.failed = true → b.free = false
  low : pageSize ≤ s.start
  high : s.brk ≤ addressLimit

theorem Chain.node (chain : Chain s (xs ++ b :: ys)) : nodeAt s.mem b.addr =
    ⟨lastAddr null xs,headAddr ys null,b.free,b.size,b.payload⟩ :=
  (segment_append.mp chain.linked).2.1

/-- The same chain, seen from the next block. -/
theorem Chain.advance (chain : Chain s (xs ++ b :: ys)) : Chain s ((xs ++ [b]) ++ ys) := by
  simpa using chain

theorem Chain.position (chain : Chain s blocks) (member : b ∈ blocks) :
    pageSize ≤ b.addr ∧ b.addr + b.extent ≤ addressLimit := by
  have inside := chain.laid.mem member
  have low := chain.low
  have high := chain.high
  omega

theorem Chain.addr_ne_null (chain : Chain s blocks) (member : b ∈ blocks) : b.addr ≠ null := by
  have inside := (chain.position member).1
  simp only [pageSize,null] at *
  omega

theorem Chain.payload_ne_null (chain : Chain s blocks) (member : b ∈ blocks) : b.payload ≠ null := by
  have inside := (chain.position member).1
  unfold Block.payload
  split <;> simp only [sbrkFailed,nodeSize,pageSize,null] at *
  · decide
  · omega

/-- Headers that stay as they are keep the chain. -/
theorem Chain.congr (chain : Chain s blocks) {m' : Memory}
    (same : ∀ b ∈ blocks, nodeAt m' b.addr = nodeAt s.mem b.addr) :
    Chain { s with mem := m' } blocks :=
  ⟨chain.head,chain.linked.congr same,chain.laid,chain.taken,chain.low,chain.high⟩

/-- Marking a block changes one header. -/
theorem Chain.setFree {b : Block} (chain : Chain s (xs ++ b :: ys)) (sound : b.failed = false) (v : Bool) :
    Chain { s with mem := store s.mem (b.addr + 16) 1 v.toNat }
      (xs ++ { b with free := v } :: ys) := by
  have other : ∀ c ∈ xs ++ ys, nodeAt (store s.mem (b.addr + 16) 1 v.toNat) c.addr =
      nodeAt s.mem c.addr := by
    intro c member
    exact nodeAt_store_apart (field_apart 16 1 (by decide) (chain.laid.headers_apart member)) s.mem _
  obtain ⟨front,node,back⟩ := segment_append.mp chain.linked
  constructor
  · simpa only [headAddr_append,headAddr_cons] using chain.head
  · refine segment_append.mpr ⟨front.congr ?_,?_,back.congr ?_⟩
    · intro c member
      exact other c (by simp [member])
    · rw [nodeAt_setFree,node]
      rfl
    · intro c member
      exact other c (by simp [member])
  · obtain ⟨middle,before,after⟩ := laid_append.mp chain.laid
    exact laid_append.mpr ⟨middle,before,after⟩
  · intro c member failed
    rcases mem_around.mp member with rfl | beside
    · rw [sound] at failed
      contradiction
    · exact chain.taken c (mem_around.mpr (.inr beside)) failed
  · exact chain.low
  · exact chain.high

/-- Filling the payload of a block. -/
theorem Chain.fill_payload {b : Block} (chain : Chain s (xs ++ b :: ys)) (within : nodeSize + n ≤ b.extent)
    (v : UInt8) : Chain { s with mem := fill s.mem (b.addr + nodeSize) n v } (xs ++ b :: ys) :=
  chain.congr (fun _ member => nodeAt_fill_apart (chain.laid.payload_apart within member) s.mem v)

/-- What taking over the block behind does to the headers: the size and the next pointer
of `x` and the previous pointer of the block that now follows it change. -/
structure Absorbs (m m' : Memory) (x next size : Nat) : Prop where
  self : nodeAt m' x = { nodeAt m x with size := size % 4294967296, next := next }
  behind : next ≠ null → nodeAt m' next = { nodeAt m next with prev := x }
  other : ∀ c, Apart x nodeSize c nodeSize → (next ≠ null → Apart next nodeSize c nodeSize) →
    nodeAt m' c = nodeAt m c

theorem nodeAt_linkedBack (m : Memory) (fits : v < 18446744073709551616) (present : n ≠ null) :
    nodeAt (linkedBack m n v) n = { nodeAt m n with prev := v } := by
  rw [linkedBack,if_neg present,nodeAt_setPrev m n fits]

theorem nodeAt_linkedBack_apart (m : Memory) (v : Nat)
    (apart : n ≠ null → Apart n nodeSize c nodeSize) : nodeAt (linkedBack m n v) c = nodeAt m c := by
  unfold linkedBack
  split
  · rfl
  · rename_i present
    exact nodeAt_store_apart (prev_apart (apart present)) m v

section
variable (m : Memory) {x n : Nat} (size : Nat)
  (fits : x < 18446744073709551616) (fits' : n < 18446744073709551616)
  (apart : n ≠ null → Apart x nodeSize n nodeSize)
include fits fits' apart

theorem absorbs_next_first :
    Absorbs m (linkedBack (store (store m (x + 20) 4 size) (x + 8) 8 n) n x) x n size := by
  constructor
  · rw [nodeAt_linkedBack_apart _ _ (fun present => (apart present).symm),nodeAt_setNext _ _ fits',
      nodeAt_setSize]
  · intro present
    rw [nodeAt_linkedBack _ fits present,
      nodeAt_store_apart (field_apart 8 8 (by decide) (apart present)),
      nodeAt_store_apart (field_apart 20 4 (by decide) (apart present))]
  · intro c away away'
    rw [nodeAt_linkedBack_apart _ _ away',nodeAt_store_apart (field_apart 8 8 (by decide) away),
      nodeAt_store_apart (field_apart 20 4 (by decide) away)]

theorem absorbs_back_first :
    Absorbs m (store (linkedBack (store m (x + 20) 4 size) n x) (x + 8) 8 n) x n size := by
  constructor
  · rw [nodeAt_setNext _ _ fits',nodeAt_linkedBack_apart _ _ (fun present => (apart present).symm),
      nodeAt_setSize]
  · intro present
    rw [nodeAt_store_apart (field_apart 8 8 (by decide) (apart present)),
      nodeAt_linkedBack _ fits present,
      nodeAt_store_apart (field_apart 20 4 (by decide) (apart present))]
  · intro c away away'
    rw [nodeAt_store_apart (field_apart 8 8 (by decide) away),nodeAt_linkedBack_apart _ _ away',
      nodeAt_store_apart (field_apart 20 4 (by decide) away)]

end

/-- The list without a block that the one before it has taken over. -/
theorem Chain.absorb {x y : Block} (chain : Chain s (xs ++ x :: y :: zs)) (sound : x.failed = false)
    (sound' : y.failed = false)
    (absorbs : Absorbs s.mem m' x.addr (headAddr zs null) (x.size + (nodeSize + y.size))) :
    Chain { s with mem := m' } (xs ++ x.absorb y :: zs) := by
  have others : ∀ c ∈ xs ++ zs.tail, nodeAt m' c.addr = nodeAt s.mem c.addr := by
    intro c member
    apply absorbs.other
    · apply chain.laid.headers_apart
      rcases List.mem_append.mp member with before | after
      · simp [before]
      · simp [List.mem_of_mem_tail after]
    · intro present
      cases zs with
      | nil => exact absurd rfl present
      | cons z zs =>
        have laid : Laid s.start ((xs ++ [x,y]) ++ z :: zs) s.brk := by simpa using chain.laid
        apply laid.headers_apart
        rcases List.mem_append.mp member with before | after
        · simp [before]
        · simp at after
          simp [after]
  obtain ⟨front,node,_,back⟩ := segment_append.mp chain.linked
  constructor
  · simpa only [headAddr_append,headAddr_cons,Block.absorb] using chain.head
  · refine segment_append.mpr ⟨front.congr ?_,?_,?_⟩
    · intro c member
      exact others c (by simp [member])
    · change nodeAt m' x.addr = _
      rw [absorbs.self,node]
      rfl
    · cases zs with
      | nil => trivial
      | cons z zs =>
        have present : headAddr (z :: zs) null ≠ null := chain.addr_ne_null (by simp)
        refine ⟨?_,back.2.congr ?_⟩
        · have behind := absorbs.behind present
          rw [headAddr_cons] at behind
          rw [behind,back.1]
          rfl
        · intro c member
          exact others c (by simp [member])
  · obtain ⟨middle,before,first,second,after⟩ := laid_append.mp chain.laid
    refine laid_append.mpr ⟨middle,before,first,after.mono ?_ (Nat.le_refl _)⟩
    have grown := Block.absorb_extent (y := y) sound
    have same : (x.absorb y).addr = x.addr := rfl
    rw [Block.extent_eq sound] at second
    rw [Block.extent_eq sound']
    omega
  · intro c member failed
    rcases mem_around.mp member with rfl | beside
    · exact chain.taken x (by simp) failed
    · exact chain.taken c (mem_around.mpr (.inr (mem_around.mpr (.inr beside)))) failed
  · exact chain.low
  · exact chain.high

/-- Every block is one of the old blocks, by header address and by failure. -/
def Within (blocks' blocks : List Block) : Prop :=
  ∀ c ∈ blocks', ∃ d ∈ blocks, c.addr = d.addr ∧ c.failed = d.failed

theorem Within.refl (blocks : List Block) : Within blocks blocks :=
  fun c member => ⟨c,member,rfl,rfl⟩

theorem Within.trans (first : Within blocks' blocks) (second : Within blocks'' blocks') :
    Within blocks'' blocks := by
  intro c member
  obtain ⟨d,member',addr,failed⟩ := second c member
  obtain ⟨e,member'',addr',failed'⟩ := first d member'
  exact ⟨e,member'',addr.trans addr',failed.trans failed'⟩

/-- One block in another state, and perhaps fewer behind it. -/
theorem within_replace {b b' : Block} (addr : b'.addr = b.addr) (failed : b'.failed = b.failed)
    (fewer : ∀ c ∈ ys', c ∈ ys) : Within (xs ++ b' :: ys') (xs ++ b :: ys) := by
  intro c member
  rcases mem_around.mp member with rfl | beside
  · exact ⟨b,by simp,addr,failed⟩
  · refine ⟨c,mem_around.mpr (.inr ?_),rfl,rfl⟩
    exact List.mem_append.mpr ((List.mem_append.mp beside).imp_right (fewer c))

theorem within_absorb {x y : Block} : Within (xs ++ x.absorb y :: zs) (xs ++ x :: y :: zs) :=
  within_replace rfl rfl (fun _ => List.mem_cons_of_mem y)

inductive MergesLeft : List Block → Block → List Block → Block → Prop where
  | none : (∀ a ∈ xs.getLast?, a.free = false) → MergesLeft xs b xs b
  | absorb : a.free = true → MergesLeft (xs ++ [a]) b xs (a.absorb b)

inductive MergesRight : Block → List Block → Block → List Block → Prop where
  | none : (∀ c ∈ ys.head?, c.free = false) → MergesRight b ys b ys
  | absorb : c.free = true → MergesRight b (c :: ys) (b.absorb c) ys

inductive Freed (ptr : Nat) : List Block → List Block → Prop where
  | absent : (∀ b ∈ blocks, b.payload ≠ ptr) → Freed ptr blocks blocks
  | found : b.payload = ptr → b.failed = false → MergesLeft xs { b with free := true } xs₁ b₁ →
      MergesRight b₁ ys b₂ ys₂ → Freed ptr (xs ++ b :: ys) (xs₁ ++ b₂ :: ys₂)

theorem MergesLeft.within (merges : MergesLeft xs b xs' b') (sound : b.failed = false)
    (taken : ∀ a ∈ xs, a.free = true → a.failed = false) :
    b'.failed = false ∧ Within (xs' ++ b' :: ys) (xs ++ b :: ys) := by
  cases merges with
  | none => exact ⟨sound,.refl _⟩
  | absorb free =>
    have sound' := taken _ (List.mem_append_right _ (List.mem_singleton_self _)) free
    exact ⟨sound',by simpa using within_absorb⟩

theorem MergesRight.within (merges : MergesRight b ys b' ys') :
    b'.addr = b.addr ∧ Within (xs ++ b' :: ys') (xs ++ b :: ys) := by
  cases merges with
  | none => exact ⟨rfl,.refl _⟩
  | absorb => exact ⟨rfl,within_absorb⟩

theorem Chain.free_sound (chain : Chain s blocks) (member : b ∈ blocks) (free : b.free = true) :
    b.failed = false := by
  rw [Bool.eq_false_iff]
  intro failed
  rw [chain.taken b member failed] at free
  contradiction

/-- Clearing what a block has become after it took over the one behind. -/
theorem Chain.absorb_cleared (chain : Chain s (xs ++ x :: y :: zs)) (sound : x.failed = false)
    (sound' : y.failed = false)
    (absorbs : Absorbs s.mem m' x.addr (headAddr zs null) (x.size + (nodeSize + y.size))) :
    Chain { s with mem := fill m' x.payload ((x.size + (nodeSize + y.size)) % 4294967296) 0 }
      (xs ++ x.absorb y :: zs) := by
  have merged := chain.absorb sound sound' absorbs
  rw [Block.payload_eq sound]
  refine merged.fill_payload ?_ 0
  rw [Block.extent_eq (b := x.absorb y) sound]
  rfl

/-- Two neighbours in the list, and what writes to the first leave of the second. -/
theorem Chain.neighbours (chain : Chain s (xs ++ x :: y :: zs)) :
    (x.addr < 18446744073709551616 ∧ headAddr zs null < 18446744073709551616) ∧
    (headAddr zs null ≠ null → Apart x.addr nodeSize (headAddr zs null) nodeSize) ∧
    (∀ m v, nodeAt (store m (x.addr + 20) 4 v) y.addr = nodeAt m y.addr) ∧
    (∀ m v, nodeAt (store m (x.addr + 8) 8 v) y.addr = nodeAt m y.addr) ∧
    (∀ m v, nodeAt (linkedBack m (headAddr zs null) v) y.addr = nodeAt m y.addr) := by
  have apart : Apart x.addr nodeSize y.addr nodeSize := chain.laid.headers_apart (by simp)
  have small {b : Block} (member : b ∈ xs ++ x :: y :: zs) : b.addr < 18446744073709551616 := by
    have position := (chain.position member).2
    simp only [addressLimit] at position
    omega
  refine ⟨⟨small (by simp),?_⟩,?_,?_,?_,?_⟩
  · cases zs with
    | nil => decide
    | cons z zs => exact small (by simp)
  · intro present
    cases zs with
    | nil => exact absurd rfl present
    | cons z zs => exact chain.laid.headers_apart (by simp)
  · intro m v
    exact nodeAt_store_apart (field_apart 20 4 (by decide) apart) m v
  · intro m v
    exact nodeAt_store_apart (field_apart 8 8 (by decide) apart) m v
  · intro m v
    apply nodeAt_linkedBack_apart
    intro present
    cases zs with
    | nil => exact absurd rfl present
    | cons z zs =>
      have laid : Laid s.start ((xs ++ [x,y]) ++ z :: zs) s.brk := by simpa using chain.laid
      exact laid.headers_apart (by simp)

/-- Bytes change only in headers of the list and between two addresses. -/
def Wipes (m : Memory) (blocks : List Block) (low high : Nat) (m' : Memory) : Prop :=
  ∀ x, (∀ c ∈ blocks, x < c.addr ∨ c.addr + nodeSize ≤ x) → x < low ∨ high ≤ x → m' x = m x

theorem Wipes.refl (m : Memory) (blocks : List Block) (low high : Nat) : Wipes m blocks low high m := fun _ _ _ => rfl

theorem Wipes.trans (first : Wipes m blocks low high m') (second : Wipes m' blocks' low' high' m'')
    (within : Within blocks' blocks) (low'' high'' : Nat) (below : low'' ≤ low ∧ low'' ≤ low')
    (above : high ≤ high'' ∧ high' ≤ high'') :
    Wipes m blocks low'' high'' m'' := by
  intro x clear outside
  have clear' : ∀ c ∈ blocks', x < c.addr ∨ c.addr + nodeSize ≤ x := by
    intro c member
    obtain ⟨d,old,same,_⟩ := within c member
    rw [same]
    exact clear d old
  exact (second x clear' (by omega)).trans (first x clear (by omega))

def Block.Zero (b : Block) (m : Memory) : Prop := ∀ x, b.payload ≤ x → x < b.payload + b.size → m x = 0

theorem linkedBack_outside (m : Memory) (v : Nat) (outside : n ≠ null → x < n ∨ n + nodeSize ≤ x) :
    linkedBack m n v x = m x := by
  unfold linkedBack
  split
  · rfl
  · rename_i present
    have outside := outside present
    simp only [nodeSize] at outside
    exact if_neg (by omega)

theorem store_field (m : Memory) (v : Nat) (outside : x < a ∨ a + nodeSize ≤ x) (inside : offset + width ≤ nodeSize) :
    store m (a + offset) width v x = m x := if_neg (by omega)

/-- What taking over the block behind writes, apart from its bytes becoming zero. -/
theorem Chain.absorb_wipes (chain : Chain s (xs ++ x :: y :: zs)) (sound : x.failed = false) (sound' : y.failed = false)
    {m' : Memory} (same : ∀ b, (b < x.addr ∨ x.addr + nodeSize ≤ b) →
      (headAddr zs null ≠ null → b < headAddr zs null ∨ headAddr zs null + nodeSize ≤ b) → m' b = s.mem b) :
    Wipes s.mem (xs ++ x :: y :: zs) x.addr (y.addr + y.extent)
      (fill m' x.payload ((x.size + (nodeSize + y.size)) % 4294967296) 0) := by
  obtain ⟨middle,_,first,second,_⟩ := laid_append.mp chain.laid
  rw [Block.extent_eq sound] at second
  rw [Block.extent_eq sound',Block.payload_eq sound]
  have total := Nat.mod_le (x.size + (nodeSize + y.size)) 4294967296
  intro b clear outside
  have unfilled : ¬(x.addr + nodeSize ≤ b ∧ b < x.addr + nodeSize + (x.size + (nodeSize + y.size)) % 4294967296) := by omega
  refine (if_neg unfilled).trans (same b (clear x (by simp)) fun present => ?_)
  cases zs with
  | nil => exact absurd rfl present
  | cons z zs => exact clear z (by simp)

/-- Merging to the left leaves a chain with the block, or with the one that took it over. -/
theorem mergeLeft_spec (chain : Chain s (xs ++ b :: ys)) (sound : b.failed = false)
    (ok : mergeLeft b.addr s = .ok (d,s')) :
    ∃ m' xs' b', s' = { s with mem := m' } ∧ Chain s' (xs' ++ b' :: ys) ∧ d = b'.addr ∧
      b'.failed = false ∧ MergesLeft xs b xs' b' ∧ b'.addr ≤ b.addr ∧
      Wipes s.mem (xs ++ b :: ys) b'.addr (b.addr + b.extent) m' ∧ (b.Zero s.mem → b'.Zero m') := by
  have node := chain.node
  simp only [mergeLeft,getPrev_bind,node] at ok
  obtain ⟨_,ok⟩ := ok
  obtain rfl | ⟨front,a,rfl⟩ := List.eq_nil_or_concat xs
  · rw [if_pos (by rfl)] at ok
    obtain ⟨rfl,rfl⟩ := Prod.mk.inj (pure_ok.mp ok)
    exact ⟨s'.mem,[],b,rfl,chain,rfl,sound,.none (by simp),Nat.le_refl _,.refl _ _ _ _,id⟩
  simp only [List.concat_eq_append,List.append_assoc,List.singleton_append] at chain node ok ⊢
  have present : a.addr ≠ null := chain.addr_ne_null (by simp)
  have before := chain.node
  simp only [lastAddr_append,lastAddr] at ok node
  rw [if_neg present] at ok
  simp only [getFree_bind,before] at ok
  obtain ⟨_,ok⟩ := ok
  split at ok
  · rename_i free
    have sound' := chain.free_sound (b := a) (by simp) free
    obtain ⟨⟨small,small'⟩,apart,keepSize,keepNext,keepBack⟩ := chain.neighbours
    have absorbs := absorbs_next_first s.mem (a.size + (nodeSize + b.size)) small small' apart
    simp only [getSize_bind,setSize_bind,getPrev_bind,getNext_bind,setNext_bind,linkBack_bind,
      getAllocated_bind,memset_bind,pure_ok,before,node,keepSize,keepNext,keepBack,absorbs.self] at ok
    obtain ⟨_,_,_,_,_,_,_,_,_,_,_,_,_,result⟩ := ok
    obtain ⟨rfl,rfl⟩ := Prod.mk.inj result
    have order : a.addr ≤ b.addr := by
      obtain ⟨_,_,_,second,_⟩ := laid_append.mp chain.laid
      omega
    refine ⟨_,front,a.absorb b,rfl,chain.absorb_cleared sound' sound absorbs,rfl,sound',.absorb free,order,
      chain.absorb_wipes sound' sound fun x own behind => ?_,fun _ x low high => if_pos ⟨low,high⟩⟩
    rw [linkedBack_outside _ _ behind,store_field _ _ own (by decide),store_field _ _ own (by decide)]
  · rename_i taken
    obtain ⟨rfl,rfl⟩ := Prod.mk.inj (pure_ok.mp ok)
    exact ⟨s'.mem,front ++ [a],b,rfl,by simpa using chain,rfl,sound,.none (by simpa using taken),Nat.le_refl _,.refl _ _ _ _,id⟩

/-- Merging to the right keeps the block in place. -/
theorem mergeRight_spec (chain : Chain s (xs ++ b :: ys)) (sound : b.failed = false)
    (ok : mergeRight b.addr s = .ok (u,s')) :
    ∃ m' b' ys' high, s' = { s with mem := m' } ∧ Chain s' (xs ++ b' :: ys') ∧ MergesRight b ys b' ys' ∧
      (∀ c ∈ ys', high ≤ c.addr) ∧ Wipes s.mem (xs ++ b :: ys) b.addr high m' ∧ (b.Zero s.mem → b'.Zero m') := by
  have node := chain.node
  simp only [mergeRight,getNext_bind,node] at ok
  obtain ⟨_,ok⟩ := ok
  cases ys with
  | nil =>
    rw [if_pos (by rfl)] at ok
    obtain ⟨_,rfl⟩ := Prod.mk.inj (pure_ok.mp ok)
    exact ⟨s'.mem,b,[],0,rfl,chain,.none (by simp),by simp,.refl _ _ _ _,id⟩
  | cons c zs =>
    have present : headAddr (c :: zs) null ≠ null := chain.addr_ne_null (by simp)
    rw [if_neg present] at ok
    have next : nodeAt s.mem c.addr = ⟨b.addr,headAddr zs null,c.free,c.size,c.payload⟩ :=
      (segment_append.mp chain.linked).2.2.1
    simp only [headAddr_cons] at node ok
    simp only [getFree_bind,next] at ok
    obtain ⟨_,ok⟩ := ok
    split at ok
    · rename_i free
      have sound' := chain.free_sound (b := c) (by simp) free
      obtain ⟨⟨small,small'⟩,apart,keepSize,keepNext,keepBack⟩ := chain.neighbours
      have absorbs := absorbs_back_first s.mem (b.size + (nodeSize + c.size)) small small' apart
      have ownBack (m : Memory) (v : Nat) :
          nodeAt (linkedBack m (headAddr zs null) v) b.addr = nodeAt m b.addr :=
        nodeAt_linkedBack_apart m v (fun present => (apart present).symm)
      simp only [getSize_bind,getNext_bind,setSize_bind,linkBack_bind,setNext_bind,
        getAllocated_bind,memset_ok,node,next,keepSize,keepBack,ownBack,nodeAt_setSize,
        absorbs.self] at ok
      obtain ⟨_,_,_,_,_,_,_,_,_,_,_,_,_,result⟩ := ok
      obtain ⟨_,rfl⟩ := Prod.mk.inj result
      refine ⟨_,b.absorb c,zs,c.addr + c.extent,rfl,chain.absorb_cleared sound sound' absorbs,.absorb free,?_,
        chain.absorb_wipes sound sound' fun x own behind => ?_,fun _ x low high => if_pos ⟨low,high⟩⟩
      · obtain ⟨_,_,_,_,later⟩ := laid_append.mp chain.laid
        exact fun d member => (later.mem member).1
      · rw [store_field _ _ own (by decide),linkedBack_outside _ _ behind,store_field _ _ own (by decide)]
    · rename_i taken
      obtain ⟨_,rfl⟩ := Prod.mk.inj (pure_ok.mp ok)
      exact ⟨s'.mem,b,c :: zs,0,rfl,chain,.none (by simpa using taken),by simp,.refl _ _ _ _,id⟩

/-- What freeing a pointer does to the list and to the bytes: the block that is left is cleared, and the other blocks
keep their payloads. -/
inductive Released (ptr : Nat) (m : Memory) : List Block → Memory → List Block → Prop where
  | absent : (∀ b ∈ blocks, b.payload ≠ ptr) → Released ptr m blocks m blocks
  | found : b.payload = ptr → b.failed = false → MergesLeft xs { b with free := true } xs₁ b₁ → MergesRight b₁ ys b₂ ys₂ →
      b₂.addr ≤ b.addr → (∀ c ∈ ys₂, high ≤ c.addr) → Wipes m (xs ++ b :: ys) b₂.addr high m' → b₂.Zero m' →
      Released ptr m (xs ++ b :: ys) m' (xs₁ ++ b₂ :: ys₂)

theorem Released.freed (released : Released ptr m blocks m' blocks') : Freed ptr blocks blocks' := by
  cases released with
  | absent none => exact .absent none
  | found payload sound left right => exact .found payload sound left right

/-- Freeing a block of a chain leaves a chain, and the loop goes on from a block of it. -/
theorem freeBlock_spec (chain : Chain s (xs ++ b :: ys)) (sound : b.failed = false)
    (ok : freeBlock b.addr s = .ok (d,s')) :
    ∃ m' xs₁ b₁ b₂ ys₂ high, s' = { s with mem := m' } ∧ Chain s' (xs₁ ++ b₂ :: ys₂) ∧ d = b₂.addr ∧
      MergesLeft xs { b with free := true } xs₁ b₁ ∧ MergesRight b₁ ys b₂ ys₂ ∧ b₂.addr ≤ b.addr ∧
      (∀ c ∈ ys₂, high ≤ c.addr) ∧ Wipes s.mem (xs ++ b :: ys) b₂.addr high m' ∧ b₂.Zero m' := by
  have node := chain.node
  simp only [freeBlock,setFree_bind,getAllocated_bind,getSize_bind,memset_bind,nodeAt_setFree,
    node] at ok
  obtain ⟨_,_,_,_,ok⟩ := ok
  have marked := chain.setFree sound true
  have cleared := marked.fill_payload (n := b.size)
    (by rw [Block.extent_eq (b := { b with free := true }) sound]) 0
  rw [Block.payload_eq sound] at ok
  obtain ⟨d',t,merged,ok⟩ := bind_ok.mp ok
  obtain ⟨m₁,xs₁,b₁,rfl,chain₁,rfl,sound₁,left,order,wipes₁,zero₁⟩ := mergeLeft_spec cleared sound merged
  obtain ⟨u,t',merged',ok⟩ := bind_ok.mp ok
  obtain ⟨m₂,b₂,ys₂,high,rfl,chain₂,right,above,wipes₂,zero₂⟩ := mergeRight_spec chain₁ sound₁ merged'
  obtain ⟨rfl,rfl⟩ := Prod.mk.inj (pure_ok.mp ok)
  have merged : b₂.addr = b₁.addr ∧ Within (xs₁ ++ b₂ :: ys₂) (xs₁ ++ b₁ :: ys) := right.within
  have known := fun a member => marked.free_sound (b := a) (List.mem_append_left _ member)
  have start : Wipes s.mem (xs ++ b :: ys) b.addr (b.addr + b.extent)
      (fill (store s.mem (b.addr + 16) 1 true.toNat) (b.addr + nodeSize) b.size 0) := by
    intro x clear outside
    rw [Block.extent_eq sound] at outside
    exact (if_neg (by omega)).trans (store_field _ _ (clear b (by simp)) (by decide))
  have within : Within (xs ++ { b with free := true } :: ys) (xs ++ b :: ys) := within_replace rfl rfl fun _ => id
  have wiped₁ := start.trans wipes₁ within b₁.addr (b.addr + b.extent) ⟨order,Nat.le_refl _⟩ ⟨Nat.le_refl _,Nat.le_refl _⟩
  have wiped := wiped₁.trans wipes₂ (within.trans (left.within sound known).2) b₂.addr (max (b.addr + b.extent) high)
    ⟨Nat.le_of_eq merged.1,Nat.le_of_eq merged.1⟩ ⟨Nat.le_max_left _ _,Nat.le_max_right _ _⟩
  refine ⟨m₂,xs₁,b₁,b₂,ys₂,max (b.addr + b.extent) high,rfl,chain₂,merged.1.symm,left,right,?_,?_,wiped,?_⟩
  · rw [merged.1]
    exact order
  · intro c member
    obtain ⟨_,_,_,behind⟩ := laid_append.mp chain.laid
    have later : c ∈ ys := by
      cases right with
      | none => exact member
      | absorb => exact List.mem_cons_of_mem _ member
    exact Nat.max_le.mpr ⟨(behind.mem later).1,above c member⟩
  · refine zero₂ (zero₁ fun x low high => if_pos ⟨?_,?_⟩)
    · rwa [Block.payload_eq (b := { b with free := true }) sound] at low
    · rwa [Block.payload_eq (b := { b with free := true }) sound] at high

/-- From blocks without the pointer on, the loop changes nothing. -/
theorem freeLoop_absent (chain : Chain s (xs ++ ys)) (absent : ∀ b ∈ ys, b.payload ≠ ptr)
    (ok : freeLoop ptr fuel (headAddr ys null) s = .ok (u,s')) : s' = s := by
  induction fuel generalizing xs ys with
  | zero => contradiction
  | succ fuel ih =>
    unfold freeLoop at ok
    split at ok
    · exact (Prod.mk.inj (pure_ok.mp ok)).2
    rename_i present
    cases ys with
    | nil => exact absurd rfl present
    | cons b ys =>
      have node := chain.node
      simp only [headAddr_cons,getAllocated_bind,node] at ok
      obtain ⟨_,ok⟩ := ok
      rw [if_neg (absent b (by simp))] at ok
      simp only [pure_bind,getNext_bind,node] at ok
      exact ih chain.advance (fun c member => absent c (by simp [member])) ok.2

/-- Two blocks of a chain do not share a payload pointer. -/
theorem Chain.payload_ne {b c : Block} (chain : Chain s (xs ++ b :: ys)) (sound : b.failed = false)
    (member : c ∈ ys) : c.payload ≠ b.payload := by
  obtain ⟨middle,_,first,back⟩ := laid_append.mp chain.laid
  have behind := (back.mem member).1
  have header := b.header_le
  have high := (chain.position (b := b) (by simp)).2
  rw [Block.payload_eq sound]
  unfold Block.payload
  split
  · simp only [sbrkFailed,addressLimit,nodeSize] at *
    omega
  · simp only [nodeSize] at *
    omega

/-- The whole loop, from any block of the list on. -/
theorem freeLoop_spec (chain : Chain s (xs ++ ys)) (absent : ∀ b ∈ xs, b.payload ≠ ptr)
    (real : ptr ≠ sbrkFailed) (ok : freeLoop ptr fuel (headAddr ys null) s = .ok (u,s')) :
    ∃ m' blocks', s' = { s with mem := m' } ∧ Chain s' blocks' ∧ Released ptr s.mem (xs ++ ys) m' blocks' := by
  induction fuel generalizing s xs ys with
  | zero => contradiction
  | succ fuel ih =>
    cases ys with
    | nil =>
      obtain rfl := freeLoop_absent chain (by simp) ok
      exact ⟨s'.mem,xs ++ [],rfl,chain,.absent (by simpa using absent)⟩
    | cons b ys =>
      have present : b.addr ≠ null := chain.addr_ne_null (by simp)
      unfold freeLoop at ok
      rw [headAddr_cons,if_neg present] at ok
      have node := chain.node
      simp only [getAllocated_bind,node] at ok
      obtain ⟨_,ok⟩ := ok
      split at ok
      · rename_i found
        have sound : b.failed = false := by
          rw [Bool.eq_false_iff]
          intro failed
          simp only [Block.payload,failed,↓reduceIte] at found
          exact real found.symm
        obtain ⟨d,t,freed,ok⟩ := bind_ok.mp ok
        obtain ⟨m₁,xs₁,b₁,b₂,ys₂,high,rfl,chain₁,rfl,left,right,order,above,wipes,zero⟩ := freeBlock_spec chain sound freed
        have node₁ := chain₁.node
        simp only [getNext_bind,node₁] at ok
        have rest : ∀ c ∈ ys₂, c.payload ≠ ptr := by
          intro c member
          rw [← found]
          refine chain.payload_ne sound ?_
          cases right with
          | none => exact member
          | absorb => exact List.mem_cons_of_mem _ member
        obtain rfl := freeLoop_absent chain₁.advance rest ok.2
        exact ⟨m₁,xs₁ ++ b₂ :: ys₂,rfl,chain₁,.found found sound left right order above wipes zero⟩
      · rename_i other
        simp only [pure_bind,getNext_bind,node] at ok
        have absent' : ∀ c ∈ xs ++ [b], c.payload ≠ ptr := by
          intro c member
          rcases List.mem_append.mp member with early | here
          · exact absent c early
          · rwa [List.mem_singleton.mp here]
        simpa using ih chain.advance absent' ok.2

/-- Freeing any pointer but `(void*) -1` leaves a chain over the same heap. -/
theorem mmFree_released (chain : Chain s blocks) (real : ptr ≠ sbrkFailed)
    (ok : mmFree fuel ptr s = .ok (u,s')) :
    ∃ m' blocks', s' = { s with mem := m' } ∧ Chain s' blocks' ∧ Released ptr s.mem blocks m' blocks' := by
  unfold mmFree at ok
  split at ok
  · rename_i none
    obtain ⟨_,rfl⟩ := Prod.mk.inj (pure_ok.mp ok)
    refine ⟨s'.mem,blocks,rfl,chain,.absent ?_⟩
    intro b member
    rw [none]
    exact chain.payload_ne_null member
  · have loop := get_bind.mp ok
    rw [chain.head] at loop
    exact freeLoop_spec (show Chain s ([] ++ blocks) from chain) (by simp) real loop

theorem mmFree_spec (chain : Chain s blocks) (real : ptr ≠ sbrkFailed)
    (ok : mmFree fuel ptr s = .ok (u,s')) :
    ∃ m' blocks', s' = { s with mem := m' } ∧ Chain s' blocks' ∧ Freed ptr blocks blocks' := by
  obtain ⟨m',blocks',same,chain',released⟩ := mmFree_released chain real ok
  exact ⟨m',blocks',same,chain',released.freed⟩

/-- Freeing only changes or drops blocks. -/
theorem Chain.freed_within (chain : Chain s blocks) (freed : Freed ptr blocks blocks') :
    Within blocks' blocks := by
  cases freed with
  | absent => exact .refl _
  | found _ sound left right =>
    have known := fun a member => chain.free_sound (b := a) (List.mem_append_left _ member)
    refine (Within.trans ?_ (left.within sound known).2).trans right.within.2
    exact within_replace rfl rfl (fun _ => id)

end OsProj.MmAlloc
