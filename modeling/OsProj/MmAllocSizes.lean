import Mathlib.Data.Set.Basic
import OsProj.MmAllocFailure

/-! The size fields and the bytes that are really reserved. A run carries along which headers are in force; the
payload of a node reaches to the next of them. A field of 32 bits is too short for the first block and for a merge,
and the payload of a block cut off by a split does not begin where it should. -/
namespace OsProj.MmAlloc

open OsProj.ByteMemory OsProj.Faulting OsProj.History

/-- The headers in force after a call: those that were before and those that are new, without the ones that another
block has taken over. A header without a payload leaves the list without being taken over. -/
def inForce (s s' : Heap) (headers : Set Nat) : Set Nat :=
  {a | (a ∈ headers ∨ (a = s.brk ∧ s.brk < s'.brk) ∨ Listed s' a) ∧
    (Listed s a → (nodeAt s.mem a).allocated ≠ sbrkFailed → Listed s' a)}

def HeaderStep (h : List Event) (s : System × Set Nat) (e : Event) (s' : System × Set Nat) : Prop :=
  Step h s.1 e s'.1 ∧ s'.2 = inForce s.1.heap s'.1.heap s.2

/-- The memory of the node at `a` ends where the next header begins, or at the break. -/
structure EndsAt (headers : Set Nat) (s : Heap) (a finish : Nat) : Prop where
  place : finish ∈ headers ∨ finish = s.brk
  next : ∀ b ∈ headers, a < b → finish ≤ b
  below : finish ≤ s.brk

/-- The size field is the number of bytes from the payload pointer to the end of the node's memory. -/
def ExactSize (headers : Set Nat) (s : Heap) (a : Nat) : Prop :=
  EndsAt headers s a ((nodeAt s.mem a).allocated + (nodeAt s.mem a).size)

/-- The request splits no block, and fits the size field if it is the first. -/
def Unsplit (s : Heap) (size : Nat) : Prop :=
  (s.memHead = null → size < 4294967296) ∧
  (0 < size → size < 4294967295 → ∀ curr, FirstFit s.mem size s.memHead curr →
    (nodeAt s.mem curr).size < 1 + size + nodeSize)

/-- Requests fit their fields, split no block and do not leave a header behind when they fail, and merged blocks fit
the size field. -/
def SizesFit (h : List Event) (s : System × Set Nat) (e : Event) : Prop :=
  FailsCleanly h s.1 e ∧ match e.1 with
  | .malloc _ size => Unsplit s.1.heap size
  | .realloc _ ptr size => Unsplit s.1.heap size ∧ (size < 4294967295 → MergeFits s.1.heap ptr)
  | .free ptr => MergeFits s.1.heap ptr
  | .write _ _ => True

/-! The list fills the memory from its start to `finish`. What lies behind was appended behind a tail that the list
had lost. -/

/-- A range of the client lies in the heap, apart from the headers. -/
structure Clear (s : Heap) (blocks : List Block) (r : Nat × Nat) : Prop where
  headers : ∀ b ∈ blocks, Apart r.1 r.2 b.addr nodeSize
  inside : s.start ≤ r.1 ∧ r.1 + r.2 ≤ s.brk

structure Filled (s : System) (blocks : List Block) (finish : Nat) : Prop where
  chain : Chain s.heap blocks
  tail : TailOk s.heap blocks
  sound : ∀ b ∈ blocks, b.failed = false
  tight : Tight s.heap.start blocks finish
  ends : finish = s.heap.brk ∨ (finish < s.heap.brk ∧ ∀ b ∈ blocks, b.addr ≠ s.heap.memTail)
  empty : blocks = [] → s.heap.memTail = null ∧ finish = s.heap.brk
  live : ∀ r ∈ s.live, Clear s.heap blocks r

structure Marked (headers : Set Nat) (s : Heap) (blocks : List Block) (finish : Nat) : Prop where
  listed : ∀ b ∈ blocks, b.addr ∈ headers
  only : ∀ a ∈ headers, (∃ b ∈ blocks, b.addr = a) ∨ finish ≤ a
  ends : finish ∈ headers ∨ finish = s.brk
  below : ∀ a ∈ headers, a < s.brk

theorem Tight.le (tight : Tight low blocks high) : low ≤ high := by
  induction blocks generalizing low with
  | nil => exact Nat.le_of_eq tight
  | cons b blocks ih =>
    have first := tight.1
    have rest := ih tight.2
    omega

theorem Tight.mem (tight : Tight low blocks high) (member : b ∈ blocks) :
    low ≤ b.addr ∧ b.addr + nodeSize + b.size ≤ high := by
  obtain ⟨front,after,rfl⟩ := List.append_of_mem member
  obtain ⟨middle,before,first,behind⟩ := tight_append.mp tight
  have low_le := before.le
  have high_le := behind.le
  omega

theorem Clear.grow (clear : Clear s blocks r) (start : s'.start = s.start) (grows : s.brk ≤ s'.brk)
    (origin : ∀ c ∈ blocks', (∃ d ∈ blocks, c.addr = d.addr) ∨ s.brk ≤ c.addr) : Clear s' blocks' r := by
  obtain ⟨low,high⟩ := clear.inside
  refine ⟨?_,by rw [start]; omega⟩
  intro c listed
  rcases origin c listed with ⟨d,old,same⟩ | above
  · rw [same]
    exact clear.headers d old
  · exact .inl (by omega)

section
variable {s : System} {heap : Heap} {blocks blocks' : List Block} {headers : Set Nat}

theorem Chain.listed_iff (chain : Chain heap blocks) : Listed heap a ↔ ∃ b ∈ blocks, b.addr = a := by
  refine ⟨chain.listed,?_⟩
  rintro ⟨b,member,rfl⟩
  obtain ⟨front,after,rfl⟩ := List.append_of_mem member
  exact chain.reached

theorem Filled.finish_le (filled : Filled s blocks finish) : finish ≤ s.heap.brk := by
  rcases filled.ends with whole | ⟨less,_⟩
  · exact Nat.le_of_eq whole
  · exact Nat.le_of_lt less

theorem Filled.real (filled : Filled s blocks finish) (held : ∃ r ∈ s.live, r.1 = ptr) : ptr ≠ sbrkFailed ∧ ptr ≠ null := by
  obtain ⟨r,member,rfl⟩ := held
  obtain ⟨low,high⟩ := (filled.live r member).inside
  have start := filled.chain.low
  have limit := filled.chain.high
  simp only [sbrkFailed,null,pageSize,addressLimit] at *
  omega

/-- How the end of the list moves: a block at the break moves it only if it is in the list. -/
structure Follows (s : Heap) (finish : Nat) (s' : Heap) (blocks' : List Block) (finish' : Nat) : Prop where
  grows : s.brk ≤ s'.brk
  ends : finish' = finish ∨ (finish = s.brk ∧ finish' = s'.brk)
  new : s.brk < s'.brk → finish' = finish ∨ ∃ b ∈ blocks', b.addr = s.brk

/-- The headers in force are those of the list and those behind its end. -/
theorem Marked.step {s' : System} (marked : Marked headers s.heap blocks finish) (filled : Filled s blocks finish)
    (filled' : Filled s' blocks' finish') (follows : Follows s.heap finish s'.heap blocks' finish') :
    Marked (inForce s.heap s'.heap headers) s'.heap blocks' finish' := by
  have grows := follows.grows
  have unlisted {a : Nat} (high : finish ≤ a) : ¬Listed s.heap a := by
    intro listed
    obtain ⟨b,member,rfl⟩ := filled.chain.listed listed
    have inside := (filled.tight.mem member).2
    simp only [nodeSize] at inside
    omega
  refine ⟨?_,?_,?_,?_⟩
  · intro b member
    have listed := filled'.chain.listed_iff.mpr ⟨b,member,rfl⟩
    exact ⟨.inr (.inr listed),fun _ _ => listed⟩
  · rintro a ⟨old | ⟨rfl,grew⟩ | listed,stays⟩
    · rcases marked.only a old with ⟨b,member,rfl⟩ | high
      · have real : (nodeAt s.heap.mem b.addr).allocated ≠ sbrkFailed := by
          obtain ⟨front,after,rfl⟩ := List.append_of_mem member
          have position := (filled.chain.position member).2
          rw [filled.chain.node,Block.payload_eq (filled.sound b member)]
          simp only [Block.extent,nodeSize,addressLimit,sbrkFailed] at *
          omega
        exact .inl (filled'.chain.listed (stays (filled.chain.listed_iff.mpr ⟨b,member,rfl⟩) real))
      · rcases follows.ends with same | ⟨whole,_⟩
        · exact .inr (by omega)
        · have inside := marked.below a old
          omega
    · rcases follows.new grew with same | new
      · have inside := filled.finish_le
        exact .inr (by omega)
      · exact .inl new
    · exact .inl (filled'.chain.listed listed)
  · rcases follows.ends with rfl | ⟨_,whole⟩
    · rcases marked.ends with old | whole
      · exact .inl ⟨.inl old,fun listed => absurd listed (unlisted (Nat.le_refl _))⟩
      · rcases Nat.lt_or_eq_of_le grows with grew | same
        · exact .inl ⟨.inr (.inl ⟨whole,grew⟩),fun listed => absurd listed (unlisted (Nat.le_refl _))⟩
        · exact .inr (whole.trans same)
    · exact .inr whole
  · rintro a ⟨old | ⟨rfl,grew⟩ | listed,_⟩
    · exact Nat.lt_of_lt_of_le (marked.below a old) grows
    · exact grew
    · obtain ⟨b,member,rfl⟩ := filled'.chain.listed listed
      have inside := filled'.chain.below member
      simp only [nodeSize] at inside
      omega

/-- What an allocation leaves: a list without gaps, with at most one block more. -/
structure Refilled (s : System) (blocks : List Block) (finish size p : Nat) (heap : Heap) (blocks' : List Block)
    (finish' : Nat) : Prop where
  filled : Filled ⟨heap,s.live.add p size⟩ blocks' finish'
  follows : Follows s.heap finish heap blocks' finish'
  clear : p ≠ null → ∀ c ∈ blocks', Apart p size c.addr nodeSize
  bounded : p ≠ null → s.heap.memHead = null ∨ size < 4294967295
  grown : blocks' = blocks ∨ ∃ b, blocks' = blocks ++ [b] ∧ b.addr = s.heap.brk ∧ b.free = false ∧ b.failed = false

/-- A block at the break, at the end of the list or beside it. -/
theorem Filled.grown (filled : Filled s blocks finish) (grown : Grown grants s.heap blocks size p b heap blocks')
    (small : size < 4294967296) (bounded : s.heap.memHead = null ∨ size < 4294967295) (suffice : grants.Suffice s.heap size) :
    ∃ finish', Refilled s blocks finish size p heap blocks' finish' := by
  obtain ⟨allocates,_⟩ := grown.allocates filled.chain
  obtain ⟨sound,rfl,brk,tail,_⟩ : b.failed = false ∧ p = s.heap.brk + nodeSize ∧ heap.brk = s.heap.brk + nodeSize + size ∧
      heap.memTail = s.heap.brk ∧ ∀ x, p ≤ x → x < p + size → heap.mem x = 0 := by
    rcases grown.outcome with ⟨_,_,refused,_⟩ | outcome
    · exact absurd suffice refused
    · exact outcome
  have served : s.heap.brk + nodeSize ≠ null := by simp only [nodeSize,null]; omega
  have grew : s.heap.brk < heap.brk := by
    rw [brk]
    simp only [nodeSize]
    omega
  have live : ∀ r ∈ s.live.add (s.heap.brk + nodeSize) size, Clear heap blocks' r := by
    intro r member
    rw [Ranges.add,if_neg served] at member
    rcases List.mem_cons.mp member with rfl | old
    · obtain ⟨low,high,clear⟩ := allocates.range served
      exact ⟨clear,low,high⟩
    · refine (filled.live r old).grow grown.start allocates.grows fun c listed => ?_
      exact (allocates.origin c listed).imp_left fun old => ⟨c,old,rfl⟩
  have sounds : ∀ c ∈ blocks', c.failed = false := by
    intro c member
    rcases grown.joins.members member with rfl | old
    · exact sound
    · exact filled.sound c old
  have field : b.size = size := grown.field.trans (Nat.mod_eq_of_lt small)
  have addr := grown.addr
  -- the new block is the last of the list and the list ends at the break
  have last (whole : finish = s.heap.brk) (listed : blocks' = blocks ++ [b]) :
      ∃ finish', Refilled s blocks finish size (s.heap.brk + nodeSize) heap blocks' finish' := by
    refine ⟨heap.brk,⟨grown.chain,grown.tail,sounds,?_,.inl rfl,?_,live⟩,⟨allocates.grows,.inr ⟨whole,rfl⟩,?_⟩,
      fun some => (allocates.range some).2.2,fun _ => bounded,.inr ⟨b,listed,addr,grown.taken,sound⟩⟩
    · rw [listed,grown.start]
      refine tight_append.mpr ⟨finish,filled.tight,addr.trans whole.symm,?_⟩
      change b.addr + nodeSize + b.size = heap.brk
      rw [addr,field,brk]
    · intro none
      rw [none] at listed
      simp at listed
    · refine fun _ => .inr ⟨b,?_,addr⟩
      rw [listed]
      simp
  cases grown.joins with
  | alone => exact last (filled.empty rfl).2 rfl
  | behind atTail gone =>
    rename_i after front t
    have none : after = [] := by
      cases after with
      | nil => rfl
      | cons c after =>
        have failed := gone c List.mem_cons_self
        rw [filled.sound c (by simp)] at failed
        contradiction
    subst none
    refine last ?_ (by simp)
    rcases filled.ends with whole | ⟨_,other⟩
    · exact whole
    · exact absurd atTail (other t (by simp))
  | beside other =>
    refine ⟨finish,⟨grown.chain,grown.tail,sounds,?_,.inr ⟨Nat.lt_of_le_of_lt filled.finish_le grew,?_⟩,?_,live⟩,
      ⟨allocates.grows,.inl rfl,fun _ => .inl rfl⟩,fun some => (allocates.range some).2.2,fun _ => bounded,.inl rfl⟩
    · rw [grown.start]
      exact filled.tight
    · intro c member
      have below := filled.chain.below member
      rw [tail]
      simp only [nodeSize] at below
      omega
    · rintro rfl
      exact absurd grown.chain.head grown.listed

/-- Allocation leaves a list without gaps. -/
theorem Filled.malloc (filled : Filled s blocks finish) (unsplit : Unsplit s.heap size)
    (clean : Extends s.heap size → ¬grants.Suffice s.heap size → s.heap.memHead ≠ null ∧ grants.Refused s.heap)
    (ok : mmMalloc fuel grants size s.heap = .ok (p,heap)) :
    ∃ blocks' finish', Refilled s blocks finish size p heap blocks' finish' := by
  have same (none : p = null) (unchanged : heap = s.heap) :
      ∃ blocks' finish', Refilled s blocks finish size p heap blocks' finish' := by
    subst none unchanged
    exact ⟨blocks,finish,filled,⟨Nat.le_refl _,.inl rfl,fun _ => .inl rfl⟩,fun impossible => absurd rfl impossible,
      fun impossible => absurd rfl impossible,.inl rfl⟩
  by_cases empty : s.heap.memHead = null
  · rcases mmMalloc_empty empty ok with ⟨_,none,unchanged⟩ | ⟨extends',first⟩
    · exact same none unchanged
    have suffice : grants.Suffice s.heap size := by
      by_contra refused
      exact (clean extends' refused).1 empty
    have none : blocks = [] := by
      cases blocks with
      | nil => rfl
      | cons b blocks => exact absurd (filled.chain.head.symm.trans empty) (filled.chain.addr_ne_null List.mem_cons_self)
    subst none
    rcases mallocFirst_grown (filled.empty rfl).1 filled.chain.low filled.chain.laid filled.chain.high first with
      ⟨refused,_⟩ | ⟨b,grown⟩
    · exact absurd suffice refused
    · exact ⟨[b],filled.grown grown (unsplit.1 empty) (.inl empty) suffice⟩
  rcases mmMalloc_cases filled.chain (fun _ => filled.tail) empty unsplit.2 ok with
    ⟨_,none,unchanged⟩ | ⟨_,most,rfl,b,member,_,free,large,rfl⟩ | ⟨extends',most,b,blocks',grown⟩
  · exact same none unchanged
  · obtain ⟨low,high,clear⟩ := filled.chain.reuse_range member free large
    refine ⟨blocks,finish,⟨filled.chain,filled.tail,filled.sound,filled.tight,filled.ends,filled.empty,?_⟩,
      ⟨Nat.le_refl _,.inl rfl,fun _ => .inl rfl⟩,fun _ => clear,fun _ => .inr most,.inl rfl⟩
    intro r added
    rw [Ranges.add,if_neg (filled.chain.payload_ne_null member)] at added
    rcases List.mem_cons.mp added with rfl | old
    · exact ⟨clear,low,high⟩
    · exact filled.live r old
  · by_cases suffice : grants.Suffice s.heap size
    · exact ⟨blocks',filled.grown grown (by omega) (.inr most) suffice⟩
    · obtain ⟨none,unchanged⟩ := mmMalloc_refused empty extends' (clean extends' suffice).2 ok
      exact same none unchanged

/-- Freeing leaves the list as long as it was. -/
theorem Filled.free (filled : Filled s blocks finish) (fits : ListFits ptr blocks) (real : ptr ≠ sbrkFailed)
    {live : Ranges} (within : ∀ r ∈ live, r ∈ s.live) (ok : mmFree fuel ptr s.heap = .ok (u,heap)) :
    ∃ blocks', Filled ⟨heap,live⟩ blocks' finish ∧ Freed ptr blocks blocks' ∧ heap.brk = s.heap.brk := by
  obtain ⟨m',blocks',rfl,chain',freed⟩ := mmFree_spec filled.chain real ok
  have old := filled.chain.freed_within freed
  refine ⟨blocks',⟨chain',filled.tail.within old rfl rfl,?_,(filled.tight.freed fits freed).1,?_,?_,?_⟩,freed,rfl⟩
  · intro b member
    obtain ⟨c,listed,_,same⟩ := old b member
    exact same.trans (filled.sound c listed)
  · refine filled.ends.imp_right fun ⟨less,other⟩ => ⟨less,fun b member => ?_⟩
    obtain ⟨c,listed,same,_⟩ := old b member
    rw [same]
    exact other c listed
  · rintro rfl
    generalize none : ([] : List Block) = blocks' at freed
    cases freed with
    | absent => exact filled.empty none.symm
    | found => simp at none
  · intro r member
    refine (filled.live r (within r member)).grow rfl (Nat.le_refl _) fun c listed => ?_
    obtain ⟨d,listed',same,_⟩ := old c listed
    exact .inl ⟨d,listed',same⟩

theorem Filled.congr (filled : Filled s blocks finish) {m : Memory}
    (same : ∀ b ∈ blocks, nodeAt m b.addr = nodeAt s.heap.mem b.addr) :
    Filled { s with heap := { s.heap with mem := m } } blocks finish :=
  ⟨filled.chain.congr same,filled.tail.within (.refl _) rfl rfl,filled.sound,filled.tight,filled.ends,filled.empty,
    fun r member => (filled.live r member).grow rfl (Nat.le_refl _) fun c listed => .inl ⟨c,listed,rfl⟩⟩

theorem Filled.realloc (filled : Filled s blocks finish) (held : ∃ r ∈ s.live, r.1 = ptr) (positive : size ≠ 0)
    (unsplit : Unsplit s.heap size)
    (clean : Extends s.heap size → ¬grants.Suffice s.heap size → s.heap.memHead ≠ null ∧ grants.Refused s.heap)
    (fits : size < 4294967295 → ListFits ptr blocks)
    (ok : mmRealloc fuel grants ptr size s.heap = .ok (p,heap)) :
    ∃ blocks' finish', Filled ⟨heap,if p = null then s.live else (s.live.remove ptr).add p size⟩ blocks' finish' ∧
      Follows s.heap finish heap blocks' finish' := by
  obtain ⟨real,present⟩ := filled.real held
  obtain ⟨heap₁,allocated,rest⟩ := mmRealloc_spec filled.chain real present positive ok
  obtain ⟨blocks₁,finish₁,refilled⟩ := filled.malloc unsplit clean allocated
  have kept : ∀ b ∈ blocks, b ∈ blocks₁ := by
    rcases refilled.grown with rfl | ⟨_,rfl,_⟩
    · exact fun b member => member
    · exact fun b member => List.mem_append_left _ member
  rcases rest blocks₁ refilled.filled.chain (fun b member _ => kept b member) refilled.clear with
    ⟨rfl,rfl⟩ | ⟨served,b,member,sound,payload,freed⟩
  · exact ⟨blocks₁,finish₁,refilled.filled,refilled.follows⟩
  have below := filled.chain.below member
  have listed : s.heap.memHead ≠ null := by
    rw [filled.chain.head]
    cases blocks with
    | nil => contradiction
    | cons c blocks => exact filled.chain.addr_ne_null List.mem_cons_self
  have other {c : Block} (addr : c.addr = s.heap.brk) (sound' : c.failed = false) : c.payload ≠ ptr := by
    rw [← payload,Block.payload_eq sound,Block.payload_eq sound',addr]
    simp only [nodeSize] at *
    omega
  have fits₁ : ListFits ptr blocks₁ := by
    have total := fits ((refilled.bounded served).resolve_left listed)
    rcases refilled.grown with rfl | ⟨c,rfl,addr,taken,sound'⟩
    · exact total
    · exact total.extend taken (other addr sound')
  have copied := refilled.filled.congr (m := copy heap₁.mem p ptr (min b.size size)) fun c listed =>
    nodeAt_copy_apart ((refilled.clear served c listed).mono (by omega) (by omega)) _ _
  have within : ∀ r ∈ (s.live.remove ptr).add p size, r ∈ s.live.add p size := by
    intro r member
    simp only [Ranges.add,if_neg served,List.mem_cons] at member ⊢
    exact member.imp_right fun kept => (remove_sublist s.live ptr).subset kept
  obtain ⟨blocks₂,filled₂,freed',brk⟩ := copied.free fits₁ real within freed
  have brk : heap.brk = heap₁.brk := brk
  rw [if_neg served]
  refine ⟨blocks₂,finish₁,filled₂,⟨by rw [brk]; exact refilled.follows.grows,by rw [brk]; exact refilled.follows.ends,?_⟩⟩
  intro grew
  rw [brk] at grew
  refine (refilled.follows.new grew).imp_right ?_
  rintro ⟨c,new,addr⟩
  -- the new block is in use and another's, so that freeing leaves it
  rcases refilled.grown with rfl | ⟨d,rfl,addr',taken,sound'⟩
  · have early := filled.chain.below new
    simp only [nodeSize] at early
    omega
  · exact ⟨d,freed'.kept (by simp) taken (other addr' sound'),addr'⟩

/-- The bytes reserved for a node of the list are those its field says. -/
theorem Marked.exact (marked : Marked headers s.heap blocks finish) (filled : Filled s blocks finish)
    (listed : Listed s.heap a) : ExactSize headers s.heap a := by
  obtain ⟨b,member,rfl⟩ := filled.chain.listed listed
  have sound := filled.sound b member
  have finish_le := filled.finish_le
  have inside := (filled.tight.mem member).2
  obtain ⟨front,after,rfl⟩ := List.append_of_mem member
  obtain ⟨middle,before,first,behind⟩ := tight_append.mp filled.tight
  unfold ExactSize
  rw [filled.chain.node]
  dsimp only
  rw [Block.payload_eq sound]
  refine ⟨?_,?_,by omega⟩
  · cases after with
    | nil =>
      have ends : b.addr + nodeSize + b.size = finish := behind
      rw [ends]
      exact marked.ends
    | cons c after =>
      rw [← behind.1]
      exact .inl (marked.listed c (by simp))
  · intro x known above
    rcases marked.only x known with ⟨c,listed',rfl⟩ | high
    · rcases List.mem_append.mp listed' with early | late
      · have position := (before.mem early).2
        omega
      · rcases List.mem_cons.mp late with rfl | later
        · omega
        · exact (behind.mem later).1
    · omega

theorem Filled.step {s' : System} (filled : Filled s blocks finish) (step : Step h s e s') (fit : SizesFit h (s,headers) e) :
    ∃ blocks' finish', Filled s' blocks' finish' ∧ Follows s.heap finish s'.heap blocks' finish' := by
  obtain ⟨q,p⟩ := e
  obtain ⟨clean,fit⟩ := fit
  have chain := filled.chain
  have stays (m : Heap) (brk : m.brk = s.heap.brk) (blocks' : List Block) : Follows s.heap finish m blocks' finish :=
    ⟨Nat.le_of_eq brk.symm,.inl rfl,fun _ => .inl rfl⟩
  have released (ptr : Nat) (held : ∃ r ∈ s.live, r.1 = ptr) (fits : MergeFits s.heap ptr) {fuel : Nat} {u : Unit} {heap : Heap}
      (ok : mmFree fuel ptr s.heap = .ok (u,heap)) :
      ∃ blocks' finish', Filled ⟨heap,s.live.remove ptr⟩ blocks' finish' ∧ Follows s.heap finish heap blocks' finish' := by
    obtain ⟨blocks',filled',_,brk⟩ := filled.free (fits.list chain) (filled.real held).1
      (fun _ kept => (remove_sublist s.live ptr).subset kept) ok
    exact ⟨blocks',finish,filled',stays _ brk _⟩
  cases step.moves (fun r member => (filled.real ⟨r,member,rfl⟩).2) with
  | idle => exact ⟨blocks,finish,filled,stays _ rfl _⟩
  | malloc same ok =>
    rcases same with rfl | rfl
    · obtain ⟨blocks',finish',refilled⟩ := filled.malloc fit (fun reaches refused => clean ⟨reaches,refused⟩) ok
      exact ⟨blocks',finish',refilled.filled,refilled.follows⟩
    · obtain ⟨blocks',finish',refilled⟩ := filled.malloc fit.1 (fun reaches refused => clean ⟨reaches,refused⟩) ok
      exact ⟨blocks',finish',refilled.filled,refilled.follows⟩
  | free same held ok =>
    rcases same with rfl | ⟨grants,rfl⟩
    · exact released _ held fit ok
    · exact released _ held (fit.2 (by decide)) ok
  | realloc same positive held ok =>
    subst same
    exact filled.realloc held positive fit.1 (fun reaches refused => clean ⟨reaches,refused⟩)
      (fun most => (fit.2 most).list chain) ok
  | write _ held =>
    obtain ⟨r,member,low,high⟩ := held
    refine ⟨blocks,finish,filled.congr ?_,Nat.le_refl _,.inl rfl,fun _ => .inl rfl⟩
    intro b listed
    exact nodeAt_fill_apart (((filled.live r member).headers b listed).mono (by omega) (by omega)) _ _

theorem filled_boot (image : Image) : Filled image.boot [] image.start ∧ Marked ∅ image.boot.heap [] image.start :=
  ⟨⟨⟨rfl,trivial,Nat.le_refl _,by simp,image.low,image.high⟩,.inl rfl,by simp,rfl,.inl rfl,fun _ => ⟨rfl,rfl⟩,
    by simp [Image.boot]⟩,⟨by simp,by simp,.inr rfl,by simp⟩⟩

/-- In every run that meets the conditions each node's size field is the number of bytes reserved for its payload. -/
theorem sizes_exact (image : Image) (run : Path (Guarded HeaderStep SizesFit) [] (image.boot,∅) h (s,headers))
    (listed : Listed s.heap a) : ExactSize headers s.heap a := by
  have invariant : ∃ blocks finish, Filled s blocks finish ∧ Marked headers s.heap blocks finish := by
    refine run.invariant (fun _ t => ∃ blocks finish, Filled t.1 blocks finish ∧ Marked t.2 t.1.heap blocks finish) ?_
      ⟨[],image.start,filled_boot image⟩
    rintro h ⟨s,headers⟩ e ⟨s',headers'⟩ ⟨blocks,finish,filled,marked⟩ ⟨⟨step,force⟩,fit⟩
    obtain ⟨blocks',finish',filled',follows⟩ := filled.step step fit
    obtain rfl : headers' = inForce s.heap s'.heap headers := force
    exact ⟨blocks',finish',filled',marked.step filled filled' follows⟩
  obtain ⟨blocks,finish,filled,marked⟩ := invariant
  exact marked.exact filled listed

end

def UnsplitWithin (fuel : Nat) (s : Heap) (size : Nat) : Prop :=
  size < 4294967296 ∧ FitWithin fuel s size fun curr => (nodeAt s.mem curr).size < 1 + size + nodeSize

instance (fuel : Nat) (s : Heap) (size : Nat) : Decidable (UnsplitWithin fuel s size) := inferInstanceAs (Decidable (_ ∧ _))

theorem UnsplitWithin.unsplit (within : UnsplitWithin fuel s size) : Unsplit s size :=
  ⟨fun _ => within.1,fun _ _ _ fit => within.2.fit fit⟩

def SizesWithin (fuel : Nat) (h : List Event) (s : System) : Event → Prop
  | (.malloc grants size,p) => GrantedOrEarly h s (.malloc grants size,p) ∧ UnsplitWithin fuel s.heap size
  | (.realloc grants ptr size,p) => GrantedOrEarly h s (.realloc grants ptr size,p) ∧ UnsplitWithin fuel s.heap size ∧
    BlocksWithin fuel s.heap ptr (FitsMerged s.heap.mem)
  | (.free ptr,_) => BlocksWithin fuel s.heap ptr (FitsMerged s.heap.mem)
  | (.write ..,_) => True

instance (fuel : Nat) (h : List Event) (s : System) : (e : Event) → Decidable (SizesWithin fuel h s e)
  | (.malloc ..,_) => inferInstanceAs (Decidable (_ ∧ _))
  | (.realloc ..,_) => inferInstanceAs (Decidable (_ ∧ _ ∧ _))
  | (.free ptr,_) => inferInstanceAs (Decidable (BlocksWithin fuel s.heap ptr (FitsMerged s.heap.mem)))
  | (.write ..,_) => inferInstanceAs (Decidable True)

theorem SizesWithin.fit (within : SizesWithin fuel h s e) (headers : Set Nat) : SizesFit h (s,headers) e := by
  obtain ⟨q,p⟩ := e
  cases q with
  | malloc grants size => exact ⟨within.1.cleanly,within.2.unsplit⟩
  | realloc grants ptr size => exact ⟨within.1.cleanly,within.2.1.unsplit,fun _ => within.2.2.listed⟩
  | free ptr => exact ⟨False.elim,BlocksWithin.listed within⟩
  | write a v => exact ⟨False.elim,trivial⟩

/-- Every run has its headers in force. -/
theorem headers_along {condition : List Event → System → Event → Prop}
    (path : Path (Guarded Step condition) [] origin h s) :
    ∃ headers, Path (Guarded HeaderStep fun h s e => condition h s.1 e) [] (origin,∅) h (s,headers) := by
  induction path with
  | refl => exact ⟨∅,.refl⟩
  | @snoc _ s _ s' _ step ih =>
    obtain ⟨headers,path⟩ := ih
    exact ⟨inForce s.heap s'.heap headers,path.snoc ⟨⟨step.1,rfl⟩,step.2⟩⟩

theorem outcome_sizes (fuel : Nat) (requests : List Request)
    (handled : (replay (perform fuel) (fun h s e => e.1.Admissible s ∧ SizesWithin fuel h s e) requests
      ([],zeroed.boot)).isSome = true) :
    ∃ headers, Path (Guarded HeaderStep SizesFit) [] (zeroed.boot,∅)
      (outcome fuel requests).1 ((outcome fuel requests).2,headers) := by
  have path : Path (Guarded Step (SizesWithin fuel)) [] zeroed.boot
    (outcome fuel requests).1 (outcome fuel requests).2 := arrive_guarded (perform_step fuel) handled
  obtain ⟨headers,path'⟩ := headers_along path
  exact ⟨headers,path'.mono fun _ _ _ _ step => ⟨step.1,step.2.fit _⟩⟩

/-- Two blocks are merged, and a third comes behind a tail that the list has lost. -/
theorem sizes_exact_merged :
    let reached := outcome 5 [.malloc granted 100,.malloc granted 50,.free 4128,.free 4260,.malloc granted 300]
    nodesFrom reached.2.heap.mem 5 reached.2.heap.memHead = some [4096] ∧
      (nodeAt reached.2.heap.mem 4096).size = 182 ∧
      ∃ headers, ∀ a, Listed reached.2.heap a → ExactSize headers reached.2.heap a := by
  intro reached
  obtain ⟨headers,path⟩ := outcome_sizes 5
    [.malloc granted 100,.malloc granted 50,.free 4128,.free 4260,.malloc granted 300] (by decide +kernel)
  exact ⟨by decide +kernel,by decide +kernel,headers,fun a listed => sizes_exact zeroed path listed⟩

/-- The first block can be larger than its size field says. -/
theorem first_size_is_cut :
    let reached := outcome 4 [.malloc granted 4294967301]
    ∃ headers, Path HeaderStep [] (zeroed.boot,∅) reached.1 (reached.2,headers) ∧ Listed reached.2.heap 4096 ∧
      (nodeAt reached.2.heap.mem 4096).size = 5 ∧ ¬ExactSize headers reached.2.heap 4096 := by
  intro reached
  have path := outcome_path 4 [.malloc granted 4294967301] (by decide +kernel)
  have history : reached.1 = [(.malloc granted 4294967301,4128)] := by decide +kernel
  have step : Step [] zeroed.boot (.malloc granted 4294967301,4128) reached.2 := by
    change Path Step [] zeroed.boot reached.1 reached.2 at path
    rw [history] at path
    cases path with
    | snoc front step =>
      cases front
      exact step
  have nodes : nodesFrom reached.2.heap.mem 4 reached.2.heap.memHead = some [4096] := by decide +kernel
  have node : (nodeAt reached.2.heap.mem 4096).allocated + (nodeAt reached.2.heap.mem 4096).size = 4133 := by decide +kernel
  have brk : reached.2.heap.brk = 4294971429 := by decide +kernel
  refine ⟨inForce zeroed.boot.heap reached.2.heap ∅,?_,.head (by decide +kernel),by decide +kernel,?_⟩
  · rw [history]
    exact .snoc .refl ⟨step,rfl⟩
  · intro exactly
    unfold ExactSize at exactly
    rw [node] at exactly
    rcases exactly.place with ⟨old | ⟨same,_⟩ | listed,_⟩ | whole
    · exact old
    · exact absurd same (by decide)
    · have known := listed.search nodes
      exact absurd (List.mem_singleton.mp known) (by decide)
    · rw [brk] at whole
      exact absurd whole (by decide)

end OsProj.MmAlloc
