import OsProj.History
import OsProj.MmAllocGrow

/-! Runs of a client with the allocator. A run is safe as long as no request is served
from a free block by splitting it, and none from a block that was handed out and has not
been given back: the code does not mark a block it reuses as taken. -/
namespace OsProj.MmAlloc

open OsProj.ByteMemory OsProj.Faulting OsProj.History

/-- The ranges the client holds, as pointer and requested size. -/
abbrev Ranges := List (Nat × Nat)

structure System where
  heap : Heap
  live : Ranges

/-- The process before its first allocation, with the break in user memory. -/
structure Image where
  start : Nat
  bytes : Memory
  low : pageSize ≤ start
  high : start ≤ addressLimit

def Image.boot (image : Image) : System :=
  ⟨⟨image.bytes,image.start,image.start,null,null⟩,[]⟩

inductive Request where
  | malloc (grants : Grants) (size : Nat)
  | realloc (grants : Grants) (ptr size : Nat)
  | free (ptr : Nat)
  | write (a : Nat) (v : UInt8)
  deriving DecidableEq

abbrev Event := Request × Nat

def Ranges.Holds (live : Ranges) (ptr : Nat) : Prop := ptr = null ∨ ∃ r ∈ live, r.1 = ptr

/-- Sizes are 64-bit numbers, pointers handed back are null or live, and the client
writes inside its own ranges. -/
def Request.Admissible (s : System) : Request → Prop
  | .malloc _ size => size < 18446744073709551616
  | .realloc _ ptr size => size < 18446744073709551616 ∧ s.live.Holds ptr
  | .free ptr => s.live.Holds ptr
  | .write a _ => ∃ r ∈ s.live, r.1 ≤ a ∧ a < r.1 + r.2

instance (live : Ranges) (ptr : Nat) : Decidable (live.Holds ptr) :=
  inferInstanceAs (Decidable (_ ∨ _))

instance (s : System) : (q : Request) → Decidable (q.Admissible s)
  | .malloc _ size => inferInstanceAs (Decidable (size < 18446744073709551616))
  | .realloc .. => inferInstanceAs (Decidable (_ ∧ _))
  | .free ptr => inferInstanceAs (Decidable (s.live.Holds ptr))
  | .write a _ => inferInstanceAs (Decidable (∃ r ∈ s.live, r.1 ≤ a ∧ a < r.1 + r.2))

def Ranges.add (live : Ranges) (ptr size : Nat) : Ranges := if ptr = null then live else (ptr,size) :: live

def Ranges.remove (live : Ranges) (ptr : Nat) : Ranges := live.eraseP (fun r => r.1 == ptr)

def execute (fuel : Nat) : Request → System → Except Fault (Nat × System)
  | .malloc grants size, s => match mmMalloc fuel grants size s.heap with
    | .ok (p,heap) => .ok (p,⟨heap,s.live.add p size⟩)
    | .error fault => .error fault
  | .realloc grants ptr size, s => match mmRealloc fuel grants ptr size s.heap with
    | .ok (p,heap) => .ok (p,⟨heap,
      if size = 0 then s.live.remove ptr
      else if p = null then s.live
      else (s.live.remove ptr).add p size⟩)
    | .error fault => .error fault
  | .free ptr, s => match mmFree fuel ptr s.heap with
    | .ok (_,heap) => .ok (null,⟨heap,s.live.remove ptr⟩)
    | .error fault => .error fault
  | .write a v, s => .ok (null,{ s with heap := { s.heap with mem := fill s.heap.mem a 1 v } })

def Step (_ : List Event) (s : System) (e : Event) (s' : System) : Prop :=
  e.1.Admissible s ∧ ∃ fuel, execute fuel e.1 s = .ok (e.2,s')

inductive Listed (s : Heap) : Nat → Prop where
  | head : s.memHead ≠ null → Listed s s.memHead
  | next : Listed s a → (nodeAt s.mem a).next ≠ null → Listed s (nodeAt s.mem a).next

structure Safe (s : System) : Prop where
  apart : s.live.Pairwise (fun r q => Apart r.1 r.2 q.1 q.2)
  headers : ∀ r ∈ s.live, ∀ a, Listed s.heap a → Apart r.1 r.2 a nodeSize
  inside : ∀ r ∈ s.live, s.heap.start ≤ r.1 ∧ r.1 + r.2 ≤ s.heap.brk

/-- If the list has a free block that is large enough, the first such block is too small
to be split and the part of it that the request covers is not in use. -/
def ServedWhole (s : System) (size : Nat) : Prop :=
  0 < size → size < 4294967295 → ∀ curr, FirstFit s.heap.mem size s.heap.memHead curr →
    (nodeAt s.heap.mem curr).size < 1 + size + nodeSize ∧
    ∀ r ∈ s.live, Apart (nodeAt s.heap.mem curr).allocated size r.1 r.2

def WholeBlocks (_ : List Event) (s : System) : Event → Prop
  | (.malloc _ size,_) | (.realloc _ _ size,_) => ServedWhole s size
  | _ => True

/-- The client's ranges lie in the heap, apart from each other and from the headers. -/
structure Placed (s : Heap) (blocks : List Block) (live : Ranges) : Prop where
  apart : live.Pairwise (fun r q => Apart r.1 r.2 q.1 q.2)
  headers : ∀ r ∈ live, ∀ b ∈ blocks, Apart r.1 r.2 b.addr nodeSize
  inside : ∀ r ∈ live, s.start ≤ r.1 ∧ r.1 + r.2 ≤ s.brk

/-- Nothing has been allocated yet, or the very first `sbrk` failed. -/
structure Bare (s : System) : Prop where
  head : s.heap.memHead = null ∨ s.heap.memHead = sbrkFailed
  tail : s.heap.memTail = null
  live : s.live = []
  low : pageSize ≤ s.heap.start
  order : s.heap.start ≤ s.heap.brk
  high : s.heap.brk ≤ addressLimit

structure Working (s : Heap) (blocks : List Block) (live : Ranges) : Prop where
  chain : Chain s blocks
  tail : TailOk s blocks
  listed : s.memHead ≠ null
  placed : Placed s blocks live

def Sound (s : System) : Prop := Bare s ∨ ∃ blocks, Working s.heap blocks s.live

theorem Chain.listed (chain : Chain s blocks) (reached : Listed s a) : ∃ b ∈ blocks, b.addr = a := by
  induction reached with
  | head present =>
    cases blocks with
    | nil => exact absurd chain.head present
    | cons b blocks => exact ⟨b,by simp,chain.head.symm⟩
  | next _ present ih =>
    obtain ⟨b,member,rfl⟩ := ih
    obtain ⟨front,after,rfl⟩ := List.append_of_mem member
    rw [chain.node] at present ⊢
    cases after with
    | nil => exact absurd rfl present
    | cons c after => exact ⟨c,by simp,rfl⟩

theorem Sound.safe (sound : Sound s) : Safe s := by
  rcases sound with bare | ⟨blocks,working⟩
  · have none := bare.live
    constructor <;> simp [none]
  · refine ⟨working.placed.apart,?_,working.placed.inside⟩
    intro r member a reached
    obtain ⟨b,listed,rfl⟩ := working.chain.listed reached
    exact working.placed.headers r member b listed

/-- Giving ranges back keeps the others in place. -/
theorem Placed.sublist (placed : Placed s blocks live) (sub : live'.Sublist live) :
    Placed s blocks live' :=
  ⟨placed.apart.sublist sub,fun r member => placed.headers r (sub.subset member),
    fun r member => placed.inside r (sub.subset member)⟩

theorem remove_sublist (live : Ranges) (ptr : Nat) : (live.remove ptr).Sublist live :=
  List.eraseP_sublist

/-- A heap that has only grown, with headers from before or behind the old break. -/
theorem Placed.grow (placed : Placed s blocks live) (start : s'.start = s.start) (grows : s.brk ≤ s'.brk)
    (origin : ∀ c ∈ blocks', (∃ d ∈ blocks, c.addr = d.addr) ∨ s.brk ≤ c.addr) :
    Placed s' blocks' live := by
  refine ⟨placed.apart,?_,?_⟩
  · intro r member c listed
    rcases origin c listed with ⟨d,old,same⟩ | above
    · rw [same]
      exact placed.headers r member d old
    · have inside := (placed.inside r member).2
      exact .inl (by omega)
  · intro r member
    have inside := placed.inside r member
    rw [start]
    exact ⟨inside.1,by omega⟩

theorem Placed.cons (placed : Placed s blocks live) (range : s.start ≤ p ∧ p + size ≤ s.brk)
    (clear : ∀ c ∈ blocks, Apart p size c.addr nodeSize) (fresh : ∀ r ∈ live, Apart p size r.1 r.2) :
    Placed s blocks ((p,size) :: live) := by
  refine ⟨List.pairwise_cons.mpr ⟨fresh,placed.apart⟩,?_,?_⟩
  · intro r member
    rcases List.mem_cons.mp member with rfl | old
    · exact clear
    · exact placed.headers r old
  · intro r member
    rcases List.mem_cons.mp member with rfl | old
    · exact range
    · exact placed.inside r old

/-- Allocation in a working heap: what it returns is apart from all that is live. -/
theorem Working.malloc (working : Working s.heap blocks s.live) (served : ServedWhole s size)
    (ok : mmMalloc fuel grants size s.heap = .ok (p,heap)) :
    ∃ blocks', Allocates s.heap blocks size p heap blocks' ∧ Placed heap blocks' s.live ∧
      (p ≠ null → ∀ r ∈ s.live, Apart p size r.1 r.2) := by
  obtain ⟨⟨blocks',allocates⟩,source⟩ := mmMalloc_spec working.chain working.tail working.listed
    (fun least most curr fit => (served least most curr fit).1) ok
  refine ⟨blocks',allocates,working.placed.grow allocates.start allocates.grows ?_,?_⟩
  · intro c listed
    rcases allocates.origin c listed with old | above
    · exact .inl ⟨c,old,rfl⟩
    · exact .inr above
  · intro present r member
    rcases source with none | above | ⟨curr,least,most,fit,place⟩
    · exact absurd none present
    · have inside := (working.placed.inside r member).2
      exact .inr (by omega)
    · rw [place]
      exact (served least most curr fit).2 r member

theorem Working.malloc_sound (working : Working s.heap blocks s.live) (served : ServedWhole s size)
    (ok : mmMalloc fuel grants size s.heap = .ok (p,heap)) : Sound ⟨heap,s.live.add p size⟩ := by
  obtain ⟨blocks',allocates,placed,fresh⟩ := working.malloc served ok
  refine .inr ⟨blocks',allocates.chain,allocates.tail,allocates.listed,?_⟩
  unfold Ranges.add
  split
  · exact placed
  · rename_i present
    obtain ⟨low,high,clear⟩ := allocates.range present
    exact placed.cons ⟨low,high⟩ clear (fresh present)

theorem mapped_high {s : Heap} (high : s.brk ≤ addressLimit) (mapped : s.mapped a n = true)
    (touches : n ≠ 0) : a < addressLimit + pageSize := by
  simp only [Heap.mapped,touches,false_or,decide_eq_true_eq,pageSize,addressLimit] at *
  omega

/-- After a failed first `sbrk` no search of the list returns. -/
theorem findFit_failed (high : s.brk ≤ addressLimit)
    (ok : findFit size fuel sbrkFailed s = .ok (curr,s')) : False := by
  cases fuel with
  | zero => contradiction
  | succ fuel =>
    unfold findFit at ok
    rw [if_neg (by decide)] at ok
    obtain ⟨_,_,tested,_⟩ := bind_ok.mp ok
    simp only [fits,getSize_bind] at tested
    have bound := mapped_high high tested.1 (by decide)
    simp only [sbrkFailed,addressLimit,pageSize] at bound
    omega

theorem Bare.chain (bare : Bare s) (empty : s.heap.memHead = null) : Chain s.heap [] :=
  ⟨empty,trivial,bare.order,by simp,bare.low,bare.high⟩

/-- Allocation without a list makes one, or leaves the heap as it was or with a head that is no node. -/
theorem Bare.malloc_cases (bare : Bare s) (ok : mmMalloc fuel grants size s.heap = .ok (p,heap)) :
    (p = null ∧ Bare ⟨heap,s.live⟩) ∨
    (0 < size ∧ s.heap.memHead = null ∧ ∃ b, Grown grants s.heap [] size p b heap [b]) := by
  by_cases empty : s.heap.memHead = null
  · rcases mmMalloc_empty empty ok with ⟨_,none,rfl⟩ | ⟨extends',first⟩
    · exact .inl ⟨none,bare⟩
    rcases mallocFirst_grown bare.tail bare.low bare.order bare.high first with ⟨_,none,rfl⟩ | grown
    · exact .inl ⟨none,.inr rfl,bare.tail,bare.live,bare.low,bare.order,bare.high⟩
    · exact .inr ⟨extends'.1,empty,grown⟩
  unfold mmMalloc at ok
  split at ok
  · obtain ⟨rfl,rfl⟩ := Prod.mk.inj (pure_ok.mp ok)
    exact .inl ⟨rfl,bare⟩
  have started := get_bind.mp ok
  rw [if_neg empty] at started
  split at started
  · obtain ⟨rfl,rfl⟩ := Prod.mk.inj (pure_ok.mp started)
    exact .inl ⟨rfl,bare⟩
  · obtain ⟨curr,t,searched,_⟩ := bind_ok.mp started
    rw [bare.head.resolve_left empty] at searched
    exact (findFit_failed bare.high searched).elim

/-- The first block, with the range in it if there is one. -/
theorem Bare.working (bare : Bare s) (empty : s.heap.memHead = null) (grown : Grown grants s.heap [] size p b heap [b]) :
    Working heap [b] (s.live.add p size) := by
  obtain ⟨allocates,_⟩ := grown.allocates (bare.chain empty)
  refine ⟨grown.chain,grown.tail,grown.listed,?_⟩
  rw [bare.live]
  have nothing : Placed heap [b] [] := ⟨.nil,by simp,by simp⟩
  unfold Ranges.add
  split
  · exact nothing
  · rename_i present
    obtain ⟨low,high,clear⟩ := allocates.range present
    exact nothing.cons ⟨low,high⟩ clear (by simp)

theorem Bare.malloc_sound (bare : Bare s) (ok : mmMalloc fuel grants size s.heap = .ok (p,heap)) :
    Sound ⟨heap,s.live.add p size⟩ := by
  rcases bare.malloc_cases ok with ⟨rfl,bare'⟩ | ⟨_,empty,b,grown⟩
  · exact .inl bare'
  · exact .inr ⟨[b],bare.working empty grown⟩

/-- Freeing in a working heap. -/
theorem Working.free (working : Working s blocks live) (real : ptr ≠ sbrkFailed)
    (ok : mmFree fuel ptr s = .ok (u,s')) : ∃ blocks', Working s' blocks' live := by
  obtain ⟨m',blocks',rfl,chain,freed⟩ := mmFree_spec working.chain real ok
  have within := working.chain.freed_within freed
  refine ⟨blocks',chain,working.tail.within within rfl rfl,working.listed,?_⟩
  refine working.placed.grow rfl (Nat.le_refl _) ?_
  intro c listed
  obtain ⟨d,old,same,_⟩ := within c listed
  exact .inl ⟨d,old,same⟩

/-- Bytes written inside a range apart from every header leave a working heap. -/
theorem Working.congr (working : Working s blocks live) {m' : Memory}
    (same : ∀ b ∈ blocks, nodeAt m' b.addr = nodeAt s.mem b.addr) :
    Working { s with mem := m' } blocks live := by
  refine ⟨working.chain.congr same,?_,working.listed,working.placed.grow rfl (Nat.le_refl _) ?_⟩
  · exact working.tail.within (.refl _) rfl rfl
  · intro c listed
    exact .inl ⟨c,listed,rfl⟩

theorem Placed.real (placed : Placed s blocks live) (high : s.brk ≤ addressLimit)
    (held : ∃ r ∈ live, r.1 = ptr) : ptr ≠ sbrkFailed := by
  obtain ⟨r,member,rfl⟩ := held
  have inside := (placed.inside r member).2
  simp only [addressLimit,sbrkFailed] at *
  omega

/-- Reallocation of a live pointer: the new range is added before the old block is freed. -/
theorem Working.realloc (working : Working s.heap blocks s.live) (served : ServedWhole s size)
    (held : ∃ r ∈ s.live, r.1 = ptr) (present : ptr ≠ null) (positive : size ≠ 0)
    (ok : mmRealloc fuel grants ptr size s.heap = .ok (p,heap)) :
    ∃ blocks', Working heap blocks' s.live ∧
      (p ≠ null → Working heap blocks' ((p,size) :: s.live)) := by
  have real := working.placed.real working.chain.high held
  obtain ⟨heap₁,allocated,rest⟩ := mmRealloc_spec working.chain real present positive ok
  obtain ⟨blocks₁,allocates,placed,fresh⟩ := working.malloc served allocated
  have working₁ : Working heap₁ blocks₁ s.live :=
    ⟨allocates.chain,allocates.tail,allocates.listed,placed⟩
  rcases rest blocks₁ allocates.chain allocates.kept (fun served => (allocates.range served).2.2) with
    ⟨rfl,rfl⟩ | ⟨served',b,_,_,_,freed⟩
  · exact ⟨blocks₁,working₁,fun impossible => absurd rfl impossible⟩
  obtain ⟨low,high,clear⟩ := allocates.range served'
  have working₂ : Working heap₁ blocks₁ ((p,size) :: s.live) :=
    ⟨allocates.chain,allocates.tail,allocates.listed,placed.cons ⟨low,high⟩ clear (fresh served')⟩
  have copied (c : Block) (listed : c ∈ blocks₁) :
      nodeAt (copy heap₁.mem p ptr (min b.size size)) c.addr = nodeAt heap₁.mem c.addr :=
    nodeAt_copy_apart ((clear c listed).mono (by omega) (by omega)) _ _
  obtain ⟨blocks₂,working₃⟩ := (working₂.congr copied).free real freed
  exact ⟨blocks₂,⟨working₃.chain,working₃.tail,working₃.listed,
    working₃.placed.sublist (List.sublist_cons_self _ _)⟩,fun _ => working₃⟩

theorem remove_null {live : Ranges} (real : ∀ r ∈ live, r.1 ≠ null) : live.remove null = live := by
  apply List.eraseP_of_forall_not
  intro r member
  simpa using real r member

theorem Sound.not_null (sound : Sound s) : ∀ r ∈ s.live, r.1 ≠ null := by
  intro r member
  rcases sound with bare | ⟨blocks,working⟩
  · rw [bare.live] at member
    contradiction
  · have inside := (working.placed.inside r member).1
    have low := working.chain.low
    simp only [null,pageSize] at *
    omega

/-- What a call that returned has done. Freeing null and reallocating null to no bytes do
nothing; the other special cases of reallocation are allocation and freeing. -/
inductive Moves (s : System) : Request → System → Prop where
  | idle : Moves s q s
  | malloc : q = .malloc grants size ∨ q = .realloc grants null size →
      mmMalloc fuel grants size s.heap = .ok (p,heap) → Moves s q ⟨heap,s.live.add p size⟩
  | free : (q = .free ptr ∨ ∃ grants, q = .realloc grants ptr 0) → (∃ r ∈ s.live, r.1 = ptr) →
      mmFree fuel ptr s.heap = .ok (u,heap) → Moves s q ⟨heap,s.live.remove ptr⟩
  | realloc : q = .realloc grants ptr size → size ≠ 0 → (∃ r ∈ s.live, r.1 = ptr) →
      mmRealloc fuel grants ptr size s.heap = .ok (p,heap) →
      Moves s q ⟨heap,if p = null then s.live else (s.live.remove ptr).add p size⟩
  | write : q = .write a v → (∃ r ∈ s.live, r.1 ≤ a ∧ a < r.1 + r.2) →
      Moves s q { s with heap := { s.heap with mem := fill s.heap.mem a 1 v } }

theorem mmFree_null (ok : mmFree fuel null s = .ok (u,s')) : s' = s := by
  unfold mmFree at ok
  rw [if_pos rfl] at ok
  exact (Prod.mk.inj (pure_ok.mp ok)).2

theorem Step.moves (step : Step h s (q,p) s') (real : ∀ r ∈ s.live, r.1 ≠ null) : Moves s q s' := by
  obtain ⟨admissible,fuel,executed⟩ := step
  have freed (ptr : Nat) (held : s.live.Holds ptr) (heap : Heap) {u : Unit}
      (ok : mmFree fuel ptr s.heap = .ok (u,heap)) (same : q = .free ptr ∨ ∃ grants, q = .realloc grants ptr 0) :
      Moves s q ⟨heap,s.live.remove ptr⟩ := by
    by_cases none : ptr = null
    · subst none
      rw [mmFree_null ok,remove_null real]
      exact .idle
    · exact .free same (held.resolve_left none) ok
  cases q with
  | malloc grants size =>
    simp only [execute] at executed
    split at executed
    · rename_i ok
      obtain ⟨rfl,rfl⟩ := Prod.mk.inj (Except.ok.inj executed)
      exact .malloc (.inl rfl) ok
    · contradiction
  | realloc grants ptr size =>
    simp only [execute] at executed
    split at executed
    · rename_i p' heap ok
      obtain ⟨rfl,rfl⟩ := Prod.mk.inj (Except.ok.inj executed)
      by_cases zero : size = 0
      · subst zero
        unfold mmRealloc at ok
        rw [if_pos rfl] at ok
        obtain ⟨u,t,ok,rest⟩ := bind_ok.mp ok
        obtain ⟨rfl,rfl⟩ := Prod.mk.inj (pure_ok.mp rest)
        exact freed ptr admissible.2 _ ok (.inr ⟨grants,rfl⟩)
      rw [if_neg zero]
      by_cases none : ptr = null
      · subst none
        unfold mmRealloc at ok
        rw [if_neg zero,if_pos rfl] at ok
        rw [remove_null real]
        have same : (if p' = null then s.live else s.live.add p' size) = s.live.add p' size := by
          unfold Ranges.add
          split <;> rfl
        rw [same]
        exact .malloc (.inr rfl) ok
      · exact .realloc rfl zero (admissible.2.resolve_left none) ok
    · contradiction
  | free ptr =>
    simp only [execute] at executed
    split at executed
    · rename_i ok
      obtain ⟨rfl,rfl⟩ := Prod.mk.inj (Except.ok.inj executed)
      exact freed ptr admissible _ ok (.inl rfl)
    · contradiction
  | write a v =>
    obtain ⟨_,rfl⟩ := Prod.mk.inj (Except.ok.inj executed)
    exact .write rfl admissible

theorem Sound.malloc (sound : Sound s) (served : ServedWhole s size)
    (ok : mmMalloc fuel grants size s.heap = .ok (p,heap)) : Sound ⟨heap,s.live.add p size⟩ := by
  rcases sound with bare | ⟨blocks,working⟩
  · exact bare.malloc_sound ok
  · exact working.malloc_sound served ok

/-- With a live pointer there is a list. -/
theorem Sound.working (sound : Sound s) (held : ∃ r ∈ s.live, r.1 = ptr) :
    ∃ blocks, Working s.heap blocks s.live := by
  rcases sound with bare | working
  · rw [bare.live] at held
    simp at held
  · exact working

theorem Sound.free (sound : Sound s) (held : ∃ r ∈ s.live, r.1 = ptr)
    (ok : mmFree fuel ptr s.heap = .ok (u,heap)) : Sound ⟨heap,s.live.remove ptr⟩ := by
  obtain ⟨blocks,working⟩ := sound.working held
  have real := working.placed.real working.chain.high held
  obtain ⟨blocks',freed⟩ := working.free real ok
  exact .inr ⟨blocks',freed.chain,freed.tail,freed.listed,freed.placed.sublist (remove_sublist s.live ptr)⟩

theorem Sound.realloc (sound : Sound s) (served : ServedWhole s size) (positive : size ≠ 0)
    (held : ∃ r ∈ s.live, r.1 = ptr) (ok : mmRealloc fuel grants ptr size s.heap = .ok (p,heap)) :
    Sound ⟨heap,if p = null then s.live else (s.live.remove ptr).add p size⟩ := by
  obtain ⟨blocks,working⟩ := sound.working held
  obtain ⟨r,member,same⟩ := held
  have present : ptr ≠ null := same ▸ sound.not_null r member
  obtain ⟨blocks',kept,added⟩ := working.realloc served ⟨r,member,same⟩ present positive ok
  split
  · exact .inr ⟨blocks',kept⟩
  · rename_i served'
    have both := added served'
    rw [Ranges.add,if_neg served']
    exact .inr ⟨blocks',both.chain,both.tail,both.listed,
      both.placed.sublist ((remove_sublist s.live ptr).cons_cons _)⟩

/-- The client writes into one of its own ranges. -/
theorem Sound.write (sound : Sound s) (held : ∃ r ∈ s.live, r.1 ≤ a ∧ a < r.1 + r.2) (v : UInt8) :
    Sound { s with heap := { s.heap with mem := fill s.heap.mem a 1 v } } := by
  obtain ⟨r,member,low,high⟩ := held
  obtain ⟨blocks,working⟩ := sound.working ⟨r,member,rfl⟩
  refine .inr ⟨blocks,working.congr ?_⟩
  intro b listed
  exact nodeAt_fill_apart ((working.placed.headers r member b listed).mono (by omega) (by omega)) _ v

theorem Sound.step (sound : Sound s) (step : Step h s e s') (condition : WholeBlocks h s e) :
    Sound s' := by
  obtain ⟨q,p⟩ := e
  cases step.moves sound.not_null with
  | idle => exact sound
  | malloc same ok =>
    rcases same with rfl | rfl
    · exact sound.malloc condition ok
    · exact sound.malloc condition ok
  | free _ held ok => exact sound.free held ok
  | realloc same positive held ok =>
    subst same
    exact sound.realloc condition positive held ok
  | write _ held => exact sound.write held _

theorem sound_boot (image : Image) : Sound image.boot :=
  .inl ⟨.inl rfl,rfl,rfl,image.low,Nat.le_refl _,image.high⟩

/-! Which histories are safe: after a block has been handed out, it is given back before it is handed out again. -/

/-- The pointers that calls have returned and no later call has given back. -/
def outstanding : List Event → List Nat
  | [] => []
  | (.malloc _ _,p) :: h => if p = null then outstanding h else p :: outstanding h
  | (.realloc _ ptr size,p) :: h =>
    if size = 0 then (outstanding h).erase ptr
    else if p = null then outstanding h
    else p :: (outstanding h).erase ptr
  | (.free ptr,_) :: h => (outstanding h).erase ptr
  | (.write _ _,_) :: h => outstanding h

/-- All that calls have returned from the block has been given back since. -/
def GivenBack (h : List Event) (m : Memory) (curr : Nat) : Prop :=
  ∀ p ∈ outstanding h, p < (nodeAt m curr).allocated ∨ (nodeAt m curr).allocated + (nodeAt m curr).size ≤ p

instance (h : List Event) (m : Memory) (curr : Nat) : Decidable (GivenBack h m curr) :=
  inferInstanceAs (Decidable (∀ p ∈ outstanding h, _))

/-- A request that is served from the list takes a block that is too small to be split and that has been given
back since it was last handed out. -/
def ReusesGivenBack (h : List Event) (s : System) : Event → Prop
  | (.malloc _ size,_) | (.realloc _ _ size,_) => 0 < size → size < 4294967295 →
    ∀ curr, FirstFit s.heap.mem size s.heap.memHead curr →
      (nodeAt s.heap.mem curr).size < 1 + size + nodeSize ∧ GivenBack h s.heap.mem curr
  | _ => True

theorem map_add (live : Ranges) (ptr size : Nat) : (live.add ptr size).map Prod.fst =
    if ptr = null then live.map Prod.fst else ptr :: live.map Prod.fst := by
  unfold Ranges.add
  split <;> rfl

theorem map_remove (live : Ranges) (ptr : Nat) :
    (live.remove ptr).map Prod.fst = (live.map Prod.fst).erase ptr := by
  induction live with
  | nil => rfl
  | cons r live ih =>
    by_cases same : r.1 = ptr
    · simp [Ranges.remove,same]
    · simpa [Ranges.remove,List.eraseP_cons,List.erase_cons,same] using ih

/-- The pointers of the live ranges are those the history leaves outstanding. -/
theorem Step.outstanding (step : Step h s e s') (same : MmAlloc.outstanding h = s.live.map Prod.fst) :
    MmAlloc.outstanding (e :: h) = s'.live.map Prod.fst := by
  obtain ⟨q,p⟩ := e
  obtain ⟨_,fuel,executed⟩ := step
  cases q with
  | malloc grants size =>
    simp only [execute] at executed
    split at executed
    · obtain ⟨rfl,rfl⟩ := Prod.mk.inj (Except.ok.inj executed)
      simp only [MmAlloc.outstanding,map_add,same]
    · contradiction
  | realloc grants ptr size =>
    simp only [execute] at executed
    split at executed
    · obtain ⟨rfl,rfl⟩ := Prod.mk.inj (Except.ok.inj executed)
      simp only [MmAlloc.outstanding,same]
      split
      · exact (map_remove _ _).symm
      · split
        · rfl
        · rename_i present
          rw [map_add,if_neg present,map_remove]
    · contradiction
  | free ptr =>
    simp only [execute] at executed
    split at executed
    · obtain ⟨rfl,rfl⟩ := Prod.mk.inj (Except.ok.inj executed)
      simp only [MmAlloc.outstanding,map_remove,same]
    · contradiction
  | write a v =>
    obtain ⟨rfl,rfl⟩ := Prod.mk.inj (Except.ok.inj executed)
    exact same

/-- A range that does not start in a block's payload does not meet it: no range reaches over a header. -/
theorem Working.clear (working : Working s blocks live) (fit : FirstFit s.mem size s.memHead curr)
    (member : r ∈ live) (outside : r.1 < (nodeAt s.mem curr).allocated ∨
      (nodeAt s.mem curr).allocated + (nodeAt s.mem curr).size ≤ r.1) :
    Apart (nodeAt s.mem curr).allocated size r.1 r.2 := by
  have chain : Chain s ([] ++ blocks) := working.chain
  have searched : FirstFit s.mem size (headAddr blocks null) curr := working.chain.head ▸ fit
  obtain ⟨b,listed,rfl⟩ := chain.firstFit searched
  obtain ⟨front,after,rfl⟩ := List.append_of_mem listed
  obtain ⟨_,large,free⟩ := fit.suited
  rw [chain.node] at large free outside ⊢
  have real : b.failed = false := by
    by_contra failed
    have taken := working.chain.taken b listed (by simpa using failed)
    exact Bool.false_ne_true (taken.symm.trans free)
  have header := working.placed.headers r member b listed
  simp only [Block.payload_eq real,Apart] at *
  omega

theorem Sound.given_back (sound : Sound s) (same : outstanding h = s.live.map Prod.fst)
    (given : ReusesGivenBack h s e) : WholeBlocks h s e := by
  have whole (size : Nat) (given : 0 < size → size < 4294967295 →
      ∀ curr, FirstFit s.heap.mem size s.heap.memHead curr →
        (nodeAt s.heap.mem curr).size < 1 + size + nodeSize ∧ GivenBack h s.heap.mem curr) :
      ServedWhole s size := by
    intro least most curr fit
    obtain ⟨small,back⟩ := given least most curr fit
    refine ⟨small,?_⟩
    intro r member
    obtain ⟨blocks,working⟩ := sound.working ⟨r,member,rfl⟩
    refine working.clear fit member (back r.1 ?_)
    rw [same]
    exact List.mem_map_of_mem member
  obtain ⟨q,p⟩ := e
  cases q with
  | malloc grants size => exact whole size given
  | realloc grants ptr size => exact whole size given
  | _ => trivial

/-- A run that hands blocks out again only after they have been given back is one of whole blocks. -/
theorem given_back_run (image : Image) (run : Path (Guarded Step ReusesGivenBack) [] image.boot h s) :
    Sound s ∧ outstanding h = s.live.map Prod.fst := by
  refine run.invariant (fun h s => Sound s ∧ outstanding h = s.live.map Prod.fst) ?_ ⟨sound_boot image,rfl⟩
  intro h s e s' held step
  exact ⟨held.1.step step.1 (held.1.given_back held.2 step.2),step.1.outstanding held.2⟩

/-- In every run in which requests are served from the break, or from free blocks that are not split and have been
given back since they were last handed out, the live ranges are apart from each other and from the list's headers,
and lie in the heap. -/
theorem live_ranges_safe (image : Image) (run : Path (Guarded Step ReusesGivenBack) [] image.boot h s) : Safe s :=
  (given_back_run image run).1.safe

def firstFit (m : Memory) (size : Nat) : Nat → Nat → Option Nat
  | 0, _ => none
  | fuel + 1, a =>
    if a = null then some null
    else if size ≤ (nodeAt m a).size ∧ (nodeAt m a).free = true then some a
    else firstFit m size fuel (nodeAt m a).next

theorem FirstFit.search (fit : FirstFit m size a b) (ok : firstFit m size fuel a = some curr) :
    curr = b := by
  induction fit generalizing fuel with
  | here present suited =>
    cases fuel with
    | zero => cases ok
    | succ fuel =>
      rw [firstFit,if_neg present,if_pos suited] at ok
      exact (Option.some.inj ok).symm
  | later present unsuited _ ih =>
    cases fuel with
    | zero => cases ok
    | succ fuel =>
      rw [firstFit,if_neg present,if_neg unsuited] at ok
      exact ih ok

/-- What holds of the first fit, if there is one, as one search decides it. -/
def FitWithin (fuel : Nat) (s : Heap) (size : Nat) (property : Nat → Prop) : Prop :=
  match firstFit s.mem size fuel s.memHead with
  | some curr => curr = null ∨ property curr
  | none => False

instance (fuel : Nat) (s : Heap) (size : Nat) (property : Nat → Prop) [DecidablePred property] :
    Decidable (FitWithin fuel s size property) :=
  match found : firstFit s.mem size fuel s.memHead with
  | some curr => decidable_of_iff (curr = null ∨ property curr) (by simp only [FitWithin,found])
  | none => .isFalse (by simp only [FitWithin,found,not_false_eq_true])

theorem FitWithin.fit {property : Nat → Prop} (within : FitWithin fuel s size property)
    (fit : FirstFit s.mem size s.memHead curr) : property curr := by
  unfold FitWithin at within
  split at within
  · rename_i ok
    obtain rfl := fit.search ok
    exact within.resolve_left fit.suited.1
  · exact within.elim

def ServedWithin (fuel : Nat) (s : System) (size : Nat) : Prop :=
  match firstFit s.heap.mem size fuel s.heap.memHead with
  | some curr => curr = null ∨ ((nodeAt s.heap.mem curr).size < 1 + size + nodeSize ∧
    ∀ r ∈ s.live, Apart (nodeAt s.heap.mem curr).allocated size r.1 r.2)
  | none => False

instance (fuel : Nat) (s : System) (size : Nat) : Decidable (ServedWithin fuel s size) :=
  match found : firstFit s.heap.mem size fuel s.heap.memHead with
  | some curr => decidable_of_iff (curr = null ∨
      ((nodeAt s.heap.mem curr).size < 1 + size + nodeSize ∧
      ∀ r ∈ s.live, Apart (nodeAt s.heap.mem curr).allocated size r.1 r.2)) (by
    simp only [ServedWithin,found])
  | none => .isFalse (by simp only [ServedWithin,found,not_false_eq_true])

theorem ServedWithin.whole (served : ServedWithin fuel s size) : ServedWhole s size := by
  intro _ _ curr fit
  unfold ServedWithin at served
  split at served
  · rename_i ok
    obtain rfl := fit.search ok
    exact served.resolve_left fit.suited.1
  · exact served.elim

def zeroed : Image := ⟨4096,fun _ => 0,by decide,by decide⟩

def granted : Grants := ⟨true,true⟩

def perform (fuel : Nat) (q : Request) (s : System) : Option (Event × System) :=
  match execute fuel q s with
  | .ok (p,s') => some ((q,p),s')
  | .error _ => none

theorem perform_step (fuel : Nat) (h : List Event) (s : System) (q : Request) (e : Event) (s' : System)
    (performed : perform fuel q s = some (e,s')) (admitted : e.1.Admissible s) : Step h s e s' := by
  unfold perform at performed
  split at performed
  · rename_i executed
    obtain ⟨rfl,rfl⟩ := Prod.mk.inj (Option.some.inj performed)
    exact ⟨admitted,fuel,executed⟩
  · contradiction

def outcome (fuel : Nat) (requests : List Request) : List Event × System :=
  arrive (perform fuel) (fun _ s e => e.1.Admissible s) zeroed.boot requests

theorem outcome_path (fuel : Nat) (requests : List Request)
    (handled : (replay (perform fuel) (fun _ s e => e.1.Admissible s) requests
      ([],zeroed.boot)).isSome = true) :
    Path Step [] zeroed.boot (outcome fuel requests).1 (outcome fuel requests).2 :=
  arrive_path (perform_step fuel) handled

def GivenBackWithin (fuel : Nat) (h : List Event) (s : System) : Event → Prop
  | (.malloc _ size,_) | (.realloc _ _ size,_) => FitWithin fuel s.heap size fun curr =>
    (nodeAt s.heap.mem curr).size < 1 + size + nodeSize ∧ GivenBack h s.heap.mem curr
  | _ => True

instance (fuel : Nat) (h : List Event) (s : System) : (e : Event) → Decidable (GivenBackWithin fuel h s e)
  | (.malloc _ _,_) | (.realloc _ _ _,_) => inferInstanceAs (Decidable (FitWithin ..))
  | (.free _,_) | (.write ..,_) => inferInstanceAs (Decidable True)

theorem outcome_given_back (fuel : Nat) (requests : List Request)
    (handled : (replay (perform fuel) (fun h s e => e.1.Admissible s ∧ GivenBackWithin fuel h s e) requests
      ([],zeroed.boot)).isSome = true) :
    Path (Guarded Step ReusesGivenBack) [] zeroed.boot
      (outcome fuel requests).1 (outcome fuel requests).2 := by
  have path : Path (Guarded Step (GivenBackWithin fuel)) [] zeroed.boot
    (outcome fuel requests).1 (outcome fuel requests).2 := arrive_guarded (perform_step fuel) handled
  refine path.mono ?_
  intro h s e s' step
  refine ⟨step.1,?_⟩
  obtain ⟨q,p⟩ := e
  cases q with
  | malloc grants size => exact fun _ _ curr fit => step.2.fit fit
  | realloc grants ptr size => exact fun _ _ curr fit => step.2.fit fit
  | _ => trivial

/-- Two blocks, the first of them freed and reused whole, and reused once more after it has been freed again. -/
theorem live_ranges_safe_reused :
    let reached := outcome 4 [.malloc granted 100,.malloc granted 50,.free 4128,.malloc granted 90,.free 4128,
      .malloc granted 95]
    reached.2.live = [(4128,95),(4260,50)] ∧ Safe reached.2 :=
  ⟨by decide +kernel,live_ranges_safe zeroed (outcome_given_back 4 _ (by decide +kernel))⟩

/-- A freed block is handed out twice. -/
theorem freed_block_handed_out_twice :
    let reached := outcome 4 [.malloc granted 100,.free 4128,.malloc granted 100,.malloc granted 100]
    Path Step [] zeroed.boot reached.1 reached.2 ∧
      reached.2.live = [(4128,100),(4128,100)] ∧ ¬Safe reached.2 := by
  intro reached
  have live : reached.2.live = [(4128,100),(4128,100)] := by decide +kernel
  refine ⟨outcome_path 4 _ (by decide +kernel),live,?_⟩
  intro safe
  have apart := safe.apart
  rw [live] at apart
  exact absurd apart (by decide)

end OsProj.MmAlloc
