import OsProj.MmAlloc

/-! The block list as a list of blocks. A chain reads off the headers in memory; it is
laid out in increasing order, so that whatever a block's payload receives leaves every
header of the chain as it was. -/
namespace OsProj.MmAlloc

open OsProj.ByteMemory

structure Node where
  prev : Nat
  next : Nat
  free : Bool
  size : Nat
  allocated : Nat
  deriving DecidableEq, Repr

def nodeAt (m : Memory) (a : Nat) : Node where
  prev := load m a 8
  next := load m (a + 8) 8
  free := load m (a + 16) 1 == 1
  size := load m (a + 20) 4
  allocated := load m (a + 24) 8

theorem nodeAt_congr (agree : Agree m m' a nodeSize) : nodeAt m a = nodeAt m' a := by
  have part (offset width : Nat) (inside : offset + width ≤ 32) :
      load m (a + offset) width = load m' (a + offset) width :=
    load_congr (agree.mono ⟨by omega,by simp only [nodeSize]; omega⟩)
  have first : load m a 8 = load m' a 8 := part 0 8 (by decide)
  simp only [nodeAt,first,part 8 8 (by decide),part 16 1 (by decide),part 20 4 (by decide),
    part 24 8 (by decide)]

theorem nodeAt_store_apart (apart : Apart b n a nodeSize) (m : Memory) (v : Nat) :
    nodeAt (store m b n v) a = nodeAt m a := nodeAt_congr (store_agree apart m v)

theorem nodeAt_fill_apart (apart : Apart b n a nodeSize) (m : Memory) (v : UInt8) :
    nodeAt (fill m b n v) a = nodeAt m a := nodeAt_congr (fill_agree apart m v)

theorem nodeAt_copy_apart (apart : Apart b n a nodeSize) (m : Memory) (c : Nat) :
    nodeAt (copy m b c n) a = nodeAt m a := nodeAt_congr (copy_agree apart m c)

/-- A field lies inside its header. -/
theorem field_apart (offset width : Nat) (inside : offset + width ≤ nodeSize)
    (apart : Apart a nodeSize c nodeSize) : Apart (a + offset) width c nodeSize :=
  apart.mono (by omega) (by omega)

theorem prev_apart (apart : Apart a nodeSize c nodeSize) : Apart a 8 c nodeSize :=
  field_apart 0 8 (by decide) apart

/-! A field that is written is the only one that changes. -/

theorem load_store_pointer (m : Memory) (a : Nat) (fits : v < 18446744073709551616) :
    load (store m a 8 v) a 8 = v := by
  have width : 256 ^ 8 = 18446744073709551616 := by decide
  rw [load_store_same,width,Nat.mod_eq_of_lt fits]

theorem nodeAt_setPrev (m : Memory) (a : Nat) (fits : v < 18446744073709551616) :
    nodeAt (store m a 8 v) a = { nodeAt m a with prev := v } := by
  have same := load_store_pointer m a fits
  have other (offset width : Nat) (outside : 8 ≤ offset) :
      load (store m a 8 v) (a + offset) width = load m (a + offset) width :=
    load_store_apart (.inl (by omega)) m v
  simp only [nodeAt,same,other 8 8 (by decide),other 16 1 (by decide),other 20 4 (by decide),
    other 24 8 (by decide)]

theorem nodeAt_setNext (m : Memory) (a : Nat) (fits : v < 18446744073709551616) :
    nodeAt (store m (a + 8) 8 v) a = { nodeAt m a with next := v } := by
  have same := load_store_pointer m (a + 8) fits
  have before : load (store m (a + 8) 8 v) a 8 = load m a 8 := load_store_apart (.inr (by omega)) m v
  have other (offset width : Nat) (outside : 16 ≤ offset) :
      load (store m (a + 8) 8 v) (a + offset) width = load m (a + offset) width :=
    load_store_apart (.inl (by omega)) m v
  simp only [nodeAt,same,before,other 16 1 (by decide),other 20 4 (by decide),other 24 8 (by decide)]

theorem nodeAt_setFree (m : Memory) (a : Nat) (v : Bool) :
    nodeAt (store m (a + 16) 1 v.toNat) a = { nodeAt m a with free := v } := by
  have same := load_store_same m (a + 16) 1 v.toNat
  have flag : (load (store m (a + 16) 1 v.toNat) (a + 16) 1 == 1) = v := by
    rw [same]
    cases v <;> rfl
  have before : load (store m (a + 16) 1 v.toNat) a 8 = load m a 8 :=
    load_store_apart (.inr (by omega)) m _
  have other (offset width : Nat) (outside : offset + width ≤ 16 ∨ 17 ≤ offset) :
      load (store m (a + 16) 1 v.toNat) (a + offset) width = load m (a + offset) width :=
    load_store_apart (by unfold Apart; omega) m _
  simp only [nodeAt,flag,before,other 8 8 (by decide),other 20 4 (by decide),other 24 8 (by decide)]

theorem nodeAt_setSize (m : Memory) (a v : Nat) :
    nodeAt (store m (a + 20) 4 v) a = { nodeAt m a with size := v % 4294967296 } := by
  have same := load_store_same m (a + 20) 4 v
  have before : load (store m (a + 20) 4 v) a 8 = load m a 8 :=
    load_store_apart (.inr (by omega)) m v
  have other (offset width : Nat) (outside : offset + width ≤ 20 ∨ 24 ≤ offset) :
      load (store m (a + 20) 4 v) (a + offset) width = load m (a + offset) width :=
    load_store_apart (by unfold Apart; omega) m v
  simp only [nodeAt,same,before,other 8 8 (by decide),other 16 1 (by decide),other 24 8 (by decide),
    Nat.reducePow]

theorem nodeAt_setAllocated (m : Memory) (a : Nat) (fits : v < 18446744073709551616) :
    nodeAt (store m (a + 24) 8 v) a = { nodeAt m a with allocated := v } := by
  have same := load_store_pointer m (a + 24) fits
  have before : load (store m (a + 24) 8 v) a 8 = load m a 8 :=
    load_store_apart (.inr (by omega)) m v
  have other (offset width : Nat) (outside : offset + width ≤ 24) :
      load (store m (a + 24) 8 v) (a + offset) width = load m (a + offset) width :=
    load_store_apart (by unfold Apart; omega) m v
  simp only [nodeAt,same,before,other 8 8 (by decide),other 16 1 (by decide),other 20 4 (by decide)]

/-- A block of the list: its header's address and fields. The payload pointer of a failed
block is the value of a failed `sbrk`. -/
structure Block where
  addr : Nat
  size : Nat
  free : Bool
  failed : Bool
  deriving DecidableEq, Repr

def Block.payload (b : Block) : Nat := if b.failed then sbrkFailed else b.addr + nodeSize

/-- The bytes that belong to the block, header included. -/
def Block.extent (b : Block) : Nat := nodeSize + if b.failed then 0 else b.size

/-- The block with the one behind it; the size is kept in 32 bits. -/
def Block.absorb (x y : Block) : Block :=
  { x with size := (x.size + (nodeSize + y.size)) % 4294967296 }

def headAddr (blocks : List Block) (next : Nat) : Nat :=
  match blocks with
  | [] => next
  | b :: _ => b.addr

/-- The blocks are linked in both directions, between a node before and one behind. -/
def Segment (m : Memory) (prev : Nat) (blocks : List Block) (next : Nat) : Prop :=
  match blocks with
  | [] => True
  | b :: rest => nodeAt m b.addr = ⟨prev,headAddr rest next,b.free,b.size,b.payload⟩ ∧
    Segment m b.addr rest next

def Laid (low : Nat) (blocks : List Block) (high : Nat) : Prop :=
  match blocks with
  | [] => low ≤ high
  | b :: rest => low ≤ b.addr ∧ Laid (b.addr + b.extent) rest high

def lastAddr (prev : Nat) (blocks : List Block) : Nat :=
  match blocks with
  | [] => prev
  | b :: rest => lastAddr b.addr rest

@[simp] theorem headAddr_cons : headAddr (b :: blocks) next = b.addr := rfl

@[simp] theorem headAddr_append : headAddr (xs ++ ys) next = headAddr xs (headAddr ys next) := by
  cases xs <;> rfl

@[simp] theorem lastAddr_append : lastAddr prev (xs ++ ys) = lastAddr (lastAddr prev xs) ys := by
  induction xs generalizing prev with
  | nil => rfl
  | cons b xs ih => exact ih

theorem segment_append : Segment m prev (xs ++ ys) next ↔
    Segment m prev xs (headAddr ys next) ∧ Segment m (lastAddr prev xs) ys next := by
  induction xs generalizing prev with
  | nil => simp [Segment,lastAddr]
  | cons b xs ih => simp [Segment,lastAddr,ih,and_assoc]

theorem mem_around {b c : Block} : c ∈ xs ++ b :: ys ↔ c = b ∨ c ∈ xs ++ ys := by
  simp only [List.mem_append,List.mem_cons]
  exact or_left_comm

/-- Only the headers of the blocks matter. -/
theorem Segment.congr (linked : Segment m prev blocks next)
    (same : ∀ b ∈ blocks, nodeAt m' b.addr = nodeAt m b.addr) : Segment m' prev blocks next := by
  induction blocks generalizing prev with
  | nil => trivial
  | cons b blocks ih =>
    refine ⟨?_,ih linked.2 (fun c member => same c (by simp [member]))⟩
    rw [same b (by simp)]
    exact linked.1

theorem laid_append : Laid low (xs ++ ys) high ↔ ∃ middle, Laid low xs middle ∧ Laid middle ys high := by
  induction xs generalizing low with
  | nil =>
    constructor
    · intro laid
      exact ⟨low,Nat.le_refl low,laid⟩
    · rintro ⟨middle,below,laid⟩
      cases ys with
      | nil => exact Nat.le_trans below laid
      | cons b ys => exact ⟨Nat.le_trans below laid.1,laid.2⟩
  | cons b xs ih => simp [Laid,ih,and_assoc]

theorem Laid.le (laid : Laid low blocks high) : low ≤ high := by
  induction blocks generalizing low with
  | nil => exact laid
  | cons b blocks ih =>
    have first := laid.1
    have rest := ih laid.2
    omega

theorem Laid.mem (laid : Laid low blocks high) (member : b ∈ blocks) :
    low ≤ b.addr ∧ b.addr + b.extent ≤ high := by
  obtain ⟨before,after,rfl⟩ := List.append_of_mem member
  obtain ⟨middle,front,first,back⟩ := laid_append.mp laid
  have low_le := front.le
  have high_le := back.le
  omega

theorem Laid.mono (laid : Laid low blocks high) (below : low' ≤ low) (above : high ≤ high') :
    Laid low' blocks high' := by
  induction blocks generalizing low low' with
  | nil =>
    have inner : low ≤ high := laid
    exact show low' ≤ high' by omega
  | cons b blocks ih => exact ⟨Nat.le_trans below laid.1,ih laid.2 (Nat.le_refl _)⟩

theorem Block.header_le (b : Block) : nodeSize ≤ b.extent := Nat.le_add_right _ _

theorem Block.extent_eq {b : Block} (sound : b.failed = false) : b.extent = nodeSize + b.size := by
  simp [Block.extent,sound]

theorem Block.payload_eq {b : Block} (sound : b.failed = false) : b.payload = b.addr + nodeSize := by
  simp [Block.payload,sound]

theorem Block.absorb_extent {x y : Block} (sound : x.failed = false) :
    (x.absorb y).extent ≤ nodeSize + (x.size + (nodeSize + y.size)) := by
  rw [Block.extent_eq (b := x.absorb y) sound]
  exact Nat.add_le_add_left (Nat.mod_le _ _) _

/-- Whatever lies within the extent of one block and behind its header is apart from
every header of the list. -/
theorem Laid.payload_apart (laid : Laid low (xs ++ b :: ys) high)
    (within : nodeSize + n ≤ b.extent) (member : c ∈ xs ++ b :: ys) :
    Apart (b.addr + nodeSize) n c.addr nodeSize := by
  obtain ⟨middle,front,first,back⟩ := laid_append.mp laid
  have extent := c.header_le
  unfold Apart
  rcases List.mem_append.mp member with before | later
  · have position := front.mem before
    omega
  · rcases List.mem_cons.mp later with rfl | after
    · omega
    · have position := back.mem after
      omega

/-- Two headers of the list are apart. -/
theorem Laid.headers_apart (laid : Laid low (xs ++ b :: ys) high) (member : c ∈ xs ++ ys) :
    Apart b.addr nodeSize c.addr nodeSize := by
  obtain ⟨middle,front,first,back⟩ := laid_append.mp laid
  have extent := c.header_le
  have extent' := b.header_le
  unfold Apart
  rcases List.mem_append.mp member with before | after
  · have position := front.mem before
    omega
  · have position := back.mem after
    omega

end OsProj.MmAlloc
