import OsProj.Malloc

/-! What the kernel allocator keeps in memory: the groups of pages it holds, each an arena
with blocks of one size or one big block, and the free blocks of each size. Whatever leaves
the headers and the list elements alone leaves the heap alone. -/
namespace OsProj.Malloc

open OsProj.ByteMemory
open OsProj.KernelList (Lists Node Outside WellFormed Clear Placed Does elemSize sizeMod null)

/-- The descriptors that `malloc_init` makes. -/
abbrev Class := Fin 7

def classSize (i : Class) : Nat := 16 * 2 ^ i.val

def perArena (i : Class) : Nat := (pgSize - arenaSize) / classSize i

def blockAt (a : Nat) (i : Class) (k : Nat) : Nat := a + arenaSize + k * classSize i

def descAt (descs : Nat) (i : Class) : Nat := descs + descSize * i.val

inductive Group where
  | arena (page : Nat) (i : Class)
  | big (page pageCnt : Nat)
  deriving DecidableEq

def Group.page : Group → Nat
  | arena page _ => page
  | big page _ => page

def Group.pageCnt : Group → Nat
  | arena _ _ => 1
  | big _ pageCnt => pageCnt

def Group.size (g : Group) : Nat := pgSize * g.pageCnt

def Group.desc (descs : Nat) : Group → Nat
  | arena _ i => descAt descs i
  | big _ _ => null

def Group.held (g : Group) : Nat × Nat := (g.page,g.pageCnt)

def Group.Disjoint (g g' : Group) : Prop := Apart g.page g.size g'.page g'.size

structure Heap where
  groups : List Group
  free : Class → List Nat

def Heap.listed (h : Heap) (i : Class) (a : Nat) : Nat := (h.free i).countP fun b => pgRoundDown b = a

def Heap.count (h : Heap) : Group → Nat
  | .arena a i => h.listed i a
  | .big _ pageCnt => pageCnt

inductive Piece : Group → Nat → Nat → Prop
  | block (inside : k < perArena i) : Piece (.arena a i) (blockAt a i k) (classSize i)
  | whole : Piece (.big a pageCnt) (a + arenaSize) (pgSize * pageCnt - arenaSize)

def Heap.Live (h : Heap) (x n : Nat) : Prop := ∃ g ∈ h.groups, Piece g x n ∧ ∀ i, x ∉ h.free i

theorem class_bounds (i : Class) : 16 ≤ classSize i ∧ classSize i ≤ 1024 := by
  revert i
  decide

theorem perArena_bounds (i : Class) : 0 < perArena i ∧ perArena i ≤ 255 ∧ perArena i * classSize i + arenaSize ≤ pgSize := by
  revert i
  decide

/-- A block lies in its page behind the header. -/
theorem block_within (inside : k < perArena i) (a : Nat) :
    a + arenaSize ≤ blockAt a i k ∧ blockAt a i k + classSize i ≤ a + pgSize := by
  have upto : (k + 1) * classSize i ≤ perArena i * classSize i := Nat.mul_le_mul_right _ inside
  have fits := (perArena_bounds i).2.2
  rw [Nat.succ_mul] at upto
  unfold blockAt
  omega

theorem block_apart (other : k ≠ k') (a : Nat) (i : Class) :
    Apart (blockAt a i k) (classSize i) (blockAt a i k') (classSize i) := by
  unfold Apart blockAt
  rcases Nat.lt_or_gt_of_ne other with below | above
  · have step : (k + 1) * classSize i ≤ k' * classSize i := Nat.mul_le_mul_right _ below
    rw [Nat.succ_mul] at step
    omega
  · have step : (k' + 1) * classSize i ≤ k * classSize i := Nat.mul_le_mul_right _ above
    rw [Nat.succ_mul] at step
    omega

theorem block_inj (same : blockAt a i k = blockAt a i k') : k = k' := by
  by_contra other
  have apart := block_apart other a i
  have size := (class_bounds i).1
  unfold Apart at apart
  omega

theorem pgRoundDown_block (aligned : a % pgSize = 0) (inside : k < perArena i) : pgRoundDown (blockAt a i k) = a := by
  have within := block_within inside a
  have size := (class_bounds i).1
  unfold pgRoundDown
  unfold pgSize at *
  omega

theorem pgOfs_block (aligned : a % pgSize = 0) (inside : k < perArena i) :
    pgOfs (blockAt a i k) = arenaSize + k * classSize i := by
  have within := block_within inside a
  have size := (class_bounds i).1
  unfold pgOfs blockAt at *
  unfold pgSize at *
  omega

/-! The free lists of the descriptors. -/

def Heap.lists (descs : Nat) (h : Heap) : Lists := fun l =>
  ((List.finRange 7).find? fun i => freeList (descAt descs i) = l).map h.free

theorem freeList_inj {i j : Class} (same : freeList (descAt descs i) = freeList (descAt descs j)) : i = j := by
  unfold freeList descAt descSize at same
  exact Fin.ext (by omega)

theorem lists_some {h : Heap} : h.lists descs l = some xs ↔ ∃ i, l = freeList (descAt descs i) ∧ xs = h.free i := by
  unfold Heap.lists
  rw [Option.map_eq_some_iff]
  constructor
  · rintro ⟨i,found,rfl⟩
    have here := List.find?_some found
    exact ⟨i,(of_decide_eq_true here).symm,rfl⟩
  · rintro ⟨i,rfl,rfl⟩
    cases found : (List.finRange 7).find? fun j => decide (freeList (descAt descs j) = freeList (descAt descs i)) with
    | none => exact absurd (decide_eq_true rfl) (List.find?_eq_none.mp found i (List.mem_finRange i))
    | some j =>
      have here := List.find?_some found
      obtain rfl := freeList_inj (of_decide_eq_true here)
      exact ⟨j,rfl,rfl⟩

theorem lists_at (descs : Nat) (h : Heap) (i : Class) : h.lists descs (freeList (descAt descs i)) = some (h.free i) :=
  lists_some.mpr ⟨i,rfl,rfl⟩

def Heap.withFree (h : Heap) (i : Class) (xs : List Nat) : Heap := { h with free := Function.update h.free i xs }

@[simp] theorem withFree_groups (h : Heap) (i : Class) (xs : List Nat) : (h.withFree i xs).groups = h.groups := rfl

@[simp] theorem withFree_free (h : Heap) (i : Class) (xs : List Nat) : (h.withFree i xs).free i = xs :=
  Function.update_self ..

theorem withFree_other {i j : Class} (other : j ≠ i) (h : Heap) (xs : List Nat) : (h.withFree i xs).free j = h.free j :=
  Function.update_of_ne other ..

theorem lists_withFree (descs : Nat) (h : Heap) (i : Class) (xs : List Nat) :
    Function.update (h.lists descs) (freeList (descAt descs i)) (some xs) = (h.withFree i xs).lists descs := by
  funext l
  by_cases same : l = freeList (descAt descs i)
  · subst same
    rw [Function.update_self,lists_at,withFree_free]
  · rw [Function.update_of_ne same]
    apply Option.ext
    intro ys
    have other : ∀ j, l = freeList (descAt descs j) → j ≠ i := by
      rintro j at_ rfl
      exact same at_
    rw [lists_some,lists_some]
    constructor
    · rintro ⟨j,at_,rfl⟩
      exact ⟨j,at_,(withFree_other (other j at_) h xs).symm⟩
    · rintro ⟨j,at_,rfl⟩
      exact ⟨j,at_,withFree_other (other j at_) h xs⟩

/-- The list elements are the headers in the descriptors and the free blocks. -/
theorem node_iff {h : Heap} : Node (h.lists descs) x ↔
    ∃ i, x = freeList (descAt descs i) ∨ x = freeList (descAt descs i) + elemSize ∨ x ∈ h.free i := by
  constructor
  · rintro ⟨l,xs,here,inside⟩
    obtain ⟨i,rfl,rfl⟩ := lists_some.mp here
    refine ⟨i,?_⟩
    simp only [KernelList.nodes,KernelList.head,KernelList.tail,List.mem_append,List.mem_cons,List.not_mem_nil,or_false] at inside
    tauto
  · rintro ⟨i,where_⟩
    refine ⟨_,_,lists_at descs h i,?_⟩
    simp only [KernelList.nodes,KernelList.head,KernelList.tail,List.mem_append,List.mem_cons,List.not_mem_nil,or_false]
    tauto

/-! Where the groups lie. -/

structure Laid (descs : Nat) (g : Group) : Prop where
  aligned : g.page % pgSize = 0
  nonnull : 0 < g.page
  nonempty : 0 < g.pageCnt
  inside : g.page + g.size ≤ sizeMod
  clear : Apart g.page g.size descs (descSize * descMax)

structure Sound (descs : Nat) (h : Heap) : Prop where
  placed : 0 < descs ∧ descs + descSize * descMax ≤ sizeMod
  laid : ∀ g ∈ h.groups, Laid descs g
  apart : h.groups.Pairwise Group.Disjoint
  members : ∀ i, ∀ b ∈ h.free i, ∃ a, .arena a i ∈ h.groups ∧ Piece (.arena a i) b (classSize i)

instance : Std.Symm Group.Disjoint := ⟨fun _ _ => Apart.symm⟩

theorem Laid.header (laid : Laid descs g) : arenaSize < g.size := by
  have nonempty := laid.nonempty
  unfold Group.size pgSize arenaSize
  omega

theorem Piece.within (piece : Piece g x n) (laid : Laid descs g) :
    g.page + arenaSize ≤ x ∧ x + n ≤ g.page + g.size ∧ 0 < n := by
  have header := laid.header
  cases piece with
  | block inside =>
    rename_i k i a
    have within := block_within inside a
    have size := (class_bounds i).1
    exact ⟨within.1,within.2,by omega⟩
  | whole =>
    rename_i a pageCnt
    change arenaSize < pgSize * pageCnt at header
    change a + arenaSize ≤ _ ∧ _ ≤ a + pgSize * pageCnt ∧ _
    omega

theorem Piece.apart (piece : Piece g x n) (piece' : Piece g y k) (other : x ≠ y) : Apart x n y k := by
  cases piece with
  | block inside =>
    cases piece' with
    | block inside' =>
      refine block_apart ?_ _ _
      rintro rfl
      exact other rfl
  | whole =>
    cases piece' with
    | whole => exact absurd rfl other

theorem desc_within (descs : Nat) (i : Class) : descs ≤ descAt descs i ∧ descAt descs i + descSize ≤ descs + descSize * descMax := by
  have few := i.isLt
  unfold descAt descSize descMax
  omega

section
variable {h : Heap}

theorem Sound.disjoint (sound : Sound descs h) (here : g ∈ h.groups) (there : g' ∈ h.groups) (other : g ≠ g') :
    Group.Disjoint g g' := sound.apart.forall here there other

theorem Sound.pieces_apart (sound : Sound descs h) (here : g ∈ h.groups) (there : g' ∈ h.groups) (piece : Piece g x n)
    (piece' : Piece g' y k) (other : x ≠ y) : Apart x n y k := by
  by_cases same : g = g'
  · subst same
    exact piece.apart piece' other
  · have within := piece.within (sound.laid g here)
    have within' := piece'.within (sound.laid g' there)
    exact (sound.disjoint here there same).mono (by omega) (by omega)

/-- A byte of a block tells its group. -/
theorem Sound.group_unique (sound : Sound descs h) (here : g ∈ h.groups) (there : g' ∈ h.groups) (piece : Piece g x n)
    (low : g'.page ≤ x) (high : x < g'.page + g'.size) : g = g' := by
  by_contra other
  have within := piece.within (sound.laid g here)
  have disjoint := sound.disjoint here there other
  unfold Group.Disjoint Apart at disjoint
  omega

theorem Sound.piece_desc (sound : Sound descs h) (here : g ∈ h.groups) (piece : Piece g x n) :
    Apart x n descs (descSize * descMax) := by
  have laid := sound.laid g here
  have within := piece.within laid
  exact laid.clear.mono (by omega) (by omega)

theorem Sound.piece_header (sound : Sound descs h) (here : g ∈ h.groups) (piece : Piece g x n) (there : g' ∈ h.groups) :
    Apart x n g'.page arenaSize := by
  have within := piece.within (sound.laid g here)
  by_cases same : g = g'
  · subst same
    exact .inr within.1
  · have header := (sound.laid g' there).header
    exact (sound.disjoint here there same).mono (by omega) (by omega)

/-- A block that is not free meets no list element. -/
theorem Sound.live_node (sound : Sound descs h) (live : h.Live x n) (node : Node (h.lists descs) y) : Apart x n y elemSize := by
  obtain ⟨g,here,piece,unlisted⟩ := live
  obtain ⟨i,where_⟩ := node_iff.mp node
  have desc := desc_within descs i
  have clear := sound.piece_desc here piece
  unfold freeList at where_
  rcases where_ with rfl | rfl | listed
  · exact clear.mono (by omega) (by unfold descSize elemSize at *; omega)
  · exact clear.mono (by omega) (by unfold descSize elemSize at *; omega)
  · obtain ⟨a,there,piece'⟩ := sound.members i y listed
    have size := (class_bounds i).1
    refine (sound.pieces_apart here there piece piece' ?_).mono (by omega) (by unfold elemSize; omega)
    rintro rfl
    exact unlisted i listed

theorem Sound.live_apart (sound : Sound descs h) (live : h.Live x n) (live' : h.Live y k) (other : x ≠ y) : Apart x n y k := by
  obtain ⟨g,here,piece,_⟩ := live
  obtain ⟨g',there,piece',_⟩ := live'
  exact sound.pieces_apart here there piece piece' other

/-- A block is on no list but that of its arena. -/
theorem Sound.unlisted (sound : Sound descs h) (here : .arena a i ∈ h.groups) (piece : Piece (.arena a i) x n)
    (unlisted : x ∉ h.free i) (j : Class) : x ∉ h.free j := by
  intro listed
  obtain ⟨a',there,piece'⟩ := sound.members j x listed
  have within' := piece'.within (sound.laid _ there)
  cases sound.group_unique here there piece (by omega) (by omega)
  exact unlisted listed

end

/-! What the headers hold. -/

def Fixed (descs : Nat) (groups : List Group) (b : Nat) : Prop :=
  (∃ i, descAt descs i ≤ b ∧ b < descAt descs i + 8) ∨ ∃ g ∈ groups, g.page ≤ b ∧ b < g.page + arenaSize

structure Fields (descs : Nat) (m : Memory) (groups : List Group) (count : Group → Nat) : Prop where
  desc : ∀ i, load m (descAt descs i) 4 = classSize i ∧ load m (descAt descs i + 4) 4 = perArena i
  header : ∀ g ∈ groups, load m g.page 4 = arenaMagic ∧ load m (g.page + 4) 4 = g.desc descs
  counted : ∀ g ∈ groups, load m (g.page + 8) 4 = count g

theorem Fields.congr (fields : Fields descs m groups count) (same : ∀ b, Fixed descs groups b → m b = m' b) :
    Fields descs m' groups count where
  desc := by
    intro i
    have kept : Agree m m' (descAt descs i) 8 := fun b low high => same b (.inl ⟨i,low,high⟩)
    rw [← load_congr (kept.mono (by omega)),← load_congr (kept.mono (by omega))]
    exact fields.desc i
  header := by
    intro g held
    have kept : Agree m m' g.page arenaSize := fun b low high => same b (.inr ⟨g,held,low,high⟩)
    rw [← load_congr (kept.mono (by unfold arenaSize; omega)),← load_congr (kept.mono (by unfold arenaSize; omega))]
    exact fields.header g held
  counted := by
    intro g held
    have kept : Agree m m' g.page arenaSize := fun b low high => same b (.inr ⟨g,held,low,high⟩)
    rw [← load_congr (kept.mono (by unfold arenaSize; omega))]
    exact fields.counted g held

def Owned (descs : Nat) (h : Heap) (b : Nat) : Prop :=
  Fixed descs h.groups b ∨ ∃ x, Node (h.lists descs) x ∧ x ≤ b ∧ b < x + elemSize

/-- The heap in memory, with any counts in the headers. -/
structure Shape (descs : Nat) (m : Memory) (h : Heap) (count : Group → Nat) : Prop where
  sound : Sound descs h
  fields : Fields descs m h.groups count
  lists : WellFormed m (h.lists descs)

/-- Blocks that are live in both heaps keep their bytes. -/
def Frame (h h' : Heap) (m m' : Memory) : Prop := ∀ x n, h.Live x n → h'.Live x n → Agree m m' x n

section
variable {h h' : Heap} {m m' : Memory}

theorem Shape.congr (shape : Shape descs m h count) (same : ∀ b, Owned descs h b → m b = m' b) :
    Shape descs m' h count where
  sound := shape.sound
  fields := shape.fields.congr (fun b fixed => same b (.inl fixed))
  lists := shape.lists.congr (fun x node b low high => same b (.inr ⟨x,node,low,high⟩))

/-- A list element is in no header. -/
theorem Sound.fixed_outside (sound : Sound descs h) (fixed : Fixed descs h.groups b) : Outside (h.lists descs) b := by
  intro x node
  obtain ⟨i,where_⟩ := node_iff.mp node
  have desc := desc_within descs i
  unfold freeList at where_
  rcases fixed with ⟨j,low,high⟩ | ⟨g,held,low,high⟩
  · rcases where_ with rfl | rfl | listed
    · unfold descAt descSize elemSize at *
      omega
    · unfold descAt descSize elemSize at *
      omega
    · obtain ⟨a,there,piece⟩ := sound.members i x listed
      have size := (class_bounds i).1
      have clear := sound.piece_desc there piece
      have desc' := desc_within descs j
      unfold Apart at clear
      unfold descSize elemSize at *
      omega
  · have laid := sound.laid g held
    have header := laid.header
    have clear := laid.clear
    unfold Apart at clear
    rcases where_ with rfl | rfl | listed
    · unfold descSize elemSize at *
      omega
    · unfold descSize elemSize at *
      omega
    · obtain ⟨a,there,piece⟩ := sound.members i x listed
      have size := (class_bounds i).1
      have apart := sound.piece_header there piece held
      unfold Apart at apart
      unfold elemSize
      omega

theorem Sound.live_fixed (sound : Sound descs h) (live : h.Live x n) (low : x ≤ b) (high : b < x + n) :
    ¬Fixed descs h.groups b := by
  obtain ⟨g,here,piece,_⟩ := live
  rintro (⟨i,low',high'⟩ | ⟨g',there,low',high'⟩)
  · have desc := desc_within descs i
    have clear := sound.piece_desc here piece
    unfold Apart at clear
    unfold descSize at *
    omega
  · have clear := sound.piece_header here piece there
    unfold Apart at clear
    omega

theorem Sound.live_outside (sound : Sound descs h) (live : h.Live x n) (low : x ≤ b) (high : b < x + n) :
    Outside (h.lists descs) b := by
  intro y node
  have apart := sound.live_node live node
  unfold Apart at apart
  omega

theorem Sound.live_owned (sound : Sound descs h) (live : h.Live x n) (low : x ≤ b) (high : b < x + n) : ¬Owned descs h b := by
  rintro (fixed | ⟨y,node,low',high'⟩)
  · exact sound.live_fixed live low high fixed
  · have outside := sound.live_outside live low high y node
    omega

/-- What belongs to the allocator is in the descriptors or in its pages. -/
theorem Sound.owned_within (sound : Sound descs h) (owned : Owned descs h b) :
    descs ≤ b ∧ b < descs + descSize * descMax ∨ ∃ g ∈ h.groups, g.page ≤ b ∧ b < g.page + g.size := by
  rcases owned with (⟨i,low,high⟩ | ⟨g,held,low,high⟩) | ⟨x,node,low,high⟩
  · have desc := desc_within descs i
    left
    unfold descSize at *
    omega
  · have header := (sound.laid g held).header
    exact .inr ⟨g,held,low,by omega⟩
  · obtain ⟨i,where_⟩ := node_iff.mp node
    have desc := desc_within descs i
    unfold freeList at where_
    rcases where_ with rfl | rfl | listed
    · left
      unfold descSize elemSize at *
      omega
    · left
      unfold descSize elemSize at *
      omega
    · obtain ⟨a,held,piece⟩ := sound.members i x listed
      have within := piece.within (sound.laid _ held)
      have size := (class_bounds i).1
      exact .inr ⟨_,held,by omega,by unfold elemSize at high; omega⟩

/-- A list operation keeps the headers and the blocks that stay live. -/
theorem Shape.relist {x : KernelList.M α} (shape : Shape descs m h count) (does : Does x m (h.lists descs) (h'.lists descs) r)
    (sound : Sound descs h') (same : h'.groups = h.groups) :
    ∃ m', x m = .ok (r,m') ∧ Shape descs m' h' count ∧ Frame h h' m m' := by
  obtain ⟨m',ran,wf,kept⟩ := does
  refine ⟨m',ran,⟨sound,?_,wf⟩,?_⟩
  · rw [same]
    refine shape.fields.congr (fun b fixed => (kept b (shape.sound.fixed_outside fixed) (sound.fixed_outside ?_)).symm)
    rwa [same]
  · intro y n live live' b low high
    exact (kept b (shape.sound.live_outside live low high) (sound.live_outside live' low high)).symm

theorem Shape.setCount (shape : Shape descs m h count) (held : g ∈ h.groups) (v : Nat) :
    Shape descs (store m (g.page + 8) 4 v) h (Function.update count g (v % sizeMod)) ∧ Frame h h m (store m (g.page + 8) 4 v) := by
  have sound := shape.sound
  have laid := sound.laid g held
  have header := laid.header
  refine ⟨⟨sound,⟨?_,?_,?_⟩,?_⟩,?_⟩
  · intro i
    have desc := desc_within descs i
    have clear := laid.clear
    have away : Apart (g.page + 8) 4 (descAt descs i) 8 :=
      clear.mono (by unfold arenaSize at header; omega) (by unfold descSize at *; omega)
    rw [load_store_apart (away.mono (by omega) (by omega)),load_store_apart (away.mono (by omega) (by omega))]
    exact shape.fields.desc i
  · intro g' held'
    by_cases same : g' = g
    · subst same
      rw [load_store_apart (.inr (by omega)),load_store_apart (.inr (by omega))]
      exact shape.fields.header g' held
    · have header' := (sound.laid g' held').header
      have away : Apart (g.page + 8) 4 g'.page 8 :=
        (sound.disjoint held held' (Ne.symm same)).mono (by unfold arenaSize at header; omega) (by unfold arenaSize at header'; omega)
      rw [load_store_apart (away.mono (by omega) (by omega)),load_store_apart (away.mono (by omega) (by omega))]
      exact shape.fields.header g' held'
  · intro g' held'
    by_cases same : g' = g
    · subst same
      rw [load_store_same,Function.update_self]
      rfl
    · have header' := (sound.laid g' held').header
      have away : Apart (g.page + 8) 4 (g'.page + 8) 4 :=
        (sound.disjoint held held' (Ne.symm same)).mono (by unfold arenaSize at header; omega) (by unfold arenaSize at header'; omega)
      rw [load_store_apart away,Function.update_of_ne same]
      exact shape.fields.counted g' held'
  · refine shape.lists.congr (fun x node b low high => (if_neg ?_).symm)
    rintro ⟨low',high'⟩
    have outside := sound.fixed_outside (b := b) (.inr ⟨g,held,by omega,by unfold arenaSize; omega⟩) x node
    omega
  · intro x n live _ b low high
    refine (if_neg ?_).symm
    rintro ⟨low',high'⟩
    exact sound.live_fixed live low high (.inr ⟨g,held,by omega,by unfold arenaSize; omega⟩)

end

end OsProj.Malloc
