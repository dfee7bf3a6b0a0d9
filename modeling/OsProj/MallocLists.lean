import OsProj.MallocHeap

/-! The checks and the loops of threads/malloc.c on a heap in memory: which arena a block is
in, which block an arena has, and how the blocks of an arena go to a free list and leave it. -/
namespace OsProj.Malloc

open OsProj.ByteMemory
open OsProj.Faulting
open OsProj.KernelList (Node Clear Placed Does elemSize sizeMod null listPushBack listPushFront listPopFront listRemove
  listEmpty listPushBack_does listPushFront_does listPopFront_does listRemove_does)

theorem ne_null (placed : 0 < p) : p ≠ null := Nat.ne_of_gt placed

section
variable {s : State} {h : Heap}

theorem desc_nonnull (sound : Sound descs h) (i : Class) : 0 < descAt descs i := by
  have placed := sound.placed
  have within := desc_within descs i
  omega

theorem desc_fits (sound : Sound descs h) (i : Class) : descAt descs i < sizeMod := by
  have placed := sound.placed
  have within := desc_within descs i
  unfold descSize at *
  omega

theorem Shape.magic_run (shape : Shape descs s.memory h count) (held : g ∈ h.groups) :
    magic g.page s = .ok (arenaMagic,s) := by
  rw [magic,field_run (shape.sound.laid g held).nonnull,Nat.add_zero,(shape.fields.header g held).1]

theorem Shape.desc_run (shape : Shape descs s.memory h count) (held : g ∈ h.groups) :
    desc g.page s = .ok (g.desc descs,s) := by
  rw [desc,field_run (shape.sound.laid g held).nonnull,(shape.fields.header g held).2]

theorem Shape.freeCnt_run (shape : Shape descs s.memory h count) (held : g ∈ h.groups) :
    freeCnt g.page s = .ok (count g,s) := by
  rw [freeCnt,field_run (shape.sound.laid g held).nonnull,shape.fields.counted g held]

theorem Shape.blockSizeOf_run (shape : Shape descs s.memory h count) (i : Class) :
    blockSizeOf (descAt descs i) s = .ok (classSize i,s) := by
  rw [blockSizeOf,field_run (desc_nonnull shape.sound i),Nat.add_zero,(shape.fields.desc i).1]

theorem Shape.blocksPerArena_run (shape : Shape descs s.memory h count) (i : Class) :
    blocksPerArena (descAt descs i) s = .ok (perArena i,s) := by
  rw [blocksPerArena,field_run (desc_nonnull shape.sound i),(shape.fields.desc i).2]

theorem Shape.arenaToBlock_run (shape : Shape descs s.memory h count) (held : .arena a i ∈ h.groups) (inside : k < perArena i) :
    arenaToBlock a k s = .ok (blockAt a i k,s) := by
  have placed : 0 < a := (shape.sound.laid _ held).nonnull
  have readMagic : magic a s = .ok (arenaMagic,s) := shape.magic_run held
  have readDesc : desc a s = .ok (descAt descs i,s) := shape.desc_run held
  unfold arenaToBlock
  rw [bind_go (assert_run (KernelList.nonnull placed)),bind_go readMagic,bind_go (assert_run (decide_eq_true rfl)),
    bind_go readDesc,bind_go (shape.blocksPerArena_run i),bind_go (assert_run (decide_eq_true inside)),
    bind_go (shape.blockSizeOf_run i)]
  rfl

theorem Piece.rounds (piece : Piece g x n) (laid : Laid descs g) : pgRoundDown x = g.page := by
  have aligned := laid.aligned
  cases piece with
  | block inside => exact pgRoundDown_block aligned inside
  | whole =>
    rename_i a pageCnt
    change a % pgSize = 0 at aligned
    change a + arenaSize - (a + arenaSize) % pgSize = a
    unfold arenaSize pgSize at *
    omega

theorem Shape.blockToArena_run (shape : Shape descs s.memory h count) (held : g ∈ h.groups) (piece : Piece g x n) :
    blockToArena x s = .ok (g.page,s) := by
  have laid := shape.sound.laid g held
  unfold blockToArena
  rw [piece.rounds laid,bind_go (assert_run (KernelList.nonnull laid.nonnull)),bind_go (shape.magic_run held),
    bind_go (assert_run (decide_eq_true rfl)),bind_go (shape.desc_run held)]
  cases piece with
  | block inside =>
    rename_i k i a
    have size := (class_bounds i).1
    have within := block_within inside a
    have aligned : a % pgSize = 0 := laid.aligned
    have passed : (pgOfs (blockAt a i k) + sizeMod - arenaSize) % sizeMod % classSize i = 0 := by
      have start : pgOfs (blockAt a i k) + sizeMod - arenaSize = k * classSize i + sizeMod := by
        rw [pgOfs_block aligned inside]
        omega
      have small : k * classSize i < sizeMod := by
        unfold blockAt pgSize sizeMod at *
        omega
      rw [start,Nat.add_mod_right,Nat.mod_eq_of_lt small,Nat.mul_mod_left]
    change (if descAt descs i ≠ null then blockSizeOf (descAt descs i) >>= _ else _) s = _
    rw [if_pos (ne_null (desc_nonnull shape.sound i)),bind_go (shape.blockSizeOf_run i),if_neg (by omega)]
    exact bind_go (assert_run (decide_eq_true passed))
  | whole =>
    rename_i a pageCnt
    have aligned : a % pgSize = 0 := laid.aligned
    have passed : pgOfs (a + arenaSize) = arenaSize := by
      unfold pgOfs arenaSize pgSize at *
      omega
    rw [if_neg (fun nonnull => nonnull rfl),bind_go (assert_run (decide_eq_true passed))]
    rfl

/-- The blocks that a new arena gets, from one on. -/
def blocksFrom (a : Nat) (i : Class) (k : Nat) : List Nat := (List.range' k (perArena i - k)).map (blockAt a i)

theorem blocksFrom_next (inside : k < perArena i) (a : Nat) : blocksFrom a i k = blockAt a i k :: blocksFrom a i (k + 1) := by
  unfold blocksFrom
  rw [show perArena i - k = (perArena i - (k + 1)) + 1 by omega,List.range'_succ,List.map_cons]

theorem blocksFrom_done (done : ¬k < perArena i) (a : Nat) : blocksFrom a i k = [] := by
  unfold blocksFrom
  rw [show perArena i - k = 0 by omega]
  rfl

theorem mem_blocksFrom : b ∈ blocksFrom a i k ↔ ∃ j, k ≤ j ∧ j < perArena i ∧ b = blockAt a i j := by
  unfold blocksFrom
  rw [List.mem_map]
  constructor
  · rintro ⟨j,inside,rfl⟩
    rw [List.mem_range'_1] at inside
    exact ⟨j,inside.1,by omega,rfl⟩
  · rintro ⟨j,low,high,rfl⟩
    exact ⟨j,List.mem_range'_1.mpr ⟨low,by omega⟩,rfl⟩

end

/-! Blocks go to the free lists and leave them. -/

section
variable {h h' h'' : Heap}

@[simp] theorem withFree_withFree (h : Heap) (i : Class) (xs ys : List Nat) : (h.withFree i xs).withFree i ys = h.withFree i ys := by
  unfold Heap.withFree
  rw [Function.update_idem]

theorem withFree_same (h : Heap) (i : Class) : h.withFree i (h.free i) = h := by
  unfold Heap.withFree
  rw [Function.update_eq_self]

theorem Sound.withFree (sound : Sound descs h)
    (members : ∀ b ∈ xs, ∃ a, .arena a i ∈ h.groups ∧ Piece (.arena a i) b (classSize i)) : Sound descs (h.withFree i xs) where
  placed := sound.placed
  laid := sound.laid
  apart := sound.apart
  members := by
    intro j b listed
    by_cases same : j = i
    · subst same
      rw [withFree_free] at listed
      exact members b listed
    · rw [withFree_other same] at listed
      exact sound.members j b listed

/-- A block off its list has room for a list element. -/
theorem Sound.loose (sound : Sound descs h) (held : .arena a i ∈ h.groups) (piece : Piece (.arena a i) x n)
    (unlisted : x ∉ h.free i) : Placed x ∧ ∀ y, Node (h.lists descs) y → Clear x y := by
  have laid := sound.laid _ held
  have within := piece.within laid
  have inside := laid.inside
  have live : h.Live x n := ⟨_,held,piece,sound.unlisted held piece unlisted⟩
  have room : 16 ≤ n := by
    cases piece with
    | block _ => exact (class_bounds i).1
  refine ⟨⟨by unfold arenaSize at within; omega,?_⟩,?_⟩
  · unfold KernelList.addressLimit elemSize sizeMod at *
    omega
  · intro y node
    exact (sound.live_node live node).mono (by unfold elemSize; omega) (by omega)

theorem Frame.refl (h h' : Heap) (m : Memory) : Frame h h' m m := fun _ _ _ _ _ _ _ => rfl

theorem Frame.trans (first : Frame h h' m m') (second : Frame h' h'' m' m'')
    (between : ∀ x n, h.Live x n → h''.Live x n → h'.Live x n) : Frame h h'' m m'' := by
  intro x n live live'' b low high
  have live' := between x n live live''
  exact (first x n live live' b low high).trans (second x n live' live'' b low high)

/-- A step of a call: the memory is all that changes, and it fits the new heap. -/
structure Moves (descs : Nat) (s : State) (h : Heap) (s' : State) (h' : Heap) (count : Group → Nat) : Prop where
  shape : Shape descs s'.memory h' count
  frame : Frame h h' s.memory s'.memory
  pages : s'.pages = s.pages
  descCnt : s'.descCnt = s.descCnt

theorem Moves.refl (shape : Shape descs s.memory h count) : Moves descs s h s h count :=
  ⟨shape,.refl h h s.memory,rfl,rfl⟩

theorem Moves.trans (first : Moves descs s h s' h' count) (second : Moves descs s' h' s'' h'' count')
    (between : ∀ x n, h.Live x n → h''.Live x n → h'.Live x n) : Moves descs s h s'' h'' count' where
  shape := second.shape
  frame := first.frame.trans second.frame between
  pages := second.pages.trans first.pages
  descCnt := second.descCnt.trans first.descCnt

/-- A list operation on the free list of one size. -/
theorem Shape.move {x : KernelList.M α} (shape : Shape descs s.memory h count)
    (does : Does x s.memory (h.lists descs) (Function.update (h.lists descs) (freeList (descAt descs i)) (some xs)) r)
    (members : ∀ b ∈ xs, ∃ a, .arena a i ∈ h.groups ∧ Piece (.arena a i) b (classSize i)) :
    ∃ s', onList x s = .ok (r,s') ∧ Moves descs s h s' (h.withFree i xs) count := by
  rw [lists_withFree] at does
  obtain ⟨m',ran,shape',frame⟩ := shape.relist does (shape.sound.withFree members) rfl
  exact ⟨_,onList_run ran,shape',frame,rfl,rfl⟩

/-- Blocks that are off a list are off a part of it. -/
theorem live_withFree {xs ys : List Nat} (fewer : ∀ b ∈ xs, b ∈ ys) (live : (h.withFree i ys).Live x n) : (h.withFree i xs).Live x n := by
  obtain ⟨g,held,piece,unlisted⟩ := live
  refine ⟨g,held,piece,?_⟩
  intro j listed
  apply unlisted j
  by_cases same : j = i
  · subst same
    rw [withFree_free] at listed ⊢
    exact fewer x listed
  · rw [withFree_other same] at listed ⊢
    exact listed

theorem Shape.addBlocks_run (shape : Shape descs s.memory h count) (held : .arena a i ∈ h.groups)
    (unlisted : ∀ b ∈ blocksFrom a i k, b ∉ h.free i) (enough : perArena i - k < fuel) :
    ∃ s', addBlocks (descAt descs i) a fuel k s = .ok ((),s') ∧
      Moves descs s h s' (h.withFree i (h.free i ++ blocksFrom a i k)) count := by
  induction fuel generalizing s h k with
  | zero => exact absurd enough (Nat.not_lt_zero _)
  | succ fuel ih =>
    rw [addBlocks,bind_go (shape.blocksPerArena_run i)]
    by_cases inside : k < perArena i
    · rw [if_pos inside,bind_go (shape.arenaToBlock_run held inside)]
      rw [blocksFrom_next inside] at unlisted ⊢
      have piece : Piece (.arena a i) (blockAt a i k) (classSize i) := .block inside
      obtain ⟨placed,new⟩ := shape.sound.loose held piece (unlisted _ (by simp))
      obtain ⟨s',pushed,moves⟩ := shape.move (listPushBack_does shape.lists (lists_at descs h i) placed new) (by
        intro b listed
        rcases List.mem_append.mp listed with old | new
        · exact shape.sound.members i b old
        · rw [List.mem_singleton.mp new]
          exact ⟨a,held,piece⟩)
      obtain ⟨s'',ran,rest⟩ := ih moves.shape held (k := k + 1) (by
        intro b later listed
        rw [withFree_free] at listed
        rcases List.mem_append.mp listed with old | new
        · exact unlisted b (by simp [later]) old
        · obtain ⟨j,low,_,rfl⟩ := mem_blocksFrom.mp later
          have same := block_inj (List.mem_singleton.mp new)
          omega) (by omega)
      rw [withFree_withFree,withFree_free,List.append_assoc] at rest
      refine ⟨s'',?_,moves.trans rest ?_⟩
      · rw [bind_go pushed]
        exact ran
      · intro x n _ live
        refine live_withFree ?_ live
        intro b listed
        rw [List.append_cons]
        exact List.mem_append_left _ listed
    · rw [if_neg inside,blocksFrom_done inside,List.append_nil,withFree_same]
      exact ⟨s,rfl,.refl shape⟩

theorem filter_ne_middle {xs ys : List Nat} (nodup : (xs ++ e :: ys).Nodup) : (xs ++ e :: ys).filter (· ≠ e) = xs ++ ys := by
  obtain ⟨_,nodupY,apart⟩ := List.nodup_append.mp nodup
  rw [List.filter_append,List.filter_cons_of_neg (by simp),List.filter_eq_self.mpr,List.filter_eq_self.mpr]
  · intro b inside
    exact decide_eq_true (fun same => (List.nodup_cons.mp nodupY).1 (same ▸ inside))
  · intro b inside
    exact decide_eq_true (apart b inside e (List.mem_cons_self ..))

theorem Shape.nodup (shape : Shape descs m h count) (i : Class) : (h.free i).Nodup := by
  have distinct := shape.lists.distinct (lists_at descs h i)
  have inner := (List.pairwise_append.mp distinct).1.tail
  exact inner.imp (fun clear => clear.ne)

theorem fewer_live {xs : List Nat} (fewer : ∀ b ∈ xs, b ∈ h.free i) (live : h.Live x n) : (h.withFree i xs).Live x n := by
  rw [← withFree_same h i] at live
  exact live_withFree fewer live

theorem Shape.removeBlocks_run (shape : Shape descs s.memory h count) (held : .arena a i ∈ h.groups)
    (listed : ∀ b ∈ blocksFrom a i k, b ∈ h.free i) (enough : perArena i - k < fuel) :
    ∃ s', removeBlocks (descAt descs i) a fuel k s = .ok ((),s') ∧
      Moves descs s h s' (h.withFree i ((h.free i).filter (· ∉ blocksFrom a i k))) count := by
  induction fuel generalizing s h k with
  | zero => exact absurd enough (Nat.not_lt_zero _)
  | succ fuel ih =>
    rw [removeBlocks,bind_go (shape.blocksPerArena_run i)]
    by_cases inside : k < perArena i
    · rw [if_pos inside,bind_go (shape.arenaToBlock_run held inside)]
      rw [blocksFrom_next inside] at listed ⊢
      have nodup := shape.nodup i
      obtain ⟨xs,ys,split⟩ := List.append_of_mem (listed _ (List.mem_cons_self ..))
      obtain ⟨q,after⟩ := KernelList.head_exists (freeList (descAt descs i)) ys
      have here : h.lists descs (freeList (descAt descs i)) = some (xs ++ [blockAt a i k] ++ ys) := by
        rw [lists_at,split,List.append_cons]
      have rest : xs ++ ys = (h.free i).filter (· ≠ blockAt a i k) := by
        rw [split] at nodup ⊢
        exact (filter_ne_middle nodup).symm
      have does := listRemove_does shape.lists here after
      rw [rest] at does
      have fewer : ∀ b ∈ (h.free i).filter (· ≠ blockAt a i k), b ∈ h.free i := fun b inside => (List.mem_filter.mp inside).1
      obtain ⟨s',removed,moves⟩ := shape.move does (fun b inside => shape.sound.members i b (fewer b inside))
      obtain ⟨s'',ran,later⟩ := ih moves.shape held (k := k + 1) (by
        intro b later
        rw [withFree_free,List.mem_filter]
        refine ⟨listed b (List.mem_cons_of_mem _ later),?_⟩
        obtain ⟨j,low,_,rfl⟩ := mem_blocksFrom.mp later
        apply decide_eq_true
        intro same
        have := block_inj same
        omega) (by omega)
      rw [withFree_withFree,withFree_free,List.filter_filter] at later
      refine ⟨s'',?_,?_⟩
      · rw [bind_go removed]
        exact ran
      · have both : (fun b => decide (b ∉ blocksFrom a i (k + 1)) && decide (b ≠ blockAt a i k)) =
            fun b => decide (b ∉ blockAt a i k :: blocksFrom a i (k + 1)) := by
          funext b
          simp only [List.mem_cons,not_or,Bool.decide_and]
          exact Bool.and_comm ..
        rw [both] at later
        exact moves.trans later (fun x n live _ => fewer_live fewer live)
    · rw [if_neg inside,blocksFrom_done inside]
      simp only [List.not_mem_nil,not_false_eq_true,decide_true,List.filter_true,withFree_same]
      exact ⟨s,rfl,.refl shape⟩

end

end OsProj.Malloc
