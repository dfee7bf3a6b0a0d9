import Mathlib.Logic.Equiv.Basic
import Mathlib.Data.List.Nodup
import Mathlib.Data.List.Perm.Subperm

/-! Heaps over the places 1, 2, … of an array, where the children of place i are places 2 * i and
2 * i + 1: sinking an element, and sorting by taking the root away. -/
namespace OsProj.HeapOrder

structure TotalPreorder (le : α → α → Prop) : Prop where
  total : ∀ x y, le x y ∨ le y x
  trans : ∀ x y z, le x y → le y z → le x z

theorem TotalPreorder.refl {le : α → α → Prop} (order : TotalPreorder le) (x : α) : le x x :=
  (order.total x x).elim id id

/-! Rearrangements of the places up to a limit. -/

/-- The second array is the first with places up to the limit rearranged. -/
def Shuffled (limit : Nat) (f g : Nat → α) : Prop :=
  ∃ places : Equiv.Perm Nat, (∀ k, places k = k ∨ 1 ≤ places k ∧ places k ≤ limit ∧ 1 ≤ k ∧ k ≤ limit) ∧ g = f ∘ places

theorem Shuffled.refl (limit : Nat) (f : Nat → α) : Shuffled limit f f :=
  ⟨Equiv.refl Nat,fun _ => .inl rfl,rfl⟩

theorem Shuffled.trans {f g h : Nat → α} (first : Shuffled limit f g) (second : Shuffled limit g h) : Shuffled limit f h := by
  obtain ⟨p,inside,rfl⟩ := first
  obtain ⟨q,within,rfl⟩ := second
  refine ⟨q.trans p,fun k => ?_,rfl⟩
  simp only [Equiv.trans_apply]
  rcases within k with same | ⟨_,_,_,_⟩
  · rw [same]
    exact inside k
  · rcases inside (q k) with same | ⟨_,_,_,_⟩
    · rw [same]
      omega
    · omega

theorem Shuffled.mono {f g : Nat → α} (shuffled : Shuffled low f g) (less : low ≤ limit) : Shuffled limit f g := by
  obtain ⟨p,inside,rfl⟩ := shuffled
  refine ⟨p,fun k => ?_,rfl⟩
  have := inside k
  omega

theorem Shuffled.swap (f : Nat → α) (i_some : 1 ≤ i) (i_in : i ≤ limit) (j_some : 1 ≤ j) (j_in : j ≤ limit) :
    Shuffled limit f (f ∘ Equiv.swap i j) := by
  refine ⟨Equiv.swap i j,fun k => ?_,rfl⟩
  rw [Equiv.swap_apply_def]
  split
  · omega
  · split
    · omega
    · exact .inl rfl

theorem Shuffled.outside {f g : Nat → α} (shuffled : Shuffled limit f g) (out : limit < k) : g k = f k := by
  obtain ⟨p,inside,rfl⟩ := shuffled
  rcases inside k with same | ⟨_,_,_,_⟩
  · exact congrArg f same
  · omega

/-- What is in a place was in one of the places. -/
theorem Shuffled.source {f g : Nat → α} (shuffled : Shuffled limit f g) (some_ : 1 ≤ k) (in_ : k ≤ limit) :
    ∃ j, 1 ≤ j ∧ j ≤ limit ∧ g k = f j := by
  obtain ⟨p,inside,rfl⟩ := shuffled
  refine ⟨p k,?_,?_,rfl⟩ <;> have := inside k <;> omega

theorem Shuffled.perm {f g : Nat → α} (shuffled : Shuffled limit f g) :
    ((List.range' 1 limit).map g).Perm ((List.range' 1 limit).map f) := by
  obtain ⟨p,inside,rfl⟩ := shuffled
  have places : ((List.range' 1 limit).map p).Perm (List.range' 1 limit) := by
    have distinct := (List.nodup_range' (s := 1) (n := limit)).map p.injective
    apply (List.subperm_of_subset distinct ?_).perm_of_length_le (by simp)
    intro k member
    obtain ⟨j,j_in,rfl⟩ := List.mem_map.mp member
    rw [List.mem_range'_1] at j_in ⊢
    have := inside j
    omega
  rw [← List.map_map]
  exact places.map f

/-! The order of a heap. -/

/-- No child below a place from the lowest on is greater than its parent. -/
def HeapFrom (le : α → α → Prop) (f : Nat → α) (lowest cnt : Nat) : Prop :=
  ∀ c ≤ cnt, lowest ≤ c / 2 → le (f c) (f (c / 2))

/-- A heap except at one place, whose children are in order with its parent. -/
structure Sinking (le : α → α → Prop) (f : Nat → α) (lowest cnt i : Nat) : Prop where
  edges : ∀ c ≤ cnt, lowest ≤ c / 2 → c / 2 ≠ i → le (f c) (f (c / 2))
  around : ∀ c ≤ cnt, c / 2 = i → lowest ≤ i / 2 → le (f c) (f (i / 2))

section
variable {le : α → α → Prop} {f : Nat → α}

theorem HeapFrom.sinking (heap : HeapFrom le f (i + 1) cnt) (some_ : 1 ≤ i) : Sinking le f i cnt i where
  edges c c_in from_ other := heap c c_in (by omega)
  around c c_in child from_ := by omega

theorem Sinking.stop (sinking : Sinking le f lowest cnt i) (most : ∀ c ≤ cnt, c / 2 = i → le (f c) (f i)) :
    HeapFrom le f lowest cnt := by
  intro c c_in from_
  by_cases child : c / 2 = i
  · rw [child]
    exact most c c_in child
  · exact sinking.edges c c_in from_ child

/-- The element goes down to the place of the greatest child, which comes up. -/
theorem Sinking.down (sinking : Sinking le f lowest cnt i) (some_ : 1 ≤ i) (from_ : lowest ≤ i) (m_in : m ≤ cnt) (child : m / 2 = i)
    (most : ∀ c ≤ cnt, c / 2 = i → le (f c) (f m)) (less : le (f i) (f m)) : Sinking le (f ∘ Equiv.swap i m) lowest cnt m where
  edges c c_in c_from other := by
    have up : (f ∘ Equiv.swap i m) i = f m := congrArg f (Equiv.swap_apply_left i m)
    have down : (f ∘ Equiv.swap i m) m = f i := congrArg f (Equiv.swap_apply_right i m)
    have same : ∀ k, k ≠ i → k ≠ m → (f ∘ Equiv.swap i m) k = f k := fun k k_i k_m => congrArg f (Equiv.swap_apply_of_ne_of_ne k_i k_m)
    by_cases parent : c / 2 = i
    · rw [parent,up]
      by_cases c_m : c = m
      · rw [c_m,down]
        exact less
      · rw [same c (by omega) c_m]
        exact most c c_in parent
    · rw [same (c / 2) parent other]
      by_cases c_i : c = i
      · rw [c_i,up]
        exact sinking.around m m_in child (by omega)
      · rw [same c c_i (fun c_m => parent (by rw [c_m]; exact child))]
        exact sinking.edges c c_in c_from parent
  around c c_in parent _ := by
    have same : (f ∘ Equiv.swap i m) c = f c := congrArg f (Equiv.swap_apply_of_ne_of_ne (by omega) (by omega))
    rw [child,same]
    have up : (f ∘ Equiv.swap i m) i = f m := congrArg f (Equiv.swap_apply_left i m)
    rw [up,← parent]
    exact sinking.edges c c_in (by omega) (by omega)

theorem HeapFrom.root_most (order : TotalPreorder le) (heap : HeapFrom le f 1 cnt) (c : Nat) (some_ : 1 ≤ c) (c_in : c ≤ cnt) :
    le (f c) (f 1) := by
  induction c using Nat.strongRecOn with
  | ind c ih =>
    by_cases root : c = 1
    · rw [root]
      exact order.refl _
    · exact order.trans _ _ _ (heap c c_in (by omega)) (ih (c / 2) (by omega) (by omega) (by omega))

/-! Sorting. -/

/-- The places up to `i` are a heap, and those after it are sorted and hold greater elements. -/
structure Sorting (le : α → α → Prop) (f : Nat → α) (cnt i : Nat) : Prop where
  heap : HeapFrom le f 1 i
  sorted : ∀ j k, i < j → j ≤ k → k ≤ cnt → le (f j) (f k)
  below : ∀ j k, 1 ≤ j → j ≤ i → i < k → k ≤ cnt → le (f j) (f k)

theorem HeapFrom.sorting (heap : HeapFrom le f 1 cnt) : Sorting le f cnt cnt where
  heap := heap
  sorted _ _ _ _ _ := by omega
  below _ _ _ _ _ _ := by omega

/-- After the swap of the first and the last place of the heap only the root is out of order. -/
theorem Sorting.swapped (sorting : Sorting le f cnt i) (more : 1 < i) : Sinking le (f ∘ Equiv.swap 1 i) 1 (i - 1) 1 where
  edges c c_in c_from other := by
    have same : ∀ k, k ≠ 1 → k ≠ i → (f ∘ Equiv.swap 1 i) k = f k := fun k k_1 k_i => congrArg f (Equiv.swap_apply_of_ne_of_ne k_1 k_i)
    rw [same c (by omega) (by omega),same (c / 2) other (by omega)]
    exact sorting.heap c (by omega) c_from
  around _ _ _ _ := by omega

theorem Sorting.step {g : Nat → α} (order : TotalPreorder le) (sorting : Sorting le f cnt i) (more : 1 < i)
    (shuffled : Shuffled (i - 1) (f ∘ Equiv.swap 1 i) g) (heap : HeapFrom le g 1 (i - 1)) : Sorting le g cnt (i - 1) := by
  have last : g i = f 1 := (shuffled.outside (by omega)).trans (congrArg f (Equiv.swap_apply_right 1 i))
  have after : ∀ k, i < k → g k = f k := fun k above =>
    (shuffled.outside (by omega)).trans (congrArg f (Equiv.swap_apply_of_ne_of_ne (by omega) (by omega)))
  have before : ∀ j, 1 ≤ j → j ≤ i - 1 → ∃ k, 1 ≤ k ∧ k ≤ i ∧ g j = f k := by
    intro j some_ j_in
    obtain ⟨k,k_some,k_in,first⟩ := shuffled.source some_ j_in
    have swapped : Shuffled i f (f ∘ Equiv.swap 1 i) := Shuffled.swap f (by omega) (by omega) (by omega) (by omega)
    obtain ⟨k',k_some',k_in',second⟩ := swapped.source k_some (by omega)
    exact ⟨k',k_some',k_in',first.trans second⟩
  refine ⟨heap,?_,?_⟩
  · intro j k above up k_in
    rcases Nat.eq_or_lt_of_le (show i ≤ j by omega) with rfl | j_above
    · rcases Nat.eq_or_lt_of_le up with rfl | k_above
      · exact order.refl _
      · rw [last,after k k_above]
        exact sorting.below 1 k (by omega) (by omega) k_above k_in
    · rw [after j j_above,after k (by omega)]
      exact sorting.sorted j k j_above up k_in
  · intro j k some_ j_in above k_in
    obtain ⟨j',j_some',j_in',from_⟩ := before j some_ j_in
    rw [from_]
    rcases Nat.eq_or_lt_of_le (show i ≤ k by omega) with rfl | k_above
    · rw [last]
      exact sorting.heap.root_most order j' j_some' j_in'
    · rw [after k k_above]
      exact sorting.below j' k j_some' j_in' k_above k_in

theorem Sorting.pairwise (sorting : Sorting le f cnt i) (done : i ≤ 1) : ((List.range' 1 cnt).map f).Pairwise le := by
  rw [List.pairwise_map]
  apply (List.pairwise_lt_range' (s := 1) (n := cnt)).imp_of_mem
  intro j k j_in k_in less
  rw [List.mem_range'_1] at j_in k_in
  by_cases first : j ≤ i
  · exact sorting.below j k (by omega) first (by omega) (by omega)
  · exact sorting.sorted j k (by omega) (by omega) (by omega)

end
end OsProj.HeapOrder
