import OsProj.KernelList
import OsProj.LinkedChain

/-! The shape of lists in memory. Every list is a chain of elements between its two
headers; no two elements overlap, also across lists. A range of elements is taken out of
its list and put into one by the same stores for every length of the range. -/
namespace OsProj.KernelList

open OsProj.ByteMemory
open OsProj.LinkedChain

/-- The lists in memory, each with its interior elements in order. -/
abbrev Lists := Nat → Option (List Nat)

def nodes (list : Nat) (elems : List Nat) : List Nat := (head list :: elems) ++ [tail list]

def Node (f : Lists) (x : Nat) : Prop := ∃ l xs, f l = some xs ∧ x ∈ nodes l xs

/-- The bytes of an element are addressable and the null pointer is not its address. -/
def Placed (x : Nat) : Prop := 0 < x ∧ x + elemSize ≤ addressLimit

def Clear (x y : Nat) : Prop := Apart x elemSize y elemSize

theorem Clear.symm (clear : Clear x y) : Clear y x := Apart.symm clear

instance : Std.Symm Clear := ⟨fun _ _ => Clear.symm⟩

theorem Clear.ne (clear : Clear x y) : x ≠ y := by
  unfold Clear Apart elemSize at clear
  omega

abbrev Linking (m : Memory) (xs : List Nat) : Prop := Chain (next m) (prev m) xs

structure Shaped (m : Memory) (l : Nat) (xs : List Nat) : Prop where
  chain : Linking m (nodes l xs)
  first : prev m (head l) = null
  last : next m (tail l) = null

structure WellFormed (m : Memory) (f : Lists) : Prop where
  shaped : ∀ {l xs}, f l = some xs → Shaped m l xs
  placed : ∀ {x}, Node f x → Placed x
  distinct : ∀ {l xs}, f l = some xs → (nodes l xs).Pairwise Clear
  apart : ∀ {l l' xs ys}, f l = some xs → f l' = some ys → l ≠ l' → ∀ x ∈ nodes l xs, ∀ y ∈ nodes l' ys, Clear x y

structure Loose (m : Memory) (f : Lists) (mid : List Nat) : Prop where
  chain : Linking m mid
  placed : ∀ x ∈ mid, Placed x
  distinct : mid.Pairwise Clear
  apart : ∀ x ∈ mid, ∀ y, Node f y → Clear x y

section
variable {m : Memory} {a x v : Nat}

theorem next_withNext_same (fits : v < addressLimit) : next (withNext m a v) a = v := by
  rw [next,withNext,load_store_same]
  exact Nat.mod_eq_of_lt fits

theorem prev_withPrev_same (fits : v < addressLimit) : prev (withPrev m a v) a = v := by
  rw [prev,withPrev,load_store_same]
  exact Nat.mod_eq_of_lt fits

theorem withNext_agree (clear : Clear x a) (m : Memory) (v : Nat) : Agree m (withNext m a v) x elemSize := by
  intro b low high
  refine (store_agree (a := a + 4) (n := 4) (b := x) (k := elemSize) ?_ m v b low high).symm
  exact Apart.mono clear.symm (by unfold elemSize; omega) (by omega)

theorem withPrev_agree (clear : Clear x a) (m : Memory) (v : Nat) : Agree m (withPrev m a v) x elemSize := by
  intro b low high
  refine (store_agree (a := a) (n := 4) (b := x) (k := elemSize) ?_ m v b low high).symm
  exact Apart.mono clear.symm (by unfold elemSize; omega) (by omega)

theorem next_congr (agree : Agree m m' x elemSize) : next m' x = next m x :=
  (load_congr (agree.mono (by unfold elemSize; omega))).symm

theorem prev_congr (agree : Agree m m' x elemSize) : prev m' x = prev m x :=
  (load_congr (agree.mono (by unfold elemSize; omega))).symm

theorem next_withNext (clear : Clear x a) : next (withNext m a v) x = next m x :=
  next_congr (withNext_agree clear m v)

theorem prev_withPrev (clear : Clear x a) : prev (withPrev m a v) x = prev m x :=
  prev_congr (withPrev_agree clear m v)

/-- The two links of an element are apart. -/
theorem next_withPrev (whole : x = a ∨ Clear x a) : next (withPrev m a v) x = next m x := by
  rcases whole with rfl | clear
  · exact load_store_apart (Or.inl (Nat.le_refl _)) m v
  · exact next_congr (withPrev_agree clear m v)

theorem prev_withNext (whole : x = a ∨ Clear x a) : prev (withNext m a v) x = prev m x := by
  rcases whole with rfl | clear
  · exact load_store_apart (Or.inr (Nat.le_refl _)) m v
  · exact prev_congr (withNext_agree clear m v)

end

theorem Shaped.congr (shaped : Shaped m l xs) (agree : ∀ x ∈ nodes l xs, Agree m m' x elemSize) :
    Shaped m' l xs where
  chain := Chain.congr shaped.chain (fun x inside => next_congr (agree x (List.dropLast_subset _ inside)))
    (fun x inside => prev_congr (agree x (List.mem_of_mem_tail inside)))
  first := (prev_congr (agree _ (by simp [nodes]))).trans shaped.first
  last := (next_congr (agree _ (by simp [nodes]))).trans shaped.last

theorem clear_of_last {xs : List Nat} (distinct : xs.Pairwise Clear) (last : xs.getLast? = some a) :
    ∀ x ∈ xs.dropLast, Clear x a := by
  obtain ⟨as,rfl⟩ := List.getLast?_eq_some_iff.mp last
  intro x inside
  rw [List.dropLast_concat] at inside
  exact (List.pairwise_append.mp distinct).2.2 x inside a (by simp)

theorem clear_of_head {xs : List Nat} (distinct : xs.Pairwise Clear) (start : xs.head? = some a) :
    ∀ x ∈ xs.tail, Clear x a := by
  obtain ⟨as,rfl⟩ := List.head?_eq_some_iff.mp start
  intro x inside
  exact ((List.pairwise_cons.mp distinct).1 x inside).symm

theorem whole_of_distinct {xs : List Nat} (distinct : xs.Pairwise Clear) (here : x ∈ xs) (there : y ∈ xs) : x = y ∨ Clear x y := by
  by_cases same : x = y
  · exact .inl same
  · exact .inr (distinct.forall here there same)

/-! A store to a link at the end of a chain, or to an element outside it, keeps the chain. -/

theorem Linking.withNext_last (chain : Linking m xs) (distinct : xs.Pairwise Clear) (last : xs.getLast? = some a) :
    Linking (withNext m a v) xs :=
  Chain.congr chain (fun x inside => next_withNext (clear_of_last distinct last x inside))
    (fun _ inside => prev_withNext (whole_of_distinct distinct (List.mem_of_mem_tail inside) (List.mem_of_getLast? last)))

theorem Linking.withPrev_head (chain : Linking m xs) (distinct : xs.Pairwise Clear) (start : xs.head? = some a) :
    Linking (withPrev m a v) xs :=
  Chain.congr chain (fun _ inside => next_withPrev (whole_of_distinct distinct (List.dropLast_subset _ inside) (List.mem_of_head? start)))
    (fun x inside => prev_withPrev (clear_of_head distinct start x inside))

theorem Linking.withNext_off (chain : Linking m xs) (clear : ∀ x ∈ xs, Clear x a) : Linking (withNext m a v) xs :=
  Chain.congr chain (fun x inside => next_withNext (clear x (List.dropLast_subset _ inside)))
    (fun x inside => prev_withNext (.inr (clear x (List.mem_of_mem_tail inside))))

theorem Linking.withPrev_off (chain : Linking m xs) (clear : ∀ x ∈ xs, Clear x a) : Linking (withPrev m a v) xs :=
  Chain.congr chain (fun x inside => next_withPrev (.inr (clear x (List.dropLast_subset _ inside))))
    (fun x inside => prev_withPrev (clear x (List.mem_of_mem_tail inside)))

def Elsewhere (f : Lists) (l y : Nat) : Prop := ∃ l' ys, l' ≠ l ∧ f l' = some ys ∧ y ∈ nodes l' ys

theorem node_update : Node (Function.update f l (some zs)) y ↔ y ∈ nodes l zs ∨ Elsewhere f l y := by
  constructor
  · rintro ⟨l',ys,found,inside⟩
    by_cases same : l' = l
    · subst same
      rw [Function.update_self,Option.some.injEq] at found
      exact .inl (found ▸ inside)
    · rw [Function.update_of_ne same] at found
      exact .inr ⟨l',ys,same,found,inside⟩
  · rintro (inside | ⟨l',ys,other,found,inside⟩)
    · exact ⟨l,zs,Function.update_self ..,inside⟩
    · exact ⟨l',ys,(Function.update_of_ne other ..).trans found,inside⟩

theorem Elsewhere.node (there : Elsewhere f l y) : Node f y := by
  obtain ⟨l',ys,_,found,inside⟩ := there
  exact ⟨l',ys,found,inside⟩

theorem WellFormed.elsewhere (wf : WellFormed m f) (here : f l = some xs) (inside : x ∈ nodes l xs)
    (there : Elsewhere f l y) : Clear x y := by
  obtain ⟨l',ys,other,found,inside'⟩ := there
  exact wf.apart here found other.symm x inside y inside'

/-- Lists whose elements keep their bytes. -/
theorem WellFormed.congr (wf : WellFormed m f) (agree : ∀ x, Node f x → Agree m m' x elemSize) : WellFormed m' f where
  shaped := fun here => (wf.shaped here).congr (fun x inside => agree x ⟨_,_,here,inside⟩)
  placed := wf.placed
  distinct := wf.distinct
  apart := wf.apart

/-- One list is made anew and the others keep their bytes. -/
theorem WellFormed.replace (wf : WellFormed m f) (shaped : Shaped m' l zs) (placed : ∀ x ∈ nodes l zs, Placed x)
    (distinct : (nodes l zs).Pairwise Clear) (apart : ∀ x ∈ nodes l zs, ∀ y, Elsewhere f l y → Clear x y)
    (kept : ∀ y, Elsewhere f l y → Agree m m' y elemSize) : WellFormed m' (Function.update f l (some zs)) where
  shaped := by
    intro l' ys found
    by_cases same : l' = l
    · subst same
      rw [Function.update_self,Option.some.injEq] at found
      exact found ▸ shaped
    · rw [Function.update_of_ne same] at found
      exact (wf.shaped found).congr (fun x inside => kept x ⟨l',ys,same,found,inside⟩)
  placed := by
    intro x node
    rcases node_update.mp node with inside | there
    · exact placed x inside
    · exact wf.placed there.node
  distinct := by
    intro l' ys found
    by_cases same : l' = l
    · subst same
      rw [Function.update_self,Option.some.injEq] at found
      exact found ▸ distinct
    · rw [Function.update_of_ne same] at found
      exact wf.distinct found
  apart := by
    intro l₁ l₂ xs ys found₁ found₂ other x inside y inside'
    by_cases same₁ : l₁ = l
    · subst same₁
      rw [Function.update_self,Option.some.injEq] at found₁
      rw [Function.update_of_ne other.symm] at found₂
      exact apart x (found₁ ▸ inside) y ⟨l₂,ys,other.symm,found₂,inside'⟩
    · rw [Function.update_of_ne same₁] at found₁
      by_cases same₂ : l₂ = l
      · subst same₂
        rw [Function.update_self,Option.some.injEq] at found₂
        exact (apart y (found₂ ▸ inside') x ⟨l₁,xs,same₁,found₁,inside⟩).symm
      · rw [Function.update_of_ne same₂] at found₂
        exact wf.apart found₁ found₂ other x inside y inside'

/-- The two stores that take a range out of its list. -/
def unlink (m : Memory) (before after : Nat) : Memory := withPrev (withNext m before after) after before

/-- The four stores that put a range into a list. -/
def enlink (m : Memory) (before first last after : Nat) : Memory :=
  withPrev (withNext (withNext (withPrev m first before) last after) before first) after last

section
variable {m : Memory} {as mid cs : List Nat} {p q a z : Nat}

/-- A range taken out of a chain leaves two chains. -/
theorem unlink_chain (distinct : (as ++ (mid ++ cs)).Pairwise Clear) (chain : Linking m (as ++ (mid ++ cs)))
    (before : as.getLast? = some p) (after : cs.head? = some q) (fitsP : p < addressLimit) (fitsQ : q < addressLimit) :
    Linking (unlink m p q) (as ++ cs) ∧ Linking (unlink m p q) mid := by
  obtain ⟨distinctA,distinctR,clearA⟩ := List.pairwise_append.mp distinct
  obtain ⟨_,distinctC,clearM⟩ := List.pairwise_append.mp distinctR
  have atP := List.mem_of_getLast? before
  have atQ := List.mem_of_head? after
  have clearQ : ∀ x ∈ as, Clear x q := fun x inside => clearA x inside q (by simp [atQ])
  have clearP : ∀ x ∈ mid ++ cs, Clear x p := fun x inside => (clearA p atP x inside).symm
  have chainA : Linking (unlink m p q) as :=
    Linking.withPrev_off (Linking.withNext_last chain.left distinctA before) clearQ
  have chainC : Linking (unlink m p q) cs :=
    Linking.withPrev_head (Linking.withNext_off chain.right.right (fun x inside => clearP x (by simp [inside]))) distinctC after
  have linked : Linked (next (unlink m p q)) (prev (unlink m p q)) p q := by
    refine ⟨?_,prev_withPrev_same fitsP⟩
    rw [unlink,next_withPrev (.inr (clearQ p atP)),next_withNext_same fitsQ]
  refine ⟨chainA.join chainC before after linked,?_⟩
  exact Linking.withPrev_off (Linking.withNext_off chain.right.left (fun x inside => clearP x (by simp [inside])))
    (fun x inside => clearM x inside q atQ)

/-- A loose range between two chains makes one chain. -/
theorem enlink_chain (distinct : (as ++ (mid ++ cs)).Pairwise Clear) (chainA : Linking m as) (chainM : Linking m mid)
    (chainC : Linking m cs) (before : as.getLast? = some p) (after : cs.head? = some q) (first : mid.head? = some a)
    (last : mid.getLast? = some z) (fits : p < addressLimit ∧ a < addressLimit ∧ z < addressLimit ∧ q < addressLimit) :
    Linking (enlink m p a z q) (as ++ (mid ++ cs)) := by
  obtain ⟨distinctA,distinctR,clearA⟩ := List.pairwise_append.mp distinct
  obtain ⟨distinctM,distinctC,clearM⟩ := List.pairwise_append.mp distinctR
  have atP := List.mem_of_getLast? before
  have atQ := List.mem_of_head? after
  have atA := List.mem_of_head? first
  have atZ := List.mem_of_getLast? last
  have clearQ : ∀ x ∈ as ++ mid, Clear x q := by
    intro x inside
    rcases List.mem_append.mp inside with left | right
    · exact clearA x left q (by simp [atQ])
    · exact clearM x right q atQ
  have clearP : ∀ x ∈ mid ++ cs, Clear x p := fun x inside => (clearA p atP x inside).symm
  have chainA' : Linking (enlink m p a z q) as := by
    have start := Linking.withPrev_off (v := p) chainA (fun x inside => clearA x inside a (by simp [atA]))
    have ends := Linking.withNext_off (v := q) start (fun x inside => clearA x inside z (by simp [atZ]))
    exact Linking.withPrev_off (Linking.withNext_last ends distinctA before) (fun x inside => clearQ x (by simp [inside]))
  have chainM' : Linking (enlink m p a z q) mid := by
    have ends := Linking.withNext_last (v := q) (Linking.withPrev_head (v := p) chainM distinctM first) distinctM last
    exact Linking.withPrev_off (Linking.withNext_off ends (fun x inside => clearP x (by simp [inside])))
      (fun x inside => clearQ x (by simp [inside]))
  have chainC' : Linking (enlink m p a z q) cs := by
    have start := Linking.withPrev_off (v := p) chainC (fun x inside => (clearM a atA x inside).symm)
    have ends := Linking.withNext_off (v := q) start (fun x inside => (clearM z atZ x inside).symm)
    exact Linking.withPrev_head (Linking.withNext_off ends (fun x inside => clearP x (by simp [inside]))) distinctC after
  have linkedA : Linked (next (enlink m p a z q)) (prev (enlink m p a z q)) p a := by
    constructor
    · rw [enlink,next_withPrev (.inr (clearQ p (by simp [atP]))),next_withNext_same fits.2.1]
    · rw [enlink,prev_withPrev (clearQ a (by simp [atA])),prev_withNext (.inr (clearP a (by simp [atA]))),
        prev_withNext (whole_of_distinct distinctM atA atZ),prev_withPrev_same fits.1]
  have linkedZ : Linked (next (enlink m p a z q)) (prev (enlink m p a z q)) z q := by
    refine ⟨?_,prev_withPrev_same fits.2.2.1⟩
    rw [enlink,next_withPrev (.inr (clearQ z (by simp [atZ]))),next_withNext (clearP z (by simp [atZ])),
      next_withNext_same fits.2.2.2]
  have start : (mid ++ cs).head? = some a := by simp [first]
  exact chainA'.join (chainM'.join chainC' last after linkedZ) before start linkedA

end

/-- The elements of a list around a range of it. -/
theorem nodes_append (l : Nat) (xs mid ys : List Nat) :
    nodes l (xs ++ mid ++ ys) = (head l :: xs) ++ (mid ++ (ys ++ [tail l])) := by
  simp [nodes]

theorem Placed.fits (placed : Placed x) : x < addressLimit := by
  unfold Placed elemSize at placed
  omega

section
variable {m : Memory} {f : Lists} {l p q a z : Nat} {xs mid ys : List Nat}

theorem WellFormed.detach (wf : WellFormed m f) (here : f l = some (xs ++ mid ++ ys))
    (before : (head l :: xs).getLast? = some p) (after : (ys ++ [tail l]).head? = some q) :
    WellFormed (unlink m p q) (Function.update f l (some (xs ++ ys))) ∧
      Loose (unlink m p q) (Function.update f l (some (xs ++ ys))) mid := by
  have shaped := wf.shaped here
  have distinct := wf.distinct here
  have placed : ∀ x ∈ nodes l (xs ++ mid ++ ys), Placed x := fun x inside => wf.placed ⟨l,_,here,inside⟩
  have outer : ∀ x ∈ nodes l (xs ++ mid ++ ys), ∀ y, Elsewhere f l y → Clear x y :=
    fun x inside y there => wf.elsewhere here inside there
  have chain := shaped.chain
  rw [nodes_append] at chain distinct placed outer
  have atP : p ∈ head l :: xs := List.mem_of_getLast? before
  have atQ : q ∈ ys ++ [tail l] := List.mem_of_head? after
  have inP : p ∈ (head l :: xs) ++ (mid ++ (ys ++ [tail l])) := List.mem_append_left _ atP
  have inQ : q ∈ (head l :: xs) ++ (mid ++ (ys ++ [tail l])) := List.mem_append_right _ (List.mem_append_right _ atQ)
  obtain ⟨outerChain,midChain⟩ := unlink_chain distinct chain before after (placed p inP).fits (placed q inQ).fits
  obtain ⟨distinctA,distinctR,clearA⟩ := List.pairwise_append.mp distinct
  obtain ⟨distinctM,distinctC,clearM⟩ := List.pairwise_append.mp distinctR
  have sub : nodes l (xs ++ ys) = (head l :: xs) ++ (ys ++ [tail l]) := by simp [nodes]
  have sublist : List.Sublist (nodes l (xs ++ ys)) ((head l :: xs) ++ (mid ++ (ys ++ [tail l]))) := by
    rw [sub]
    exact List.Sublist.append (List.Sublist.refl _) (List.sublist_append_right _ _)
  have clearQ : ∀ x ∈ head l :: xs, Clear x q := fun x inside => clearA x inside q (List.mem_append_right _ atQ)
  have clearP : ∀ x ∈ ys ++ [tail l], Clear x p := fun x inside => (clearA p atP x (List.mem_append_right _ inside)).symm
  constructor
  · apply wf.replace
    · refine ⟨sub ▸ outerChain,?_,?_⟩
      · rw [unlink,prev_withPrev (clearQ _ (by simp)),prev_withNext (whole_of_distinct distinctA (by simp) atP)]
        exact shaped.first
      · rw [unlink,next_withPrev (whole_of_distinct distinctC (by simp) atQ),next_withNext (clearP _ (by simp))]
        exact shaped.last
    · intro x inside
      exact placed x (sublist.subset inside)
    · exact distinct.sublist sublist
    · intro x inside y there
      exact outer x (sublist.subset inside) y there
    · intro y there b low high
      have first := withNext_agree (outer p inP y there).symm m q b low high
      exact first.trans (withPrev_agree (outer q inQ y there).symm _ p b low high)
  · refine ⟨midChain,?_,distinctM,?_⟩
    · intro x inside
      exact placed x (by simp [inside])
    · intro x inside y node
      rcases node_update.mp node with sibling | there
      · rw [sub] at sibling
        rcases List.mem_append.mp sibling with left | right
        · exact (clearA y left x (by simp [inside])).symm
        · exact clearM x inside y right
      · exact outer x (by simp [inside]) y there

theorem WellFormed.attach (wf : WellFormed m f) (here : f l = some (xs ++ ys)) (loose : Loose m f mid)
    (before : (head l :: xs).getLast? = some p) (after : (ys ++ [tail l]).head? = some q)
    (first : mid.head? = some a) (last : mid.getLast? = some z) :
    WellFormed (enlink m p a z q) (Function.update f l (some (xs ++ mid ++ ys))) := by
  have shaped := wf.shaped here
  have sub : nodes l (xs ++ ys) = (head l :: xs) ++ (ys ++ [tail l]) := by simp [nodes]
  have old := wf.distinct here
  have chain := shaped.chain
  rw [sub] at old chain
  obtain ⟨distinctA,distinctC,clearAC⟩ := List.pairwise_append.mp old
  have member : ∀ x, x ∈ (head l :: xs) ++ (ys ++ [tail l]) → Node f x :=
    fun x inside => ⟨l,_,here,sub ▸ inside⟩
  have clearM : ∀ x ∈ mid, ∀ y ∈ ys ++ [tail l], Clear x y :=
    fun x inside y there => loose.apart x inside y (member y (List.mem_append_right _ there))
  have clearA : ∀ x ∈ head l :: xs, ∀ y ∈ mid, Clear x y :=
    fun x inside y there => (loose.apart y there x (member x (List.mem_append_left _ inside))).symm
  have distinct : ((head l :: xs) ++ (mid ++ (ys ++ [tail l]))).Pairwise Clear := by
    refine List.pairwise_append.mpr ⟨distinctA,List.pairwise_append.mpr ⟨loose.distinct,distinctC,clearM⟩,?_⟩
    intro x inside y there
    rcases List.mem_append.mp there with inMid | inEnd
    · exact clearA x inside y inMid
    · exact clearAC x inside y inEnd
  have atP : p ∈ head l :: xs := List.mem_of_getLast? before
  have atQ : q ∈ ys ++ [tail l] := List.mem_of_head? after
  have atA : a ∈ mid := List.mem_of_head? first
  have atZ : z ∈ mid := List.mem_of_getLast? last
  have nodeP := member p (List.mem_append_left _ atP)
  have nodeQ := member q (List.mem_append_right _ atQ)
  have placed : ∀ x ∈ nodes l (xs ++ mid ++ ys), Placed x := by
    intro x inside
    rw [nodes_append] at inside
    rcases List.mem_append.mp inside with left | right
    · exact wf.placed (member x (List.mem_append_left _ left))
    · rcases List.mem_append.mp right with inMid | inEnd
      · exact loose.placed x inMid
      · exact wf.placed (member x (List.mem_append_right _ inEnd))
  have outer : ∀ x ∈ nodes l (xs ++ mid ++ ys), ∀ y, Elsewhere f l y → Clear x y := by
    intro x inside y there
    rw [nodes_append] at inside
    rcases List.mem_append.mp inside with left | right
    · exact wf.elsewhere here (sub ▸ List.mem_append_left _ left) there
    · rcases List.mem_append.mp right with inMid | inEnd
      · exact loose.apart x inMid y there.node
      · exact wf.elsewhere here (sub ▸ List.mem_append_right _ inEnd) there
  apply wf.replace
  · refine ⟨?_,?_,?_⟩
    · rw [nodes_append]
      exact enlink_chain distinct chain.left loose.chain chain.right before after first last
        ⟨(wf.placed nodeP).fits,(loose.placed a atA).fits,(loose.placed z atZ).fits,(wf.placed nodeQ).fits⟩
    · rw [enlink,prev_withPrev (clearAC _ (by simp) q atQ),prev_withNext (whole_of_distinct distinctA (by simp) atP),
        prev_withNext (.inr (clearA _ (by simp) z atZ)),prev_withPrev (clearA _ (by simp) a atA)]
      exact shaped.first
    · rw [enlink,next_withPrev (whole_of_distinct distinctC (by simp) atQ),next_withNext (clearAC p atP _ (by simp)).symm,
        next_withNext (clearM z atZ _ (by simp)).symm,next_withPrev (.inr (clearM a atA _ (by simp)).symm)]
      exact shaped.last
  · exact placed
  · rw [nodes_append]
    exact distinct
  · exact outer
  · intro y there b low high
    have inMid : ∀ x ∈ mid, Clear y x := fun x inside => (loose.apart x inside y there.node).symm
    have inList : ∀ x ∈ nodes l (xs ++ ys), Clear y x := fun x inside => (wf.elsewhere here inside there).symm
    rw [sub] at inList
    have one := withPrev_agree (inMid a atA) m p b low high
    have two := withNext_agree (inMid z atZ) (withPrev m a p) q b low high
    have three := withNext_agree (inList p (List.mem_append_left _ atP)) (withNext (withPrev m a p) z q) a b low high
    exact ((one.trans two).trans three).trans (withPrev_agree (inList q (List.mem_append_right _ atQ)) _ z b low high)

end

end OsProj.KernelList
