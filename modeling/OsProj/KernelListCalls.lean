import Mathlib.Data.List.Perm.Subperm
import OsProj.KernelListShape

/-! The operations of lib/kernel/list.c on well-formed lists: each runs through its checks
and leaves the memory that taking out and putting in ranges of elements describes. -/
namespace OsProj.KernelList

open OsProj.ByteMemory
open OsProj.LinkedChain
open OsProj.Faulting

section
variable {m : Memory} {p q a z : Nat}

theorem unlink_run (placed : 0 < a ∧ 0 < z ∧ 0 < p ∧ 0 < q) (back : prev m a = p) (ahead : next m z = q)
    (clearA : Clear a p) (clearZ : Clear z p) (rest : M α) :
    (getPrev a >>= fun before => getNext z >>= fun after => setNext before after >>= fun _ =>
      getNext z >>= fun after => getPrev a >>= fun before => setPrev after before >>= fun _ => rest) m =
      rest (unlink m p q) := by
  rw [bind_go (getPrev_run placed.1),bind_go (getNext_run placed.2.1),back,ahead,bind_go (setNext_run placed.2.2.1 q)]
  rw [bind_go (getNext_run placed.2.1),bind_go (getPrev_run placed.1),next_withNext clearZ,prev_withNext (.inr clearA)]
  rw [back,ahead,bind_go (setPrev_run placed.2.2.2 p)]
  rfl

theorem enlink_run (placed : 0 < a ∧ 0 < z ∧ 0 < p ∧ 0 < q) (back : prev m q = p) (clearA : Clear q a)
    (clearZ : Clear q z) :
    (getPrev q >>= fun before => setPrev a before >>= fun _ => setNext z q >>= fun _ =>
      getPrev q >>= fun before => setNext before a >>= fun _ => setPrev q z) m = .ok ((),enlink m p a z q) := by
  rw [bind_go (getPrev_run placed.2.2.2),back,bind_go (setPrev_run placed.1 p),bind_go (setNext_run placed.2.1 q)]
  rw [bind_go (getPrev_run placed.2.2.2),prev_withNext (.inr clearZ),prev_withPrev clearA,back]
  rw [bind_go (setNext_run placed.2.2.1 a),setPrev_run placed.2.2.2]
  rfl

def Outside (f : Lists) (b : Nat) : Prop := ∀ x, Node f x → b < x ∨ x + elemSize ≤ b

theorem withNext_outside (outside : b < a ∨ a + elemSize ≤ b) (m : Memory) (v : Nat) : withNext m a v b = m b :=
  if_neg (by unfold elemSize at outside; omega)

theorem withPrev_outside (outside : b < a ∨ a + elemSize ≤ b) (m : Memory) (v : Nat) : withPrev m a v b = m b :=
  if_neg (by unfold elemSize at outside; omega)

theorem enlink_outside (ahead : b < p ∨ p + elemSize ≤ b) (first : b < a ∨ a + elemSize ≤ b) (last : b < z ∨ z + elemSize ≤ b)
    (behind : b < q ∨ q + elemSize ≤ b) (m : Memory) : enlink m p a z q b = m b := by
  rw [enlink,withPrev_outside behind,withNext_outside ahead,withNext_outside last,withPrev_outside first]

theorem unlink_outside (atP : Node f p) (atQ : Node f q) (outside : Outside f b) : unlink m p q b = m b := by
  rw [unlink,withPrev_outside (outside q atQ),withNext_outside (outside p atP)]

end

section
variable {m : Memory} {f : Lists} {l p q a z : Nat} {xs mid ys : List Nat}

theorem last_exists (l : Nat) (xs : List Nat) : ∃ p, (head l :: xs).getLast? = some p :=
  ⟨_,List.getLast?_cons ..⟩

theorem head_exists (l : Nat) (ys : List Nat) : ∃ q, (ys ++ [tail l]).head? = some q := by
  cases ys with
  | nil => exact ⟨_,rfl⟩
  | cons y ys => exact ⟨_,rfl⟩

/-- The neighbours of a range of elements. -/
theorem WellFormed.around (wf : WellFormed m f) (here : f l = some (xs ++ mid ++ ys))
    (before : (head l :: xs).getLast? = some p) (after : (ys ++ [tail l]).head? = some q)
    (first : mid.head? = some a) (last : mid.getLast? = some z) :
    Linked (next m) (prev m) p a ∧ Linked (next m) (prev m) z q := by
  have chain := (wf.shaped here).chain
  rw [nodes_append] at chain
  exact ⟨chain.linked before (by simp [first]),chain.right.linked last after⟩

theorem WellFormed.point (wf : WellFormed m f) (here : f l = some (xs ++ ys))
    (before : (head l :: xs).getLast? = some p) (after : (ys ++ [tail l]).head? = some q) :
    Linked (next m) (prev m) p q := by
  have chain := (wf.shaped here).chain
  rw [show nodes l (xs ++ ys) = (head l :: xs) ++ (ys ++ [tail l]) by simp [nodes]] at chain
  exact chain.linked before after

theorem from_start (here : f l = some xs) : f l = some ([] ++ xs) := here

theorem to_end (here : f l = some xs) : f l = some (xs ++ []) := by
  rw [here,List.append_nil]

theorem node_left (here : f l = some (xs ++ ys)) (inside : x ∈ head l :: xs) : Node f x := by
  refine ⟨l,_,here,?_⟩
  rw [show nodes l (xs ++ ys) = (head l :: xs) ++ (ys ++ [tail l]) by simp [nodes]]
  exact List.mem_append_left _ inside

theorem node_right (here : f l = some (xs ++ ys)) (inside : x ∈ ys ++ [tail l]) : Node f x := by
  refine ⟨l,_,here,?_⟩
  rw [show nodes l (xs ++ ys) = (head l :: xs) ++ (ys ++ [tail l]) by simp [nodes]]
  exact List.mem_append_right _ inside

/-- Every element but the front header has a predecessor. -/
theorem WellFormed.backed (wf : WellFormed m f) (here : f l = some xs) (inside : y ∈ xs ++ [tail l]) :
    0 < y ∧ 0 < prev m y := by
  obtain ⟨us,vs,split⟩ := List.append_of_mem inside
  have placed : Placed y := wf.placed (node_right (from_start here) inside)
  refine ⟨placed.1,?_⟩
  obtain ⟨p,before⟩ := last_exists l us
  have chain := (wf.shaped here).chain
  rw [show nodes l xs = (head l :: us) ++ y :: vs by simp [nodes,split]] at chain
  have back := (chain.linked before rfl).2
  have atP : p ∈ nodes l xs := by
    rw [show nodes l xs = (head l :: us) ++ y :: vs by simp [nodes,split]]
    exact List.mem_append_left _ (List.mem_of_getLast? before)
  rw [back]
  exact (wf.placed ⟨l,xs,here,atP⟩).1

/-- Every element but the back header has a successor. -/
theorem WellFormed.followed (wf : WellFormed m f) (here : f l = some xs) (inside : y ∈ head l :: xs) :
    0 < y ∧ 0 < next m y := by
  obtain ⟨us,vs,split⟩ := List.append_of_mem inside
  have placed : Placed y := wf.placed (node_left (to_end here) inside)
  refine ⟨placed.1,?_⟩
  obtain ⟨q,after⟩ := head_exists l vs
  have order : nodes l xs = (us ++ [y]) ++ (vs ++ [tail l]) := by
    rw [nodes,split]
    simp
  have chain := (wf.shaped here).chain
  rw [order] at chain
  have ahead := (chain.linked List.getLast?_concat after).1
  have atQ : q ∈ nodes l xs := by
    rw [order]
    exact List.mem_append_right _ (List.mem_of_head? after)
  rw [ahead]
  exact (wf.placed ⟨l,xs,here,atQ⟩).1

/-- What a call does: it returns, the lists are as wanted, and no other byte changes. -/
def Does (x : M α) (m : Memory) (f f' : Lists) (result : α) : Prop :=
  ∃ m', x m = .ok (result,m') ∧ WellFormed m' f' ∧ ∀ b, Outside f b → Outside f' b → m' b = m b

theorem loose_elem (placed : Placed e) (new : ∀ y, Node f y → Clear e y) : Loose m f [e] where
  chain := .singleton e
  placed := by simpa using placed
  distinct := List.pairwise_singleton ..
  apart := by simpa using new

theorem listInsert_does (wf : WellFormed m f) (here : f l = some (xs ++ ys))
    (point : (ys ++ [tail l]).head? = some q) (placed : Placed e) (new : ∀ y, Node f y → Clear e y) :
    Does (listInsert q e) m f (Function.update f l (some (xs ++ [e] ++ ys))) () := by
  obtain ⟨p,before⟩ := last_exists l xs
  have back := (wf.point here before point).2
  have nodeP := node_left here (List.mem_of_getLast? before)
  have nodeQ := node_right here (List.mem_of_head? point)
  have posP := (wf.placed nodeP).1
  have posQ := (wf.placed nodeQ).1
  refine ⟨enlink m p e e q,?_,wf.attach here (loose_elem placed new) before point rfl rfl,?_⟩
  · unfold listInsert
    rw [insertion_point posQ (back ▸ posP),bind_go (assert_run (nonnull placed.1))]
    exact enlink_run ⟨placed.1,placed.1,posP,posQ⟩ back (new q nodeQ).symm (new q nodeQ).symm
  · intro b outside outside'
    have nodeE : Node (Function.update f l (some (xs ++ [e] ++ ys))) e := node_update.mpr (.inl (by simp [nodes]))
    have away := outside' e nodeE
    exact enlink_outside (outside p nodeP) away away (outside q nodeQ) m

theorem listRemove_does (wf : WellFormed m f) (here : f l = some (xs ++ [e] ++ ys))
    (after : (ys ++ [tail l]).head? = some q) :
    Does (listRemove e) m f (Function.update f l (some (xs ++ ys))) q := by
  obtain ⟨p,before⟩ := last_exists l xs
  obtain ⟨linkedP,linkedQ⟩ := wf.around (a := e) (z := e) here before after rfl rfl
  obtain ⟨wf',loose⟩ := wf.detach here before after
  have nodeP := node_left (here.trans (by rw [List.append_assoc])) (List.mem_of_getLast? before)
  have nodeQ := node_right here (List.mem_of_head? after)
  have posP := (wf.placed nodeP).1
  have posQ := (wf.placed nodeQ).1
  have posE := (loose.placed e (by simp)).1
  have left : Node (Function.update f l (some (xs ++ ys))) p :=
    node_left (Function.update_self ..) (List.mem_of_getLast? before)
  have right : Node (Function.update f l (some (xs ++ ys))) q :=
    node_right (Function.update_self ..) (List.mem_of_head? after)
  have clearP := loose.apart e (by simp) p left
  have clearQ := loose.apart e (by simp) q right
  refine ⟨unlink m p q,?_,wf',fun b outside _ => unlink_outside nodeP nodeQ outside⟩
  unfold listRemove
  rw [bind_go (interior_run posE (linkedP.2 ▸ posP) (linkedQ.1 ▸ posQ)),bind_go (assert_run rfl)]
  rw [unlink_run ⟨posE,posE,posP,posQ⟩ linkedP.2 linkedQ.1 clearP clearP,getNext_run posE]
  rw [unlink,next_withPrev (.inr clearQ),next_withNext clearP,linkedQ.1]

/-- The insertion point of a splice, before the range is taken out. -/
theorem spliced_point (here : f l = some (xs ++ mid ++ ys))
    (there : Function.update f l (some (xs ++ ys)) l' = some (us ++ vs)) (point : (vs ++ [tail l']).head? = some q) :
    ∃ zs, f l' = some zs ∧ q ∈ zs ++ [tail l'] := by
  have inside := List.mem_of_head? point
  by_cases same : l' = l
  · subst same
    rw [Function.update_self,Option.some.injEq] at there
    refine ⟨_,here,?_⟩
    have inRest : q ∈ xs ++ ys ++ [tail l'] := by
      rw [there,List.append_assoc]
      exact List.mem_append_right us inside
    simp only [List.mem_append] at inRest ⊢
    tauto
  · rw [Function.update_of_ne same] at there
    refine ⟨_,there,?_⟩
    rw [List.append_assoc]
    exact List.mem_append_right us inside

theorem listSplice_does (wf : WellFormed m f) (here : f l = some (xs ++ mid ++ ys))
    (first : (mid ++ (ys ++ [tail l])).head? = some a) (last : (ys ++ [tail l]).head? = some z)
    (there : Function.update f l (some (xs ++ ys)) l' = some (us ++ vs)) (point : (vs ++ [tail l']).head? = some q) :
    Does (listSplice q a z) m f
      (Function.update (Function.update f l (some (xs ++ ys))) l' (some (us ++ mid ++ vs))) () := by
  obtain ⟨zs,found,inside⟩ := spliced_point here there point
  obtain ⟨posQ,backQ⟩ := wf.backed found inside
  unfold listSplice
  cases mid with
  | nil =>
    obtain rfl : a = z := Option.some.inj (first.symm.trans last)
    refine ⟨m,?_,?_,fun b _ _ => rfl⟩
    · rw [insertion_point posQ backQ,if_pos rfl]
      rfl
    · rw [List.append_nil] at here ⊢
      have same : Function.update f l (some (xs ++ ys)) = f := Function.update_eq_self_iff.mpr here.symm
      rw [same] at there ⊢
      have same' : Function.update f l' (some (us ++ vs)) = f := Function.update_eq_self_iff.mpr there.symm
      rw [same']
      exact wf
  | cons a' rest =>
    obtain rfl : a' = a := Option.some.inj first
    obtain ⟨p,before⟩ := last_exists l xs
    obtain ⟨y,ends⟩ : ∃ y, (a' :: rest).getLast? = some y := ⟨_,List.getLast?_cons ..⟩
    obtain ⟨linkedP,linkedZ⟩ := wf.around here before last (a := a') rfl ends
    obtain ⟨wf',loose⟩ := wf.detach here before last
    have atY : y ∈ a' :: rest := List.mem_of_getLast? ends
    have nodeP := node_left (here.trans (by rw [List.append_assoc])) (List.mem_of_getLast? before)
    have nodeZ := node_right here (List.mem_of_head? last)
    have left : Node (Function.update f l (some (xs ++ ys))) p :=
      node_left (Function.update_self ..) (List.mem_of_getLast? before)
    have right : Node (Function.update f l (some (xs ++ ys))) z :=
      node_right (Function.update_self ..) (List.mem_of_head? last)
    have nodeQ := node_right there (List.mem_of_head? point)
    obtain ⟨o,opens⟩ := last_exists l' us
    have nodeO := node_left there (List.mem_of_getLast? opens)
    have backed := (wf'.point there opens point).2
    have posP := (wf.placed nodeP).1
    have posZ := (wf.placed nodeZ).1
    have posA := (loose.placed a' (by simp)).1
    have posY := (loose.placed y atY).1
    have posO := (wf'.placed nodeO).1
    have inA : a' ∈ xs ++ (a' :: rest) ++ ys := by simp
    have inY : y ∈ xs ++ (a' :: rest) ++ ys := List.mem_append_left _ (List.mem_append_right _ atY)
    refine ⟨enlink (unlink m p z) o a' y q,?_,wf'.attach there loose opens point rfl ends,?_⟩
    · rw [insertion_point posQ backQ,if_neg (loose.apart a' (by simp) z right).ne]
      rw [bind_go (listPrev_run posZ (linkedZ.2 ▸ posY)),linkedZ.2]
      rw [bind_go (interior_run posA (linkedP.2 ▸ posP) (wf.followed here (List.mem_cons_of_mem _ inA)).2),bind_go (assert_run rfl)]
      rw [bind_go (interior_run posY (wf.backed here (List.mem_append_left _ inY)).2 (linkedZ.1 ▸ posZ)),bind_go (assert_run rfl)]
      rw [unlink_run ⟨posA,posY,posP,posZ⟩ linkedP.2 linkedZ.1 (loose.apart a' (by simp) p left) (loose.apart y atY p left)]
      exact enlink_run ⟨posA,posY,posO,posQ⟩ backed (loose.apart a' (by simp) q nodeQ).symm (loose.apart y atY q nodeQ).symm
    · intro b outside outside'
      have inside' : ∀ x ∈ nodes l' (us ++ (a' :: rest) ++ vs), b < x ∨ x + elemSize ≤ b :=
        fun x inside => outside' x (node_update.mpr (.inl inside))
      rw [nodes_append] at inside'
      have awayO := inside' o (List.mem_append_left _ (List.mem_of_getLast? opens))
      have awayY := inside' y (List.mem_append_right _ (List.mem_append_left _ atY))
      have awayQ := inside' q (List.mem_append_right _ (List.mem_append_right _ (List.mem_of_head? point)))
      rw [enlink_outside awayO (inside' a' (by simp)) awayY awayQ,unlink_outside nodeP nodeZ outside]

theorem listInit_does (wf : WellFormed m f) (placed : Placed (head l)) (placed' : Placed (tail l))
    (free : ∀ y, Elsewhere f l y → Clear (head l) y ∧ Clear (tail l) y) :
    Does (listInit l) m f (Function.update f l (some [])) () := by
  have clear : Clear (head l) (tail l) := .inl (Nat.le_refl _)
  have member : ∀ x ∈ nodes l [], x = head l ∨ x = tail l := by simp [nodes]
  have posL : 0 < l := placed.1
  refine ⟨withNext (withPrev (withNext (withPrev m (head l) null) (head l) (tail l)) (tail l) (head l)) (tail l) null,?_,?_,?_⟩
  · unfold listInit
    rw [bind_go (assert_run (nonnull posL)),bind_go (setPrev_run placed.1 _),bind_go (setNext_run placed.1 _),
      bind_go (setPrev_run placed'.1 _),setNext_run placed'.1]
  · apply wf.replace
    · refine ⟨.cons_cons ⟨?_,?_⟩ (.singleton _),?_,next_withNext_same (by decide)⟩
      · rw [next_withNext clear,next_withPrev (.inr clear),next_withNext_same placed'.fits]
      · rw [prev_withNext (.inl rfl),prev_withPrev_same placed.fits]
      · rw [prev_withNext (.inr clear),prev_withPrev clear,prev_withNext (.inl rfl),prev_withPrev_same (by decide)]
    · intro x inside
      rcases member x inside with rfl | rfl
      · exact placed
      · exact placed'
    · exact List.pairwise_pair.mpr clear
    · intro x inside y there
      rcases member x inside with rfl | rfl
      · exact (free y there).1
      · exact (free y there).2
    · intro y there b low high
      obtain ⟨clearH,clearT⟩ := free y there
      have one := withPrev_agree clearH.symm m null b low high
      have two := withNext_agree clearH.symm (withPrev m (head l) null) (tail l) b low high
      have three := withPrev_agree clearT.symm (withNext (withPrev m (head l) null) (head l) (tail l)) (head l) b low high
      exact ((one.trans two).trans three).trans (withNext_agree clearT.symm _ null b low high)
  · intro b _ outside
    have awayH := outside (head l) (node_update.mpr (.inl (by simp [nodes])))
    have awayT := outside (tail l) (node_update.mpr (.inl (by simp [nodes])))
    rw [withNext_outside awayT,withPrev_outside awayT,withNext_outside awayH,withPrev_outside awayH]

theorem listPushFront_does (wf : WellFormed m f) (here : f l = some xs) (placed : Placed e)
    (new : ∀ y, Node f y → Clear e y) : Does (listPushFront l e) m f (Function.update f l (some (e :: xs))) () := by
  obtain ⟨q,point⟩ := head_exists l xs
  have start := (wf.point (p := head l) (from_start here) rfl point).1
  have posL : 0 < l := (wf.followed here (List.mem_cons_self ..)).1
  obtain ⟨m',ran,rest⟩ := listInsert_does wf (from_start here) point placed new
  refine ⟨m',?_,rest⟩
  unfold listPushFront
  rw [bind_go (listBegin_run posL),show next m l = q from start]
  exact ran

theorem listPushBack_does (wf : WellFormed m f) (here : f l = some xs) (placed : Placed e)
    (new : ∀ y, Node f y → Clear e y) : Does (listPushBack l e) m f (Function.update f l (some (xs ++ [e]))) () := by
  have posL : 0 < l := (wf.followed here (List.mem_cons_self ..)).1
  obtain ⟨m',ran,rest⟩ := listInsert_does wf (to_end here) rfl placed new
  rw [List.append_nil] at rest
  refine ⟨m',?_,rest⟩
  unfold listPushBack
  rw [bind_go (listEnd_run posL)]
  exact ran

/-- A list with elements does not begin with its tail. -/
theorem WellFormed.nonempty (wf : WellFormed m f) (here : f l = some xs) (start : xs.head? = some a) :
    listEmpty l m = .ok (false,m) := by
  have posL : 0 < l := (wf.followed here (List.mem_cons_self ..)).1
  have ahead := (wf.point (p := head l) (from_start here) rfl (q := a) (by simp [start])).1
  rw [listEmpty_run posL,show next m l = a from ahead]
  have distinct := wf.distinct here
  have clear : Clear a (tail l) := (List.pairwise_append.mp distinct).2.2 a
    (List.mem_cons_of_mem _ (List.mem_of_head? start)) (tail l) (by simp)
  simp [clear.ne]

theorem listPopFront_does (wf : WellFormed m f) (here : f l = some (e :: xs)) :
    Does (listPopFront l) m f (Function.update f l (some xs)) e := by
  obtain ⟨q,after⟩ := head_exists l xs
  have posL : 0 < l := (wf.followed here (List.mem_cons_self ..)).1
  have ahead := (wf.point (p := head l) (from_start here) rfl (q := e) rfl).1
  obtain ⟨m',ran,rest⟩ := listRemove_does wf (show f l = some ([] ++ [e] ++ xs) from here) after
  refine ⟨m',?_,rest⟩
  have front : listFront l m = .ok (e,m) := by
    unfold listFront
    rw [bind_go (wf.nonempty here rfl),Bool.not_false,bind_go (assert_run rfl)]
    exact (getNext_run posL).trans (congrArg (fun x => Except.ok (x,m)) ahead)
  unfold listPopFront
  rw [bind_go front,bind_go ran]
  rfl

theorem listPopBack_does (wf : WellFormed m f) (here : f l = some (xs ++ [e])) :
    Does (listPopBack l) m f (Function.update f l (some xs)) e := by
  obtain ⟨a,start⟩ : ∃ a, (xs ++ [e]).head? = some a := by
    cases xs with
    | nil => exact ⟨_,rfl⟩
    | cons x xs => exact ⟨_,rfl⟩
  have last : (head l :: (xs ++ [e])).getLast? = some e := by
    rw [← List.cons_append]
    exact List.getLast?_concat
  have back := (wf.point (q := tail l) (to_end here) last rfl).2
  have posT : 0 < tail l := (wf.backed here (List.mem_append_right _ (List.mem_singleton_self _))).1
  obtain ⟨m',ran,rest⟩ := listRemove_does wf (to_end here) rfl
  rw [List.append_nil] at rest
  refine ⟨m',?_,rest⟩
  have atEnd : listBack l m = .ok (e,m) := by
    unfold listBack
    rw [bind_go (wf.nonempty here start),Bool.not_false,bind_go (assert_run rfl),getPrev_run posT,back]
  unfold listPopBack
  rw [bind_go atEnd,bind_go ran]
  rfl

/-- Elements that do not overlap and have addresses are fewer than addresses. -/
theorem WellFormed.length_lt (wf : WellFormed m f) (here : f l = some xs) : xs.length + 2 ≤ addressLimit := by
  have distinct : (nodes l xs).Nodup := (wf.distinct here).imp Clear.ne
  have bounded : nodes l xs ⊆ List.range addressLimit := by
    intro x inside
    exact List.mem_range.mpr (wf.placed ⟨l,xs,here,inside⟩).fits
  have short := (List.subperm_of_subset distinct bounded).length_le
  simp only [nodes,List.length_append,List.length_cons,List.length_nil,List.length_range] at short
  omega

theorem sizeLoop_run (wf : WellFormed m f) (posL : 0 < l) (enough : ys.length < fuel)
    (fits : cnt + ys.length < sizeMod) (here : f l = some (xs ++ ys)) (point : (ys ++ [tail l]).head? = some q) :
    sizeLoop l fuel q cnt m = .ok (cnt + ys.length,m) := by
  -- Induction on the elements still to count; `xs` are those already passed.
  induction ys generalizing fuel cnt xs q with
  | nil =>
    cases fuel with
    | zero => contradiction
    | succ fuel =>
      obtain rfl := Option.some.inj point
      rw [sizeLoop,bind_go (listEnd_run posL),if_pos rfl]
      rfl
  | cons y ys ih =>
    cases fuel with
    | zero => contradiction
    | succ fuel =>
      obtain rfl : y = q := Option.some.inj point
      obtain ⟨q',point'⟩ := head_exists l ys
      have here' : f l = some ((xs ++ [y]) ++ ys) := here.trans (by simp)
      have ends : (head l :: (xs ++ [y])).getLast? = some y := by
        rw [← List.cons_append]
        exact List.getLast?_concat
      have ahead := (wf.point here' ends point').1
      have inside : y ∈ head l :: (xs ++ y :: ys) := by simp
      obtain ⟨posY,aheadY⟩ := wf.followed here inside
      have other : y ≠ tail l :=
        ((List.pairwise_append.mp (wf.distinct here)).2.2 y inside (tail l) (by simp)).ne
      simp only [List.length_cons] at enough fits
      rw [sizeLoop,bind_go (listEnd_run posL),if_neg other,bind_go (listNext_run posY aheadY),ahead]
      rw [Nat.mod_eq_of_lt (show cnt + 1 < sizeMod by omega),ih (by omega) (by omega) here' point']
      rw [List.length_cons,Nat.add_assoc,Nat.add_comm 1]

theorem WellFormed.size (wf : WellFormed m f) (here : f l = some xs) : listSize l m = .ok (xs.length,m) := by
  obtain ⟨q,point⟩ := head_exists l xs
  have posL : 0 < l := (wf.followed here (List.mem_cons_self ..)).1
  have start := (wf.point (p := head l) (from_start here) rfl point).1
  have short := wf.length_lt here
  unfold listSize
  rw [bind_go (listBegin_run posL),show next m l = q from start]
  rw [sizeLoop_run wf posL (by omega) (by unfold sizeMod addressLimit at *; omega) (from_start here) point,Nat.zero_add]

def exchange (m : Memory) (e : Nat) : Memory := withNext (withPrev m e (next m e)) e (prev m e)

theorem link_fits (m : Memory) (a : Nat) : load m a 4 < addressLimit := load_lt m a 4

theorem next_exchange_same (m : Memory) (e : Nat) : next (exchange m e) e = prev m e :=
  next_withNext_same (link_fits m e)

theorem prev_exchange_same (m : Memory) (e : Nat) : prev (exchange m e) e = next m e := by
  rw [exchange,prev_withNext (.inl rfl),prev_withPrev_same (show next m e < addressLimit from link_fits m (e + 4))]

theorem exchange_agree (clear : Clear x e) (m : Memory) : Agree m (exchange m e) x elemSize := by
  intro b low high
  have first := withPrev_agree clear m (next m e) b low high
  exact first.trans (withNext_agree clear _ _ b low high)

theorem exchanged_agree (clear : ∀ e ∈ ys, Clear x e) (m : Memory) : Agree m (ys.foldl exchange m) x elemSize := by
  induction ys generalizing m with
  | nil =>
    intro b low high
    rfl
  | cons y ys ih =>
    intro b low high
    have first := exchange_agree (clear y (by simp)) m b low high
    exact first.trans (ih (fun e inside => clear e (by simp [inside])) _ b low high)

theorem exchanged_links (distinct : ys.Pairwise Clear) (inside : x ∈ ys) (m : Memory) :
    next (ys.foldl exchange m) x = prev m x ∧ prev (ys.foldl exchange m) x = next m x := by
  induction ys generalizing m with
  | nil => cases inside
  | cons y ys ih =>
    obtain ⟨clear,distinct⟩ := List.pairwise_cons.mp distinct
    rw [List.foldl_cons]
    rcases List.mem_cons.mp inside with rfl | inside
    · have kept := exchanged_agree clear (exchange m x)
      rw [next_congr kept,prev_congr kept,next_exchange_same,prev_exchange_same]
      exact ⟨rfl,rfl⟩
    · obtain ⟨ahead,back⟩ := ih distinct inside (exchange m y)
      have kept := exchange_agree (clear x inside).symm m
      rw [ahead,back,next_congr kept,prev_congr kept]
      exact ⟨rfl,rfl⟩

theorem exchanged_outside (outside : ∀ e ∈ ys, b < e ∨ e + elemSize ≤ b) (m : Memory) : ys.foldl exchange m b = m b := by
  induction ys generalizing m with
  | nil => rfl
  | cons y ys ih =>
    have away := outside y (by simp)
    rw [List.foldl_cons,ih (fun e inside => outside e (by simp [inside])),exchange,withNext_outside away,withPrev_outside away]

theorem reverseLoop_run (posL : 0 < l) (enough : ys.length < fuel) (placed : ∀ x ∈ ys, Placed x)
    (distinct : (ys ++ [tail l]).Pairwise Clear) (chain : Linking m (ys ++ [tail l]))
    (point : (ys ++ [tail l]).head? = some q) : reverseLoop l fuel q m = .ok ((),ys.foldl exchange m) := by
  induction ys generalizing fuel m q with
  | nil =>
    cases fuel with
    | zero => contradiction
    | succ fuel =>
      obtain rfl := Option.some.inj point
      rw [reverseLoop,bind_go (listEnd_run posL),if_pos rfl]
      rfl
  | cons y ys ih =>
    cases fuel with
    | zero => contradiction
    | succ fuel =>
      obtain rfl : y = q := Option.some.inj point
      obtain ⟨q',point'⟩ := head_exists l ys
      have split : Linking m ([y] ++ (ys ++ [tail l])) := chain
      have ahead : next m y = q' := (split.linked rfl point').1
      obtain ⟨clear,distinct⟩ := List.pairwise_cons.mp distinct
      have chain' : Linking (exchange m y) (ys ++ [tail l]) := by
        refine Chain.congr split.right ?_ ?_
        · intro x inside
          exact next_congr (exchange_agree (clear x (List.dropLast_subset _ inside)).symm m)
        · intro x inside
          exact prev_congr (exchange_agree (clear x (List.mem_of_mem_tail inside)).symm m)
      have swapped : swap y (y + 4) m = .ok ((),exchange m y) := rfl
      simp only [List.length_cons] at enough
      rw [reverseLoop,bind_go (listEnd_run posL),if_neg (clear (tail l) (by simp)).ne,bind_go swapped]
      rw [bind_go (getPrev_run (placed y (by simp)).1),prev_exchange_same,ahead]
      exact ih (by omega) (fun x inside => placed x (by simp [inside])) distinct chain' point'

/-- The last four stores of a reversal are those that put a range into a list. -/
theorem enlink_order (distinct : ([p] ++ (mid ++ [q])).Pairwise Clear) (first : a ∈ mid) (last : z ∈ mid) (m : Memory)
    (v w : Nat) :
    withNext (withPrev (withPrev (withNext m p a) q z) a v) z w =
      withPrev (withNext (withNext (withPrev m a v) z w) p a) q z := by
  obtain ⟨_,distinctR,clearP⟩ := List.pairwise_append.mp distinct
  have clearQ : ∀ x ∈ mid, Clear x q := fun x inside => (List.pairwise_append.mp distinctR).2.2 x inside q (by simp)
  have clearP' : ∀ x ∈ mid, Clear p x := fun x inside => clearP p (by simp) x (by simp [inside])
  have qa : Apart q 4 a 4 := Apart.mono (clearQ a first).symm (by unfold elemSize; omega) (by unfold elemSize; omega)
  have qz : Apart q 4 (z + 4) 4 := Apart.mono (clearQ z last).symm (by unfold elemSize; omega) (by unfold elemSize; omega)
  have pa : Apart (p + 4) 4 a 4 := Apart.mono (clearP' a first) (by unfold elemSize; omega) (by unfold elemSize; omega)
  have pz : Apart (p + 4) 4 (z + 4) 4 := Apart.mono (clearP' z last) (by unfold elemSize; omega) (by unfold elemSize; omega)
  unfold withNext withPrev
  rw [store_comm qa,store_comm qz,store_comm pa,store_comm pz]

theorem nodes_split (l : Nat) (xs : List Nat) : nodes l xs = [head l] ++ (xs ++ [tail l]) := rfl

theorem listReverse_run (wf : WellFormed m f) (here : f l = some xs) (first : xs.head? = some a)
    (ends : xs.getLast? = some z) :
    listReverse l m = .ok ((),enlink (xs.foldl exchange m) (head l) z a (tail l)) := by
  have start : (xs ++ [tail l]).head? = some a := by simp [first]
  have atA : a ∈ xs := List.mem_of_head? first
  have atZ : z ∈ xs := List.mem_of_getLast? ends
  have chain := (wf.shaped here).chain
  have distinct := wf.distinct here
  rw [nodes_split] at chain distinct
  obtain ⟨_,distinctR,clearH⟩ := List.pairwise_append.mp distinct
  obtain ⟨distinctX,_,clearT⟩ := List.pairwise_append.mp distinctR
  have placed : ∀ x ∈ xs, Placed x := fun x inside => wf.placed ⟨l,xs,here,by simp [nodes,inside]⟩
  have posL : 0 < l := (wf.followed here (List.mem_cons_self ..)).1
  have posH : 0 < head l := posL
  have posT : 0 < tail l := (wf.backed here (by simp)).1
  have headClear : ∀ x ∈ xs, Clear (head l) x := fun x inside => clearH _ (by simp) x (by simp [inside])
  have tailClear : ∀ x ∈ xs, Clear (tail l) x := fun x inside => (clearT x inside _ (by simp)).symm
  have headTail : Clear (head l) (tail l) := clearH _ (by simp) _ (by simp)
  have ahead : next m (head l) = a := (chain.linked rfl start).1
  have backA : prev m a = head l := (chain.linked rfl start).2
  have aheadZ : next m z = tail l := (chain.right.linked ends rfl).1
  have back : prev m (tail l) = z := (chain.right.linked ends rfl).2
  have short := wf.length_lt here
  have loop : reverseLoop l addressLimit a m = .ok ((),xs.foldl exchange m) :=
    reverseLoop_run posL (by omega) placed distinctR chain.right start
  have headKept := exchanged_agree headClear m
  have tailKept := exchanged_agree tailClear m
  have linksA := exchanged_links distinctX atA m
  have linksZ := exchanged_links distinctX atZ m
  generalize xs.foldl exchange m = m₁ at *
  have swapped : swap (head l + 4) (tail l) m₁ =
      .ok ((),withPrev (withNext m₁ (head l) (prev m₁ (tail l))) (tail l) (next m₁ (head l))) := rfl
  rw [next_congr headKept,prev_congr tailKept,ahead,back] at swapped
  have front : next (withPrev (withNext m₁ (head l) z) (tail l) a) (head l) = z := by
    rw [next_withPrev (.inr headTail),next_withNext_same (placed z atZ).fits]
  have rear : prev (withPrev (withNext m₁ (head l) z) (tail l) a) (tail l) = a :=
    prev_withPrev_same (placed a atA).fits
  have aheadA : next (withPrev (withNext m₁ (head l) z) (tail l) a) a = head l := by
    rw [next_withPrev (.inr (tailClear a atA).symm),next_withNext (headClear a atA).symm,linksA.1,backA]
  have backZ : prev (withPrev (withNext m₁ (head l) z) (tail l) a) z = tail l := by
    rw [prev_withPrev (tailClear z atZ).symm,prev_withNext (.inr (headClear z atZ).symm),linksZ.2,aheadZ]
  have ordered := enlink_order distinct atZ atA m₁ (head l) (tail l)
  generalize withPrev (withNext m₁ (head l) z) (tail l) a = m₂ at *
  have ending : swap z (a + 4) m₂ = .ok ((),withNext (withPrev m₂ z (next m₂ a)) a (prev m₂ z)) := rfl
  rw [aheadA,backZ,ordered] at ending
  unfold listReverse
  rw [bind_go (wf.nonempty here first),Bool.not_false,if_pos rfl,bind_go (listBegin_run posL),
    show next m l = a from ahead,bind_go loop,bind_go swapped,bind_go (getNext_run posH),front,
    bind_go (getPrev_run posT),rear]
  exact ending

theorem WellFormed.turn (wf : WellFormed m f) (here : f l = some xs) (first : xs.head? = some a)
    (ends : xs.getLast? = some z) :
    WellFormed (enlink (xs.foldl exchange m) (head l) z a (tail l)) (Function.update f l (some xs.reverse)) := by
  have atA : a ∈ xs := List.mem_of_head? first
  have atZ : z ∈ xs := List.mem_of_getLast? ends
  have shaped := wf.shaped here
  have chain := shaped.chain
  have distinct := wf.distinct here
  have placed : ∀ x ∈ nodes l xs, Placed x := fun x inside => wf.placed ⟨l,xs,here,inside⟩
  rw [nodes_split] at chain distinct placed
  obtain ⟨_,distinctR,clearH⟩ := List.pairwise_append.mp distinct
  obtain ⟨distinctX,_,clearT⟩ := List.pairwise_append.mp distinctR
  have headClear : ∀ x ∈ xs, Clear (head l) x := fun x inside => clearH _ (by simp) x (by simp [inside])
  have tailClear : ∀ x ∈ xs, Clear (tail l) x := fun x inside => (clearT x inside _ (by simp)).symm
  have headTail : Clear (head l) (tail l) := clearH _ (by simp) _ (by simp)
  have member : ∀ x, x ∈ nodes l xs.reverse ↔ x ∈ nodes l xs := by simp [nodes]
  have turned : ([head l] ++ (xs.reverse ++ [tail l])).Pairwise Clear := by
    refine (List.Perm.pairwise_iff Clear.symm ?_).mpr distinct
    exact List.Perm.append_left _ (List.Perm.append_right _ (List.reverse_perm xs))
  have chainX : Linking (xs.foldl exchange m) xs.reverse :=
    Chain.reverse chain.right.left (fun x inside => (exchanged_links distinctX inside m).1)
      (fun x inside => (exchanged_links distinctX inside m).2)
  apply wf.replace
  · refine ⟨?_,?_,?_⟩
    · exact enlink_chain turned (.singleton _) chainX (.singleton _) rfl rfl (by rw [List.head?_reverse,ends])
        (by rw [List.getLast?_reverse,first])
        ⟨(placed _ (by simp)).fits,(placed z (by simp [atZ])).fits,(placed a (by simp [atA])).fits,(placed _ (by simp)).fits⟩
    · rw [enlink,prev_withPrev headTail,prev_withNext (.inl rfl),prev_withNext (.inr (headClear a atA)),
        prev_withPrev (headClear z atZ),prev_congr (exchanged_agree headClear m)]
      exact shaped.first
    · rw [enlink,next_withPrev (.inl rfl),next_withNext headTail.symm,next_withNext (tailClear a atA),
        next_withPrev (.inr (tailClear z atZ)),next_congr (exchanged_agree tailClear m)]
      exact shaped.last
  · intro x inside
    exact placed x ((member x).mp inside)
  · exact turned
  · intro x inside y there
    exact wf.elsewhere here ((member x).mp inside) there
  · intro y there b low high
    have clear : ∀ x ∈ nodes l xs, Clear y x := fun x inside => (wf.elsewhere here inside there).symm
    rw [nodes_split] at clear
    have inner : ∀ e ∈ xs, Clear y e := fun e inside => clear e (by simp [inside])
    have zero := exchanged_agree inner m b low high
    generalize xs.foldl exchange m = m₁ at *
    have one := withPrev_agree (clear z (by simp [atZ])) m₁ (head l) b low high
    have two := withNext_agree (clear a (by simp [atA])) (withPrev m₁ z (head l)) (tail l) b low high
    have three := withNext_agree (clear (head l) (by simp)) (withNext (withPrev m₁ z (head l)) a (tail l)) z b low high
    have four := withPrev_agree (clear (tail l) (by simp))
      (withNext (withNext (withPrev m₁ z (head l)) a (tail l)) (head l) z) a b low high
    exact zero.trans (one.trans (two.trans (three.trans four)))

theorem listReverse_does (wf : WellFormed m f) (here : f l = some xs) :
    Does (listReverse l) m f (Function.update f l (some xs.reverse)) () := by
  cases ends : xs.getLast? with
  | none =>
    obtain rfl := List.getLast?_eq_none_iff.mp ends
    have posL : 0 < l := (wf.followed here (List.mem_cons_self ..)).1
    have ahead : next m l = tail l := (wf.point (p := head l) (q := tail l) (from_start here) rfl rfl).1
    refine ⟨m,?_,?_,fun b _ _ => rfl⟩
    · unfold listReverse
      rw [bind_go (listEmpty_run posL),ahead,BEq.rfl]
      rfl
    · rw [List.reverse_nil,← here,Function.update_eq_self]
      exact wf
  | some z =>
    obtain ⟨a,first⟩ : ∃ a, xs.head? = some a := by
      cases xs with
      | nil => cases ends
      | cons a rest => exact ⟨a,rfl⟩
    refine ⟨_,listReverse_run wf here first ends,wf.turn here first ends,?_⟩
    intro b outside _
    have away : ∀ x ∈ nodes l xs, b < x ∨ x + elemSize ≤ b := fun x inside => outside x ⟨l,xs,here,inside⟩
    rw [nodes_split] at away
    have awayA := away a (by simp [List.mem_of_head? first])
    have awayZ := away z (by simp [List.mem_of_getLast? ends])
    rw [enlink_outside (away _ (by simp)) awayZ awayA (away _ (by simp))]
    exact exchanged_outside (fun e inside => away e (by simp [inside])) m

end

end OsProj.KernelList
