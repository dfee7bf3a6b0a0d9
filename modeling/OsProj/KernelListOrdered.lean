import Mathlib.Data.List.SplitBy
import Mathlib.Data.List.TakeWhile
import OsProj.KernelListSort

/-! The operations of lib/kernel/list.c on ordered lists: insertion in order, removal of adjacent
duplicates, and the largest and smallest element. -/
namespace OsProj.KernelList

open OsProj.ByteMemory
open OsProj.Faulting

section
variable (less : Nat → Nat → Bool)

def orderedLoop (list elem : Nat) : Nat → Nat → M Nat
  | 0,_ => throw .unending
  | fuel + 1,e => do
    if e = (← listEnd list) then return e
    if less elem e then return e
    orderedLoop list elem fuel (← listNext e)

def listInsertOrdered (list elem : Nat) : M Unit := do
  assert (list ≠ null)
  assert (elem ≠ null)
  let e ← orderedLoop less list elem addressLimit (← listBegin list)
  listInsert e elem

/-- The loop of `list_unique`; a null `duplicates` takes no elements. -/
def uniqueLoop (list duplicates : Nat) : Nat → Nat → M Unit
  | 0,_ => throw .unending
  | fuel + 1,elem => do
    let next ← listNext elem
    if next = (← listEnd list) then return
    if !less elem next && !less next elem then
      let _ ← listRemove next
      if duplicates ≠ null then listPushBack duplicates next
      uniqueLoop list duplicates fuel elem
    else uniqueLoop list duplicates fuel next

def listUnique (list duplicates : Nat) : M Unit := do
  assert (list ≠ null)
  if ← listEmpty list then return
  uniqueLoop less list duplicates addressLimit (← listBegin list)

end

/-- The loop that `list_max` and `list_min` share: `e` replaces the best so far where it is better. -/
def bestLoop (better : Nat → Nat → Bool) (list : Nat) : Nat → Nat → Nat → M Nat
  | 0,_,_ => throw .unending
  | fuel + 1,best,e => do
    if e = (← listEnd list) then return best
    let best := if better best e then e else best
    bestLoop better list fuel best (← listNext e)

def listBest (better : Nat → Nat → Bool) (list : Nat) : M Nat := do
  let best ← listBegin list
  if best ≠ (← listEnd list) then bestLoop better list addressLimit best (← listNext best)
  else return best

def listMax (less : Nat → Nat → Bool) (list : Nat) : M Nat := listBest (fun max e => less max e) list

def listMin (less : Nat → Nat → Bool) (list : Nat) : M Nat := listBest (fun min e => less e min) list

section
variable {m : Memory} {f : Lists} {l d e y : Nat} {xs ys : List Nat} {less : Nat → Nat → Bool}

/-! Insertion. -/

/-- The place of a new element is in front of the first that it is less than. -/
theorem orderedLoop_run (less e) (wf : WellFormed m f) (here : f l = some (xs ++ ys)) (enough : ys.length < fuel) :
    orderedLoop less l e fuel (cut l ys) m = .ok (cut l (ys.dropWhile fun y => !less e y),m) := by
  induction fuel generalizing xs ys with
  | zero => contradiction
  | succ fuel ih =>
    rw [orderedLoop,bind_go (wf.end_cut here)]
    cases ys with
    | nil =>
      rw [cut_nil,if_pos rfl]
      rfl
    | cons y ys =>
      have inside : cut l (y :: ys) ≠ tail l :=
        wf.inside_cut here (List.cons_ne_nil y ys)
      rw [if_neg inside,cut_cons]
      by_cases below : less e y = true
      · rw [if_pos below,List.dropWhile_cons_of_neg (by simp [below])]
        rfl
      · rw [if_neg below,bind_go (wf.next_cut here),List.dropWhile_cons_of_pos (by simpa using below)]
        exact ih (show f l = some ((xs ++ [y]) ++ ys) by simpa using here) (by simpa using enough)

theorem listInsertOrdered_does (wf : WellFormed m f) (here : f l = some xs) (fresh : Fresh f e) :
    Does (listInsertOrdered less l e) m f (Function.update f l
      (some ((xs.takeWhile fun y => !less e y) ++ e :: xs.dropWhile fun y => !less e y))) () := by
  have short := wf.length_lt here
  have split : f l = some ((xs.takeWhile fun y => !less e y) ++ xs.dropWhile fun y => !less e y) := by
    rw [List.takeWhile_append_dropWhile]
    exact here
  have found := orderedLoop_run less e wf (from_start here) (show xs.length < addressLimit by omega)
  have inserted := listInsert_does wf split (head_cut l _) fresh.1 fresh.2
  rw [List.append_assoc] at inserted
  refine .after (assert_run (nonnull (wf.list_placed here))) ?_ rfl
  refine .after (assert_run (nonnull fresh.1.1)) ?_ rfl
  exact .after (wf.begin_cut here) (.after found inserted rfl) rfl

/-- The new element keeps the order, and nothing behind it is equivalent to it. -/
theorem inserted_ordered (order : ListSort.StrictWeak less) (sorted : xs.Pairwise fun a b => less b a = false) :
    (((xs.takeWhile fun y => !less e y) ++ e :: xs.dropWhile fun y => !less e y).Pairwise fun a b => less b a = false) ∧
      ∀ b ∈ xs.dropWhile (fun y => !less e y), less e b = true := by
  have below : ∀ a ∈ xs.takeWhile (fun y => !less e y), less e a = false := by
    intro a inside
    simpa using List.mem_takeWhile_imp inside
  have split : (xs.takeWhile fun y => !less e y) ++ (xs.dropWhile fun y => !less e y) = xs :=
    List.takeWhile_append_dropWhile
  have head : ∀ b rest, (xs.dropWhile fun y => !less e y) = b :: rest → less e b = true := by
    intro b rest start
    have stop := List.head?_dropWhile_not (fun y => !less e y) xs
    rw [start] at stop
    simpa using stop
  rw [← split] at sorted
  obtain ⟨sortedA,sortedB,across⟩ := List.pairwise_append.mp sorted
  have above : ∀ b ∈ xs.dropWhile (fun y => !less e y), less e b = true := by
    intro b inside
    cases rest : xs.dropWhile fun y => !less e y with
    | nil =>
      rw [rest] at inside
      cases inside
    | cons c cs =>
      rw [rest] at inside sortedB
      rcases List.mem_cons.mp inside with rfl | later
      · exact head b cs rest
      · by_contra level
        have up := (List.pairwise_cons.mp sortedB).1 b later
        have down := order.le_trans c b e (by simp [up]) (by simpa using level)
        simp [head c cs rest] at down
  refine ⟨List.pairwise_append.mpr ⟨sortedA,List.pairwise_cons.mpr ⟨?_,sortedB⟩,?_⟩,above⟩
  · intro b inside
    by_contra down
    have loop := order.trans e b e (above b inside) (by simpa using down)
    simp [order.irrefl] at loop
  · intro a insideA b insideB
    rcases List.mem_cons.mp insideB with rfl | insideB
    · exact below a insideA
    · exact across a insideA b insideB

/-! Removal of duplicates. -/

/-- What stays behind an element that stays, and what is removed. -/
def uniqueFrom (less : Nat → Nat → Bool) (a : Nat) : List Nat → List Nat × List Nat
  | [] => ([],[])
  | b :: rest =>
    if ListSort.equivalent less a b then ((uniqueFrom less a rest).1,b :: (uniqueFrom less a rest).2)
    else (b :: (uniqueFrom less b rest).1,(uniqueFrom less b rest).2)

def groups (less : Nat → Nat → Bool) (xs : List Nat) : List (List Nat) := xs.splitBy (ListSort.equivalent less)

def firsts (less : Nat → Nat → Bool) (xs : List Nat) : List Nat := (groups less xs).filterMap List.head?

def duplicates (less : Nat → Nat → Bool) (xs : List Nat) : List Nat := (groups less xs).flatMap List.tail

/-- The group in progress is `first :: g`, its last element is `b`; `acc` are the groups before it. -/
theorem groups_loop (order : ListSort.StrictWeak less) (member : ListSort.equivalent less a b = true)
    (current : (b :: g).reverse = a :: group) :
    (List.splitBy.loop (ListSort.equivalent less) rest b g acc).filterMap List.head? =
        acc.reverse.filterMap List.head? ++ a :: (uniqueFrom less a rest).1 ∧
      (List.splitBy.loop (ListSort.equivalent less) rest b g acc).flatMap List.tail =
        acc.reverse.flatMap List.tail ++ (group ++ (uniqueFrom less a rest).2) := by
  induction rest generalizing a b g group acc with
  | nil => simp [List.splitBy.loop,uniqueFrom,current]
  | cons c rest ih =>
    have same : ListSort.equivalent less b c = ListSort.equivalent less a c := by
      apply Bool.eq_iff_iff.mpr
      constructor
      · exact order.tied a b c member
      · exact order.tied b a c (ListSort.equivalent_symm a b ▸ member)
    rw [List.splitBy.loop,same,uniqueFrom]
    cases tied : ListSort.equivalent less a c with
    | true =>
      have longer : (c :: b :: g).reverse = a :: (group ++ [c]) := by
        rw [List.reverse_cons,current]
        rfl
      refine ⟨(ih tied longer).1,?_⟩
      rw [(ih tied longer).2]
      simp
    | false =>
      have alone : ListSort.equivalent less c c = true := by simp [ListSort.equivalent,order.irrefl]
      have single : [c].reverse = c :: [] := rfl
      refine ⟨(ih alone single).1.trans ?_,(ih alone single).2.trans ?_⟩
      · simp [current]
      · simp [current]

theorem uniqueFrom_groups (order : ListSort.StrictWeak less) (a rest) :
    firsts less (a :: rest) = a :: (uniqueFrom less a rest).1 ∧ duplicates less (a :: rest) = (uniqueFrom less a rest).2 := by
  have alone : ListSort.equivalent less a a = true := by simp [ListSort.equivalent,order.irrefl]
  have single : [a].reverse = a :: [] := rfl
  exact groups_loop order alone single

/-- The list of duplicates, where there is one, with more elements at its end. -/
def collected (f : Lists) (d : Nat) (ys : List Nat) : Lists :=
  if d = null then f else Function.update f d ((f d).map fun ds => ds ++ ys)

theorem firsts_duplicates (less : Nat → Nat → Bool) (xs : List Nat) : (firsts less xs ++ duplicates less xs).Perm xs := by
  have flat : (groups less xs).flatten = xs := List.flatten_splitBy ..
  have split : ∀ gs : List (List Nat), (gs.filterMap List.head? ++ gs.flatMap List.tail).Perm gs.flatten := by
    intro gs
    induction gs with
    | nil => exact .refl _
    | cons g gs ih =>
      cases g with
      | nil => simpa [List.filterMap_cons] using ih
      | cons a g =>
        simp only [List.filterMap_cons,List.head?_cons,List.flatMap_cons,List.tail_cons,List.flatten_cons,List.cons_append]
        refine List.Perm.cons a ?_
        rw [← List.append_assoc]
        refine (List.Perm.append_right _ List.perm_append_comm).trans ?_
        rw [List.append_assoc]
        exact ih.append_left g
  exact (split _).trans (.of_eq flat)

/-- The elements after a removal were there before. -/
theorem moved_fewer (here : f l = some (xs ++ [e] ++ ys)) (there : f d = some ds)
    (node : Node (Function.update (Function.update f l (some (xs ++ ys))) d (some (ds ++ [e]))) y) : Node f y := by
  have sub : xs ++ ys ⊆ xs ++ [e] ++ ys := by simp
  rcases node_update.mp node with inside | elsewhere
  · simp only [nodes,List.cons_append,List.mem_cons,List.mem_append,List.not_mem_nil,or_false] at inside
    rcases inside with first | (inside | moved) | last
    · exact ⟨d,ds,there,by simp [nodes,first]⟩
    · exact ⟨d,ds,there,by simp [nodes,inside]⟩
    · exact ⟨l,_,here,by simp [nodes,moved]⟩
    · exact ⟨d,ds,there,by simp [nodes,last]⟩
  · exact node_sub here sub elsewhere.node

/-- An element is removed and put at the end of the list of duplicates, before `k` goes on. -/
theorem remove_does (wf : WellFormed m f) (here : f l = some (xs ++ [e] ++ ys)) (there : d = null ∨ d ≠ l ∧ f d = some ds)
    {k : M Unit} (rest : ∀ m', WellFormed m' (collected (Function.update f l (some (xs ++ ys))) d [e]) →
      Does k m' (collected (Function.update f l (some (xs ++ ys))) d [e]) f' ()) :
    Does (do
      let _ ← listRemove e
      if d ≠ null then listPushBack d e
      k) m f f' () := by
  have sub : xs ++ ys ⊆ xs ++ [e] ++ ys := by simp
  have removed := listRemove_does wf here (head_cut l ys)
  unfold collected at rest
  by_cases none : d = null
  · rw [if_pos none] at rest
    refine .then removed (fun y => node_sub here sub) fun m' wf' => ?_
    rw [if_neg (by simpa using none)]
    exact rest m' wf'
  · obtain ⟨other,found⟩ := there.resolve_left none
    have fresh := removed_fresh wf here
    have found' : Function.update f l (some (xs ++ ys)) d = some ds := (Function.update_of_ne other ..).trans found
    rw [if_neg none,found',Option.map_some] at rest
    have moved : Does (do let _ ← listRemove e; listPushBack d e) m f _ () :=
      .then removed (fun y => node_sub here sub) fun m' wf' => listPushBack_does wf' found' fresh.1 fresh.2
    have both : Does (_ >>= fun _ => k) m f f' () := .then moved (fun y => moved_fewer here found) rest
    rw [bind_assoc] at both
    simpa [none] using both

theorem collected_again (other : d ≠ l) (f : Lists) (ys zs : List Nat) (v w : Option (List Nat)) :
    collected (Function.update (collected (Function.update f l v) d ys) l w) d zs =
      collected (Function.update f l w) d (ys ++ zs) := by
  unfold collected
  split
  · exact Function.update_idem ..
  · rw [Function.update_comm other,Function.update_idem,Function.update_idem]
    simp [Function.update_of_ne other,Function.comp_def]

theorem WellFormed.not_null (wf : WellFormed m f) (here : f l = some xs) : l ≠ null :=
  Nat.ne_of_gt (wf.list_placed here)

theorem collected_nil (f : Lists) (d : Nat) : collected f d [] = f := by
  unfold collected
  simp

theorem uniqueLoop_does (wf : WellFormed m f) (here : f l = some (xs ++ a :: rest)) (enough : rest.length < fuel)
    (there : d = null ∨ d ≠ l ∧ f d = some ds) :
    Does (uniqueLoop less l d fuel a) m f
      (collected (Function.update f l (some (xs ++ a :: (uniqueFrom less a rest).1))) d (uniqueFrom less a rest).2) () := by
  induction fuel generalizing m f xs a rest ds with
  | zero => contradiction
  | succ fuel ih =>
    rw [uniqueLoop]
    refine .after (wf.next_cut here) (.after (wf.end_cut here) ?_ rfl) rfl
    cases rest with
    | nil =>
      rw [cut_nil,if_pos rfl,uniqueFrom,collected_nil]
      exact .stay wf here ()
    | cons b rest =>
      have here' : f l = some ((xs ++ [a]) ++ [b] ++ rest) := by simpa using here
      have inside : cut l (b :: rest) ≠ tail l :=
        wf.inside_cut (show f l = some ((xs ++ [a]) ++ (b :: rest)) by simpa using here) (List.cons_ne_nil b rest)
      simp only [List.length_cons] at enough
      rw [if_neg inside,cut_cons,uniqueFrom]
      by_cases tied : ListSort.equivalent less a b = true
      · rw [if_pos tied,if_pos (show (!less a b && !less b a) = true from tied)]
        have posL := wf.list_placed here
        have other : d ≠ l := by
          rcases there with rfl | ⟨other,_⟩
          · exact Nat.ne_of_lt posL
          · exact other
        refine remove_does wf here' there fun m' wf' => ?_
        have kept : collected (Function.update f l (some ((xs ++ [a]) ++ rest))) d [b] l = some (xs ++ a :: rest) := by
          unfold collected
          split
          · simp
          · rw [Function.update_of_ne other.symm]
            simp
        have grown : d = null ∨ d ≠ l ∧ collected (Function.update f l (some ((xs ++ [a]) ++ rest))) d [b] d = some (ds ++ [b]) := by
          refine there.imp_right fun found => ⟨other,?_⟩
          unfold collected
          rw [if_neg (wf.not_null found.2),Function.update_self,Function.update_of_ne other,found.2]
          rfl
        have rest := ih wf' kept (by omega) grown
        rwa [collected_again other] at rest
      · rw [if_neg tied,if_neg (show ¬(!less a b && !less b a) = true from tied)]
        have moved := ih wf (show f l = some ((xs ++ [a]) ++ b :: rest) by simpa using here) (by omega) there
        simpa using moved

theorem listUnique_does (order : ListSort.StrictWeak less) (wf : WellFormed m f) (here : f l = some xs)
    (there : d = null ∨ d ≠ l ∧ f d = some ds) :
    Does (listUnique less l d) m f (collected (Function.update f l (some (firsts less xs))) d (duplicates less xs)) () := by
  unfold listUnique
  refine .after (assert_run (nonnull (wf.list_placed here))) ?_ rfl
  cases xs with
  | nil =>
    have ahead : next m l = tail l := (wf.point (from_start here) rfl (head_cut l [])).1
    have empty : listEmpty l m = .ok (true,m) := by
      rw [listEmpty_run (wf.list_placed here),ahead,BEq.rfl]
    refine .after empty ?_ rfl
    have none : collected (Function.update f l (some (firsts less []))) d (duplicates less []) = Function.update f l (some []) :=
      collected_nil ..
    rw [if_pos rfl,none]
    exact .stay wf here ()
  | cons a rest =>
    have short := wf.length_lt here
    simp only [List.length_cons] at short
    obtain ⟨kept,removed⟩ := uniqueFrom_groups order a rest
    refine .after (wf.nonempty here rfl) ?_ rfl
    rw [if_neg Bool.false_ne_true,kept,removed]
    exact .after (wf.begin_cut here) (uniqueLoop_does wf (from_start here) (by omega) there) rfl

/-! The largest and the smallest element. -/

def FirstBest (better : Nat → Nat → Bool) (xs : List Nat) (x : Nat) : Prop :=
  ∃ as bs, xs = as ++ x :: bs ∧ (∀ y ∈ xs, better x y = false) ∧ ∀ a ∈ as, better a x = true

/-- The best of the elements that were passed stays it until a better one comes. -/
theorem bestLoop_run {better : Nat → Nat → Bool} (order : ListSort.StrictWeak better) (wf : WellFormed m f)
    (here : f l = some (xs ++ ys)) (enough : ys.length < fuel) (best : FirstBest better xs x) :
    ∃ r, bestLoop better l fuel x (cut l ys) m = .ok (r,m) ∧ FirstBest better (xs ++ ys) r := by
  induction fuel generalizing xs ys x with
  | zero => contradiction
  | succ fuel ih =>
    rw [bestLoop,bind_go (wf.end_cut here)]
    cases ys with
    | nil =>
      rw [cut_nil,if_pos rfl,List.append_nil]
      exact ⟨x,rfl,best⟩
    | cons y ys =>
      have inside : cut l (y :: ys) ≠ tail l :=
        wf.inside_cut here (List.cons_ne_nil y ys)
      rw [if_neg inside,cut_cons]
      rw [bind_go (wf.next_cut here)]
      have here' : f l = some ((xs ++ [y]) ++ ys) := by simpa using here
      have further : FirstBest better (xs ++ [y]) (if better x y then y else x) := by
        obtain ⟨as,bs,whole,most,first⟩ := best
        by_cases more : better x y = true
        · rw [if_pos more]
          refine ⟨xs,[],rfl,?_,?_⟩
          · intro z inside
            rcases List.mem_append.mp inside with among | last
            · by_contra up
              have down := order.trans x y z more (by simpa using up)
              simp [most z among] at down
            · rw [List.mem_singleton.mp last]
              exact order.irrefl y
          · intro a among
            by_contra level
            have up := order.le_trans y a x (by simpa using level) (by simp [most a among])
            simp [more] at up
        · rw [if_neg more]
          refine ⟨as,bs ++ [y],by simp [whole],?_,first⟩
          intro z inside
          rcases List.mem_append.mp inside with among | last
          · exact most z among
          · rw [List.mem_singleton.mp last]
            simpa using more
      have rest := ih here' (by simpa using enough) further
      rwa [List.append_assoc] at rest

theorem listBest_empty (better : Nat → Nat → Bool) (wf : WellFormed m f) (here : f l = some []) :
    listBest better l m = .ok (tail l,m) := by
  unfold listBest
  rw [bind_go (wf.begin_cut here),bind_go (wf.end_cut here),cut_nil,if_neg (fun other => other rfl)]
  rfl

theorem listBest_run {better : Nat → Nat → Bool} (order : ListSort.StrictWeak better) (wf : WellFormed m f)
    (here : f l = some xs) (nonempty : xs ≠ []) : ∃ x, listBest better l m = .ok (x,m) ∧ FirstBest better xs x := by
  unfold listBest
  rw [bind_go (wf.begin_cut here),bind_go (wf.end_cut here)]
  cases xs with
  | nil => contradiction
  | cons a rest =>
    have short := wf.length_lt here
    simp only [List.length_cons] at short
    have inside : cut l (a :: rest) ≠ tail l :=
      wf.inside_cut (show f l = some ([] ++ a :: rest) from here) (List.cons_ne_nil a rest)
    have alone : FirstBest better [a] a := by
      refine ⟨[],[],rfl,?_,nofun⟩
      intro y inside
      rw [List.mem_singleton.mp inside]
      exact order.irrefl a
    rw [if_pos inside,cut_cons,bind_go (wf.next_cut (from_start here))]
    exact bestLoop_run order wf (show f l = some ([a] ++ rest) from here) (by omega) alone

end

/-- In a well-formed list, for a strict weak order: the insertion in order, the removal of adjacent
duplicates with and without a list for them, and the first largest and first smallest element. -/
theorem ordered_list_operations {less : Nat → Nat → Bool} (order : ListSort.StrictWeak less) (wf : WellFormed m f)
    (here : f l = some xs) :
    (∀ e, Fresh f e → (xs.Pairwise fun a b => less b a = false) → ∃ as bs, xs = as ++ bs ∧
      Does (listInsertOrdered less l e) m f (Function.update f l (some (as ++ e :: bs))) () ∧
      ((as ++ e :: bs).Pairwise fun a b => less b a = false) ∧ ∀ b ∈ bs, ListSort.equivalent less e b = false) ∧
    Does (listUnique less l null) m f (Function.update f l (some (firsts less xs))) () ∧
    (∀ d ds, d ≠ l → f d = some ds → Does (listUnique less l d) m f
      (Function.update (Function.update f l (some (firsts less xs))) d (some (ds ++ duplicates less xs))) ()) ∧
    (firsts less xs ++ duplicates less xs).Perm xs ∧
    (xs = [] → listMax less l m = .ok (tail l,m) ∧ listMin less l m = .ok (tail l,m)) ∧
    (xs ≠ [] → (∃ x, listMax less l m = .ok (x,m) ∧ FirstBest (fun max e => less max e) xs x) ∧
      ∃ x, listMin less l m = .ok (x,m) ∧ FirstBest (fun min e => less e min) xs x) := by
  refine ⟨?_,?_,?_,firsts_duplicates less xs,?_,?_⟩
  · intro e fresh sorted
    obtain ⟨ordered,above⟩ := inserted_ordered (e := e) order sorted
    refine ⟨_,_,List.takeWhile_append_dropWhile.symm,listInsertOrdered_does wf here fresh,ordered,?_⟩
    intro b inside
    simp [ListSort.equivalent,above b inside]
  · exact listUnique_does order wf here (show null = null ∨ null ≠ l ∧ f null = some [] from .inl rfl)
  · intro d ds other found
    have unique := listUnique_does order wf here (.inr ⟨other,found⟩)
    unfold collected at unique
    rwa [if_neg (wf.not_null found),Function.update_of_ne other,found] at unique
  · rintro rfl
    exact ⟨listBest_empty _ wf here,listBest_empty _ wf here⟩
  · intro nonempty
    exact ⟨listBest_run order wf here nonempty,listBest_run order.flip wf here nonempty⟩

theorem ordered_list_operations_two : ∃ (m : Memory) (f : Lists) (as bs : List Nat), f 64 = some [32,16] ∧ [32,16] = as ++ bs ∧
    Does (listInsertOrdered (fun a b => decide (b < a)) 64 48) m f (Function.update f 64 (some (as ++ 48 :: bs))) () := by
  obtain ⟨m,f,wf,here,only⟩ := two_linked
  have fresh : Fresh f 48 := ⟨⟨by decide,by decide⟩,fun y node =>
    (show ∀ y ∈ nodes 64 [32,16], Apart 48 8 y 8 by decide) y (only y node)⟩
  obtain ⟨as,bs,whole,does,_⟩ := (ordered_list_operations nat_strictWeak.flip wf here).1 48 fresh (by simp)
  exact ⟨m,f,as,bs,here,whole,does⟩

end OsProj.KernelList
