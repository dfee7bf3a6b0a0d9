import OsProj.KernelListRuns
import OsProj.ListSort

/-! `list_sort` of lib/kernel/list.c on linked elements. It follows the sort of sequences: a
pointer into the list is a cut of its elements, and a merge moves single elements in front of
the first run. -/
namespace OsProj.KernelList

open OsProj.ByteMemory
open OsProj.Faulting

section
variable (less : Nat → Nat → Bool)

def sortedLoop (b : Nat) : Nat → Nat → M Bool
  | 0,_ => throw .unending
  | fuel + 1,a => do
    let a ← listNext a
    if a = b then return true
    if less a (← listPrev a) then return false
    sortedLoop b fuel a

def isSorted (a b : Nat) : M Bool := if a ≠ b then sortedLoop less b addressLimit a else return true

def runLoop (b : Nat) : Nat → Nat → M Nat
  | 0,_ => throw .unending
  | fuel + 1,a => do
    let a ← listNext a
    if a = b then return a
    if less a (← listPrev a) then return a
    runLoop b fuel a

def findEndOfRun (a b : Nat) : M Nat := do
  assert (a ≠ null)
  assert (b ≠ null)
  assert (a ≠ b)
  runLoop less b addressLimit a

def mergeLoop (b1 : Nat) : Nat → Nat → Nat → M Unit
  | 0,_,_ => throw .unending
  | fuel + 1,a0,a1b0 => do
    if a0 = a1b0 then return
    if a1b0 = b1 then return
    if !less a1b0 a0 then mergeLoop b1 fuel (← listNext a0) a1b0
    else
      let a1b0 ← listNext a1b0
      listSplice a0 (← listPrev a1b0) a1b0
      mergeLoop b1 fuel a0 a1b0

def inplaceMerge (a0 a1b0 b1 : Nat) : M Unit := do
  assert (a0 ≠ null)
  assert (a1b0 ≠ null)
  assert (b1 ≠ null)
  assert (← isSorted less a0 a1b0)
  assert (← isSorted less a1b0 b1)
  mergeLoop less b1 addressLimit a0 a1b0

/-- One pass over the list, with the number of output runs. -/
def passLoop (list : Nat) : Nat → Nat → Nat → M Nat
  | 0,_,_ => throw .unending
  | fuel + 1,a0,outputRunCnt => do
    if a0 = (← listEnd list) then return outputRunCnt
    let outputRunCnt := (outputRunCnt + 1) % sizeMod
    let a1b0 ← findEndOfRun less a0 (← listEnd list)
    if a1b0 = (← listEnd list) then return outputRunCnt
    let b1 ← findEndOfRun less a1b0 (← listEnd list)
    inplaceMerge less a0 a1b0 b1
    passLoop list fuel b1 outputRunCnt

def sortLoop (list : Nat) : Nat → M Unit
  | 0 => throw .unending
  | fuel + 1 => do
    let outputRunCnt ← passLoop less list addressLimit (← listBegin list) 0
    if outputRunCnt > 1 then sortLoop list fuel

def listSort (list : Nat) : M Unit := do
  assert (list ≠ null)
  sortLoop less list addressLimit
  assert (← isSorted less (← listBegin list) (← listEnd list))

end

def cut (l : Nat) (ys : List Nat) : Nat := ys.headD (tail l)

@[simp] theorem cut_nil (l : Nat) : cut l [] = tail l := rfl

@[simp] theorem cut_cons (l y : Nat) (ys : List Nat) : cut l (y :: ys) = y := rfl

section
variable {m : Memory} {f : Lists} {l y : Nat} {xs mid ys : List Nat} {less : Nat → Nat → Bool}

theorem head_cut (l : Nat) (ys : List Nat) : (ys ++ [tail l]).head? = some (cut l ys) := by
  cases ys <;> rfl

theorem WellFormed.list_placed (wf : WellFormed m f) (here : f l = some xs) : 0 < l :=
  (wf.followed here (List.mem_cons_self ..)).1

theorem WellFormed.begin_cut (wf : WellFormed m f) (here : f l = some xs) : listBegin l m = .ok (cut l xs,m) := by
  have start := (wf.point (p := head l) (from_start here) rfl (head_cut l xs)).1
  rw [listBegin_run (wf.list_placed here)]
  exact congrArg (fun p => Except.ok (p,m)) start

theorem WellFormed.cut_placed (wf : WellFormed m f) (here : f l = some (xs ++ ys)) : 0 < cut l ys :=
  (wf.placed (node_right here (List.mem_of_head? (head_cut l ys)))).1

/-- An element and the cut behind it are linked. -/
theorem WellFormed.linked_cut (wf : WellFormed m f) (here : f l = some (xs ++ y :: ys)) :
    next m y = cut l ys ∧ prev m (cut l ys) = y := by
  have here' : f l = some ((xs ++ [y]) ++ ys) := by simpa using here
  have ends : (head l :: (xs ++ [y])).getLast? = some y := by
    rw [← List.cons_append]
    exact List.getLast?_concat
  exact wf.point here' ends (head_cut l ys)

theorem WellFormed.next_cut (wf : WellFormed m f) (here : f l = some (xs ++ y :: ys)) :
    listNext y m = .ok (cut l ys,m) := by
  obtain ⟨posY,ahead⟩ := wf.followed here (show y ∈ head l :: (xs ++ y :: ys) by simp)
  rw [listNext_run posY ahead,(wf.linked_cut here).1]

theorem WellFormed.prev_cut (wf : WellFormed m f) (here : f l = some (xs ++ y :: ys)) :
    listPrev (cut l ys) m = .ok (y,m) := by
  have inside : cut l ys ∈ xs ++ y :: ys ++ [tail l] := by
    have member := List.mem_of_head? (head_cut l ys)
    simp only [List.mem_append,List.mem_cons] at member ⊢
    tauto
  obtain ⟨placed,back⟩ := wf.backed here inside
  rw [listPrev_run placed back,(wf.linked_cut here).2]

/-- An element is not at a cut behind it. -/
theorem WellFormed.before_cut (wf : WellFormed m f) (here : f l = some (xs ++ y :: (mid ++ ys))) : y ≠ cut l ys := by
  have distinct := wf.distinct here
  rw [show nodes l (xs ++ y :: (mid ++ ys)) = (head l :: xs ++ y :: mid) ++ (ys ++ [tail l]) by simp [nodes]] at distinct
  exact ((List.pairwise_append.mp distinct).2.2 y (by simp) _ (List.mem_of_head? (head_cut l ys))).ne

/-- A cut is inside of the list as long as elements are left behind it. -/
theorem WellFormed.inside_cut (wf : WellFormed m f) (here : f l = some (xs ++ ys)) (more : ys ≠ []) : cut l ys ≠ tail l := by
  obtain ⟨y,ys,rfl⟩ := List.exists_cons_of_ne_nil more
  have atEnd : f l = some (xs ++ y :: (ys ++ [])) := by simpa using here
  exact wf.before_cut atEnd

theorem sortedLoop_run (wf : WellFormed m f) (here : f l = some (xs ++ y :: (mid ++ ys))) (enough : mid.length < fuel) :
    sortedLoop less (cut l ys) fuel y m = .ok (ListSort.isSorted less (y :: mid),m) := by
  induction fuel generalizing y mid xs with
  | zero => contradiction
  | succ fuel ih =>
    rw [sortedLoop,bind_go (wf.next_cut here)]
    cases mid with
    | nil =>
      rw [List.nil_append,if_pos rfl]
      rfl
    | cons z mid =>
      have here' : f l = some (xs ++ [y] ++ z :: (mid ++ ys)) := by simpa using here
      have back := wf.prev_cut here
      rw [List.cons_append,cut_cons] at back ⊢
      rw [if_neg (wf.before_cut here'),bind_go back,ListSort.isSorted]
      split
      · rfl
      · exact ih here' (by simpa using enough)

theorem isSorted_run (less) (wf : WellFormed m f) (here : f l = some (xs ++ (mid ++ ys))) :
    isSorted less (cut l (mid ++ ys)) (cut l ys) m = .ok (ListSort.isSorted less mid,m) := by
  unfold isSorted
  cases mid with
  | nil =>
    rw [List.nil_append,if_neg (by simp)]
    rfl
  | cons y mid =>
    have short := wf.length_lt here
    simp only [List.length_append,List.length_cons] at short
    rw [List.cons_append,cut_cons,if_pos (wf.before_cut here),sortedLoop_run wf here (by omega)]

theorem runLoop_run (wf : WellFormed m f) (here : f l = some (xs ++ y :: (mid ++ ys))) (enough : mid.length < fuel) :
    runLoop less (cut l ys) fuel y m = .ok (cut l ((ListSort.runFrom less y mid).2 ++ ys),m) := by
  induction fuel generalizing y mid xs with
  | zero => contradiction
  | succ fuel ih =>
    rw [runLoop,bind_go (wf.next_cut here)]
    cases mid with
    | nil =>
      rw [List.nil_append,if_pos rfl]
      rfl
    | cons z mid =>
      have here' : f l = some (xs ++ [y] ++ z :: (mid ++ ys)) := by simpa using here
      have back := wf.prev_cut here
      rw [List.cons_append,cut_cons] at back ⊢
      rw [if_neg (wf.before_cut here'),bind_go back,ListSort.runFrom]
      split
      · rfl
      · exact ih here' (by simpa using enough)

/-- The end of a run is where it is in the sequence. -/
theorem findEndOfRun_run (wf : WellFormed m f) (here : f l = some (xs ++ ys))
    (found : ListSort.findEndOfRun less ys = .ok (run,after)) :
    findEndOfRun less (cut l ys) (tail l) m = .ok (cut l after,m) := by
  cases ys with
  | nil => cases found
  | cons y ys =>
    obtain ⟨rfl,rfl⟩ := Prod.mk.inj (Except.ok.inj found)
    have here' : f l = some (xs ++ y :: (ys ++ [])) := by simpa using here
    have short := wf.length_lt here
    simp only [List.length_append,List.length_cons] at short
    have went : runLoop less (cut l []) addressLimit y m = _ := runLoop_run wf here' (by omega)
    have posT : 0 < tail l := (wf.backed here (by simp)).1
    rw [List.append_nil] at went
    unfold findEndOfRun
    have other : cut l (y :: ys) ≠ tail l := wf.before_cut here'
    rw [bind_go (assert_run (nonnull (wf.cut_placed here))),bind_go (assert_run (nonnull posT)),
      bind_go (assert_run (decide_eq_true other))]
    exact went

/-- An element that was taken out of a list may be put into another. -/
theorem removed_fresh {e : Nat} (wf : WellFormed m f) (here : f l = some (xs ++ [e] ++ ys)) :
    Fresh (Function.update f l (some (xs ++ ys))) e := by
  obtain ⟨p,before⟩ := last_exists l xs
  obtain ⟨_,loose⟩ := wf.detach here before (head_cut l ys)
  exact ⟨loose.placed e (by simp),loose.apart e (by simp)⟩

/-! Steps that put the elements of one list in another order. -/

theorem node_sub (here : f l = some xs) (sub : zs ⊆ xs) (node : Node (Function.update f l (some zs)) x) : Node f x := by
  rcases node_update.mp node with inside | there
  · refine ⟨l,xs,here,?_⟩
    simp only [nodes,List.cons_append,List.mem_cons,List.mem_append] at inside ⊢
    exact inside.imp_right fun among => among.imp_left fun among => sub among
  · exact there.node

theorem Does.stay (wf : WellFormed m f) (here : f l = some xs) (a : α) :
    Does (pure a) m f (Function.update f l (some xs)) a := by
  refine ⟨m,rfl,?_,fun b _ _ => rfl⟩
  rwa [← here,Function.update_eq_self]

theorem Does.after {k : M α} (went : x m = .ok (a,m)) (rest : Does (g a) m f f' r) (same : k = x >>= g) : Does k m f f' r := by
  obtain ⟨m',ran,kept⟩ := rest
  refine ⟨m',?_,kept⟩
  rw [same,bind_go went]
  exact ran

/-- A step that brings no new elements into the lists, and what comes after it. -/
theorem Does.then {k : β → M α} (first : Does x m f f₁ a) (fewer : ∀ y, Node f₁ y → Node f y)
    (rest : ∀ m', WellFormed m' f₁ → Does (k a) m' f₁ f₂ r) : Does (x >>= k) m f f₂ r := by
  obtain ⟨m₁,ran₁,wf₁,kept₁⟩ := first
  obtain ⟨m₂,ran₂,wf₂,kept₂⟩ := rest m₁ wf₁
  refine ⟨m₂,?_,wf₂,?_⟩
  · rw [bind_go ran₁]
    exact ran₂
  · intro b outside outside'
    have between : Outside f₁ b := fun y node => outside y (fewer y node)
    rw [kept₂ b between outside',kept₁ b outside between]

/-- The element that is less is put in front of the first run. -/
theorem splice_before (wf : WellFormed m f) (here : f l = some (xs ++ (a :: as ++ (b :: bs ++ ys)))) :
    Does (listSplice a b (cut l (bs ++ ys))) m f
      (Function.update f l (some (xs ++ [b] ++ (a :: as ++ (bs ++ ys))))) () := by
  have here' : f l = some ((xs ++ a :: as) ++ [b] ++ (bs ++ ys)) := by simpa using here
  have there : Function.update f l (some ((xs ++ a :: as) ++ (bs ++ ys))) l = some (xs ++ (a :: as ++ (bs ++ ys))) := by
    rw [Function.update_self,List.append_assoc]
  have spliced := listSplice_does wf here' rfl (head_cut l (bs ++ ys)) there rfl
  rw [Function.update_idem] at spliced
  exact spliced

/-- The merge of two neighbouring runs is that of the sequences. -/
theorem mergeLoop_does (wf : WellFormed m f) (here : f l = some (xs ++ (as ++ (bs ++ ys))))
    (enough : as.length + bs.length < fuel) :
    Does (mergeLoop less (cut l ys) fuel (cut l (as ++ (bs ++ ys))) (cut l (bs ++ ys))) m f
      (Function.update f l (some (xs ++ (ListSort.mergeLoop less as bs ++ ys)))) () := by
  induction fuel generalizing m f xs as bs with
  | zero => contradiction
  | succ fuel ih =>
    rw [mergeLoop]
    cases as with
    | nil =>
      rw [List.nil_append,if_pos rfl,ListSort.mergeLoop]
      exact .stay wf here ()
    | cons a as =>
      have apart : cut l (a :: as ++ (bs ++ ys)) ≠ cut l (bs ++ ys) := wf.before_cut here
      rw [if_neg apart]
      cases bs with
      | nil =>
        rw [List.nil_append,if_pos rfl,ListSort.mergeLoop]
        exact .stay wf here ()
      | cons b bs =>
        have hereB : f l = some ((xs ++ a :: as) ++ b :: (bs ++ ys)) := by simpa using here
        have inside : cut l (b :: bs ++ ys) ≠ cut l ys := wf.before_cut hereB
        simp only [List.length_cons] at enough
        rw [if_neg inside]
        by_cases down : less b a = true
        · have failed : ¬ (!less (cut l (b :: bs ++ ys)) (cut l (a :: as ++ (b :: bs ++ ys)))) = true := by
            simpa using down
          rw [if_neg failed,ListSort.mergeLoop,if_pos down]
          refine .after (wf.next_cut hereB) (.after (wf.prev_cut hereB) ?_ rfl) rfl
          refine .then (splice_before wf here) (fun y => node_sub here ?_) fun m' wf' => ?_
          · intro y inside
            simp only [List.mem_append,List.mem_cons] at inside ⊢
            tauto
          · have moved := ih wf' (Function.update_self ..) (by simp only [List.length_cons]; omega)
            rw [Function.update_idem] at moved
            simpa using moved
        · have passed : (!less (cut l (b :: bs ++ ys)) (cut l (a :: as ++ (b :: bs ++ ys)))) = true := by
            simpa using down
          rw [if_pos passed,ListSort.mergeLoop,if_neg down]
          refine .after (wf.next_cut here) ?_ rfl
          have here' : f l = some ((xs ++ [a]) ++ (as ++ (b :: bs ++ ys))) := by simpa using here
          have moved := ih wf here' (by simp only [List.length_cons]; omega)
          simpa using moved

theorem inplaceMerge_does (wf : WellFormed m f) (here : f l = some (xs ++ (as ++ (bs ++ ys))))
    (merges : ListSort.inplaceMerge less as bs = .ok merged) :
    Does (inplaceMerge less (cut l (as ++ (bs ++ ys))) (cut l (bs ++ ys)) (cut l ys)) m f
      (Function.update f l (some (xs ++ (merged ++ ys)))) () := by
  unfold ListSort.inplaceMerge at merges
  split at merges
  · rename_i level
    obtain ⟨levelA,levelB⟩ := Bool.and_eq_true_iff.mp level
    obtain rfl := Except.ok.inj merges
    have hereB : f l = some ((xs ++ as) ++ (bs ++ ys)) := by simpa using here
    have hereC : f l = some ((xs ++ as ++ bs) ++ ys) := by simpa using here
    have short := wf.length_lt here
    simp only [List.length_append] at short
    have sortedA := isSorted_run less wf here
    have sortedB := isSorted_run less wf hereB
    rw [levelA] at sortedA
    rw [levelB] at sortedB
    refine .after (assert_run (nonnull (wf.cut_placed here))) ?_ rfl
    refine .after (assert_run (nonnull (wf.cut_placed hereB))) ?_ rfl
    refine .after (assert_run (nonnull (wf.cut_placed hereC))) ?_ rfl
    refine .after sortedA (.after (assert_run rfl) ?_ rfl) rfl
    refine .after sortedB (.after (assert_run rfl) ?_ rfl) rfl
    exact mergeLoop_does wf here (by omega)
  · cases merges

theorem WellFormed.end_cut (wf : WellFormed m f) (here : f l = some xs) : listEnd l m = .ok (tail l,m) :=
  listEnd_run (wf.list_placed here)

theorem merged_perm (merges : ListSort.inplaceMerge less as bs = .ok merged) :
    (done ++ (merged ++ rest)).Perm (done ++ (as ++ (bs ++ rest))) := by
  rw [← List.append_assoc as]
  exact ((ListSort.inplaceMerge_perm merges).append_right rest).append_left done

theorem passLoop_end (wf : WellFormed m f) (here : f l = some done) :
    Does (passLoop less l (fuel + 1) (cut l []) cnt) m f (Function.update f l (some done)) cnt := by
  rw [passLoop]
  refine .after (wf.end_cut here) ?_ rfl
  rw [cut_nil,if_pos rfl]
  exact .stay wf here _

/-- The last run of a pass has no other to merge with. -/
theorem passLoop_last (wf : WellFormed m f) (here : f l = some (done ++ as)) (someA : as ≠ [])
    (foundA : ListSort.findEndOfRun less as = .ok (as,[])) (counted : (cnt + 1) % sizeMod = cnt + 1) :
    Does (passLoop less l (fuel + 1) (cut l as) cnt) m f (Function.update f l (some (done ++ as))) (cnt + 1) := by
  rw [passLoop,counted]
  refine .after (wf.end_cut here) ?_ rfl
  rw [if_neg (wf.inside_cut here someA)]
  refine .after (wf.end_cut here) (.after (findEndOfRun_run wf here foundA) (.after (wf.end_cut here) ?_ rfl) rfl) rfl
  rw [cut_nil,if_pos rfl]
  exact .stay wf here _

/-- A round with two runs merges them and goes on behind the second. -/
theorem passLoop_merge (wf : WellFormed m f) (here : f l = some (done ++ (as ++ (bs ++ rest)))) (someA : as ≠ []) (someB : bs ≠ [])
    (foundA : ListSort.findEndOfRun less (as ++ (bs ++ rest)) = .ok (as,bs ++ rest))
    (foundB : ListSort.findEndOfRun less (bs ++ rest) = .ok (bs,rest)) (merges : ListSort.inplaceMerge less as bs = .ok merged)
    (counted : (cnt + 1) % sizeMod = cnt + 1)
    (next : ∀ m', WellFormed m' (Function.update f l (some (done ++ (merged ++ rest)))) →
      Does (passLoop less l fuel (cut l rest) (cnt + 1)) m' (Function.update f l (some (done ++ (merged ++ rest)))) f' cnt') :
    Does (passLoop less l (fuel + 1) (cut l (as ++ (bs ++ rest))) cnt) m f f' cnt' := by
  have hereB : f l = some ((done ++ as) ++ (bs ++ rest)) := by simpa using here
  rw [passLoop,counted]
  refine .after (wf.end_cut here) ?_ rfl
  rw [if_neg (wf.inside_cut here (List.append_ne_nil_of_left_ne_nil someA _))]
  refine .after (wf.end_cut here) (.after (findEndOfRun_run wf here foundA) (.after (wf.end_cut here) ?_ rfl) rfl) rfl
  rw [if_neg (wf.inside_cut hereB (List.append_ne_nil_of_left_ne_nil someB _))]
  refine .after (wf.end_cut here) (.after (findEndOfRun_run wf hereB foundB) ?_ rfl) rfl
  exact .then (inplaceMerge_does wf here merges) (fun y => node_sub here (merged_perm merges).subset) next

/-- A pass over the list is one over the sequence. -/
theorem passLoop_does (wf : WellFormed m f) (here : f l = some (done ++ rest)) (enough : rest.length < fuel)
    (fits : cnt + rest.length < sizeMod) (passes : ListSort.passLoop less n done rest cnt = .ok (cnt',out)) :
    out.Perm (done ++ rest) ∧
      Does (passLoop less l fuel (cut l rest) cnt) m f (Function.update f l (some out)) cnt' := by
  induction n generalizing m f done rest cnt fuel with
  | zero => cases passes
  | succ n ih =>
    cases fuel with
    | zero => contradiction
    | succ fuel =>
      cases rest with
      | nil =>
        obtain ⟨rfl,rfl⟩ := Prod.mk.inj (Except.ok.inj passes)
        rw [List.append_nil] at here ⊢
        exact ⟨.refl _,passLoop_end wf here⟩
      | cons a rest =>
        obtain ⟨as,after,foundA,whole,someA,_⟩ := ListSort.findEndOfRun_spec less (List.cons_ne_nil a rest)
        have counted : (cnt + 1) % sizeMod = cnt + 1 := by
          simp only [List.length_cons] at fits
          exact Nat.mod_eq_of_lt (by omega)
        have notEmpty : ¬(a :: rest).isEmpty = true := Bool.false_ne_true
        rw [ListSort.passLoop,if_neg notEmpty,foundA] at passes
        change (if after.isEmpty = true then _ else _) = _ at passes
        rw [whole] at here enough fits foundA ⊢
        cases after with
        | nil =>
          obtain ⟨rfl,rfl⟩ := Prod.mk.inj (Except.ok.inj passes)
          rw [List.append_nil] at here foundA ⊢
          exact ⟨.refl _,passLoop_last wf here someA foundA counted⟩
        | cons b after =>
          obtain ⟨bs,after',foundB,whole',someB,_⟩ := ListSort.findEndOfRun_spec less (List.cons_ne_nil b after)
          have notEmpty' : ¬(b :: after).isEmpty = true := Bool.false_ne_true
          rw [if_neg notEmpty',foundB] at passes
          change (ListSort.inplaceMerge less as bs >>= fun merged => _) = _ at passes
          rw [whole'] at here enough fits foundA foundB ⊢
          cases merges : ListSort.inplaceMerge less as bs with
          | error fault =>
            rw [merges] at passes
            cases passes
          | ok merged =>
            rw [go merges] at passes
            simp only [List.length_append] at enough fits
            have first := List.length_pos_of_ne_nil someA
            have shorter : after'.length < fuel := by omega
            have fits' : cnt + 1 + after'.length < sizeMod := by omega
            have split : Function.update f l (some (done ++ (merged ++ after'))) l = some ((done ++ merged) ++ after') := by simp
            obtain ⟨m₁,_,wf₁,_⟩ := inplaceMerge_does wf here merges
            have perm := (ih wf₁ split shorter fits' passes).1
            rw [List.append_assoc] at perm
            refine ⟨perm.trans (merged_perm merges),passLoop_merge wf here someA someB foundA foundB merges counted fun m' wf' => ?_⟩
            have rest := (ih wf' split shorter fits' passes).2
            rwa [Function.update_idem] at rest

/-- The sort of the list is that of the sequence. -/
theorem sortLoop_does (wf : WellFormed m f) (here : f l = some xs) (enough : n ≤ fuel)
    (sorts : ListSort.sortLoop less n xs = .ok out) :
    out.Perm xs ∧ Does (sortLoop less l fuel) m f (Function.update f l (some out)) () := by
  induction n generalizing m f xs fuel with
  | zero => cases sorts
  | succ n ih =>
    cases fuel with
    | zero => omega
    | succ fuel =>
      have short := wf.length_lt here
      rw [ListSort.sortLoop] at sorts
      cases passes : ListSort.passLoop less (xs.length + 1) [] xs 0 with
      | error fault =>
        rw [passes] at sorts
        cases sorts
      | ok result =>
        obtain ⟨cnt,new⟩ := result
        rw [go passes] at sorts
        have fits : 0 + xs.length < sizeMod := by
          unfold sizeMod
          unfold addressLimit at short
          omega
        obtain ⟨perm,passed⟩ := passLoop_does wf (from_start here) (show xs.length < addressLimit by omega) fits passes
        have whole := Function.update_self l (some new) f
        have fewer : n ≤ fuel := Nat.le_of_succ_le_succ enough
        rw [sortLoop]
        simp only at sorts
        split at sorts
        · rename_i more
          obtain ⟨m₁,_,wf₁,_⟩ := id passed
          refine ⟨(ih wf₁ whole fewer sorts).1.trans perm,.after (wf.begin_cut here) ?_ rfl⟩
          refine .then passed (fun y => node_sub here perm.subset) fun m' wf' => ?_
          have rest := (ih wf' whole fewer sorts).2
          rw [if_pos more]
          rwa [Function.update_idem] at rest
        · rename_i one
          obtain rfl := Except.ok.inj sorts
          refine ⟨perm,.after (wf.begin_cut here) ?_ rfl⟩
          refine .then passed (fun y => node_sub here perm.subset) fun m' wf' => ?_
          have rest := Does.stay wf' whole ()
          rw [if_neg one]
          rwa [Function.update_idem] at rest

theorem listSort_does (wf : WellFormed m f) (here : f l = some xs) (sorts : ListSort.listSort less xs = .ok out) :
    out.Perm xs ∧ Does (listSort less l) m f (Function.update f l (some out)) () := by
  unfold ListSort.listSort at sorts
  cases loops : ListSort.sortLoop less (xs.length + 1) xs with
  | error fault =>
    rw [loops] at sorts
    cases sorts
  | ok sorted =>
    rw [go loops] at sorts
    split at sorts
    · rename_i level
      obtain rfl := Except.ok.inj sorts
      have short := wf.length_lt here
      obtain ⟨perm,looped⟩ := sortLoop_does wf here (show xs.length + 1 ≤ addressLimit by omega) loops
      refine ⟨perm,.after (assert_run (nonnull (wf.list_placed here))) ?_ rfl⟩
      refine .then looped (fun y => node_sub here perm.subset) fun m' wf' => ?_
      have whole := Function.update_self l (some sorted) f
      have checked : isSorted less (cut l (sorted ++ [])) (cut l []) m' = _ := isSorted_run less wf' (from_start (to_end whole))
      rw [level,List.append_nil] at checked
      have rest := Does.stay wf' whole ()
      rw [Function.update_idem] at rest
      refine .after (wf'.begin_cut whole) (.after (wf'.end_cut whole) ?_ rfl) rfl
      exact .after checked (.after (assert_run rfl) rest rfl) rfl
    · cases sorts

/-- `list_sort` is a stable sort of the elements, and changes nothing but their links. -/
theorem list_sort_stable (order : ListSort.StrictWeak less) (wf : WellFormed m f) (here : f l = some xs) :
    ∃ m' sorted, listSort less l m = .ok ((),m') ∧ WellFormed m' (Function.update f l (some sorted)) ∧ sorted.Perm xs ∧
      (sorted.Pairwise fun a b => less b a = false) ∧
      (∀ a b, ListSort.equivalent less a b = true → [a,b].Sublist xs → [a,b].Sublist sorted) ∧
      ∀ b, Outside f b → m' b = m b := by
  obtain ⟨sorted,sorts,perm,stable,level⟩ := ListSort.listSort_spec order xs
  obtain ⟨_,m',ran,wf',kept⟩ := listSort_does wf here sorts
  refine ⟨m',sorted,ran,wf',perm,?_,?_,?_⟩
  · exact level.imp fun up => by simpa using up
  · intro a b tied before
    exact stable.pair order tied before
  · intro b outside
    exact kept b outside fun y node => outside y (node_sub here perm.subset node)

theorem two_linked : ∃ m f, WellFormed m f ∧ f 64 = some [32,16] ∧ ∀ y, Node f y → y ∈ nodes 64 [32,16] := by
  have only : ∀ xs y, Node (Function.update (fun _ => none) 64 (some xs)) y → y ∈ nodes 64 xs := by
    intro xs y node
    rcases node_update.mp node with inside | ⟨_,_,_,found,_⟩
    · exact inside
    · cases found
  have free : ∀ y, Elsewhere (fun _ => none) 64 y → Clear (head 64) y ∧ Clear (tail 64) y := by
    rintro y ⟨_,_,_,found,_⟩
    cases found
  obtain ⟨m₁,_,wf₁,_⟩ := listInit_does (.empty fun _ => 0) ⟨by decide,by decide⟩ ⟨by decide,by decide⟩ free
  obtain ⟨m₂,_,wf₂,_⟩ := listPushBack_does wf₁ (Function.update_self ..) ⟨by decide,by decide⟩ fun y node =>
    (show ∀ y ∈ nodes 64 [], Apart 32 8 y 8 by decide) y (only [] y node)
  rw [Function.update_idem] at wf₂
  obtain ⟨m₃,_,wf₃,_⟩ := listPushBack_does wf₂ (Function.update_self ..) ⟨by decide,by decide⟩ fun y node =>
    (show ∀ y ∈ nodes 64 [32], Apart 16 8 y 8 by decide) y (only [32] y node)
  rw [Function.update_idem] at wf₃
  exact ⟨m₃,_,wf₃,Function.update_self ..,only _⟩

theorem nat_strictWeak : ListSort.StrictWeak fun a b : Nat => decide (a < b) where
  irrefl := by simp
  trans := by
    intro a b c
    simp only [decide_eq_true_eq]
    omega
  tied := by
    intro a b c
    simp only [ListSort.equivalent,Bool.and_eq_true,Bool.not_eq_true',decide_eq_false_iff_not]
    omega

theorem list_sort_stable_two : ∃ (m m' : Memory) (f : Lists) (sorted : List Nat), f 64 = some [32,16] ∧
    listSort (fun a b => decide (a < b)) 64 m = .ok ((),m') ∧ sorted.Perm [32,16] := by
  obtain ⟨m,f,wf,here,_⟩ := two_linked
  obtain ⟨m',sorted,ran,_,perm,_⟩ := list_sort_stable nat_strictWeak wf here
  exact ⟨m,m',f,sorted,here,ran,perm⟩

end

end OsProj.KernelList
