import Mathlib.Data.List.Sort

/-! The natural merge sort of list.c on sequences. A pointer into the list is a cut of its
sequence; a pass finds two neighbouring runs at a time and merges them in place, and passes
are made until one leaves a single run. -/
namespace OsProj.ListSort

inductive Fault where
  | assertion
  | unending
  deriving DecidableEq, Repr

section
variable (less : α → α → Bool)

def isSorted : List α → Bool
  | a :: b :: rest => if less b a then false else isSorted (b :: rest)
  | _ => true

def runFrom (a : α) : List α → List α × List α
  | [] => ([],[])
  | b :: rest =>
    if less b a then ([],b :: rest)
    else
      let (run,after) := runFrom b rest
      (b :: run,after)

def findEndOfRun : List α → Except Fault (List α × List α)
  | [] => .error .assertion
  | a :: rest =>
    let (run,after) := runFrom less a rest
    .ok (a :: run,after)

/-- The loop of `inplace_merge`: the smaller of the two first elements is put before both. -/
def mergeLoop : List α → List α → List α
  | [],bs => bs
  | a :: as,[] => a :: as
  | a :: as,b :: bs => if less b a then b :: mergeLoop (a :: as) bs else a :: mergeLoop as (b :: bs)
termination_by as bs => as.length + bs.length

def inplaceMerge (as bs : List α) : Except Fault (List α) :=
  if isSorted less as && isSorted less bs then .ok (mergeLoop less as bs) else .error .assertion

/-- One pass: `done` is behind the pass, `rest` before it. Returns the number of output runs. -/
def passLoop : Nat → List α → List α → Nat → Except Fault (Nat × List α)
  | 0,_,_,_ => .error .unending
  | fuel + 1,done,rest,outputRunCnt =>
    if rest.isEmpty then .ok (outputRunCnt,done)
    else do
      let (as,after) ← findEndOfRun less rest
      if after.isEmpty then return (outputRunCnt + 1,done ++ as)
      let (bs,after') ← findEndOfRun less after
      let merged ← inplaceMerge less as bs
      passLoop fuel (done ++ merged) after' (outputRunCnt + 1)

def sortLoop : Nat → List α → Except Fault (List α)
  | 0,_ => .error .unending
  | fuel + 1,list => do
    let (outputRunCnt,list) ← passLoop less (list.length + 1) [] list 0
    if outputRunCnt > 1 then sortLoop fuel list else return list

/-- Each pass halves the number of runs, so there are no more passes than elements. -/
def listSort (list : List α) : Except Fault (List α) := do
  let list ← sortLoop less (list.length + 1) list
  if isSorted less list then return list else throw .assertion

/-- How often an element is less than the one before it. -/
def descents : List α → Nat
  | a :: b :: rest => (if less b a then 1 else 0) + descents (b :: rest)
  | _ => 0

def equivalent (a b : α) : Bool := !less a b && !less b a

def Stable (xs ys : List α) : Prop := ∀ a, ys.filter (equivalent less a) = xs.filter (equivalent less a)

end

structure StrictWeak (less : α → α → Bool) : Prop where
  irrefl : ∀ a, less a a = false
  trans : ∀ a b c, less a b = true → less b c = true → less a c = true
  tied : ∀ a b c, equivalent less a b = true → equivalent less b c = true → equivalent less a c = true

structure StrictTotal (less : α → α → Bool) : Prop where
  irrefl : ∀ a, less a a = false
  trans : ∀ a b c, less a b = true → less b c = true → less a c = true
  total : ∀ a b, less a b = true ∨ a = b ∨ less b a = true

section
variable {less : α → α → Bool}

theorem isSorted_descents (xs : List α) : isSorted less xs = true ↔ descents less xs = 0 := by
  fun_induction isSorted less xs with
  | case1 a b rest down => simp [descents,down]
  | case2 a b rest up ih =>
    rw [ih,descents,if_neg up,Nat.zero_add]
  | case3 xs short =>
    match xs with
    | [] => simp [descents]
    | [a] => simp [descents]
    | a :: b :: rest => exact absurd rfl (short a b rest)

theorem descents_append (less : α → α → Bool) (xs ys : List α) : descents less (xs ++ ys) ≤ descents less xs + descents less ys + 1 := by
  fun_induction descents less xs with
  | case1 a b rest ih =>
    rw [List.cons_append,List.cons_append,descents,← List.cons_append]
    omega
  | case2 xs short =>
    match xs with
    | [] => simp
    | [a] =>
      cases ys with
      | nil => simp [descents]
      | cons b ys =>
        rw [List.singleton_append,descents]
        split <;> omega
    | a :: b :: rest => exact absurd rfl (short a b rest)

/-- A run has no descent, and there is one right behind it. -/
theorem runFrom_spec (less : α → α → Bool) (a : α) (rest : List α) :
    rest = (runFrom less a rest).1 ++ (runFrom less a rest).2 ∧ descents less (a :: (runFrom less a rest).1) = 0 ∧
      ((runFrom less a rest).2 ≠ [] → descents less (a :: rest) = descents less (runFrom less a rest).2 + 1) := by
  induction rest generalizing a with
  | nil => simp [runFrom,descents]
  | cons b rest ih =>
    rw [runFrom]
    by_cases down : less b a = true
    · rw [if_pos down]
      simp [descents,down]
      omega
    · rw [if_neg down]
      obtain ⟨whole,level,next⟩ := ih b
      refine ⟨by simpa using whole,?_,?_⟩
      · rw [descents,if_neg down,level]
      · intro more
        rw [descents,if_neg down,next more,Nat.zero_add]

theorem findEndOfRun_spec (less : α → α → Bool) (nonempty : rest ≠ []) :
    ∃ run after, findEndOfRun less rest = .ok (run,after) ∧ rest = run ++ after ∧ run ≠ [] ∧ descents less run = 0 ∧
      (after ≠ [] → descents less rest = descents less after + 1) := by
  cases rest with
  | nil => contradiction
  | cons a rest =>
    obtain ⟨whole,level,next⟩ := runFrom_spec less a rest
    refine ⟨_,_,rfl,?_,List.cons_ne_nil _ _,level,next⟩
    rw [List.cons_append,← whole]

theorem mergeLoop_merge (as bs : List α) : mergeLoop less as bs = List.merge as bs fun a b => !less b a := by
  fun_induction mergeLoop less as bs with
  | case1 bs => simp
  | case2 a as => simp
  | case3 a as b bs down ih => simp [down,ih]
  | case4 a as b bs up ih => simp [up,ih]

theorem inplaceMerge_perm (merges : inplaceMerge less as bs = .ok merged) : merged.Perm (as ++ bs) := by
  unfold inplaceMerge at merges
  split at merges
  · obtain rfl := Except.ok.inj merges
    rw [mergeLoop_merge]
    exact List.merge_perm_append _
  · cases merges

theorem isChain_descents (xs : List α) : (xs.IsChain fun a b => (!less b a) = true) ↔ descents less xs = 0 := by
  fun_induction descents less xs with
  | case1 a b rest ih =>
    rw [List.isChain_cons_cons,ih]
    cases less b a <;> simp
  | case2 xs short =>
    match xs with
    | [] => simp
    | [a] => simp
    | a :: b :: rest => exact absurd rfl (short a b rest)

theorem StrictTotal.weak (order : StrictTotal less) : StrictWeak less where
  irrefl := order.irrefl
  trans := order.trans
  tied := by
    intro a b c first second
    simp only [equivalent,Bool.and_eq_true,Bool.not_eq_true'] at first second
    obtain below | rfl | above := order.total a b
    · exact absurd below (by simp [first.1])
    · simpa [equivalent] using second
    · exact absurd above (by simp [first.2])

theorem equivalent_symm (a b : α) : equivalent less a b = equivalent less b a := Bool.and_comm ..

theorem Stable.refl (less : α → α → Bool) (xs : List α) : Stable less xs xs := fun _ => rfl

theorem Stable.trans (first : Stable less xs ys) (second : Stable less ys zs) : Stable less xs zs :=
  fun a => (second a).trans (first a)

theorem Stable.append (left : Stable less xs xs') (right : Stable less ys ys') : Stable less (xs ++ ys) (xs' ++ ys') := by
  intro a
  rw [List.filter_append,List.filter_append,left a,right a]

variable (order : StrictWeak less)

include order

theorem StrictWeak.le_trans (a b c : α) (first : (!less b a) = true) (second : (!less c b) = true) : (!less c a) = true := by
  simp only [Bool.not_eq_true'] at first second ⊢
  by_contra down
  rw [Bool.not_eq_false] at down
  have upward : less a b = false := by
    by_contra below
    exact Bool.false_ne_true (second.symm.trans (order.trans c a b down (Bool.not_eq_false _ ▸ below)))
  have upward' : less b c = false := by
    by_contra below
    exact Bool.false_ne_true (first.symm.trans (order.trans b c a (Bool.not_eq_false _ ▸ below) down))
  have tied := order.tied a b c (by simp [equivalent,first,upward]) (by simp [equivalent,second,upward'])
  simp [equivalent,down] at tied

theorem Stable.pair (stable : Stable less xs ys) (tied : equivalent less a b = true) (before : [a,b].Sublist xs) :
    [a,b].Sublist ys := by
  have same : equivalent less a a = true := by simp [equivalent,order.irrefl]
  have kept := before.filter (equivalent less a)
  rw [List.filter_cons_of_pos same,List.filter_cons_of_pos tied,List.filter_nil,← stable a] at kept
  exact kept.trans List.filter_sublist

theorem StrictWeak.flip : StrictWeak fun a b => less b a where
  irrefl := order.irrefl
  trans := fun a b c first second => order.trans c b a second first
  tied := by
    intro a b c first second
    have turned : ∀ x y, equivalent (fun a b => less b a) x y = equivalent less x y := fun x y => Bool.and_comm ..
    rw [turned] at first second ⊢
    exact order.tied a b c first second

theorem StrictWeak.le_total (a b : α) : (!less b a || !less a b) = true := by
  by_contra neither
  simp only [Bool.or_eq_true,Bool.not_eq_true',not_or,Bool.not_eq_false] at neither
  exact Bool.false_ne_true ((order.irrefl a).symm.trans (order.trans a b a neither.2 neither.1))

/-- What is put before the rest of the first run is less than everything in it. -/
theorem mergeLoop_stable (sorted : as.Pairwise fun a b => (!less b a) = true) :
    Stable less (as ++ bs) (mergeLoop less as bs) := by
  fun_induction mergeLoop less as bs with
  | case1 bs => exact .refl less bs
  | case2 a as =>
    rw [List.append_nil]
    exact .refl less _
  | case3 a as b bs down ih =>
    intro x
    rw [List.filter_cons,ih sorted x]
    by_cases tied : equivalent less x b = true
    · have none : (a :: as).filter (equivalent less x) = [] := by
        rw [List.filter_eq_nil_iff]
        intro y inside same
        have above : (!less y a) = true := by
          rcases List.mem_cons.mp inside with rfl | later
          · simp [order.irrefl]
          · exact (List.pairwise_cons.mp sorted).1 y later
        have alike := order.tied b x y (equivalent_symm x b ▸ tied) same
        simp only [equivalent,Bool.and_eq_true] at alike
        have notDown := order.le_trans a y b above alike.1
        simp [down] at notDown
      rw [if_pos tied,List.filter_append,List.filter_append,none,List.filter_cons,if_pos tied]
      rfl
    · rw [if_neg tied,List.filter_append,List.filter_append,List.filter_cons_of_neg tied]
  | case4 a as b bs up ih =>
    intro x
    rw [List.cons_append,List.filter_cons,List.filter_cons,ih (List.pairwise_cons.mp sorted).2 x]

theorem pairwise_descents (xs : List α) : (xs.Pairwise fun a b => (!less b a) = true) ↔ descents less xs = 0 := by
  have : IsTrans α fun a b => (!less b a) = true := ⟨order.le_trans⟩
  rw [← List.isChain_iff_pairwise,isChain_descents]

theorem inplaceMerge_spec (levelA : descents less as = 0) (levelB : descents less bs = 0) :
    ∃ merged, inplaceMerge less as bs = .ok merged ∧ merged.Perm (as ++ bs) ∧ Stable less (as ++ bs) merged ∧
      descents less merged = 0 := by
  refine ⟨mergeLoop less as bs,?_,?_,mergeLoop_stable order ((pairwise_descents order as).mpr levelA),?_⟩
  · exact if_pos (by rw [Bool.and_eq_true,isSorted_descents,isSorted_descents]; exact ⟨levelA,levelB⟩)
  · rw [mergeLoop_merge]
    exact List.merge_perm_append _
  · rw [mergeLoop_merge,← pairwise_descents order]
    exact List.pairwise_merge order.le_trans order.le_total as bs ((pairwise_descents order as).mpr levelA)
      ((pairwise_descents order bs).mpr levelB)

/-- A pass leaves about half as many runs as there were, each without a descent inside. -/
theorem passLoop_spec (nonempty : rest ≠ []) (enough : rest.length < fuel) (done : List α) (cnt : Nat) :
    ∃ new k, passLoop less fuel done rest cnt = .ok (cnt + k,done ++ new) ∧ new.Perm rest ∧ Stable less rest new ∧
      descents less new + 1 ≤ k ∧ k ≤ descents less rest / 2 + 1 := by
  induction fuel generalizing rest done cnt with
  | zero => contradiction
  | succ fuel ih =>
    obtain ⟨as,after,foundA,whole,someA,levelA,nextA⟩ := findEndOfRun_spec less nonempty
    have notEmpty : ¬rest.isEmpty = true := by simpa using nonempty
    by_cases last : after = []
    · subst last
      rw [List.append_nil] at whole
      subst whole
      refine ⟨rest,1,?_,List.Perm.refl _,.refl less rest,by omega,by omega⟩
      rw [passLoop,if_neg notEmpty,foundA]
      rfl
    · obtain ⟨bs,after',foundB,whole',someB,levelB,nextB⟩ := findEndOfRun_spec less last
      obtain ⟨merged,ran,perm,stable,level⟩ := inplaceMerge_spec order levelA levelB
      have step : passLoop less (fuel + 1) done rest cnt = passLoop less fuel (done ++ merged) after' (cnt + 1) := by
        rw [passLoop,if_neg notEmpty,foundA]
        change (if after.isEmpty = true then _ else _) = _
        rw [if_neg (by simpa using last),foundB]
        change (inplaceMerge less as bs >>= fun merged => passLoop less fuel (done ++ merged) after' (cnt + 1)) = _
        rw [ran]
        rfl
      have reordered : rest.Perm (merged ++ after') := by
        rw [whole,whole',← List.append_assoc]
        exact perm.symm.append_right after'
      have unmoved : Stable less rest (merged ++ after') := by
        rw [whole,whole',← List.append_assoc]
        exact stable.append (.refl less after')
      have shorter : after'.length < fuel := by
        have first := List.length_pos_of_ne_nil someA
        rw [whole,whole',List.length_append,List.length_append] at enough
        omega
      rw [step]
      by_cases ended : after' = []
      · subst ended
        rw [List.append_nil] at reordered unmoved
        refine ⟨merged,1,?_,reordered.symm,unmoved,by omega,by omega⟩
        cases fuel with
        | zero => contradiction
        | succ fuel => rfl
      · obtain ⟨new,k,passed,perm',stable',few,half⟩ := ih ended shorter (done ++ merged) (cnt + 1)
        have joined := descents_append less merged new
        have counted := nextA last
        have counted' := nextB ended
        refine ⟨merged ++ new,k + 1,?_,?_,unmoved.trans (.append (.refl less merged) stable'),by omega,by omega⟩
        · rw [passed,List.append_assoc,Nat.add_assoc,Nat.add_comm 1 k]
        · exact (perm'.append_left merged).trans reordered.symm

theorem sortLoop_spec (enough : descents less list < fuel) :
    ∃ sorted, sortLoop less fuel list = .ok sorted ∧ sorted.Perm list ∧ Stable less list sorted ∧
      descents less sorted = 0 := by
  induction fuel generalizing list with
  | zero => contradiction
  | succ fuel ih =>
    by_cases empty : list = []
    · subst empty
      exact ⟨[],rfl,List.Perm.refl _,.refl less [],rfl⟩
    · obtain ⟨new,k,passed,perm,stable,few,half⟩ := passLoop_spec order empty (Nat.lt_succ_self _) [] 0
      rw [List.nil_append,Nat.zero_add] at passed
      rw [sortLoop,passed]
      change ∃ sorted, (if k > 1 then sortLoop less fuel new else .ok new) = .ok sorted ∧ _
      by_cases more : k > 1
      · obtain ⟨sorted,ran,perm',stable',level⟩ := ih (show descents less new < fuel by omega)
        exact ⟨sorted,by rw [if_pos more,ran],perm'.trans perm,stable.trans stable',level⟩
      · exact ⟨new,if_neg more,perm,stable,by omega⟩

omit order in
theorem descents_length (list : List α) : descents less list < list.length + 1 := by
  fun_induction descents less list with
  | case1 a b rest ih =>
    simp only [List.length_cons] at ih ⊢
    split <;> omega
  | case2 xs short => omega

/-- `list_sort` ends, no assertion fails, and the list is sorted. -/
theorem listSort_spec (list : List α) :
    ∃ sorted, listSort less list = .ok sorted ∧ sorted.Perm list ∧ Stable less list sorted ∧
      sorted.Pairwise fun a b => (!less b a) = true := by
  obtain ⟨sorted,ran,perm,stable,level⟩ := sortLoop_spec order (descents_length list)
  refine ⟨sorted,?_,perm,stable,(pairwise_descents order sorted).mpr level⟩
  rw [listSort,ran]
  exact if_pos ((isSorted_descents sorted).mpr level)

omit order in
/-- Lists with the same elements have one sorted order. -/
theorem listSort_perm (order : StrictTotal less) (same : list.Perm list') : listSort less list = listSort less list' := by
  obtain ⟨sorted,ran,perm,_,level⟩ := listSort_spec order.weak list
  obtain ⟨sorted',ran',perm',_,level'⟩ := listSort_spec order.weak list'
  have unique : sorted = sorted' := by
    refine List.Perm.eq_of_pairwise ?_ level level' (perm.trans (same.trans perm'.symm))
    intro a b _ _ up down
    simp only [Bool.not_eq_true'] at up down
    rcases order.total a b with less | equal | less
    · exact absurd less (by simp [down])
    · exact equal
    · exact absurd less (by simp [up])
  rw [ran,ran',unique]

end

end OsProj.ListSort
