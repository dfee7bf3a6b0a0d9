import OsProj.HashTableRuns
import OsProj.KernelListSort

/-! Iteration over a hash table of lib/kernel/hash.c in memory. The buckets are an array of
lists, and an iterator starts at the head of the first one as if that were an element. The
functions that call an action also return the elements they called it on, in order. -/
namespace OsProj.HashIteration

open OsProj.ByteMemory
open OsProj.Faulting
open OsProj.KernelList (Lists Node Clear WellFormed head tail nodes null addressLimit elemSize cut)

inductive Panic where
  | list (panic : KernelList.Panic)
  | outOfBounds
  | unending
  deriving DecidableEq, Repr

abbrev M := StateT Memory (Except Panic)

def onList (x : KernelList.M α) : M α := fun m => (x m).mapError .list

def bucketSize : Nat := 2 * elemSize

structure Table where
  elemCnt : Nat
  bucketCnt : Nat
  buckets : Nat

def Table.bucket (t : Table) (i : Nat) : Nat := t.buckets + bucketSize * i

/-- A pointer to a bucket that is about to be followed. -/
def follow (t : Table) (bucket : Nat) : M Unit :=
  if t.buckets ≤ bucket ∧ bucket + bucketSize ≤ t.bucket t.bucketCnt then pure () else throw .outOfBounds

/-! `hash_apply` -/

def applyLoop (action : Nat → Memory → Memory) (bucket : Nat) : Nat → Nat → M (List Nat)
  | 0,_ => throw .unending
  | fuel + 1,elem => do
    if elem = (← onList (KernelList.listEnd bucket)) then return []
    let next ← onList (KernelList.listNext elem)
    modify (action elem)
    return elem :: (← applyLoop action bucket fuel next)

def applyBuckets (t : Table) (action : Nat → Memory → Memory) : Nat → Nat → M (List Nat)
  | 0,_ => return []
  | n + 1,i => do
    let bucket := t.bucket i
    follow t bucket
    let calls ← applyLoop action bucket addressLimit (← onList (KernelList.listBegin bucket))
    return calls ++ (← applyBuckets t action n (i + 1))

def hashApply (t : Table) (action : Nat → Memory → Memory) : M (List Nat) := applyBuckets t action t.bucketCnt 0

/-! `hash_clear` -/

def drainLoop (destructor : Nat → Memory → Memory) (bucket : Nat) : Nat → M (List Nat)
  | 0 => throw .unending
  | fuel + 1 => do
    if ← onList (KernelList.listEmpty bucket) then return []
    let elem ← onList (KernelList.listPopFront bucket)
    modify (destructor elem)
    return elem :: (← drainLoop destructor bucket fuel)

def clearBuckets (t : Table) (destructor : Option (Nat → Memory → Memory)) : Nat → Nat → M (List Nat)
  | 0,_ => return []
  | n + 1,i => do
    let bucket := t.bucket i
    follow t bucket
    let calls ← match destructor with
      | some destructor => drainLoop destructor bucket addressLimit
      | none => pure []
    onList (KernelList.listInit bucket)
    return calls ++ (← clearBuckets t destructor n (i + 1))

def hashClear (t : Table) (destructor : Option (Nat → Memory → Memory)) : M (List Nat × Table) := do
  let calls ← clearBuckets t destructor t.bucketCnt 0
  return (calls,{ t with elemCnt := 0 })

/-! The iterator. -/

structure HashIterator where
  bucket : Nat
  elem : Nat

def listHead (list : Nat) : KernelList.M Nat := do
  KernelList.assert (list ≠ null)
  return head list

def hashFirst (t : Table) : M HashIterator := do
  return ⟨t.buckets,← onList (listHead t.buckets)⟩

def nextLoop (t : Table) : Nat → HashIterator → M HashIterator
  | 0,_ => throw .unending
  | fuel + 1,i => do
    if i.elem = (← onList (KernelList.listEnd i.bucket)) then
      let bucket := i.bucket + bucketSize
      if bucket ≥ t.bucket t.bucketCnt then return ⟨bucket,null⟩
      follow t bucket
      nextLoop t fuel ⟨bucket,← onList (KernelList.listBegin bucket)⟩
    else return i

def hashNext (t : Table) (i : HashIterator) : M HashIterator := do
  nextLoop t addressLimit ⟨i.bucket,← onList (KernelList.listNext i.elem)⟩

def visitLoop (t : Table) : Nat → HashIterator → M (List Nat)
  | 0,_ => throw .unending
  | fuel + 1,i => do
    let i ← hashNext t i
    if i.elem = null then return []
    return i.elem :: (← visitLoop t fuel i)

/-- The idiom that the comment of `hash_first` shows. -/
def visitAll (t : Table) : M (List Nat) := do visitLoop t addressLimit (← hashFirst t)

/-! Tables in memory. -/

/-- The buckets of the array hold the elements of the table's buckets, among other lists. -/
structure Stored (m : Memory) (f : Lists) (t : Table) (h : HashTable.Hash Nat) : Prop where
  wf : WellFormed m f
  elemCnt : t.elemCnt = h.elemCnt
  bucketCnt : t.bucketCnt = h.bucketCnt
  bucket : ∀ i < h.bucketCnt, f (t.bucket i) = some (h.buckets i)

def elemsFrom (h : HashTable.Hash Nat) (i n : Nat) : List Nat := (List.range' i n).flatMap h.buckets

def Local (f : Lists) (action : Nat → Memory → Memory) : Prop :=
  ∀ e m x, Node f x → Clear x e → Agree m (action e m) x elemSize

section
variable {m : Memory} {f : Lists} {t : Table} {h : HashTable.Hash Nat}

theorem onList_run {x : KernelList.M α} (went : x m = .ok (a,m')) : onList x m = .ok (a,m') := by
  unfold onList
  rw [went]
  rfl

theorem follow_run (inside : i < t.bucketCnt) : follow t (t.bucket i) m = .ok ((),m) := by
  have within : t.buckets ≤ t.bucket i ∧ t.bucket i + bucketSize ≤ t.bucket t.bucketCnt := by
    unfold Table.bucket bucketSize elemSize
    omega
  unfold follow
  rw [if_pos within]
  rfl

theorem bucket_injective (same : t.bucket i = t.bucket j) : i = j := by
  unfold Table.bucket bucketSize elemSize at same
  omega

theorem elemsFrom_succ (h : HashTable.Hash Nat) (i n : Nat) :
    elemsFrom h i (n + 1) = h.buckets i ++ elemsFrom h (i + 1) n := by
  unfold elemsFrom
  rw [List.range'_succ,List.flatMap_cons]

/-- The successor of any element but the last header. -/
theorem next_of_split (wf : WellFormed m f) (here : f l = some zs) (whole : head l :: zs = xs ++ y :: ys) :
    KernelList.listNext y m = .ok (cut l ys,m) ∧ KernelList.next m y = cut l ys := by
  have chain := (wf.shaped here).chain
  have order : nodes l zs = (xs ++ [y]) ++ (ys ++ [tail l]) := by
    unfold nodes
    rw [whole]
    simp
  rw [order] at chain
  have ahead : KernelList.next m y = cut l ys := (chain.linked List.getLast?_concat (KernelList.head_cut l ys)).1
  obtain ⟨placed,more⟩ := wf.followed here (show y ∈ head l :: zs by simp [whole])
  rw [KernelList.listNext_run placed more,ahead]
  exact ⟨rfl,rfl⟩

theorem later_clear (wf : WellFormed m f) (here : f l = some (xs ++ y :: ys)) : ∀ x ∈ ys, Clear y x := by
  have distinct := wf.distinct here
  rw [show nodes l (xs ++ y :: ys) = (head l :: xs) ++ (y :: (ys ++ [tail l])) by simp [nodes]] at distinct
  obtain ⟨_,distinct,_⟩ := List.pairwise_append.mp distinct
  intro x later
  exact (List.pairwise_cons.mp distinct).1 x (List.mem_append_left _ later)

/-! An action on every element. -/

theorem actions_agree {elems : List Nat} (local_ : Local f action) (node : Node f x) (clear : ∀ e ∈ elems, Clear x e) (m : Memory) :
    Agree m (elems.foldl (fun m e => action e m) m) x elemSize := by
  induction elems generalizing m with
  | nil =>
    intro b _ _
    rfl
  | cons e elems ih =>
    intro b low high
    have first := local_ e m x node (clear e List.mem_cons_self) b low high
    exact first.trans (ih (fun e inside => clear e (List.mem_cons_of_mem _ inside)) (action e m) b low high)

/-- The action sees each element of a bucket once; the memory it leaves elsewhere is as before. -/
theorem applyLoop_run (wf : WellFormed m f) (here : f l = some (xs ++ ys)) (local_ : Local f action)
    (enough : ys.length < fuel) (same : ∀ x ∈ ys, Agree m m' x elemSize) :
    applyLoop action l fuel (cut l ys) m' = .ok (ys,ys.foldl (fun m e => action e m) m') := by
  induction fuel generalizing m' xs ys with
  | zero => contradiction
  | succ fuel ih =>
    have ended : onList (KernelList.listEnd l) m' = .ok (tail l,m') :=
      onList_run (KernelList.listEnd_run (wf.list_placed here))
    rw [applyLoop,bind_go ended]
    cases ys with
    | nil =>
      rw [KernelList.cut_nil,if_pos rfl]
      rfl
    | cons y ys =>
      have inside : cut l (y :: ys) ≠ tail l :=
        wf.inside_cut here (List.cons_ne_nil y ys)
      have ahead := (wf.linked_cut here).1
      rw [← KernelList.next_congr (same y List.mem_cons_self)] at ahead
      have placed := wf.followed here (show y ∈ head l :: (xs ++ y :: ys) by simp)
      have next : onList (KernelList.listNext y) m' = .ok (cut l ys,m') := by
        rw [← ahead]
        refine onList_run (KernelList.listNext_run placed.1 ?_)
        rw [KernelList.next_congr (same y List.mem_cons_self)]
        exact placed.2
      have same' : ∀ x ∈ ys, Agree m (action y m') x elemSize := by
        intro x later b low high
        have node : Node f x := ⟨l,_,here,by simp [nodes,later]⟩
        have kept := local_ y m' x node (later_clear wf here x later).symm
        exact (same x (List.mem_cons_of_mem _ later) b low high).trans (kept b low high)
      have rest := ih (show f l = some ((xs ++ [y]) ++ ys) by simpa using here) (by simpa using enough) same'
      rw [if_neg inside,KernelList.cut_cons,bind_go next]
      change (applyLoop action l fuel (cut l ys) >>= fun calls => pure (y :: calls)) (action y m') = _
      rw [bind_go rest]
      rfl

theorem Stored.clear (stored : Stored m f t h) (inI : i < h.bucketCnt) (inJ : j < h.bucketCnt) (other : i ≠ j)
    (hereI : x ∈ nodes (t.bucket i) (h.buckets i)) (hereJ : y ∈ nodes (t.bucket j) (h.buckets j)) : Clear x y :=
  stored.wf.apart (stored.bucket i inI) (stored.bucket j inJ) (fun same => other (bucket_injective same)) x hereI y hereJ

theorem applyBuckets_run (stored : Stored m f t h) (local_ : Local f action) (range : i + n = h.bucketCnt)
    (same : ∀ j, i ≤ j → j < h.bucketCnt → ∀ x ∈ nodes (t.bucket j) (h.buckets j), Agree m m' x elemSize) :
    applyBuckets t action n i m' = .ok (elemsFrom h i n,(elemsFrom h i n).foldl (fun m e => action e m) m') := by
  induction n generalizing i m' with
  | zero => rfl
  | succ n ih =>
    have inside : i < h.bucketCnt := by omega
    have here := stored.bucket i inside
    have short := stored.wf.length_lt here
    have began : onList (KernelList.listBegin (t.bucket i)) m' = .ok (cut (t.bucket i) (h.buckets i),m') := by
      have start := (stored.wf.point (KernelList.from_start here) rfl (KernelList.head_cut _ _)).1
      rw [← KernelList.next_congr (same i (Nat.le_refl _) inside _ (by simp [nodes]))] at start
      refine onList_run ?_
      rw [KernelList.listBegin_run (stored.wf.list_placed here)]
      exact congrArg (fun p => Except.ok (p,m')) start
    have looped := applyLoop_run stored.wf (KernelList.from_start here) local_ (show _ < addressLimit by omega)
      (fun x member => same i (Nat.le_refl _) inside x (by simp [nodes,member]))
    have same' : ∀ j, i + 1 ≤ j → j < h.bucketCnt → ∀ x ∈ nodes (t.bucket j) (h.buckets j),
        Agree m ((h.buckets i).foldl (fun m e => action e m) m') x elemSize := by
      intro j after below x member b low high
      have away : ∀ e ∈ h.buckets i, Clear x e := fun e among =>
        stored.clear below inside (by omega) member (by simp [nodes,among])
      have kept := actions_agree local_ ⟨_,_,stored.bucket j below,member⟩ away m'
      exact (same j (by omega) below x member b low high).trans (kept b low high)
    have rest := ih (by omega) same'
    rw [applyBuckets,bind_go (follow_run (by rw [stored.bucketCnt]; exact inside)),bind_go began,bind_go looped,bind_go rest,
      elemsFrom_succ,List.foldl_append]
    rfl

/-! Removal of every element. -/

/-- The elements of a bucket are taken out one after the other, each given to the destructor. -/
theorem drainLoop_run (wf : WellFormed m f) (here : f l = some ys) (local_ : Local f destructor) (enough : ys.length < fuel) :
    ∃ m', drainLoop destructor l fuel m = .ok (ys,m') ∧ WellFormed m' (Function.update f l (some [])) := by
  induction fuel generalizing m f ys with
  | zero => contradiction
  | succ fuel ih =>
    rw [drainLoop]
    cases ys with
    | nil =>
      have ahead := (wf.point (KernelList.from_start here) rfl (KernelList.head_cut l [])).1
      have empty : onList (KernelList.listEmpty l) m = .ok (true,m) := by
        apply onList_run
        rw [KernelList.listEmpty_run (wf.list_placed here),show KernelList.next m l = tail l from ahead,BEq.rfl]
      rw [bind_go empty]
      refine ⟨m,rfl,?_⟩
      rwa [← here,Function.update_eq_self]
    | cons y ys =>
      have full := onList_run (wf.nonempty here rfl)
      obtain ⟨m₁,popped,wf₁,_⟩ := KernelList.listPopFront_does wf here
      have fresh := KernelList.removed_fresh wf (show f l = some ([] ++ [y] ++ ys) from here)
      have sub : ys ⊆ y :: ys := List.subset_cons_self y ys
      have fewer : ∀ x, Node (Function.update f l (some ys)) x → Node f x := fun x => KernelList.node_sub here sub
      have local₁ : Local (Function.update f l (some ys)) destructor := fun e m x node => local_ e m x (fewer x node)
      have wf₂ := wf₁.congr fun x node => local_ y m₁ x (fewer x node) (fresh.2 x node).symm
      obtain ⟨m',ran,wf'⟩ := ih wf₂ (Function.update_self ..) local₁ (by simpa using enough)
      rw [Function.update_idem] at wf'
      refine ⟨m',?_,wf'⟩
      rw [bind_go full,if_neg Bool.false_ne_true,bind_go (onList_run popped)]
      change (drainLoop destructor l fuel >>= fun calls => pure (y :: calls)) (destructor y m₁) = _
      rw [bind_go ran]
      rfl

def emptied (t : Table) (f : Lists) (i n : Nat) : Lists :=
  (List.range' i n).foldl (fun f j => Function.update f (t.bucket j) (some [])) f

theorem emptied_bucket (t : Table) (f : Lists) (i n : Nat) (j : Nat) :
    emptied t f i n (t.bucket j) = if i ≤ j ∧ j < i + n then some [] else f (t.bucket j) := by
  induction n generalizing f i with
  | zero => exact (if_neg (by omega)).symm
  | succ n ih =>
    unfold emptied at ih ⊢
    rw [List.range'_succ,List.foldl_cons,ih]
    by_cases first : j = i
    · subst first
      rw [if_neg (by omega),if_pos (by omega),Function.update_self]
    · rw [Function.update_of_ne (fun same => first (bucket_injective same))]
      by_cases later : i + 1 ≤ j ∧ j < i + 1 + n
      · rw [if_pos later,if_pos (by omega)]
      · rw [if_neg later,if_neg (by omega)]

theorem clearBuckets_run (wf : WellFormed m f) (buckets : ∀ j, i ≤ j → j < i + n → f (t.bucket j) = some (h.buckets j))
    (local_ : Local f destructor) (range : i + n = t.bucketCnt) :
    ∃ m', clearBuckets t (some destructor) n i m = .ok (elemsFrom h i n,m') ∧ WellFormed m' (emptied t f i n) := by
  induction n generalizing i m f with
  | zero => exact ⟨m,rfl,wf⟩
  | succ n ih =>
    have here := buckets i (Nat.le_refl _) (by omega)
    have short := wf.length_lt here
    obtain ⟨m₁,drained,wf₁⟩ := drainLoop_run wf here local_ (show _ < addressLimit by omega)
    have empty := Function.update_self (t.bucket i) (some []) f
    have placed : ∀ x ∈ nodes (t.bucket i) [], KernelList.Placed x := fun x inside => wf₁.placed ⟨_,_,empty,inside⟩
    obtain ⟨m₂,made,wf₂,_⟩ := KernelList.listInit_does wf₁ (placed _ (by simp [nodes])) (placed _ (by simp [nodes])) fun y there =>
      ⟨wf₁.elsewhere empty (by simp [nodes]) there,wf₁.elsewhere empty (by simp [nodes]) there⟩
    rw [Function.update_idem] at wf₂
    have buckets₂ : ∀ j, i + 1 ≤ j → j < i + 1 + n →
        Function.update f (t.bucket i) (some []) (t.bucket j) = some (h.buckets j) := by
      intro j after below
      rw [Function.update_of_ne (fun same => by have := bucket_injective same; omega)]
      exact buckets j (by omega) (by omega)
    have local₂ : Local (Function.update f (t.bucket i) (some [])) destructor := fun e m x node =>
      local_ e m x (KernelList.node_sub here (List.nil_subset _) node)
    obtain ⟨m₃,rest,wf₃⟩ := ih wf₂ buckets₂ local₂ (by omega)
    refine ⟨m₃,?_,?_⟩
    · rw [clearBuckets,bind_go (follow_run (by omega)),elemsFrom_succ]
      change (drainLoop destructor (t.bucket i) addressLimit >>= fun calls => _) m = _
      rw [bind_go drained,bind_go (onList_run made),bind_go rest]
      rfl
    · unfold emptied at wf₃ ⊢
      rw [List.range'_succ,List.foldl_cons]
      exact wf₃

/-! The iterator. -/

/-- An iterator at an element or a head, with the elements that are still to come. -/
def At (t : Table) (h : HashTable.Hash Nat) (i : HashIterator) (rest : List Nat) : Prop :=
  ∃ k xs ys, k < h.bucketCnt ∧ i.bucket = t.bucket k ∧ head (t.bucket k) :: h.buckets k = xs ++ i.elem :: ys ∧
    rest = ys ++ elemsFrom h (k + 1) (h.bucketCnt - (k + 1))

/-- A pointer behind the elements that a bucket has had moves on to the next element there is. -/
theorem nextLoop_run (stored : Stored m f t h) (inside : k < h.bucketCnt)
    (whole : head (t.bucket k) :: h.buckets k = zs ++ ys) (some_ : zs ≠ []) (enough : h.bucketCnt < fuel + k) :
    ∃ i, nextLoop t fuel ⟨t.bucket k,cut (t.bucket k) ys⟩ m = .ok (i,m) ∧
      (ys ++ elemsFrom h (k + 1) (h.bucketCnt - (k + 1)) = [] ∧ i.elem = null ∨
        ∃ e rest, ys ++ elemsFrom h (k + 1) (h.bucketCnt - (k + 1)) = e :: rest ∧ i.elem = e ∧ e ≠ null ∧ At t h i rest) := by
  induction fuel generalizing k zs ys with
  | zero => omega
  | succ fuel ih =>
    have here := stored.bucket k inside
    have posL := stored.wf.list_placed here
    rw [nextLoop,bind_go (onList_run (KernelList.listEnd_run posL))]
    cases ys with
    | nil =>
      rw [KernelList.cut_nil,if_pos rfl,List.nil_append]
      have addr : t.bucket k + bucketSize = t.bucket (k + 1) := by
        unfold Table.bucket
        rw [Nat.mul_succ,Nat.add_assoc]
      simp only [addr]
      by_cases last : k + 1 = h.bucketCnt
      · have stop : t.bucket (k + 1) ≥ t.bucket t.bucketCnt := by
          rw [stored.bucketCnt,last]
        rw [if_pos stop]
        refine ⟨_,rfl,.inl ⟨?_,rfl⟩⟩
        rw [last,Nat.sub_self]
        rfl
      · have next : k + 1 < h.bucketCnt := by omega
        have go_on : ¬ t.bucket (k + 1) ≥ t.bucket t.bucketCnt := by
          rw [stored.bucketCnt]
          unfold Table.bucket bucketSize elemSize
          omega
        have here' := stored.bucket (k + 1) next
        rw [if_neg go_on,bind_go (follow_run (by rw [stored.bucketCnt]; exact next)),
          bind_go (onList_run (stored.wf.begin_cut here'))]
        obtain ⟨i,ran,rest⟩ := ih next (show _ = [head (t.bucket (k + 1))] ++ h.buckets (k + 1) from rfl) (by simp) (by omega)
        have count : h.bucketCnt - (k + 1) = h.bucketCnt - (k + 1 + 1) + 1 := by omega
        rw [count,elemsFrom_succ]
        exact ⟨i,ran,rest⟩
    | cons y ys =>
      obtain ⟨z,zs,rfl⟩ := List.exists_cons_of_ne_nil some_
      obtain ⟨rfl,inner⟩ := List.cons.inj whole
      have other : cut (t.bucket k) (y :: ys) ≠ tail (t.bucket k) :=
        stored.wf.inside_cut (show f (t.bucket k) = some (zs ++ (y :: ys)) by simp [here,inner]) (List.cons_ne_nil y ys)
      rw [if_neg other,KernelList.cut_cons]
      refine ⟨_,rfl,.inr ⟨y,_,rfl,rfl,?_,k,head (t.bucket k) :: zs,ys,inside,rfl,whole,rfl⟩⟩
      have placed := stored.wf.placed ⟨_,_,here,show y ∈ nodes (t.bucket k) (h.buckets k) by simp [nodes,inner]⟩
      exact Nat.ne_of_gt placed.1

theorem Stored.few (stored : Stored m f t h) : h.bucketCnt < addressLimit := by
  cases count : h.bucketCnt with
  | zero => decide
  | succ n =>
    have here := stored.bucket n (by omega)
    have placed := stored.wf.placed ⟨_,_,here,show tail (t.bucket n) ∈ nodes (t.bucket n) (h.buckets n) by simp [nodes]⟩
    obtain ⟨_,fits⟩ := placed
    unfold tail Table.bucket bucketSize elemSize at fits
    omega

theorem hashNext_run (stored : Stored m f t h) (here : At t h i rest) :
    ∃ i', hashNext t i m = .ok (i',m) ∧
      (rest = [] ∧ i'.elem = null ∨ ∃ e rest', rest = e :: rest' ∧ i'.elem = e ∧ e ≠ null ∧ At t h i' rest') := by
  obtain ⟨k,xs,ys,inside,bucket,whole,rfl⟩ := here
  have few := stored.few
  obtain ⟨ahead,_⟩ := next_of_split stored.wf (stored.bucket k inside) whole
  unfold hashNext
  rw [bind_go (onList_run ahead),bucket]
  exact nextLoop_run stored inside (show _ = (xs ++ [i.elem]) ++ ys by simp [whole]) (by simp) (by omega)

/-- The loop over the iterator gives the elements that are to come, and stops. -/
theorem visitLoop_run (stored : Stored m f t h) (here : At t h i rest) (enough : rest.length < fuel) :
    visitLoop t fuel i m = .ok (rest,m) := by
  induction fuel generalizing i rest with
  | zero => contradiction
  | succ fuel ih =>
    rw [visitLoop]
    obtain ⟨i',moved,⟨rfl,ended⟩ | ⟨e,rest,rfl,found,real,here'⟩⟩ := hashNext_run stored here
    · rw [bind_go moved,if_pos ended]
      rfl
    · rw [bind_go moved,if_neg (by rw [found]; exact real),bind_go (ih here' (by simpa using enough)),found]
      rfl

theorem hashFirst_run (stored : Stored m f t h) (some_ : 0 < h.bucketCnt) :
    ∃ i, hashFirst t m = .ok (i,m) ∧ At t h i (elemsFrom h 0 h.bucketCnt) := by
  have first : t.bucket 0 = t.buckets := rfl
  have here := stored.bucket 0 some_
  have placed := KernelList.nonnull (stored.wf.list_placed here)
  rw [first] at placed
  have headed : listHead t.buckets m = .ok (head t.buckets,m) := by
    unfold listHead
    rw [bind_go (KernelList.assert_run placed)]
    rfl
  refine ⟨⟨t.buckets,head t.buckets⟩,?_,0,[],h.buckets 0,some_,rfl,rfl,?_⟩
  · unfold hashFirst
    rw [bind_go (onList_run headed)]
    rfl
  · obtain ⟨n,count⟩ : ∃ n, h.bucketCnt = n + 1 := ⟨h.bucketCnt - 1,by omega⟩
    rw [count,elemsFrom_succ]
    rfl

theorem elements_few (stored : Stored m f t h) (nodup : (elemsFrom h 0 h.bucketCnt).Nodup) :
    (elemsFrom h 0 h.bucketCnt).length < addressLimit := by
  have placed : ∀ e ∈ elemsFrom h 0 h.bucketCnt, KernelList.Placed e := by
    intro e inside
    obtain ⟨k,within,member⟩ := List.mem_flatMap.mp inside
    have below : k < h.bucketCnt := by
      simp only [List.mem_range'_1] at within
      omega
    exact stored.wf.placed ⟨_,_,stored.bucket k below,by simp [nodes,member]⟩
  have absent : null ∉ elemsFrom h 0 h.bucketCnt := fun inside => absurd (placed _ inside).1 (Nat.lt_irrefl _)
  have bounded : null :: elemsFrom h 0 h.bucketCnt ⊆ List.range addressLimit := by
    intro e inside
    rw [List.mem_range]
    rcases List.mem_cons.mp inside with rfl | inside
    · decide
    · exact (placed e inside).fits
  have short := (List.subperm_of_subset (List.nodup_cons.mpr ⟨absent,nodup⟩) bounded).length_le
  simp only [List.length_cons,List.length_range] at short
  omega

end

/-- In a table that satisfies its invariant the iterator, `hash_apply` and `hash_clear` each reach
every element once; the last leaves the empty table. -/
theorem hash_iteration_complete {hash : Nat → UInt32} {less : Nat → Nat → Bool} {h : HashTable.Hash Nat} {S : Finset Nat}
    (rep : HashTable.Represents hash less h S) (stored : Stored m f t h) (local_ : Local f action) :
    ∃ elems : List Nat, elems.Nodup ∧ elems.toFinset = S ∧ visitAll t m = .ok (elems,m) ∧
      hashApply t action m = .ok (elems,elems.foldl (fun m e => action e m) m) ∧
      ∃ m' t', hashClear t (some action) m = .ok ((elems,t'),m') ∧ t'.elemCnt = 0 ∧
        Stored m' (emptied t f 0 t.bucketCnt) t' (HashTable.hashClear h true).2 := by
  have whole : elemsFrom h 0 h.bucketCnt = (List.range h.bucketCnt).flatMap h.buckets := by
    unfold elemsFrom
    rw [List.range_eq_range']
  obtain ⟨nodup,elems⟩ := rep.laid.elems
  rw [← whole] at nodup elems
  have some_ : 0 < h.bucketCnt := Nat.lt_of_lt_of_le (by decide) rep.laid.enough
  refine ⟨elemsFrom h 0 h.bucketCnt,nodup,elems,?_,?_,?_⟩
  · obtain ⟨i,started,here⟩ := hashFirst_run stored some_
    unfold visitAll
    rw [bind_go started]
    exact visitLoop_run stored here (elements_few stored nodup)
  · unfold hashApply
    rw [stored.bucketCnt]
    exact applyBuckets_run stored local_ (Nat.zero_add _) fun _ _ _ _ _ _ _ _ => rfl
  · obtain ⟨m',cleared,wf'⟩ := clearBuckets_run stored.wf (fun j _ below => stored.bucket j (by
      rw [stored.bucketCnt] at below; omega)) local_ (Nat.zero_add t.bucketCnt)
    refine ⟨m',{ t with elemCnt := 0 },?_,rfl,wf',rfl,stored.bucketCnt,?_⟩
    · unfold hashClear
      rw [bind_go cleared,stored.bucketCnt]
      rfl
    · intro i inside
      change emptied t f 0 t.bucketCnt (t.bucket i) = some []
      have inside' : i < h.bucketCnt := inside
      rw [emptied_bucket,if_pos ⟨Nat.zero_le _,by rw [stored.bucketCnt]; omega⟩]

/-- Empty lists in a row. -/
theorem buckets_linked (n : Nat) (small : 64 + 16 * n ≤ addressLimit) : ∃ m f, WellFormed m f ∧
    (∀ i < n, f (64 + 16 * i) = some []) ∧ ∀ y, Node f y → y + 8 ≤ 64 + 16 * n := by
  induction n with
  | zero =>
    refine ⟨fun _ => 0,fun _ => none,.empty _,nofun,?_⟩
    rintro y ⟨_,_,found,_⟩
    cases found
  | succ n ih =>
    obtain ⟨m,f,wf,lists,low⟩ := ih (by omega)
    have free : ∀ y, KernelList.Elsewhere f (64 + 16 * n) y → Clear (head (64 + 16 * n)) y ∧ Clear (tail (64 + 16 * n)) y := by
      intro y there
      have below := low y there.node
      unfold Clear Apart head tail elemSize
      omega
    have placed : KernelList.Placed (head (64 + 16 * n)) ∧ KernelList.Placed (tail (64 + 16 * n)) := by
      unfold KernelList.Placed head tail elemSize
      omega
    obtain ⟨m',_,wf',_⟩ := KernelList.listInit_does wf placed.1 placed.2 free
    refine ⟨m',_,wf',?_,?_⟩
    · intro i below
      by_cases last : i = n
      · rw [last,Function.update_self]
      · rw [Function.update_of_ne (by omega)]
        exact lists i (by omega)
    · intro y node
      rcases KernelList.node_update.mp node with inside | there
      · simp only [nodes,head,tail,elemSize,List.mem_append,List.mem_cons,List.not_mem_nil,or_false] at inside
        omega
      · have below := low y there.node
        omega

/-- A table of four buckets whose second one has an element, with an action that does nothing. -/
theorem hash_iteration_complete_one : ∃ (m : Memory) (t : Table) (elems : List Nat),
    elems.toFinset = {512} ∧ visitAll t m = .ok (elems,m) := by
  obtain ⟨m,f,wf,lists,low⟩ := buckets_linked 4 (by decide)
  have placed : KernelList.Placed 512 := by
    unfold KernelList.Placed elemSize addressLimit
    omega
  have clear : ∀ y, Node f y → Clear 512 y := by
    intro y node
    have below := low y node
    unfold Clear Apart elemSize
    omega
  obtain ⟨m',_,wf',_⟩ := KernelList.listPushBack_does wf (lists 1 (by decide)) placed clear
  have hashed : ∀ e, HashTable.findBucket (fun _ : Nat => 1) ⟨1,4,Function.update (fun _ => []) 1 [512]⟩ e = 1 :=
    fun _ => show (1 : UInt32).toNat &&& 3 = 1 by decide
  have laid : HashTable.Laid (fun _ => 1) ⟨1,4,Function.update (fun _ => []) 1 [512]⟩ {512} := by
    refine ⟨⟨2,rfl⟩,Nat.le_refl _,?_,?_⟩
    · intro i _ e
      rw [hashed]
      by_cases one : i = 1
      · simp [one]
      · simp [one,Ne.symm one]
    · intro i _
      by_cases one : i = 1 <;> simp [one]
  have rep : HashTable.Represents (fun _ => 1) (fun a b => decide (a < b)) ⟨1,4,Function.update (fun _ => []) 1 [512]⟩ {512} :=
    ⟨laid,rfl,by simp⟩
  have stored : Stored m' (Function.update f (64 + 16 * 1) (some ([] ++ [512]))) ⟨1,4,64⟩
      ⟨1,4,Function.update (fun _ => []) 1 [512]⟩ := by
    refine ⟨wf',rfl,rfl,fun i inside => ?_⟩
    change Function.update f (64 + 16 * 1) (some [512]) (64 + 16 * i) = some (Function.update (fun _ => []) 1 [512] i)
    by_cases one : i = 1
    · rw [one,Function.update_self,Function.update_self]
    · rw [Function.update_of_ne (by omega),Function.update_of_ne one]
      exact lists i inside
  have idle : Local (Function.update f (64 + 16 * 1) (some ([] ++ [512]))) fun _ m => m := fun _ _ _ _ _ _ _ _ => rfl
  obtain ⟨elems,_,same,visited,_⟩ := hash_iteration_complete rep stored idle
  exact ⟨m',_,elems,same,visited⟩

end OsProj.HashIteration
