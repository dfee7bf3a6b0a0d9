import OsProj.MallocRelease
import OsProj.KernelListRuns

/-! Runs of the kernel allocator: the descriptors are made once, then clients call it in any
order and write to their blocks, and the page allocator has pages or has none. -/
namespace OsProj.Malloc

open OsProj.ByteMemory
open OsProj.Faulting
open OsProj.KernelList (Lists WellFormed Node Clear Placed Does Elsewhere elemSize sizeMod null listInit listInit_does)

def Heap.empty : Heap := ⟨[],fun _ => []⟩

def listsUpto (descs j : Nat) : Lists := fun l => if freeList descs + descSize * j ≤ l then none else Heap.empty.lists descs l

theorem listsUpto_some : listsUpto descs j l = some xs ↔ ∃ i : Class, i.val < j ∧ l = freeList (descAt descs i) ∧ xs = [] := by
  unfold listsUpto
  split
  · rename_i beyond
    constructor
    · intro found
      cases found
    · rintro ⟨i,early,rfl,_⟩
      unfold freeList descAt descSize at beyond
      omega
  · rename_i within
    rw [lists_some]
    constructor
    · rintro ⟨i,rfl,rfl⟩
      refine ⟨i,?_,rfl,rfl⟩
      unfold freeList descAt descSize at within
      omega
    · rintro ⟨i,_,rfl,rfl⟩
      exact ⟨i,rfl,rfl⟩

theorem listsUpto_node (node : Node (listsUpto descs j) x) :
    ∃ i : Class, i.val < j ∧ (x = freeList (descAt descs i) ∨ x = freeList (descAt descs i) + elemSize) := by
  obtain ⟨l,xs,here,inside⟩ := node
  obtain ⟨i,early,rfl,rfl⟩ := listsUpto_some.mp here
  refine ⟨i,early,?_⟩
  simpa [KernelList.nodes,KernelList.head,KernelList.tail] using inside

theorem listsUpto_next (descs : Nat) (i : Class) :
    Function.update (listsUpto descs i.val) (freeList (descAt descs i)) (some []) = listsUpto descs (i.val + 1) := by
  funext l
  apply Option.ext
  intro xs
  rw [listsUpto_some]
  by_cases same : l = freeList (descAt descs i)
  · subst same
    rw [Function.update_self,Option.some.injEq]
    constructor
    · intro empty
      exact ⟨i,Nat.lt_succ_self _,rfl,empty.symm⟩
    · rintro ⟨_,_,_,rfl⟩
      rfl
  · rw [Function.update_of_ne same,listsUpto_some]
    constructor
    · rintro ⟨k,early,rest⟩
      exact ⟨k,Nat.lt_succ_of_lt early,rest⟩
    · rintro ⟨k,early,here,empty⟩
      refine ⟨k,?_,here,empty⟩
      have other : k ≠ i := by
        rintro rfl
        exact same here
      have differ : k.val ≠ i.val := fun both => other (Fin.ext both)
      omega

structure Started (descs : Nat) (m : Memory) (j : Nat) : Prop where
  desc : ∀ i : Class, i.val < j → load m (descAt descs i) 4 = classSize i ∧ load m (descAt descs i + 4) 4 = perArena i
  lists : WellFormed m (listsUpto descs j)

theorem Started.zero (descs : Nat) (m : Memory) : Started descs m 0 where
  desc := fun i early => absurd early (Nat.not_lt_zero _)
  lists := by
    have none_ : listsUpto descs 0 = fun _ => none := by
      funext l
      apply Option.ext
      intro xs
      rw [listsUpto_some]
      constructor
      · rintro ⟨i,early,_⟩
        exact absurd early (Nat.not_lt_zero _)
      · intro found
        cases found
    rw [none_]
    exact WellFormed.empty m

def withSizes (descs : Nat) (m : Memory) (i : Class) : Memory :=
  store (store m (descAt descs i + 0) 4 (classSize i)) (descAt descs i + 4) 4 (perArena i)

theorem withSizes_outside (outside : b < descAt descs i ∨ descAt descs i + 8 ≤ b) (m : Memory) : withSizes descs m i b = m b := by
  unfold withSizes store
  rw [if_neg (by omega),if_neg (by omega)]

theorem withSizes_load (descs : Nat) (m : Memory) (i : Class) :
    load (withSizes descs m i) (descAt descs i) 4 = classSize i ∧ load (withSizes descs m i) (descAt descs i + 4) 4 = perArena i := by
  have size := (class_bounds i).2
  have few := (perArena_bounds i).2.1
  unfold withSizes
  constructor
  · rw [load_store_apart (.inr (by omega)),Nat.add_zero,load_store_same]
    exact Nat.mod_eq_of_lt (by omega)
  · rw [load_store_same]
    exact Nat.mod_eq_of_lt (by omega)

theorem Started.sizes (started : Started descs m i.val) : Started descs (withSizes descs m i) i.val where
  desc := by
    intro k early
    have kept : Agree (withSizes descs m i) m (descAt descs k) 8 := by
      intro b low high
      refine withSizes_outside ?_ m
      unfold descAt descSize at *
      omega
    rw [load_congr (kept.mono (by omega)),load_congr (kept.mono (by omega))]
    exact started.desc k early
  lists := by
    refine started.lists.congr ?_
    intro x node b low high
    obtain ⟨k,early,where_⟩ := listsUpto_node node
    refine (withSizes_outside ?_ m).symm
    unfold freeList descAt descSize elemSize at *
    omega

/-- One descriptor more. -/
theorem Started.next (started : Started descs m i.val) (placed : 0 < descs ∧ descs + descSize * descMax ≤ sizeMod) :
    ∃ m', listInit (freeList (descAt descs i)) (withSizes descs m i) = .ok ((),m') ∧ Started descs m' (i.val + 1) := by
  have desc := desc_within descs i
  have head : Placed (freeList (descAt descs i)) := by
    unfold Placed freeList KernelList.addressLimit
    unfold sizeMod descSize elemSize at *
    omega
  have tail : Placed (freeList (descAt descs i) + elemSize) := by
    unfold Placed freeList KernelList.addressLimit
    unfold sizeMod descSize elemSize at *
    omega
  have sized := started.sizes
  have free : ∀ y, Elsewhere (listsUpto descs i.val) (freeList (descAt descs i)) y →
      Clear (freeList (descAt descs i)) y ∧ Clear (freeList (descAt descs i) + elemSize) y := by
    intro y there
    obtain ⟨k,early,where_⟩ := listsUpto_node there.node
    unfold Clear Apart
    unfold freeList descAt descSize elemSize at *
    omega
  have does : Does (listInit (freeList (descAt descs i))) (withSizes descs m i) (listsUpto descs i.val)
      (Function.update (listsUpto descs i.val) (freeList (descAt descs i)) (some [])) () :=
    listInit_does sized.lists head tail free
  rw [listsUpto_next] at does
  obtain ⟨m',ran,wf,kept⟩ := does
  refine ⟨m',ran,?_,wf⟩
  intro k early
  have same : Agree m' (withSizes descs m i) (descAt descs k) 8 := by
    intro b low high
    apply kept b
    all_goals
      intro x node
      obtain ⟨l,early',where_⟩ := listsUpto_node node
      unfold freeList descAt descSize elemSize at *
      omega
  rw [load_congr (same.mono (by omega)),load_congr (same.mono (by omega))]
  rcases Nat.lt_succ_iff_lt_or_eq.mp early with before | now
  · exact sized.desc k before
  · rw [Fin.ext now]
    exact withSizes_load descs m i

theorem initLoop_run (placed : 0 < descs ∧ descs + descSize * descMax ≤ sizeMod) {s : State} (started : Started descs s.memory j)
    (count : s.descCnt = j) (upto : j + n = 7) (enough : n < fuel) :
    ∃ s', initLoop descs fuel (16 * 2 ^ j) s = .ok ((),s') ∧ Started descs s'.memory 7 ∧ s'.descCnt = 7 ∧ s'.pages = s.pages := by
  induction n generalizing s j fuel with
  | zero =>
    obtain ⟨fuel,rfl⟩ : ∃ k, fuel = k + 1 := ⟨fuel - 1,by omega⟩
    obtain rfl : j = 7 := by omega
    refine ⟨s,?_,started,count,rfl⟩
    rw [initLoop,if_neg (by decide)]
    rfl
  | succ n ih =>
    obtain ⟨fuel,rfl⟩ : ∃ k, fuel = k + 1 := ⟨fuel - 1,by omega⟩
    have few : j < 7 := by omega
    obtain ⟨m',ran,started'⟩ := Started.next (i := ⟨j,few⟩) started placed
    have small : 16 * 2 ^ j < pgSize / 2 := by
      have size := (class_bounds ⟨j,few⟩).2
      change 16 * 2 ^ j ≤ 1024 at size
      unfold pgSize
      omega
    have nonnull : 0 < descs + descSize * j := by omega
    let after : State := { s with memory := m', descCnt := j + 1 }
    have next : Started descs after.memory (j + 1) := started'
    obtain ⟨s',rest,done⟩ := ih next rfl (by omega) (by omega : n < fuel)
    refine ⟨s',?_,done⟩
    have read : (get : M State) s = .ok (s,s) := rfl
    have counted : (modify fun t : State => { t with descCnt := j + 1 } : M PUnit) s = .ok (⟨⟩,{ s with descCnt := j + 1 }) := rfl
    rw [initLoop,if_pos small,bind_go read,count,bind_go counted,bind_go (assert_run (decide_eq_true (by unfold descMax; omega))),bind_go (setField_run nonnull _),
      bind_go (setField_run nonnull _)]
    have listed : onList (listInit (freeList (descs + descSize * j))) ⟨withSizes descs s.memory ⟨j,few⟩,s.pages,j + 1⟩ =
        .ok ((),after) := onList_run ran
    have doubled : 16 * 2 ^ j * 2 = 16 * 2 ^ (j + 1) := by
      rw [Nat.pow_succ,Nat.mul_assoc]
    change (onList (listInit (freeList (descs + descSize * j))) >>= fun _ => initLoop descs fuel (16 * 2 ^ j * 2))
      ⟨withSizes descs s.memory ⟨j,few⟩,s.pages,j + 1⟩ = _
    rw [bind_go listed,doubled]
    exact rest

theorem listsUpto_all (descs : Nat) : listsUpto descs 7 = Heap.empty.lists descs := by
  funext l
  apply Option.ext
  intro xs
  rw [listsUpto_some,lists_some]
  constructor
  · rintro ⟨i,_,here,empty⟩
    exact ⟨i,here,empty⟩
  · rintro ⟨i,here,empty⟩
    exact ⟨i,i.isLt,here,empty⟩

theorem mallocInit_run (placed : 0 < descs ∧ descs + descSize * descMax ≤ sizeMod) (m : Memory) :
    ∃ s, mallocInit descs ⟨m,[],0⟩ = .ok ((),s) ∧ Inv descs s Heap.empty := by
  obtain ⟨s,ran,started,seven,pages⟩ := initLoop_run placed (s := ⟨m,[],0⟩) (Started.zero descs m) rfl
    (Nat.zero_add 7) (by decide : 7 < 32)
  refine ⟨s,ran,⟨⟨⟨placed,?_,.nil,?_⟩,⟨fun i => started.desc i i.isLt,?_,?_⟩,listsUpto_all descs ▸ started.lists⟩,?_,?_,seven⟩⟩
  · intro g held
    cases held
  · intro i b listed
    cases listed
  · intro g held
    cases held
  · intro g held
    cases held
  · intro g held
    cases held
  · rw [pages]
    exact .nil

/-! Calls and clients. -/

inductive Call where
  | malloc (size : Nat)
  | calloc (a b : Nat)
  | realloc (oldBlock newSize : Nat)
  | free (p : Nat)

def Call.run (descs : Nat) (answers : Answers) : Call → M Nat
  | malloc size => Malloc.malloc descs answers size
  | calloc a b => Malloc.calloc descs answers a b
  | realloc oldBlock newSize => Malloc.realloc descs answers oldBlock newSize
  | free p => do
    Malloc.free p
    return null

def Call.request : Call → Nat
  | malloc size => size
  | calloc a b => a * b % sizeMod
  | realloc _ newSize => newSize
  | free _ => 0

def Call.block : Call → Nat
  | malloc _ => null
  | calloc _ _ => null
  | realloc oldBlock _ => oldBlock
  | free p => p

/-- The outstanding blocks with their sizes after a call: it hands out the block that it
returns; the block it is given stays only where a request was refused. -/
def Call.after (c : Call) (result : Nat) (out : List (Nat × Nat)) : List (Nat × Nat) :=
  if result ≠ null then (result,c.request) :: out.filter (·.1 ≠ c.block)
  else if c.request = 0 then out.filter (·.1 ≠ c.block)
  else out

/-- The request does not overflow, and a block that is given is outstanding. -/
structure Call.Allowed (c : Call) (out : List (Nat × Nat)) : Prop where
  fits : c.request + arenaSize + (pgSize - 1) < sizeMod
  outstanding : c.block = null ∨ ∃ n, (c.block,n) ∈ out

/-- A byte of an outstanding block, or one that is none of the allocator's. -/
def Client (descs : Nat) (s : State) (out : List (Nat × Nat)) (b : Nat) : Prop :=
  (∃ p n, (p,n) ∈ out ∧ p ≤ b ∧ b < p + n) ∨
    (b < descs ∨ descs + descSize * descMax ≤ b) ∧ ∀ held ∈ s.pages, b < held.1 ∨ held.1 + pgSize * held.2 ≤ b

inductive Reached (descs : Nat) : State → List (Nat × Nat) → Prop
  | init (placed : 0 < descs ∧ descs + descSize * descMax ≤ sizeMod) (ran : mallocInit descs ⟨m,[],0⟩ = .ok ((),s)) :
      Reached descs s []
  | call {c : Call} (before : Reached descs s out) (offers : Offers descs s answers) (allowed : c.Allowed out)
      (ran : c.run descs answers s = .ok (r,s')) : Reached descs s' (c.after r out)
  | write (before : Reached descs s out) (only : ∀ b, m b = s.memory b ∨ Client descs s out b) :
      Reached descs { s with memory := m } out

/-- The outstanding blocks are the live ones, with at least the size asked for. -/
structure Tracks (h : Heap) (out : List (Nat × Nat)) : Prop where
  live : ∀ p n, (p,n) ∈ out → ∃ k, h.Live p k ∧ n ≤ k
  known : ∀ p k, h.Live p k → ∃ n, (p,n) ∈ out
  distinct : (out.map Prod.fst).Nodup

structure Served (descs : Nat) (c : Call) (out : List (Nat × Nat)) (s : State) (h : Heap) (s' : State) (h' : Heap) (r : Nat) : Prop where
  inv : Inv descs s' h'
  tracks : Tracks h' (c.after r out)
  frame : Frame h h' s.memory s'.memory
  groups : ∀ g ∈ h'.groups, g ∈ h.groups ∨ Fresh descs h g
  copied : r ≠ null → ∀ k, h.Live c.block k → ∀ j < min c.request k, s'.memory (r + j) = s.memory (c.block + j)
  refused : r = null → c.request ≠ 0 → s' = s

section
variable {h h' : Heap} {s s' : State} {c : Call} {out : List (Nat × Nat)}

theorem Tracks.without (tracks : Tracks h out) (live : ∀ x k, h'.Live x k ↔ h.Live x k ∧ x ≠ p) :
    Tracks h' (out.filter (·.1 ≠ p)) where
  live := by
    intro x n inside
    obtain ⟨member,other⟩ := List.mem_filter.mp inside
    obtain ⟨k,before,room⟩ := tracks.live x n member
    exact ⟨k,(live x k).mpr ⟨before,of_decide_eq_true other⟩,room⟩
  known := by
    intro x k now
    obtain ⟨before,other⟩ := (live x k).mp now
    obtain ⟨n,member⟩ := tracks.known x k before
    exact ⟨n,List.mem_filter.mpr ⟨member,decide_eq_true other⟩⟩
  distinct := tracks.distinct.sublist (List.filter_sublist.map _)

theorem Tracks.replaced (tracks : Tracks h out) (replaces : Replaces descs s h s' h' p q n) (room : size ≤ n) :
    Tracks h' ((q,size) :: out.filter (·.1 ≠ p)) where
  live := by
    intro x k inside
    rcases List.mem_cons.mp inside with new | old
    · cases new
      exact ⟨n,(replaces.live q n).mpr (.inr ⟨rfl,rfl⟩),room⟩
    · obtain ⟨member,other⟩ := List.mem_filter.mp old
      obtain ⟨l,before,enough⟩ := tracks.live x k member
      exact ⟨l,(replaces.live x l).mpr (.inl ⟨before,of_decide_eq_true other⟩),enough⟩
  known := by
    intro x k now
    rcases (replaces.live x k).mp now with ⟨before,other⟩ | ⟨rfl,rfl⟩
    · obtain ⟨l,member⟩ := tracks.known x k before
      exact ⟨l,List.mem_cons_of_mem _ (List.mem_filter.mpr ⟨member,decide_eq_true other⟩)⟩
    · exact ⟨size,List.mem_cons_self ..⟩
  distinct := by
    refine List.nodup_cons.mpr ⟨?_,tracks.distinct.sublist (List.filter_sublist.map _)⟩
    intro inside
    obtain ⟨⟨x,k⟩,old,rfl⟩ := List.mem_map.mp inside
    obtain ⟨l,before,_⟩ := tracks.live x k (List.mem_filter.mp old).1
    exact replaces.new l before

/-- Nothing happened: the request was refused or there was nothing to free. -/
theorem Inv.unserved (inv : Inv descs s h) (tracks : Tracks h out) (idle : c.request ≠ 0 ∨ c.block = null) :
    Served descs c out s h s h null where
  inv := inv
  tracks := by
    have all : c.block = null → out.filter (·.1 ≠ c.block) = out := by
      intro none_
      refine List.filter_eq_self.mpr (fun pair member => decide_eq_true ?_)
      obtain ⟨k,live,_⟩ := tracks.live pair.1 pair.2 member
      rw [none_]
      exact inv.shape.sound.live_nonnull live
    unfold Call.after
    rw [if_neg (fun other => other rfl)]
    split
    · rename_i zero
      rw [all (idle.resolve_left (fun nonzero => nonzero zero))]
      exact tracks
    · exact tracks
  frame := .refl h h s.memory
  groups := fun g held => .inl held
  copied := fun other => absurd rfl other
  refused := fun _ _ => rfl

theorem Releases.served (releases : Releases descs s h s' h' c.block) (tracks : Tracks h out) (zero : c.request = 0) :
    Served descs c out s h s' h' null where
  inv := releases.inv
  tracks := by
    unfold Call.after
    rw [if_neg (fun other => other rfl),if_pos zero]
    exact tracks.without releases.live
  frame := releases.frame
  groups := fun g held => .inl (releases.groups g held)
  copied := fun other => absurd rfl other
  refused := fun _ nonzero => absurd zero nonzero

theorem Replaces.served (replaces : Replaces descs s h s' h' c.block r n) (tracks : Tracks h out) (room : c.request ≤ n)
    (copied : ∀ k, h.Live c.block k → ∀ j < min c.request k, s'.memory (r + j) = s.memory (c.block + j)) :
    Served descs c out s h s' h' r := by
  have nonnull := replaces.inv.shape.sound.live_nonnull ((replaces.live r n).mpr (.inr ⟨rfl,rfl⟩))
  refine ⟨replaces.inv,?_,replaces.frame,replaces.groups,fun _ => copied,fun none_ => absurd none_ nonnull⟩
  unfold Call.after
  rw [if_pos nonnull]
  exact tracks.replaced replaces room

/-- A new block takes the place of none. -/
theorem Grants.replaces (grants : Grants descs s h s' h' p n) (sound : Sound descs h) : Replaces descs s h s' h' null p n where
  inv := grants.inv
  new := grants.new
  live := by
    intro x k
    rw [grants.live]
    apply or_congr_left
    exact (and_iff_left_of_imp sound.live_nonnull).symm
  frame := grants.frame
  groups := grants.groups

theorem Grants.served (grants : Grants descs s h s' h' r n) (inv : Inv descs s h) (tracks : Tracks h out)
    (none_ : c.block = null) (room : c.request ≤ n) : Served descs c out s h s' h' r := by
  have sound := inv.shape.sound
  have replaces := grants.replaces sound
  rw [← none_] at replaces
  refine replaces.served tracks room (fun k live => ?_)
  exact absurd none_ (sound.live_nonnull live)

theorem Sound.live_unique (sound : Sound descs h) (live : h.Live p n) (live' : h.Live p k) : n = k := by
  obtain ⟨g,held,piece,_⟩ := live
  obtain ⟨g',held',piece',_⟩ := live'
  have within := piece'.within (sound.laid g' held')
  obtain rfl := sound.group_unique held held' piece (by omega) (by omega)
  cases piece with
  | block _ =>
    generalize named : blockAt _ _ _ = x at piece'
    cases piece' with
    | block _ => rfl
  | whole => exact piece'.big_unique.2.symm

/-- Every call that the contract allows runs through its checks. -/
theorem Inv.serve (inv : Inv descs s h) (tracks : Tracks h out) (offers : Offers descs s answers) (allowed : c.Allowed out) :
    ∃ r s' h', c.run descs answers s = .ok (r,s') ∧ Served descs c out s h s' h' r := by
  have fits := allowed.fits
  have given : c.block = null ∨ ∃ k, h.Live c.block k := by
    rcases allowed.outstanding with none_ | ⟨n,member⟩
    · exact .inl none_
    · obtain ⟨k,live,_⟩ := tracks.live _ n member
      exact .inr ⟨k,live⟩
  cases c with
  | malloc size =>
    obtain ⟨p,s',ran,⟨rfl,rfl,_⟩ | ⟨h',n,grants,room⟩⟩ := inv.malloc_run offers fits
    · exact ⟨_,_,h,ran,inv.unserved tracks (.inr rfl)⟩
    · exact ⟨_,_,h',ran,grants.served inv tracks rfl room⟩
  | calloc a b =>
    obtain ⟨p,s',ran,⟨rfl,rfl⟩ | ⟨h',n,grants,room,_⟩⟩ := inv.calloc_run offers fits
    · exact ⟨_,_,h,ran,inv.unserved tracks (.inr rfl)⟩
    · exact ⟨_,_,h',ran,grants.served inv tracks rfl room⟩
  | free p =>
    rcases given with none_ | ⟨k,live⟩
    · refine ⟨null,s,h,?_,inv.unserved tracks (.inr none_)⟩
      change p = null at none_
      subst none_
      rfl
    · obtain ⟨s',h',ran,releases⟩ := inv.free_run live
      exact ⟨null,s',h',bind_go ran,releases.served tracks rfl⟩
  | realloc p size =>
    change p = null ∨ ∃ k, h.Live p k at given
    change size + arenaSize + (pgSize - 1) < sizeMod at fits
    change ∃ r s' h', realloc descs answers p size s = .ok (r,s') ∧ _
    by_cases zero : size = 0
    · subst zero
      rcases given with rfl | ⟨k,live⟩
      · exact ⟨null,s,h,rfl,inv.unserved tracks (.inr rfl)⟩
      · obtain ⟨s',h',ran,releases⟩ := inv.free_run live
        exact ⟨null,s',h',bind_go ran,releases.served tracks rfl⟩
    · rcases given with rfl | ⟨k,live⟩
      · obtain ⟨p,s',ran,result⟩ := inv.malloc_run offers fits
        have same : realloc descs answers null size s = .ok (p,s') := by
          unfold realloc
          rw [if_neg zero,bind_go ran,if_neg (fun both => both.1 rfl)]
          rfl
        rcases result with ⟨rfl,rfl,_⟩ | ⟨h',n,grants,room⟩
        · exact ⟨_,_,h,same,inv.unserved tracks (.inr rfl)⟩
        · exact ⟨_,_,h',same,grants.served inv tracks rfl room⟩
      · obtain ⟨q,s',ran,⟨rfl,rfl⟩ | ⟨h',n,replaces,room,copied⟩⟩ := inv.realloc_run offers fits zero live
        · exact ⟨_,_,h,ran,inv.unserved tracks (.inl zero)⟩
        · refine ⟨_,_,h',ran,replaces.served tracks room ?_⟩
          intro k' live'
          cases inv.shape.sound.live_unique live live'
          exact copied

/-- Writes of clients. -/
theorem Inv.written (inv : Inv descs s h) (tracks : Tracks h out) {m : Memory}
    (only : ∀ b, m b = s.memory b ∨ Client descs s out b) : Inv descs { s with memory := m } h := by
  have sound := inv.shape.sound
  refine ⟨inv.shape.congr ?_,inv.kept,inv.pages,inv.descCnt⟩
  intro b owned
  rcases only b with same | ⟨p,n,member,low,high⟩ | ⟨away,outside⟩
  · exact same.symm
  · obtain ⟨k,live,room⟩ := tracks.live p n member
    exact absurd owned (sound.live_owned live low (by omega))
  · rcases sound.owned_within owned with inDescs | ⟨g,held,low,high⟩
    · omega
    · have apart := outside g.held (inv.pages.mem_iff.mpr (List.mem_map_of_mem held))
      change b < g.page ∨ g.page + g.size ≤ b at apart
      omega

theorem Reached.inv (reached : Reached descs s out) : ∃ h, Inv descs s h ∧ Tracks h out := by
  induction reached with
  | init placed ran =>
    obtain ⟨s',ran',inv⟩ := mallocInit_run placed _
    rw [ran] at ran'
    cases ran'
    refine ⟨Heap.empty,inv,⟨?_,?_,.nil⟩⟩
    · intro p n member
      cases member
    · rintro p k ⟨g,held,_⟩
      cases held
  | call _ offers allowed ran ih =>
    obtain ⟨h,inv,tracks⟩ := ih
    obtain ⟨r,s',h',ran',served⟩ := inv.serve tracks offers allowed
    rw [ran] at ran'
    cases ran'
    exact ⟨h',served.inv,served.tracks⟩
  | write _ only ih =>
    obtain ⟨h,inv,tracks⟩ := ih
    exact ⟨h,inv.written tracks only,tracks⟩

structure Represents (descs : Nat) (s : State) (h : Heap) (out : List (Nat × Nat)) : Prop where
  lists : ∀ i, KernelList.Shaped s.memory (freeList (descAt descs i)) (h.free i)
  distinct : ∀ i, (h.free i).Nodup
  members : ∀ i, ∀ b ∈ h.free i, ∃ a, .arena a i ∈ h.groups ∧ Piece (.arena a i) b (classSize i)
  counts : ∀ a i, .arena a i ∈ h.groups → load s.memory (a + 8) 4 = h.listed i a
  pages : s.pages.Perm (h.groups.map Group.held)
  inside : ∀ p n, (p,n) ∈ out → ∃ g ∈ h.groups, g.page + arenaSize ≤ p ∧ p + n ≤ g.page + g.size
  unlisted : ∀ p n, (p,n) ∈ out → ∀ i, p ∉ h.free i
  disjoint : out.Pairwise fun p q => Apart p.1 p.2 q.1 q.2

theorem Inv.represents (inv : Inv descs s h) (tracks : Tracks h out) : Represents descs s h out where
  lists := fun i => inv.shape.lists.shaped (lists_at descs h i)
  distinct := inv.shape.nodup
  members := inv.shape.sound.members
  counts := fun a i held => inv.shape.fields.counted _ held
  pages := inv.pages
  inside := by
    intro p n member
    obtain ⟨k,⟨g,held,piece,_⟩,room⟩ := tracks.live p n member
    have within := piece.within (inv.shape.sound.laid g held)
    exact ⟨g,held,within.1,by omega⟩
  unlisted := by
    intro p n member
    obtain ⟨_,⟨_,_,_,unlisted⟩,_⟩ := tracks.live p n member
    exact unlisted
  disjoint := by
    have distinct : out.Pairwise (fun p q => p.1 ≠ q.1) := List.pairwise_map.mp tracks.distinct
    refine distinct.imp_of_mem (fun {p q} member member' other => ?_)
    obtain ⟨k,live,room⟩ := tracks.live p.1 p.2 member
    obtain ⟨l,live',room'⟩ := tracks.live q.1 q.2 member'
    exact (inv.shape.sound.live_apart live live' other).mono (by omega) (by omega)

/-- Pages are given back when no block in them is outstanding any more, and only then. -/
theorem Served.held_iff (served : Served descs c out s h s' h' r) (inv : Inv descs s h) (held : group ∈ s.pages) :
    group ∈ s'.pages ↔ ∃ p n, (p,n) ∈ c.after r out ∧ group.1 ≤ p ∧ p < group.1 + pgSize * group.2 := by
  have sound := inv.shape.sound
  obtain ⟨g,here,rfl⟩ := List.mem_map.mp (inv.pages.mem_iff.mp held)
  change _ ↔ ∃ p n, (p,n) ∈ c.after r out ∧ g.page ≤ p ∧ p < g.page + g.size
  rw [served.inv.pages.mem_iff,List.mem_map]
  constructor
  · rintro ⟨g',there,same⟩
    obtain ⟨x,k,piece,unlisted⟩ := served.inv.kept g' there
    obtain ⟨n,member⟩ := served.tracks.known x k ⟨g',there,piece,unlisted⟩
    have within := piece.within (served.inv.shape.sound.laid g' there)
    have page : g'.page = g.page := congrArg Prod.fst same
    have size : g'.size = g.size := congrArg (pgSize * Prod.snd ·) same
    exact ⟨x,n,member,by omega,by omega⟩
  · rintro ⟨p,n,member,low,high⟩
    obtain ⟨k,⟨g',there,piece,_⟩,_⟩ := served.tracks.live p n member
    refine ⟨g',there,?_⟩
    rcases served.groups g' there with old | fresh
    · rw [sound.group_unique old here piece low high]
    · have within := piece.within fresh.laid
      have apart := fresh.apart g here
      unfold Group.Disjoint Apart at apart
      omega

/-- Blocks that stay outstanding keep their bytes. -/
theorem Served.untouched (served : Served descs c out s h s' h' r) (inv : Inv descs s h) (tracks : Tracks h out)
    (before : (p,n) ∈ out) (after : (p,n) ∈ c.after r out) : Agree s.memory s'.memory p n := by
  have sound := inv.shape.sound
  obtain ⟨k,live,room⟩ := tracks.live p n before
  have ⟨g,held,piece,_⟩ := live
  obtain ⟨k',⟨g',held',piece',unlisted'⟩,_⟩ := served.tracks.live p n after
  have live' : h'.Live p k := by
    rcases served.groups g' held' with old | fresh
    · have within := piece.within (sound.laid g held)
      obtain rfl := sound.group_unique old held piece' (by omega) (by omega)
      exact ⟨g',held',piece,unlisted'⟩
    · exact (sound.fresh_other fresh piece' held piece).elim
  exact (served.frame p k live live').mono (by omega)

end

/-- In every state that is reached, with any answers of the page allocator, the free lists,
the counts and the pages stand for one heap with the outstanding blocks as its live ones;
every call runs through its checks, gives pages back just when no block in them is
outstanding, and leaves the other blocks alone; `realloc` keeps the first bytes. -/
theorem malloc_represents_heap (reached : Reached descs s out) :
    (∃ h, Represents descs s h out) ∧
    ∀ (answers : Answers) (c : Call), Offers descs s answers → c.Allowed out →
      ∃ r s', c.run descs answers s = .ok (r,s') ∧
        (∀ group ∈ s.pages, group ∈ s'.pages ↔
          ∃ p n, (p,n) ∈ c.after r out ∧ group.1 ≤ p ∧ p < group.1 + pgSize * group.2) ∧
        (∀ p n, (p,n) ∈ out → (p,n) ∈ c.after r out → Agree s.memory s'.memory p n) ∧
        ∀ old size n, c = .realloc old size → size ≠ 0 → (old,n) ∈ out →
          (r = null → s' = s ∧ (old,n) ∈ c.after r out) ∧
          (r ≠ null → ∀ j < min n size, s'.memory (r + j) = s.memory (old + j)) := by
  obtain ⟨h,inv,tracks⟩ := reached.inv
  refine ⟨⟨h,inv.represents tracks⟩,?_⟩
  intro answers c offers allowed
  obtain ⟨r,s',h',ran,served⟩ := inv.serve tracks offers allowed
  refine ⟨r,s',ran,fun group held => served.held_iff inv held,fun p n => served.untouched inv tracks,?_⟩
  rintro old size n rfl nonzero member
  constructor
  · rintro rfl
    refine ⟨served.refused rfl nonzero,?_⟩
    change _ ∈ if null ≠ null then _ else if size = 0 then _ else out
    rw [if_neg (fun other => other rfl),if_neg nonzero]
    exact member
  · intro granted j inside
    obtain ⟨k,live,room⟩ := tracks.live old n member
    refine served.copied granted k live j ?_
    change j < min size k
    omega

def onePage : Answers := fun pageCnt => if pageCnt = 1 then 65536 else 0

theorem onePage_offers (descs : Nat) (placed : descs + descSize * descMax ≤ 65536) (s : State) (none_ : s.pages = []) :
    Offers descs s onePage := by
  intro pageCnt _ answered
  have one : pageCnt = 1 := by
    by_contra other
    exact answered (if_neg other)
  subst one
  refine ⟨by decide,by decide,.inr placed,?_⟩
  rw [none_]
  intro held inside
  cases inside

theorem malloc_represents_heap_first :
    ∃ s p, p ≠ null ∧ Reached 4096 s [(p,1000)] ∧ (∃ h, Represents 4096 s h [(p,1000)]) ∧
      ∃ r s', (Call.realloc p 20).run 4096 (fun _ => null) s = .ok (r,s') ∧
        (r = null → s' = s) ∧ (r ≠ null → ∀ j < 20, s'.memory (r + j) = s.memory (p + j)) := by
  have placed : 0 < 4096 ∧ 4096 + descSize * descMax ≤ sizeMod := by decide
  obtain ⟨s,started,inv⟩ := mallocInit_run placed (fun _ => 0)
  have start : Reached 4096 s [] := .init placed started
  have offers : Offers 4096 s onePage := onePage_offers 4096 (by decide) s inv.pages.eq_nil
  have fits : 1000 + arenaSize + (pgSize - 1) < sizeMod := by decide
  obtain ⟨p,s',ran,⟨_,_,refused⟩ | ⟨h',n,grants,room⟩⟩ := inv.malloc_run offers fits
  · exfalso
    rcases refused with zero | ⟨pageCnt,positive,few,nothing⟩
    · cases zero
    · have one : pageCnt = 1 := by
        unfold pgSize arenaSize at few
        omega
      subst one
      cases nothing
  · have nonnull := grants.inv.shape.sound.live_nonnull grants.granted
    have allowed : (Call.malloc 1000).Allowed [] := ⟨fits,.inl rfl⟩
    have reached : Reached 4096 s' ((Call.malloc 1000).after p []) := start.call offers allowed ran
    have after : (Call.malloc 1000).after p [] = [(p,1000)] := by
      unfold Call.after
      rw [if_pos nonnull]
      rfl
    rw [after] at reached
    obtain ⟨represents,calls⟩ := malloc_represents_heap reached
    have small : 20 + arenaSize + (pgSize - 1) < sizeMod := by decide
    obtain ⟨r,s'',ran',_,_,kept⟩ := calls (fun _ => null) (.realloc p 20) (fun _ _ answered => absurd rfl answered)
      ⟨small,.inr ⟨1000,List.mem_singleton.mpr rfl⟩⟩
    obtain ⟨refused,copied⟩ := kept p 20 1000 rfl (by decide) (List.mem_singleton.mpr rfl)
    exact ⟨s',p,nonnull,reached,represents,r,s'',ran',fun none_ => (refused none_).1,copied⟩

end OsProj.Malloc
