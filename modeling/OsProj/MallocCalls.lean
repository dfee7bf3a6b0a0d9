import OsProj.MallocGroups

/-! `malloc` on a heap in memory. It runs through its checks and leaves the heap with one live
block more and with the bytes of all other live blocks. -/
namespace OsProj.Malloc

open OsProj.ByteMemory
open OsProj.Faulting
open OsProj.KernelList (sizeMod null listPushFront listPopFront listEmpty listPushFront_does listPopFront_does)

/-- What holds between calls: the counts are right and no group is without a live block. -/
structure Inv (descs : Nat) (s : State) (h : Heap) : Prop where
  shape : Shape descs s.memory h h.count
  kept : ∀ g ∈ h.groups, ∃ x n, Piece g x n ∧ ∀ i, x ∉ h.free i
  pages : s.pages.Perm (h.groups.map Group.held)
  descCnt : s.descCnt = 7

/-- The page allocator answers with no page or with pages that are not in use. -/
def Offers (descs : Nat) (s : State) (answers : Answers) : Prop :=
  ∀ pageCnt, 0 < pageCnt → answers pageCnt ≠ null →
    answers pageCnt % pgSize = 0 ∧ answers pageCnt + pgSize * pageCnt ≤ sizeMod ∧
    Apart (answers pageCnt) (pgSize * pageCnt) descs (descSize * descMax) ∧
    ∀ held ∈ s.pages, Apart (answers pageCnt) (pgSize * pageCnt) held.1 (pgSize * held.2)

section
variable {h : Heap} {s : State}

theorem Inv.fresh (inv : Inv descs s h) (offers : Offers descs s answers) (some_ : 0 < g.pageCnt)
    (page : answers g.pageCnt = g.page) (nonnull : g.page ≠ null) : Fresh descs h g := by
  obtain ⟨aligned,inside,clear,apart⟩ := offers g.pageCnt some_ (page ▸ nonnull)
  rw [page] at aligned inside clear apart
  refine ⟨⟨aligned,Nat.pos_of_ne_zero nonnull,some_,inside,clear⟩,?_⟩
  intro g' held
  exact apart g'.held (inv.pages.mem_iff.mpr (List.mem_map_of_mem held))

/-- The first block of the free list becomes live. -/
theorem Shape.takeBlock_run (shape : Shape descs s.memory h h.count) (front : h.free i = e :: rest) :
    ∃ s' a, takeBlock (descAt descs i) s = .ok (e,s') ∧ .arena a i ∈ h.groups ∧ Piece (.arena a i) e (classSize i) ∧
      Moves descs s h s' (h.withFree i rest) (h.withFree i rest).count := by
  have here : h.lists descs (freeList (descAt descs i)) = some (e :: rest) := by
    rw [lists_at,front]
  obtain ⟨a,held,piece⟩ := shape.sound.members i e (by rw [front]; exact List.mem_cons_self ..)
  have members : ∀ b ∈ rest, ∃ a, .arena a i ∈ h.groups ∧ Piece (.arena a i) b (classSize i) :=
    fun b inside => shape.sound.members i b (by rw [front]; exact List.mem_cons_of_mem _ inside)
  obtain ⟨s',popped,moves⟩ := shape.move (listPopFront_does shape.lists here) members
  have held' : .arena a i ∈ (h.withFree i rest).groups := held
  have push := count_push held shape.sound piece rest
  rw [← front,withFree_same] at push
  obtain ⟨shape',frame⟩ := moves.shape.setCount held' (h.count (.arena a i) + sizeMod - 1)
  have placed : 0 < a := (shape.sound.laid _ held).nonnull
  refine ⟨{ s' with memory := store s'.memory (a + 8) 4 (h.count (.arena a i) + sizeMod - 1) },a,?_,held,piece,⟨shape'.recount ?_,moves.frame.trans frame ?_,moves.pages,moves.descCnt⟩⟩
  · have arena : blockToArena e s' = .ok (a,s') := moves.shape.blockToArena_run held' piece
    have count : freeCnt a s' = .ok (h.count (.arena a i),s') := moves.shape.freeCnt_run held'
    unfold takeBlock
    rw [bind_go popped,bind_go arena,bind_go count,bind_go (setField_run placed _)]
    rfl
  · intro g _
    by_cases same : g = .arena a i
    · subst same
      have more := push (.arena a i)
      rw [if_pos rfl] at more
      have few := (moves.shape.full_iff held').1
      have small := (perArena_bounds i).2.1
      rw [Function.update_self,more,show (h.withFree i rest).count (.arena a i) = (h.withFree i rest).listed i a from rfl]
      unfold sizeMod
      omega
    · have more := push g
      rw [if_neg same,Nat.add_zero] at more
      rw [Function.update_of_ne same,more]
  · intro x n _ live
    exact live

def Heap.extend (h : Heap) (a : Nat) (i : Class) : Heap := (h.adopt (.arena a i)).withFree i (blocksFrom a i 0)

theorem Fresh.extend_count (fresh : Fresh descs h (.arena a i)) (empty : h.free i = [])
    (held : g ∈ h.groups) : (h.extend a i).count g = h.count g := by
  cases g with
  | big page pageCnt => rfl
  | arena a' j =>
    change (h.extend a i).listed j a' = h.listed j a'
    unfold Heap.listed Heap.extend
    by_cases same : j = i
    · subst same
      have other : a' ≠ a := by
        rintro rfl
        exact fresh.notMem held
      rw [withFree_free,empty,List.countP_nil,List.countP_eq_zero]
      intro b inside rounds
      obtain ⟨k,_,within,rfl⟩ := mem_blocksFrom.mp inside
      have page : pgRoundDown (blockAt a j k) = a := pgRoundDown_block fresh.laid.aligned within
      exact other ((of_decide_eq_true rounds).symm.trans page)
    · rw [withFree_other same]
      rfl

/-- The descriptor is read between the stores to the new header. -/
theorem Shape.perArena_kept (shape : Shape descs m h count) (fresh : Fresh descs h (.arena a i)) (v w : Nat) :
    load (store (store m (a + 0) 4 v) (a + 4) 4 w) (descAt descs i + 4) 4 = perArena i := by
  have header := fresh.laid.header
  have apart : Apart a arenaSize (descAt descs i) descSize :=
    fresh.laid.clear.mono ⟨Nat.le_refl _,Nat.add_le_add_left (Nat.le_of_lt header) _⟩ (desc_within descs i)
  rw [load_store_apart (apart.mono (by unfold arenaSize; omega) (by unfold descSize; omega)),
    load_store_apart (apart.mono (by unfold arenaSize; omega) (by unfold descSize; omega)),(shape.fields.desc i).2]

/-- A page is given a header, and the blocks behind it are added. -/
theorem newArena_some (asked : pallocGetMultiple answers 1 s = .ok (a,t)) (placed : 0 < a) (nonnull : 0 < d)
    (kept : load (store (store t.memory (a + 0) 4 arenaMagic) (a + 4) 4 d) (d + 4) 4 = n) :
    newArena answers d s = (addBlocks d a pgSize 0 >>= fun _ => pure true)
      { t with memory := store (store (store t.memory (a + 0) 4 arenaMagic) (a + 4) 4 d) (a + 8) 4 n } := by
  let linked : State := { t with memory := store (store t.memory (a + 0) 4 arenaMagic) (a + 4) 4 d }
  have read : blocksPerArena d linked = .ok (n,linked) := by
    have loaded : load linked.memory (d + 4) 4 = n := kept
    rw [blocksPerArena,field_run nonnull,loaded]
  unfold newArena
  rw [bind_go asked,if_neg (show a ≠ null from Nat.ne_of_gt placed),bind_go (setField_run placed _),bind_go (setField_run placed _)]
  change (blocksPerArena d >>= _) linked = _
  rw [bind_go read,bind_go (setField_run placed _)]

theorem Inv.newArena_run (inv : Inv descs s h) (offers : Offers descs s answers) (empty : h.free i = []) :
    answers 1 = null ∧ newArena answers (descAt descs i) s = .ok (false,s) ∨
    ∃ s', newArena answers (descAt descs i) s = .ok (true,s') ∧ Fresh descs h (.arena (answers 1) i) ∧
      Shape descs s'.memory (h.extend (answers 1) i) (h.extend (answers 1) i).count ∧
      Frame h (h.extend (answers 1) i) s.memory s'.memory ∧ s'.pages = (answers 1,1) :: s.pages ∧ s'.descCnt = s.descCnt := by
  have shape := inv.shape
  by_cases refused : answers 1 = null
  · refine .inl ⟨refused,?_⟩
    have asked : pallocGetMultiple answers 1 s = .ok (null,s) := if_pos refused
    unfold newArena
    rw [bind_go asked]
    rfl
  · right
    have fresh : Fresh descs h (.arena (answers 1) i) := inv.fresh offers Nat.one_pos rfl refused
    have placed : 0 < answers 1 := fresh.laid.nonnull
    have asked : pallocGetMultiple answers 1 s = .ok (answers 1,{ s with pages := (answers 1,1) :: s.pages }) := if_neg refused
    have small : perArena i < sizeMod := by
      have few := (perArena_bounds i).2.1
      unfold sizeMod
      omega
    obtain ⟨shape',frame'⟩ := shape.adopt fresh small
    let headed : State := ⟨withHeader descs s.memory (.arena (answers 1) i) (perArena i),(answers 1,1) :: s.pages,s.descCnt⟩
    have start : Shape descs headed.memory (h.adopt (.arena (answers 1) i)) (Function.update h.count (.arena (answers 1) i) (perArena i)) := shape'
    have none_ : (h.adopt (.arena (answers 1) i)).free i = [] := empty
    have enough : perArena i - 0 < pgSize := by
      have few := (perArena_bounds i).2.1
      unfold pgSize
      omega
    obtain ⟨s',added,moves⟩ := start.addBlocks_run (List.mem_cons_self ..) (fun b _ listed => by
      rw [none_] at listed
      cases listed) enough
    rw [none_,List.nil_append] at moves
    refine ⟨s',?_,fresh,moves.shape.recount ?_,frame'.trans moves.frame ?_,moves.pages,moves.descCnt⟩
    · rw [newArena_some asked placed (desc_nonnull shape.sound i) (shape.perArena_kept fresh _ _)]
      change (addBlocks (descAt descs i) (answers 1) pgSize 0 >>= _) headed = _
      rw [bind_go added]
      rfl
    · intro g held
      rcases List.mem_cons.mp held with rfl | old
      · rw [Function.update_self]
        have full := (moves.shape.full_iff (List.mem_cons_self ..)).2.mpr (fun b inside => by rwa [withFree_free])
        exact full.symm
      · rw [Function.update_of_ne (fresh.ne old)]
        exact (fresh.extend_count empty old).symm
    · intro x n live _
      exact live_adopt.mpr (.inl live)

end

/-- A call hands out a block: it is live now, and it was not before. -/
structure Grants (descs : Nat) (s : State) (h : Heap) (s' : State) (h' : Heap) (p n : Nat) : Prop where
  inv : Inv descs s' h'
  new : ∀ k, ¬h.Live p k
  live : ∀ x k, h'.Live x k ↔ h.Live x k ∨ x = p ∧ k = n
  frame : Frame h h' s.memory s'.memory
  groups : ∀ g ∈ h'.groups, g ∈ h.groups ∨ Fresh descs h g

/-- Requests are refused when they are for nothing or when there are no pages for them. -/
def Refused (answers : Answers) (size : Nat) : Prop :=
  size = 0 ∨ ∃ pageCnt, 0 < pageCnt ∧ pgSize * pageCnt < size + arenaSize + pgSize ∧ answers pageCnt = null

section
variable {h : Heap} {s : State}

theorem pageCount_spec (fits : size + arenaSize + (pgSize - 1) < sizeMod) :
    0 < pageCount size ∧ size + arenaSize ≤ pgSize * pageCount size ∧
      pgSize * pageCount size < size + arenaSize + pgSize := by
  unfold pageCount arenaSize pgSize sizeMod at *
  omega

theorem Piece.big_unique (piece : Piece (.big a pageCnt) x n) : x = a + arenaSize ∧ n = pgSize * pageCnt - arenaSize := by
  cases piece with
  | whole => exact ⟨rfl,rfl⟩

theorem mallocBig_refused (refused : answers (pageCount size) = null) : mallocBig answers size s = .ok (null,s) := by
  have asked : pallocGetMultiple answers (pageCount size) s = .ok (null,s) := if_pos refused
  unfold mallocBig
  rw [bind_go asked]
  rfl

/-- The pages that the count asks for become one block, whatever the request was. -/
theorem Inv.mallocBig_granted (inv : Inv descs s h) (offers : Offers descs s answers) (positive : 0 < pageCount size)
    (granted : answers (pageCount size) ≠ null) :
    ∃ p s' h', mallocBig answers size s = .ok (p,s') ∧ p ≠ null ∧
      Grants descs s h s' h' p (pgSize * pageCount size - arenaSize) := by
  have fresh : Fresh descs h (.big (answers (pageCount size)) (pageCount size)) := inv.fresh offers positive rfl granted
  have placed : 0 < answers (pageCount size) := fresh.laid.nonnull
  have asked : pallocGetMultiple answers (pageCount size) s =
      .ok (answers (pageCount size),{ s with pages := (answers (pageCount size),pageCount size) :: s.pages }) := if_neg granted
  have small : pageCount size < sizeMod := by
    unfold pageCount pgSize sizeMod
    omega
  obtain ⟨shape,frame⟩ := inv.shape.adopt fresh small
  have unlisted := inv.shape.sound.fresh_unlisted fresh .whole
  refine ⟨answers (pageCount size) + arenaSize,
    ⟨withHeader descs s.memory (.big (answers (pageCount size)) (pageCount size)) (pageCount size),
      (answers (pageCount size),pageCount size) :: s.pages,s.descCnt⟩,
    h.adopt (.big (answers (pageCount size)) (pageCount size)),?_,by unfold null; omega,
    ⟨⟨?_,?_,?_,inv.descCnt⟩,?_,?_,frame,?_⟩⟩
  · unfold mallocBig
    rw [bind_go asked,if_neg granted,bind_go (setField_run placed _),bind_go (setField_run placed _),
      bind_go (setField_run placed _)]
    rfl
  · refine shape.recount ?_
    intro g held
    rcases List.mem_cons.mp held with rfl | old
    · exact Function.update_self ..
    · exact Function.update_of_ne (fresh.ne old) ..
  · intro g held
    rcases List.mem_cons.mp held with rfl | old
    · exact ⟨_,_,.whole,unlisted⟩
    · exact inv.kept g old
  · exact inv.pages.cons _
  · rintro k ⟨g,held,piece,_⟩
    exact inv.shape.sound.fresh_other fresh .whole held piece
  · intro x k
    rw [live_adopt]
    apply or_congr_right
    constructor
    · rintro ⟨piece,_⟩
      exact piece.big_unique
    · rintro ⟨rfl,rfl⟩
      exact ⟨.whole,unlisted⟩
  · intro g held
    rcases List.mem_cons.mp held with rfl | old
    · exact .inr fresh
    · exact .inl old

theorem Inv.mallocBig_run (inv : Inv descs s h) (offers : Offers descs s answers)
    (fits : size + arenaSize + (pgSize - 1) < sizeMod) :
    mallocBig answers size s = .ok (null,s) ∧ Refused answers size ∨
    ∃ p s' h' n, mallocBig answers size s = .ok (p,s') ∧ Grants descs s h s' h' p n ∧ size ≤ n := by
  obtain ⟨positive,room,least⟩ := pageCount_spec fits
  by_cases refused : answers (pageCount size) = null
  · exact .inl ⟨mallocBig_refused refused,.inr ⟨_,positive,least,refused⟩⟩
  · obtain ⟨p,s',h',ran,_,grants⟩ := inv.mallocBig_granted offers positive refused
    exact .inr ⟨p,s',h',_,ran,grants,by omega⟩

theorem findDesc_spec (fields : Fields descs m groups count) (size : Nat) (upto : j + n = 7) :
    (∃ i, findDesc size m n (descs + descSize * j) = some (descAt descs i) ∧ size ≤ classSize i) ∨
      findDesc size m n (descs + descSize * j) = none := by
  induction n generalizing j with
  | zero => exact .inr rfl
  | succ n ih =>
    have first := (fields.desc ⟨j,by omega⟩).1
    change load m (descs + descSize * j) 4 = _ at first
    rw [findDesc,first]
    by_cases small : size ≤ classSize ⟨j,by omega⟩
    · rw [if_pos small]
      exact .inl ⟨⟨j,by omega⟩,rfl,small⟩
    · rw [if_neg small]
      have next := ih (j := j + 1) (by omega)
      rwa [show descs + descSize * (j + 1) = descs + descSize * j + descSize by rw [Nat.mul_succ]; omega] at next

/-- Taking the first block off a list makes just that block live. -/
theorem Shape.live_take (shape : Shape descs m h count) (front : h.free i = e :: rest) (held : .arena a i ∈ h.groups)
    (piece : Piece (.arena a i) e (classSize i)) (x k : Nat) :
    (h.withFree i rest).Live x k ↔ h.Live x k ∨ x = e ∧ k = classSize i := by
  have nodup := shape.nodup i
  rw [front] at nodup
  have absent := (List.nodup_cons.mp nodup).1
  have sound : Sound descs (h.withFree i rest) := shape.sound.withFree
    (fun b inside => shape.sound.members i b (by rw [front]; exact List.mem_cons_of_mem _ inside))
  constructor
  · rintro ⟨g,there,piece',unlisted⟩
    by_cases same : x = e
    · subst same
      have within := piece'.within (shape.sound.laid g there)
      obtain rfl := shape.sound.group_unique held there piece (by omega) (by omega)
      cases piece' with
      | block _ => exact .inr ⟨rfl,rfl⟩
    · refine .inl ⟨g,there,piece',?_⟩
      intro j listed
      by_cases own : j = i
      · subst own
        rw [front] at listed
        rcases List.mem_cons.mp listed with first | later
        · exact same first
        · exact unlisted j (by rw [withFree_free]; exact later)
      · exact unlisted j (by rw [withFree_other own]; exact listed)
  · rintro (live | ⟨rfl,rfl⟩)
    · exact fewer_live (fun b inside => by rw [front]; exact List.mem_cons_of_mem _ inside) live
    · exact ⟨_,held,piece,sound.unlisted held piece (by rw [withFree_free]; exact absent)⟩

/-- No block of a new arena is live yet. -/
theorem Sound.live_extend (sound : Sound descs h) (fresh : Fresh descs h (.arena a i)) (empty : h.free i = []) (x k : Nat) :
    (h.extend a i).Live x k ↔ h.Live x k := by
  constructor
  · rintro ⟨g,held,piece,unlisted⟩
    rcases List.mem_cons.mp held with rfl | old
    · cases piece with
      | block inside =>
        refine absurd ?_ (unlisted i)
        rw [Heap.extend,withFree_free]
        exact mem_blocksFrom.mpr ⟨_,Nat.zero_le _,inside,rfl⟩
    · refine ⟨g,old,piece,?_⟩
      intro j listed
      by_cases own : j = i
      · subst own
        rw [empty] at listed
        cases listed
      · exact unlisted j (by rw [Heap.extend,withFree_other own]; exact listed)
  · rintro ⟨g,old,piece,unlisted⟩
    refine ⟨g,List.mem_cons_of_mem _ old,piece,?_⟩
    intro j listed
    by_cases own : j = i
    · subst own
      rw [Heap.extend,withFree_free] at listed
      obtain ⟨l,_,inside,rfl⟩ := mem_blocksFrom.mp listed
      exact sound.fresh_other fresh (.block inside) old piece
    · rw [Heap.extend,withFree_other own] at listed
      exact unlisted j listed

/-- A block off a list, when each group but its own has a live block. -/
theorem Shape.grant (shape : Shape descs s.memory h h.count) (front : h.free i = e :: rest)
    (kept : ∀ g ∈ h.groups, (∃ x n, Piece g x n ∧ ∀ j, x ∉ h.free j) ∨ Piece g e (classSize i))
    (pages : s.pages.Perm (h.groups.map Group.held)) (seven : s.descCnt = 7) :
    ∃ s', takeBlock (descAt descs i) s = .ok (e,s') ∧ Grants descs s h s' (h.withFree i rest) e (classSize i) := by
  obtain ⟨s',a,took,held,piece,moves⟩ := shape.takeBlock_run front
  have live := shape.live_take front held piece
  have listed : e ∈ h.free i := by
    rw [front]
    exact List.mem_cons_self ..
  have now : (h.withFree i rest).Live e (classSize i) := (live e _).mpr (.inr ⟨rfl,rfl⟩)
  refine ⟨s',took,⟨moves.shape,?_,moves.pages ▸ pages,moves.descCnt.trans seven⟩,?_,live,moves.frame,fun g there => .inl there⟩
  · intro g there
    rcases kept g there with ⟨x,n,piece',unlisted⟩ | own
    · obtain ⟨g',there',piece'',unlisted'⟩ := (live x n).mpr (.inl ⟨g,there,piece',unlisted⟩)
      exact ⟨x,n,piece',unlisted'⟩
    · obtain ⟨_,_,_,unlisted⟩ := now
      exact ⟨e,_,own,unlisted⟩
  · rintro k ⟨_,_,_,unlisted⟩
    exact unlisted i listed

/-- What was done before and left the live blocks alone. -/
theorem Grants.after {h' h'' : Heap} (grants : Grants descs s' h' s'' h'' p n) (same : ∀ x k, h'.Live x k ↔ h.Live x k)
    (frame : Frame h h' s.memory s'.memory) (groups : ∀ g ∈ h''.groups, g ∈ h.groups ∨ Fresh descs h g) :
    Grants descs s h s'' h'' p n where
  inv := grants.inv
  new := fun k live => grants.new k ((same p k).mpr live)
  live := fun x k => by rw [grants.live,same]
  frame := frame.trans grants.frame (fun x k live _ => (same x k).mpr live)
  groups := groups

/-- The first block of a new arena. -/
theorem Inv.grant_extended (inv : Inv descs s h) (empty : h.free i = []) (fresh : Fresh descs h (.arena a i))
    {s' : State} (shape : Shape descs s'.memory (h.extend a i) (h.extend a i).count) (pages : s'.pages = (a,1) :: s.pages)
    (seven : s'.descCnt = s.descCnt) :
    ∃ s'', takeBlock (descAt descs i) s' = .ok (blockAt a i 0,s'') ∧
      Grants descs s' (h.extend a i) s'' ((h.extend a i).withFree i (blocksFrom a i 1)) (blockAt a i 0) (classSize i) := by
  have positive := (perArena_bounds i).1
  have front : (h.extend a i).free i = blockAt a i 0 :: blocksFrom a i 1 := by
    rw [Heap.extend,withFree_free,blocksFrom_next positive]
  refine shape.grant front ?_ ?_ (seven.trans inv.descCnt)
  · intro g held
    rcases List.mem_cons.mp held with rfl | old
    · exact .inr (.block positive)
    · obtain ⟨x,n,piece,unlisted⟩ := inv.kept g old
      obtain ⟨_,_,_,unlisted'⟩ := (inv.shape.sound.live_extend fresh empty x n).mpr ⟨g,old,piece,unlisted⟩
      exact .inl ⟨x,n,piece,unlisted'⟩
  · rw [pages]
    exact inv.pages.cons _

theorem Shape.listEmpty_run (shape : Shape descs s.memory h count) (i : Class) :
    onList (listEmpty (freeList (descAt descs i))) s = .ok (decide (h.free i = []),s) := by
  have here := lists_at descs h i
  have wf := shape.lists
  cases front : h.free i with
  | nil =>
    rw [front] at here
    have ahead := (wf.point (p := freeList (descAt descs i)) (KernelList.from_start here) rfl rfl).1
    refine onList_run ?_
    have placed : 0 < freeList (descAt descs i) := (wf.followed here (List.mem_cons_self ..)).1
    rw [KernelList.listEmpty_run placed,ahead]
    simp
  | cons e rest =>
    rw [front] at here
    exact onList_run (wf.nonempty here rfl)

/-- No descriptor is big enough. -/
theorem Inv.malloc_big (inv : Inv descs s h) (big : 1024 < size) (answers : Answers) :
    malloc descs answers size s = mallocBig answers size s := by
  have read : (get : M State) s = .ok (s,s) := rfl
  have none_ : findDesc size s.memory 7 descs = none := by
    rcases findDesc_spec inv.shape.fields size (Nat.zero_add 7) with ⟨i,_,small⟩ | none_
    · have bound := (class_bounds i).2
      omega
    · exact none_
  unfold malloc
  rw [if_neg (by omega),bind_go read,bind_go read,inv.descCnt,none_]

theorem Inv.malloc_run (inv : Inv descs s h) (offers : Offers descs s answers)
    (fits : size + arenaSize + (pgSize - 1) < sizeMod) :
    ∃ p s', malloc descs answers size s = .ok (p,s') ∧
      (p = null ∧ s' = s ∧ Refused answers size ∨ ∃ h' n, Grants descs s h s' h' p n ∧ size ≤ n) := by
  unfold malloc
  by_cases zero : size = 0
  · rw [if_pos zero]
    exact ⟨null,s,rfl,.inl ⟨rfl,rfl,.inl zero⟩⟩
  · have shape := inv.shape
    have read : (get : M State) s = .ok (s,s) := rfl
    have found := findDesc_spec shape.fields size (Nat.zero_add 7)
    rw [if_neg zero,bind_go read,bind_go read,inv.descCnt]
    rw [Nat.mul_zero,Nat.add_zero] at found
    rcases found with ⟨i,found,small⟩ | found
    · rw [found]
      dsimp only
      rw [bind_go (shape.listEmpty_run i)]
      cases front : h.free i with
      | nil =>
        rcases inv.newArena_run offers front with ⟨nothing,refused⟩ | ⟨s',ran,fresh,shape',frame,pages,seven⟩
        · have little : pgSize * 1 < size + arenaSize + pgSize := by
            unfold arenaSize
            omega
          refine ⟨null,s,?_,.inl ⟨rfl,rfl,.inr ⟨1,Nat.one_pos,little,nothing⟩⟩⟩
          exact bind_go refused
        · obtain ⟨s'',took,grants⟩ := inv.grant_extended front fresh shape' pages seven
          refine ⟨_,s'',?_,.inr ⟨_,_,grants.after (shape.sound.live_extend fresh front) frame ?_,small⟩⟩
          · exact (bind_go ran).trans took
          · intro g held
            rcases List.mem_cons.mp held with rfl | old
            · exact .inr fresh
            · exact .inl old
      | cons e rest =>
        obtain ⟨s',took,grants⟩ := shape.grant front (fun g held => .inl (inv.kept g held)) inv.pages inv.descCnt
        exact ⟨e,s',took,.inr ⟨_,_,grants,small⟩⟩
    · rw [found]
      rcases inv.mallocBig_run offers fits with ⟨refused,why⟩ | ⟨p,s',h',n,ran,grants,room⟩
      · exact ⟨null,s,refused,.inl ⟨rfl,rfl,why⟩⟩
      · exact ⟨p,s',ran,.inr ⟨h',n,grants,room⟩⟩

end

end OsProj.Malloc
