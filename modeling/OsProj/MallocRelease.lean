import OsProj.MallocCalls

/-! `free` and the functions over it on a heap in memory. A block leaves the heap, and with
the last live block of an arena its page. -/
namespace OsProj.Malloc

open OsProj.ByteMemory
open OsProj.Faulting
open OsProj.KernelList (sizeMod null listPushFront listPushFront_does)

section
variable {h : Heap} {s : State}

structure Releases (descs : Nat) (s : State) (h : Heap) (s' : State) (h' : Heap) (p : Nat) : Prop where
  inv : Inv descs s' h'
  live : ∀ x k, h'.Live x k ↔ h.Live x k ∧ x ≠ p
  frame : Frame h h' s.memory s'.memory
  groups : ∀ g ∈ h'.groups, g ∈ h.groups

theorem Shape.giveBack_run (shape : Shape descs s.memory h count) (pages : s.pages.Perm (h.groups.map Group.held))
    (held : g ∈ h.groups) (unused : ∀ i, ∀ b ∈ h.free i, ¬Piece g b (classSize i)) :
    ∃ s', pallocFreeMultiple g.page g.pageCnt s = .ok ((),s') ∧ Shape descs s'.memory (h.drop g) count ∧
      Frame h (h.drop g) s.memory s'.memory ∧ s'.pages.Perm ((h.drop g).groups.map Group.held) ∧ s'.descCnt = s.descCnt := by
  obtain ⟨shape',frame⟩ := shape.drop held unused
  have given : g.held ∈ s.pages := pages.mem_iff.mpr (List.mem_map_of_mem held)
  refine ⟨_,if_pos given,shape',frame,?_,rfl⟩
  have split := pages.trans ((List.perm_cons_erase held).map Group.held)
  have rest := split.erase g.held
  rwa [List.map_cons,List.erase_cons_head] at rest

theorem Shape.live_drop (shape : Shape descs m h count) (held : g ∈ h.groups) (x k : Nat) :
    (h.drop g).Live x k ↔ h.Live x k ∧ ∀ n, ¬Piece g x n := by
  have sound := shape.sound
  constructor
  · rintro ⟨g',left,piece,unlisted⟩
    have there := List.mem_of_mem_erase left
    refine ⟨⟨g',there,piece,unlisted⟩,?_⟩
    intro n own
    have within := own.within (sound.laid g held)
    obtain rfl := sound.group_unique there held piece (by omega) (by omega)
    exact (sound.nodup_groups.mem_erase_iff.mp left).1 rfl
  · rintro ⟨⟨g',there,piece,unlisted⟩,other⟩
    refine ⟨g',sound.nodup_groups.mem_erase_iff.mpr ⟨?_,there⟩,piece,unlisted⟩
    rintro rfl
    exact other k piece

/-- The pages of a big block are given back. -/
theorem Inv.freeBig_run (inv : Inv descs s h) (held : .big a pageCnt ∈ h.groups) :
    ∃ s' h', pallocFreeMultiple a pageCnt s = .ok ((),s') ∧ Releases descs s h s' h' (a + arenaSize) := by
  have shape := inv.shape
  have unused : ∀ i, ∀ b ∈ h.free i, ¬Piece (.big a pageCnt) b (classSize i) := by
    intro i b listed piece
    obtain ⟨a',there,piece'⟩ := shape.sound.members i b listed
    have within := piece'.within (shape.sound.laid _ there)
    cases shape.sound.group_unique held there piece (by omega) (by omega)
  obtain ⟨s',given,shape',frame,pages,seven⟩ := shape.giveBack_run inv.pages held unused
  refine ⟨s',h.drop (.big a pageCnt),given,⟨shape'.recount ?_,?_,pages,seven.trans inv.descCnt⟩,?_,frame,fun g left => List.mem_of_mem_erase left⟩
  · intro g _
    cases g <;> rfl
  · exact fun g left => inv.kept g (List.mem_of_mem_erase left)
  · intro x k
    rw [shape.live_drop held]
    apply and_congr_right
    intro _
    constructor
    · rintro other rfl
      exact other _ .whole
    · intro other n piece
      exact other piece.big_unique.1

/-- A block goes to the front of its free list. -/
theorem Shape.push_run (shape : Shape descs s.memory h h.count) (held : .arena a i ∈ h.groups)
    (piece : Piece (.arena a i) p (classSize i)) (unlisted : p ∉ h.free i) :
    ∃ s', onList (listPushFront (freeList (descAt descs i)) p) s = .ok ((),s') ∧
      Moves descs s h s' (h.withFree i (p :: h.free i)) h.count := by
  obtain ⟨placed,new⟩ := shape.sound.loose held piece unlisted
  refine shape.move (listPushFront_does shape.lists (lists_at descs h i) placed new) ?_
  intro b listed
  rcases List.mem_cons.mp listed with rfl | old
  · exact ⟨a,held,piece⟩
  · exact shape.sound.members i b old

theorem live_push (h : Heap) (i : Class) (p x k : Nat) :
    (h.withFree i (p :: h.free i)).Live x k ↔ h.Live x k ∧ x ≠ p := by
  constructor
  · rintro ⟨g,held,piece,unlisted⟩
    have fewer : (h.withFree i (h.free i)).Live x k :=
      live_withFree (fun b inside => List.mem_cons_of_mem _ inside) ⟨g,held,piece,unlisted⟩
    rw [withFree_same] at fewer
    refine ⟨fewer,?_⟩
    rintro rfl
    exact unlisted i (by rw [withFree_free]; exact List.mem_cons_self ..)
  · rintro ⟨⟨g,held,piece,unlisted⟩,other⟩
    refine ⟨g,held,piece,?_⟩
    intro j listed
    by_cases own : j = i
    · subst own
      rw [withFree_free] at listed
      rcases List.mem_cons.mp listed with same | old
      · exact other same
      · exact unlisted j old
    · rw [withFree_other own] at listed
      exact unlisted j listed

/-- Bytes written into a live block do not touch the heap. -/
theorem Shape.write (shape : Shape descs m h count) (live : h.Live p n)
    (only : ∀ b, b < p ∨ p + n ≤ b → m b = m' b) : Shape descs m' h count := by
  refine shape.congr ?_
  intro b owned
  apply only
  by_contra inside
  exact shape.sound.live_owned live (by omega) (by omega) owned

def Heap.shrink (h : Heap) (a : Nat) (i : Class) : Heap :=
  (h.withFree i ((h.free i).filter (· ∉ blocksFrom a i 0))).drop (.arena a i)

theorem Sound.shrink_count (sound : Sound descs h) (held : .arena a i ∈ h.groups) (other : g ≠ .arena a i) :
    (h.shrink a i).count g = h.count g := by
  cases g with
  | big page pageCnt => rfl
  | arena a' j =>
    change (h.withFree i _).listed j a' = h.listed j a'
    unfold Heap.listed
    by_cases same : j = i
    · subst same
      have away : a' ≠ a := by
        rintro rfl
        exact other rfl
      rw [withFree_free,List.countP_filter]
      apply List.countP_congr
      intro b _
      simp only [Bool.and_eq_true,decide_eq_true_eq,and_iff_left_iff_imp]
      intro rounds inside
      obtain ⟨k,_,within,rfl⟩ := mem_blocksFrom.mp inside
      have page : pgRoundDown (blockAt a j k) = a := pgRoundDown_block (sound.laid _ held).aligned within
      exact away (rounds.symm.trans page)
    · rw [withFree_other same]

theorem mem_blocks_of_piece (piece : Piece (.arena a i) x n) : x ∈ blocksFrom a i 0 := by
  cases piece with
  | block inside => exact mem_blocksFrom.mpr ⟨_,Nat.zero_le _,inside,rfl⟩

theorem piece_of_mem_blocks (inside : x ∈ blocksFrom a i 0) : Piece (.arena a i) x (classSize i) := by
  obtain ⟨k,_,within,rfl⟩ := mem_blocksFrom.mp inside
  exact .block within

/-- An arena without live blocks leaves the heap. -/
theorem Shape.shrink_run (shape : Shape descs s.memory h h.count) (pages : s.pages.Perm (h.groups.map Group.held))
    (held : .arena a i ∈ h.groups) (full : ∀ b ∈ blocksFrom a i 0, b ∈ h.free i) :
    ∃ s', (removeBlocks (descAt descs i) a pgSize 0 >>= fun _ => pallocFreeMultiple a 1) s = .ok ((),s') ∧
      Shape descs s'.memory (h.shrink a i) (h.shrink a i).count ∧ Frame h (h.shrink a i) s.memory s'.memory ∧
      s'.pages.Perm ((h.shrink a i).groups.map Group.held) ∧ s'.descCnt = s.descCnt ∧
      ∀ x k, (h.shrink a i).Live x k ↔ h.Live x k := by
  have enough : perArena i - 0 < pgSize := by
    have few := (perArena_bounds i).2.1
    unfold pgSize
    omega
  obtain ⟨s',removed,moves⟩ := shape.removeBlocks_run held full enough
  have unused : ∀ j, ∀ b ∈ (h.withFree i ((h.free i).filter (· ∉ blocksFrom a i 0))).free j,
      ¬Piece (.arena a i) b (classSize j) := by
    intro j b listed piece
    have own : j = i := by
      obtain ⟨a',there,piece'⟩ := moves.shape.sound.members j b listed
      have within := piece'.within (moves.shape.sound.laid _ there)
      cases moves.shape.sound.group_unique held there piece (by omega) (by omega)
      rfl
    subst own
    rw [withFree_free,List.mem_filter] at listed
    exact of_decide_eq_true listed.2 (mem_blocks_of_piece piece)
  obtain ⟨s'',given,shape',frame,pages',seven⟩ := moves.shape.giveBack_run (moves.pages ▸ pages) held unused
  have fewer : ∀ b ∈ (h.free i).filter (· ∉ blocksFrom a i 0), b ∈ h.free i := fun b inside => (List.mem_filter.mp inside).1
  refine ⟨s'',?_,shape'.recount ?_,moves.frame.trans frame ?_,pages',seven.trans moves.descCnt,?_⟩
  · rw [bind_go removed]
    exact given
  · intro g left
    have other := (moves.shape.sound.nodup_groups.mem_erase_iff.mp left).1
    exact (shape.sound.shrink_count held other).symm
  · intro x n live _
    exact fewer_live fewer live
  · intro x k
    unfold Heap.shrink
    rw [moves.shape.live_drop held]
    constructor
    · rintro ⟨⟨g,there,piece,unlisted⟩,outside⟩
      refine ⟨g,there,piece,?_⟩
      intro j listed
      by_cases own : j = i
      · subst own
        refine unlisted j ?_
        rw [withFree_free,List.mem_filter]
        exact ⟨listed,decide_eq_true (fun inside => outside _ (piece_of_mem_blocks inside))⟩
      · exact unlisted j (by rw [withFree_other own]; exact listed)
    · rintro live
      refine ⟨fewer_live fewer live,?_⟩
      intro n piece
      obtain ⟨_,_,_,unlisted⟩ := live
      exact unlisted i (full x (mem_blocks_of_piece piece))

/-- The first half of `free`: the block is cleared, listed and counted. -/
theorem Shape.enlist_run (shape : Shape descs s.memory h h.count) (held : .arena a i ∈ h.groups)
    (piece : Piece (.arena a i) p (classSize i)) (unlisted : p ∉ h.free i) :
    ∃ s', Moves descs s h s' (h.withFree i (p :: h.free i)) (h.withFree i (p :: h.free i)).count ∧
      ∀ rest : M Unit, ((modify fun t : State => { t with memory := fill t.memory p (classSize i) 0xcc }) >>= fun _ =>
        onList (listPushFront (freeList (descAt descs i)) p) >>= fun _ =>
        freeCnt a >>= fun cnt => setField a 8 (cnt + 1) >>= fun _ => rest) s = rest s' := by
  have live : h.Live p (classSize i) := ⟨_,held,piece,shape.sound.unlisted held piece unlisted⟩
  let cleared : State := { s with memory := fill s.memory p (classSize i) 0xcc }
  have filled : (modify fun t : State => { t with memory := fill t.memory p (classSize i) 0xcc } : M PUnit) s = .ok (⟨⟩,cleared) := rfl
  have start : Shape descs cleared.memory h h.count := shape.write live (fun b outside => (if_neg (by omega)).symm)
  obtain ⟨s',pushed,moves⟩ := start.push_run held piece unlisted
  have held' : .arena a i ∈ (h.withFree i (p :: h.free i)).groups := held
  obtain ⟨shape',frame⟩ := moves.shape.setCount held' (h.count (.arena a i) + 1)
  have placed : 0 < a := (shape.sound.laid _ held).nonnull
  have push := count_push held shape.sound piece (h.free i)
  rw [withFree_same] at push
  refine ⟨{ s' with memory := store s'.memory (a + 8) 4 (h.count (.arena a i) + 1) },⟨shape'.recount ?_,?_,moves.pages,moves.descCnt⟩,?_⟩
  · intro g _
    rw [push g]
    by_cases same : g = .arena a i
    · subst same
      have few := (shape.full_iff held).1
      have small := (perArena_bounds i).2.1
      rw [Function.update_self,if_pos rfl,show h.count (.arena a i) = h.listed i a from rfl]
      unfold sizeMod
      omega
    · rw [Function.update_of_ne same,if_neg same,Nat.add_zero]
  · intro x n live' live'' b low high
    have apart := shape.sound.live_apart live' live ((live_push h i p x n).mp live'').2
    have off := (fill_agree apart.symm s.memory 0xcc b low high).symm
    exact (off.trans (moves.frame x n live' live'' b low high)).trans (frame x n live'' live'' b low high)
  · intro rest
    have count : freeCnt a s' = .ok (h.count (.arena a i),s') := moves.shape.freeCnt_run held'
    rw [bind_go filled,bind_go pushed,bind_go count,bind_go (setField_run placed _)]

/-- An arena is given back just when all its blocks are free. -/
theorem Inv.freeBlock_run (inv : Inv descs s h) (held : .arena a i ∈ h.groups) (piece : Piece (.arena a i) p (classSize i))
    (unlisted : p ∉ h.free i) :
    ∃ s' h', freeBlock a (descAt descs i) p s = .ok ((),s') ∧ Releases descs s h s' h' p := by
  have shape := inv.shape
  obtain ⟨s',moves,ran⟩ := shape.enlist_run held piece unlisted
  have held' : .arena a i ∈ (h.withFree i (p :: h.free i)).groups := held
  have live := live_push h i p
  have count : freeCnt a s' = .ok ((h.withFree i (p :: h.free i)).listed i a,s') := moves.shape.freeCnt_run held'
  obtain ⟨most,full⟩ := moves.shape.full_iff held'
  have others : ∀ g ∈ h.groups, g ≠ .arena a i → ∃ x n, Piece g x n ∧ ∀ j, x ∉ (h.withFree i (p :: h.free i)).free j := by
    intro g there other
    obtain ⟨x,n,piece',unlisted'⟩ := inv.kept g there
    have away : x ≠ p := by
      rintro rfl
      have within := piece'.within (shape.sound.laid g there)
      exact other (shape.sound.group_unique held there piece (by omega) (by omega)).symm
    obtain ⟨_,_,_,still⟩ := (live x n).mpr ⟨⟨g,there,piece',unlisted'⟩,away⟩
    exact ⟨x,n,piece',still⟩
  unfold freeBlock
  rw [bind_go (shape.blockSizeOf_run i),ran,bind_go (moves.shape.blocksPerArena_run i),bind_go count]
  by_cases all : (h.withFree i (p :: h.free i)).listed i a ≥ perArena i
  · have exactly : (h.withFree i (p :: h.free i)).listed i a = perArena i := Nat.le_antisymm most all
    rw [if_pos all,bind_go count,bind_go (assert_run (decide_eq_true exactly))]
    obtain ⟨s'',gone,shape',frame,pages,seven,same⟩ := moves.shape.shrink_run (moves.pages ▸ inv.pages) held' (full.mp exactly)
    refine ⟨s'',_,gone,⟨shape',?_,pages,seven.trans (moves.descCnt.trans inv.descCnt)⟩,?_,moves.frame.trans frame ?_,
      fun g left => List.mem_of_mem_erase left⟩
    · intro g left
      obtain ⟨other,there⟩ := moves.shape.sound.nodup_groups.mem_erase_iff.mp left
      obtain ⟨x,n,piece',still⟩ := others g there other
      obtain ⟨_,_,_,now⟩ := (same x n).mpr ⟨g,there,piece',still⟩
      exact ⟨x,n,piece',now⟩
    · intro x k
      rw [same,live]
    · intro x n _ now
      exact (same x n).mp now
  · rw [if_neg all]
    refine ⟨s',_,rfl,⟨moves.shape,?_,moves.pages ▸ inv.pages,moves.descCnt.trans inv.descCnt⟩,live,moves.frame,fun g there => there⟩
    intro g there
    by_cases own : g = .arena a i
    · subst own
      have some_ : ¬∀ b ∈ blocksFrom a i 0, b ∈ (h.withFree i (p :: h.free i)).free i := by
        intro every
        exact all (Nat.le_of_eq (full.mpr every).symm)
      push Not at some_
      obtain ⟨b,inside,off⟩ := some_
      have piece' := piece_of_mem_blocks inside
      exact ⟨b,_,piece',moves.shape.sound.unlisted held' piece' off⟩
    · exact others g there own

theorem Inv.free_run (inv : Inv descs s h) (live : h.Live p n) :
    ∃ s' h', free p s = .ok ((),s') ∧ Releases descs s h s' h' p := by
  obtain ⟨g,held,piece,unlisted⟩ := live
  have shape := inv.shape
  have laid := shape.sound.laid g held
  have within := piece.within laid
  have nonnull : p ≠ null := ne_null (by unfold arenaSize at within; omega)
  unfold free
  rw [if_pos nonnull,bind_go (shape.blockToArena_run held piece),bind_go (shape.desc_run held)]
  cases piece with
  | block inside =>
    rename_i k i a
    change ∃ s' h', (if descAt descs i ≠ null then freeBlock a (descAt descs i) _ else _) s = _ ∧ _
    rw [if_pos (ne_null (desc_nonnull shape.sound i))]
    exact inv.freeBlock_run held (.block inside) (unlisted i)
  | whole =>
    rename_i a pageCnt
    have count : freeCnt a s = .ok (pageCnt,s) := shape.freeCnt_run held
    change ∃ s' h', (if null ≠ null then _ else freeCnt a >>= _) s = _ ∧ _
    rw [if_neg (fun other => other rfl),bind_go count]
    exact inv.freeBig_run held

/-! `calloc` and `realloc` write to blocks of their own. -/

theorem Sound.live_nonnull (sound : Sound descs h) (live : h.Live p n) : p ≠ null := by
  obtain ⟨g,held,piece,_⟩ := live
  have within := piece.within (sound.laid g held)
  exact ne_null (by unfold arenaSize at within; omega)

theorem Grants.granted {h' : Heap} (grants : Grants descs s h s' h' p n) : h'.Live p n :=
  (grants.live p n).mpr (.inr ⟨rfl,rfl⟩)

theorem Grants.write {h' : Heap} (grants : Grants descs s h s' h' p n) (m : Memory)
    (only : ∀ b, b < p ∨ p + n ≤ b → s'.memory b = m b) : Grants descs s h { s' with memory := m } h' p n where
  inv := ⟨grants.inv.shape.write grants.granted only,grants.inv.kept,grants.inv.pages,grants.inv.descCnt⟩
  new := grants.new
  live := grants.live
  frame := by
    intro x k live live' b low high
    have other : x ≠ p := by
      rintro rfl
      exact grants.new k live
    have apart := grants.inv.shape.sound.live_apart live' grants.granted other
    unfold Apart at apart
    exact (grants.frame x k live live' b low high).trans (only b (by omega))
  groups := grants.groups

theorem Inv.calloc_run (inv : Inv descs s h) (offers : Offers descs s answers)
    (fits : a * b % sizeMod + arenaSize + (pgSize - 1) < sizeMod) :
    ∃ p s', calloc descs answers a b s = .ok (p,s') ∧
      (p = null ∧ s' = s ∨ ∃ h' n, Grants descs s h s' h' p n ∧ a * b % sizeMod ≤ n ∧
        ∀ j < a * b % sizeMod, s'.memory (p + j) = 0) := by
  unfold calloc
  by_cases wrapped : (a * b % sizeMod < a || a * b % sizeMod < b) = true
  · exact ⟨null,s,if_pos wrapped ▸ rfl,.inl ⟨rfl,rfl⟩⟩
  · obtain ⟨p,s',ran,result⟩ := inv.malloc_run offers fits
    rw [if_neg wrapped,bind_go ran]
    rcases result with ⟨rfl,rfl,_⟩ | ⟨h',n,grants,room⟩
    · exact ⟨null,s',rfl,.inl ⟨rfl,rfl⟩⟩
    · have nonnull := grants.inv.shape.sound.live_nonnull grants.granted
      have written := grants.write (fill s'.memory p (a * b % sizeMod) 0) (fun c outside => (if_neg (by omega)).symm)
      refine ⟨p,_,?_,.inr ⟨h',n,written,room,?_⟩⟩
      · rw [if_pos nonnull]
        rfl
      · intro j inside
        exact if_pos (by omega)

theorem Shape.blockSize_run (shape : Shape descs s.memory h h.count) (held : g ∈ h.groups) (piece : Piece g x n) :
    blockSize x s = .ok (n,s) := by
  have laid := shape.sound.laid g held
  unfold blockSize
  rw [bind_go (shape.blockToArena_run held piece),bind_go (shape.desc_run held)]
  cases piece with
  | block inside =>
    rename_i k i a
    change (if descAt descs i ≠ null then blockSizeOf (descAt descs i) else _) s = _
    rw [if_pos (ne_null (desc_nonnull shape.sound i))]
    exact shape.blockSizeOf_run i
  | whole =>
    rename_i a pageCnt
    have count : freeCnt a s = .ok (pageCnt,s) := shape.freeCnt_run held
    have aligned : a % pgSize = 0 := laid.aligned
    have offset : pgOfs (a + arenaSize) = arenaSize := by
      unfold pgOfs arenaSize pgSize at *
      omega
    have inside : a + pgSize * pageCnt ≤ sizeMod := laid.inside
    have nonnull : 0 < a := laid.nonnull
    have header : arenaSize < pgSize * pageCnt := laid.header
    have whole : (pgSize * pageCnt + sizeMod - arenaSize) % sizeMod = pgSize * pageCnt - arenaSize := by
      rw [show pgSize * pageCnt + sizeMod - arenaSize = pgSize * pageCnt - arenaSize + sizeMod by omega,Nat.add_mod_right]
      exact Nat.mod_eq_of_lt (by omega)
    change (if null ≠ null then _ else freeCnt a >>= _) s = _
    rw [if_neg (fun other => other rfl),bind_go count,offset,whole]
    rfl

/-- A block takes the place of another one, with its first bytes. -/
structure Replaces (descs : Nat) (s : State) (h : Heap) (s' : State) (h' : Heap) (p q n : Nat) : Prop where
  inv : Inv descs s' h'
  new : ∀ k, ¬h.Live q k
  live : ∀ x k, h'.Live x k ↔ h.Live x k ∧ x ≠ p ∨ x = q ∧ k = n
  frame : Frame h h' s.memory s'.memory
  groups : ∀ g ∈ h'.groups, g ∈ h.groups ∨ Fresh descs h g

theorem Inv.realloc_run (inv : Inv descs s h) (offers : Offers descs s answers)
    (fits : size + arenaSize + (pgSize - 1) < sizeMod) (nonzero : size ≠ 0) (live : h.Live p k) :
    ∃ q s', realloc descs answers p size s = .ok (q,s') ∧
      (q = null ∧ s' = s ∨ ∃ h' n, Replaces descs s h s' h' p q n ∧ size ≤ n ∧
        ∀ j < min size k, s'.memory (q + j) = s.memory (p + j)) := by
  obtain ⟨q,s',ran,result⟩ := inv.malloc_run offers fits
  unfold realloc
  rw [if_neg nonzero,bind_go ran]
  rcases result with ⟨rfl,rfl,_⟩ | ⟨h',n,grants,room⟩
  · refine ⟨null,s',?_,.inl ⟨rfl,rfl⟩⟩
    rw [if_neg (fun both => both.2 rfl)]
    rfl
  · have live' : h'.Live p k := (grants.live p k).mpr (.inl live)
    have other : p ≠ q := by
      rintro rfl
      exact grants.new k live
    have sound := grants.inv.shape.sound
    have ⟨g,held,piece,_⟩ := live'
    have written := grants.write (copy s'.memory q p (min size k)) (fun b outside => (if_neg (by omega)).symm)
    obtain ⟨s'',h'',freed,releases⟩ := written.inv.free_run live'
    refine ⟨q,s'',?_,.inr ⟨h'',n,⟨releases.inv,grants.new,?_,?_,fun g left => grants.groups g (releases.groups g left)⟩,room,?_⟩⟩
    · rw [if_pos ⟨sound.live_nonnull live',sound.live_nonnull grants.granted⟩,bind_go (grants.inv.shape.blockSize_run held piece)]
      change (free p >>= fun _ => pure q) { s' with memory := copy s'.memory q p (min size k) } = _
      rw [bind_go freed]
      rfl
    · intro x j
      rw [releases.live,grants.live,or_and_right]
      apply or_congr_right
      constructor
      · exact fun both => both.1
      · intro same
        exact ⟨same,same.1 ▸ other.symm⟩
    · refine written.frame.trans releases.frame ?_
      intro x j was _
      exact (grants.live x j).mpr (.inl was)
    · intro j inside
      have kept : h''.Live q n := (releases.live q n).mpr ⟨grants.granted,other.symm⟩
      have copied : copy s'.memory q p (min size k) (q + j) = s'.memory (p + j) := by
        rw [copy,if_pos (by omega),Nat.add_sub_cancel_left]
      have after := releases.frame q n grants.granted kept (q + j) (by omega) (by omega)
      have before := grants.frame p k live live' (p + j) (by omega) (by omega)
      exact (after.symm.trans copied).trans before.symm

end

end OsProj.Malloc
