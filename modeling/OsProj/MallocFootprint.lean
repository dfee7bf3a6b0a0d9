import OsProj.MallocRuns
import OsProj.Simulating

/-! Where the kernel allocator writes: in its descriptors, in the pages that it holds and in those that
it is given. And its pages make no difference to what it does to memory. -/
namespace OsProj.Malloc

open OsProj.ByteMemory
open OsProj.Faulting
open OsProj.Simulating
open OsProj.KernelList (Lists Node Outside Does elemSize sizeMod null listPushFront listPushBack_does listPushFront_does listPopFront_does
  listRemove_does)

/-! What malloc does to memory does not depend on its pages. -/

def setPages (pages : List (Nat × Nat)) (s : State) : State := { s with pages := pages }

theorem blind_field (p offset : Nat) : Blind setPages (field p offset) := by
  intro pages s
  unfold field
  split
  · rfl
  · rfl

theorem blind_setField (p offset v : Nat) : Blind setPages (setField p offset v) := by
  intro pages s
  unfold setField
  split
  · rfl
  · rfl

theorem blind_onList (y : KernelList.M α) : Blind setPages (onList y) := by
  intro pages s
  unfold onList setPages
  cases y s.memory with
  | ok r => rfl
  | error panic => rfl

theorem blind_assert (condition : Bool) : Blind setPages (assert condition) := by
  unfold assert
  exact (blind_pure _).ite (blind_throw _)

theorem blind_arenaToBlock (a idx : Nat) : Blind setPages (arenaToBlock a idx) :=
  (blind_assert _).bind fun _ => (blind_field _ _).bind fun _ => (blind_assert _).bind fun _ => (blind_field _ _).bind fun _ =>
    (blind_field _ _).bind fun _ => (blind_assert _).bind fun _ => (blind_field _ _).bind fun _ => blind_pure _

theorem blind_blockToArena (b : Nat) : Blind setPages (blockToArena b) := by
  refine (blind_assert _).bind fun _ => (blind_field _ _).bind fun _ => (blind_assert _).bind fun _ => (blind_field _ _).bind fun d => ?_
  refine Blind.ite ((blind_field _ _).bind fun size => ?_) ((blind_assert _).bind fun _ => blind_pure _)
  exact Blind.ite ((blind_throw _).bind fun _ => (blind_assert _).bind fun _ => blind_pure _) ((blind_assert _).bind fun _ => blind_pure _)

theorem blind_addBlocks (d a fuel i : Nat) : Blind setPages (addBlocks d a fuel i) := by
  induction fuel generalizing i with
  | zero => exact blind_throw _
  | succ fuel ih =>
    refine (blind_field _ _).bind fun _ => Blind.ite ?_ (blind_pure _)
    exact (blind_arenaToBlock _ _).bind fun _ => (blind_onList _).bind fun _ => ih _

theorem blind_removeBlocks (d a fuel i : Nat) : Blind setPages (removeBlocks d a fuel i) := by
  induction fuel generalizing i with
  | zero => exact blind_throw _
  | succ fuel ih =>
    refine (blind_field _ _).bind fun _ => Blind.ite ?_ (blind_pure _)
    exact (blind_arenaToBlock _ _).bind fun _ => (blind_onList _).bind fun _ => ih _

theorem blind_takeBlock (d : Nat) : Blind setPages (takeBlock d) :=
  (blind_onList _).bind fun _ => (blind_blockToArena _).bind fun _ => (blind_field _ _).bind fun _ =>
    (blind_setField _ _ _).bind fun _ => blind_pure _

theorem blind_blockSize (block : Nat) : Blind setPages (blockSize block) :=
  (blind_blockToArena _).bind fun _ => (blind_field _ _).bind fun _ =>
    Blind.ite (blind_field _ _) ((blind_field _ _).bind fun _ => blind_pure _)

theorem blind_memory (f : Memory → Memory) :
    Blind setPages (modify fun s : State => { s with memory := f s.memory } : M PUnit) :=
  blind_modify fun _ _ => rfl

/-- A byte that is neither in the descriptors nor in pages of the allocator. -/
def Foreign (descs : Nat) (own : Set (Nat × Nat)) (b : Nat) : Prop :=
  (b < descs ∨ descs + descSize * descMax ≤ b) ∧ ∀ held ∈ own, b < held.1 ∨ held.1 + pgSize * held.2 ≤ b

def Confined (descs : Nat) (own : Set (Nat × Nat)) (m m' : Memory) : Prop := ∀ b, Foreign descs own b → m' b = m b

def Stays (descs : Nat) (own : Set (Nat × Nat)) (x : M α) (s : State) : Prop :=
  ∀ a s', x s = .ok (a,s') → Confined descs own s.memory s'.memory

section
variable {own : Set (Nat × Nat)} {s t : State} {h : Heap} {x : M α} {f : α → M β}

theorem Confined.trans (first : Confined descs own m m') (second : Confined descs own m' m'') : Confined descs own m m'' :=
  fun b foreign => (second b foreign).trans (first b foreign)

theorem stays_pure (a : α) : Stays descs own (pure a : M α) s := by
  intro b s' done
  cases pure_ok.mp done
  exact fun _ _ => rfl

theorem Stays.seq (first : Stays descs own x s) (next : ∀ a t, x s = .ok (a,t) → Stays descs own (f a) t) :
    Stays descs own (x >>= f) s := by
  intro b s' done
  obtain ⟨a,t,went,rest⟩ := bind_ok.mp done
  exact (first a t went).trans (next a t went b s' rest)

theorem Stays.bind (first : Stays descs own x s) (went : x s = .ok (a,t)) (next : Stays descs own (f a) t) :
    Stays descs own (x >>= f) s := by
  intro b s' done
  rw [bind_go went] at done
  exact (first a t went).trans (next b s' done)

/-- Reading changes nothing. -/
theorem Stays.read (went : x s = .ok (a,s)) (next : Stays descs own (f a) s) : Stays descs own (x >>= f) s := by
  intro b s' done
  rw [bind_go went] at done
  exact next b s' done

theorem stays_store (inside : ∀ b, Foreign descs own b → b < p + offset ∨ p + offset + 4 ≤ b) :
    Stays descs own (setField p offset v) s := by
  intro a s' done
  unfold setField at done
  split at done
  · cases done
  · cases done
    exact fun b foreign => if_neg (by have := inside b foreign; omega)

theorem stays_memory (g : Memory → Memory) (kept : ∀ b, Foreign descs own b → g s.memory b = s.memory b) :
    Stays descs own (modify fun s : State => { s with memory := g s.memory } : M PUnit) s := by
  intro a s' done
  cases done
  exact kept

/-- A field in the header of a group. -/
theorem stays_header {g : Group} (mine : g.held ∈ own) (some_ : 0 < g.pageCnt) (early : offset + 4 ≤ arenaSize) :
    Stays descs own (setField g.page offset v) s := by
  refine stays_store fun b foreign => ?_
  have away : b < g.page ∨ g.page + g.size ≤ b := foreign.2 _ mine
  have room : arenaSize < g.size := by
    unfold Group.size pgSize arenaSize
    omega
  omega

theorem Piece.foreign (piece : Piece g p n) (laid : Laid descs g) (mine : g.held ∈ own) (foreign : Foreign descs own b) :
    b < p ∨ p + n ≤ b := by
  have within := piece.within laid
  have away : b < g.page ∨ g.page + g.size ≤ b := foreign.2 _ mine
  unfold arenaSize at within
  omega

theorem stays_freePages (mine : (pages,pageCnt) ∈ own) : Stays descs own (pallocFreeMultiple pages pageCnt) s := by
  intro a s' done
  unfold pallocFreeMultiple at done
  split at done
  · cases done
    intro b foreign
    have away : b < pages ∨ pages + pgSize * pageCnt ≤ b := foreign.2 _ mine
    exact if_neg (by omega)
  · cases done

theorem stays_getPages (pageCnt : Nat) : Stays descs own (pallocGetMultiple answers pageCnt) s := by
  intro a s' done
  unfold pallocGetMultiple at done
  split at done
  · cases done
    exact fun _ _ => rfl
  · cases done
    exact fun _ _ => rfl

theorem Sound.foreign_outside (sound : Sound descs h) (mine : ∀ g ∈ h.groups, g.held ∈ own) (foreign : Foreign descs own b) :
    Outside (h.lists descs) b := by
  intro x node
  by_contra inside
  have owned : Owned descs h b := .inr ⟨x,node,by omega,by omega⟩
  rcases sound.owned_within owned with descriptors | ⟨g,held,low,high⟩
  · have := foreign.1
    omega
  · have away : b < g.page ∨ g.page + g.size ≤ b := foreign.2 _ (mine g held)
    omega

/-- A list operation on the free list of one size. -/
theorem Shape.move_stays {x : KernelList.M α} (shape : Shape descs s.memory h count)
    (does : Does x s.memory (h.lists descs) (Function.update (h.lists descs) (freeList (descAt descs i)) (some xs)) r)
    (members : ∀ b ∈ xs, ∃ a, .arena a i ∈ h.groups ∧ Piece (.arena a i) b (classSize i))
    (mine : ∀ g ∈ h.groups, g.held ∈ own) : Stays descs own (onList x) s := by
  rw [lists_withFree] at does
  obtain ⟨m,ran,_,kept⟩ := does
  intro a s' done
  rw [onList_run ran] at done
  cases done
  exact fun b foreign => kept b (shape.sound.foreign_outside mine foreign) ((shape.sound.withFree members).foreign_outside mine foreign)

theorem Shape.takeBlock_stays (shape : Shape descs s.memory h h.count) (front : h.free i = e :: rest)
    (mine : ∀ g ∈ h.groups, g.held ∈ own) : Stays descs own (takeBlock (descAt descs i)) s := by
  have here : h.lists descs (freeList (descAt descs i)) = some (e :: rest) := by
    rw [lists_at,front]
  obtain ⟨a,held,piece⟩ := shape.sound.members i e (by rw [front]; exact List.mem_cons_self ..)
  have members : ∀ b ∈ rest, ∃ a, .arena a i ∈ h.groups ∧ Piece (.arena a i) b (classSize i) :=
    fun b inside => shape.sound.members i b (by rw [front]; exact List.mem_cons_of_mem _ inside)
  have does := listPopFront_does shape.lists here
  obtain ⟨s',popped,moves⟩ := shape.move does members
  have held' : .arena a i ∈ (h.withFree i rest).groups := held
  have placed : 0 < a := (shape.sound.laid _ held).nonnull
  refine (shape.move_stays does members mine).bind popped ?_
  refine Stays.read (moves.shape.blockToArena_run held' piece) (Stays.read (moves.shape.freeCnt_run held') ?_)
  exact (stays_header (mine _ held) Nat.one_pos (Nat.le_refl _)).bind (setField_run placed _) (stays_pure e)

theorem Shape.addBlocks_stays (shape : Shape descs s.memory h count) (held : .arena a i ∈ h.groups)
    (unlisted : ∀ b ∈ blocksFrom a i k, b ∉ h.free i) (mine : ∀ g ∈ h.groups, g.held ∈ own) :
    Stays descs own (addBlocks (descAt descs i) a fuel k) s := by
  induction fuel generalizing s h k with
  | zero => exact fun _ _ done => nomatch done
  | succ fuel ih =>
    refine Stays.read (shape.blocksPerArena_run i) ?_
    by_cases inside : k < perArena i
    · rw [if_pos inside]
      refine Stays.read (shape.arenaToBlock_run held inside) ?_
      rw [blocksFrom_next inside] at unlisted
      have piece : Piece (.arena a i) (blockAt a i k) (classSize i) := .block inside
      obtain ⟨placed,new⟩ := shape.sound.loose held piece (unlisted _ (List.mem_cons_self ..))
      have does := listPushBack_does shape.lists (lists_at descs h i) placed new
      have members : ∀ b ∈ h.free i ++ [blockAt a i k], ∃ a, .arena a i ∈ h.groups ∧ Piece (.arena a i) b (classSize i) := by
        intro b listed
        rcases List.mem_append.mp listed with old | new
        · exact shape.sound.members i b old
        · rw [List.mem_singleton.mp new]
          exact ⟨a,held,piece⟩
      obtain ⟨s',pushed,moves⟩ := shape.move does members
      refine (shape.move_stays does members mine).bind pushed (ih moves.shape held ?_ mine)
      intro b later listed
      rw [withFree_free] at listed
      rcases List.mem_append.mp listed with old | new
      · exact unlisted b (List.mem_cons_of_mem _ later) old
      · obtain ⟨j,low,_,rfl⟩ := mem_blocksFrom.mp later
        have same := block_inj (List.mem_singleton.mp new)
        omega
    · rw [if_neg inside]
      exact stays_pure _

theorem Shape.removeBlocks_stays (shape : Shape descs s.memory h count) (held : .arena a i ∈ h.groups)
    (listed : ∀ b ∈ blocksFrom a i k, b ∈ h.free i) (mine : ∀ g ∈ h.groups, g.held ∈ own) :
    Stays descs own (removeBlocks (descAt descs i) a fuel k) s := by
  induction fuel generalizing s h k with
  | zero => exact fun _ _ done => nomatch done
  | succ fuel ih =>
    refine Stays.read (shape.blocksPerArena_run i) ?_
    by_cases inside : k < perArena i
    · rw [if_pos inside]
      refine Stays.read (shape.arenaToBlock_run held inside) ?_
      rw [blocksFrom_next inside] at listed
      obtain ⟨xs,ys,split⟩ := List.append_of_mem (listed _ (List.mem_cons_self ..))
      obtain ⟨q,after⟩ := KernelList.head_exists (freeList (descAt descs i)) ys
      have here : h.lists descs (freeList (descAt descs i)) = some (xs ++ [blockAt a i k] ++ ys) := by
        rw [lists_at,split,List.append_cons]
      have does := listRemove_does shape.lists here after
      have fewer : ∀ b ∈ xs ++ ys, b ∈ h.free i := by
        intro b inside
        rw [split,List.append_cons,List.mem_append]
        rcases List.mem_append.mp inside with front | back
        · exact .inl (List.mem_append_left _ front)
        · exact .inr back
      have members := fun b inside => shape.sound.members i b (fewer b inside)
      obtain ⟨s',removed,moves⟩ := shape.move does members
      refine (shape.move_stays does members mine).bind removed (ih moves.shape held ?_ mine)
      intro b later
      have old := listed b (List.mem_cons_of_mem _ later)
      rw [split,List.mem_append,List.mem_cons] at old
      rw [withFree_free,List.mem_append]
      rcases old with front | same | back
      · exact .inl front
      · obtain ⟨j,low,_,rfl⟩ := mem_blocksFrom.mp later
        have := block_inj same
        omega
      · exact .inr back
    · rw [if_neg inside]
      exact stays_pure _

/-- The pages that the heap has are among the allocator's own. -/
theorem Inv.mine (inv : Inv descs s h) (own_ : ∀ held ∈ s.pages, held ∈ own) : ∀ g ∈ h.groups, g.held ∈ own :=
  fun _ held => own_ _ (inv.pages.mem_iff.mpr (List.mem_map_of_mem held))

theorem Inv.newArena_stays (inv : Inv descs s h) (offers : Offers descs s answers) (empty : h.free i = [])
    (mine : ∀ g ∈ h.groups, g.held ∈ own) (given : answers 1 ≠ null → (answers 1,1) ∈ own) :
    Stays descs own (newArena answers (descAt descs i)) s := by
  by_cases refused : answers 1 = null
  · exact Stays.read (a := null) (if_pos refused) (stays_pure false)
  have asked : pallocGetMultiple answers 1 s = .ok (answers 1,{ s with pages := (answers 1,1) :: s.pages }) := if_neg refused
  have fresh : Fresh descs h (.arena (answers 1) i) := inv.fresh offers Nat.one_pos rfl refused
  have placed : 0 < answers 1 := fresh.laid.nonnull
  have small : perArena i < sizeMod := by
    have few := (perArena_bounds i).2.1
    unfold sizeMod
    omega
  have own_ : (Group.arena (answers 1) i).held ∈ own := given refused
  refine (stays_getPages 1).bind asked ?_
  rw [if_neg refused]
  refine (stays_header own_ Nat.one_pos (by decide)).bind (setField_run placed _) ?_
  refine (stays_header own_ Nat.one_pos (by decide)).bind (setField_run placed _) ?_
  refine Stays.read (a := perArena i) ?_ ?_
  · rw [blocksPerArena,field_run (desc_nonnull inv.shape.sound i),inv.shape.perArena_kept fresh]
  refine (stays_header own_ Nat.one_pos (by decide)).bind (setField_run placed _) ?_
  have start := (inv.shape.adopt fresh small).1
  have none_ : (h.adopt (.arena (answers 1) i)).free i = [] := empty
  refine Stays.seq ?_ fun _ _ _ => stays_pure true
  refine Shape.addBlocks_stays start (List.mem_cons_self ..) (fun b _ listed => ?_) fun g held => ?_
  · rw [none_] at listed
    cases listed
  · rcases List.mem_cons.mp held with rfl | old
    · exact own_
    · exact mine g old

theorem mallocBig_stays (positive : 0 < pageCount size)
    (given : answers (pageCount size) ≠ null → (answers (pageCount size),pageCount size) ∈ own) :
    Stays descs own (mallocBig answers size) s := by
  by_cases refused : answers (pageCount size) = null
  · exact Stays.read (a := null) (if_pos refused) (stays_pure null)
  have asked : pallocGetMultiple answers (pageCount size) s =
      .ok (answers (pageCount size),{ s with pages := (answers (pageCount size),pageCount size) :: s.pages }) := if_neg refused
  have placed : 0 < answers (pageCount size) := Nat.pos_of_ne_zero refused
  have own_ : (Group.big (answers (pageCount size)) (pageCount size)).held ∈ own := given refused
  refine (stays_getPages _).bind asked ?_
  rw [if_neg refused]
  refine (stays_header own_ positive (by decide)).bind (setField_run placed _) ?_
  refine (stays_header own_ positive (by decide)).bind (setField_run placed _) ?_
  exact (stays_header own_ positive (by decide)).bind (setField_run placed _) (stays_pure _)

theorem Inv.malloc_stays (inv : Inv descs s h) (offers : Offers descs s answers)
    (fits : size + arenaSize + (pgSize - 1) < sizeMod) (own_ : ∀ held ∈ s.pages, held ∈ own)
    (given : ∀ pageCnt, 0 < pageCnt → answers pageCnt ≠ null → (answers pageCnt,pageCnt) ∈ own) :
    Stays descs own (malloc descs answers size) s := by
  have mine := inv.mine own_
  unfold malloc
  by_cases zero : size = 0
  · rw [if_pos zero]
    exact stays_pure null
  rw [if_neg zero]
  have found := findDesc_spec inv.shape.fields size (Nat.zero_add 7)
  rw [Nat.mul_zero,Nat.add_zero] at found
  refine Stays.read (a := s) rfl (Stays.read (a := s) rfl ?_)
  rw [inv.descCnt]
  rcases found with ⟨i,found,_⟩ | found
  · rw [found]
    refine Stays.read (inv.shape.listEmpty_run i) ?_
    cases front : h.free i with
    | nil =>
      refine Stays.seq (inv.newArena_stays offers front mine (given 1 Nat.one_pos)) fun made t went => ?_
      rcases inv.newArena_run offers front with ⟨_,refused⟩ | ⟨s',ran,fresh,shape',_,pages,_⟩
      · rw [went] at refused
        cases refused
        exact stays_pure null
      · rw [went] at ran
        cases ran
        obtain ⟨e,rest,front'⟩ : ∃ e rest, (h.extend (answers 1) i).free i = e :: rest := by
          refine ⟨_,_,(withFree_free ..).trans (blocksFrom_next (perArena_bounds i).1 (answers 1))⟩
        refine shape'.takeBlock_stays front' fun g held => ?_
        rcases List.mem_cons.mp held with rfl | old
        · exact given 1 Nat.one_pos (Nat.ne_of_gt fresh.laid.nonnull)
        · exact mine g old
    | cons e rest => exact inv.shape.takeBlock_stays front mine
  · rw [found]
    have positive := (pageCount_spec fits).1
    exact mallocBig_stays positive (given _ positive)

theorem keeps_own_of_blind (blind : Blind setPages x) : Keeps (fun s : State => ∀ held ∈ s.pages, held ∈ own) x := by
  intro s a s' before ran
  obtain ⟨t,_,rfl⟩ := blind.ok_inv (v := s.pages) (s := s) ran
  exact before

theorem keeps_own_getPages (given : answers pageCnt ≠ null → (answers pageCnt,pageCnt) ∈ own) :
    Keeps (fun s : State => ∀ held ∈ s.pages, held ∈ own) (pallocGetMultiple answers pageCnt) := by
  intro s a s' before ran
  unfold pallocGetMultiple at ran
  split at ran
  · cases ran
    exact before
  · rename_i some_
    cases ran
    intro held inside
    rcases List.mem_cons.mp inside with rfl | old
    · exact given some_
    · exact before held old

theorem keeps_own_malloc (given : ∀ pageCnt, 0 < pageCnt → answers pageCnt ≠ null → (answers pageCnt,pageCnt) ∈ own)
    (fits : size + arenaSize + (pgSize - 1) < sizeMod) :
    Keeps (fun s : State => ∀ held ∈ s.pages, held ∈ own) (malloc descs answers size) := by
  refine Keeps.ite (keeps_pure _) (keeps_get_bind fun s _ => keeps_get_bind fun t _ => ?_)
  cases findDesc size s.memory t.descCnt descs with
  | none =>
    refine (keeps_own_getPages (given _ (pageCount_spec fits).1)).bind fun a => Keeps.ite (keeps_pure _) ?_
    exact (keeps_own_of_blind (blind_setField _ _ _)).bind fun _ => (keeps_own_of_blind (blind_setField _ _ _)).bind fun _ =>
      (keeps_own_of_blind (blind_setField _ _ _)).bind fun _ => keeps_pure _
  | some d =>
    refine (keeps_own_of_blind (blind_onList _)).bind fun empty => Keeps.ite ?_ (keeps_own_of_blind (blind_takeBlock d))
    refine Keeps.bind ?_ fun made => Keeps.ite (keeps_pure _) (keeps_own_of_blind (blind_takeBlock d))
    refine (keeps_own_getPages (given 1 Nat.one_pos)).bind fun a => Keeps.ite (keeps_pure _) ?_
    exact (keeps_own_of_blind (blind_setField _ _ _)).bind fun _ => (keeps_own_of_blind (blind_setField _ _ _)).bind fun _ =>
      (keeps_own_of_blind (blind_field _ _)).bind fun _ => (keeps_own_of_blind (blind_setField _ _ _)).bind fun _ =>
        (keeps_own_of_blind (blind_addBlocks _ _ _ _)).bind fun _ => keeps_pure _

/-- The first half of `free`, on its own. -/
theorem Shape.enlist_stays (shape : Shape descs s.memory h h.count) (held : .arena a i ∈ h.groups)
    (piece : Piece (.arena a i) p (classSize i)) (unlisted : p ∉ h.free i) (mine : ∀ g ∈ h.groups, g.held ∈ own) :
    Stays descs own ((modify fun t : State => { t with memory := fill t.memory p (classSize i) 0xcc }) >>= fun _ =>
      onList (listPushFront (freeList (descAt descs i)) p) >>= fun _ =>
      freeCnt a >>= fun cnt => setField a 8 (cnt + 1) >>= fun _ => (pure () : M Unit)) s := by
  have laid := shape.sound.laid _ held
  have live : h.Live p (classSize i) := ⟨_,held,piece,shape.sound.unlisted held piece unlisted⟩
  let cleared : State := { s with memory := fill s.memory p (classSize i) 0xcc }
  have start : Shape descs cleared.memory h h.count := shape.write live fun b outside => (if_neg (by omega)).symm
  have first : Stays descs own (modify fun t : State => { t with memory := fill t.memory p (classSize i) 0xcc } : M PUnit) s :=
    stays_memory (fun m => fill m p (classSize i) 0xcc) fun b foreign =>
      if_neg (by have := piece.foreign laid (mine _ held) foreign; omega)
  refine first.bind (t := cleared) rfl ?_
  obtain ⟨placed,new⟩ := start.sound.loose held piece unlisted
  have does := listPushFront_does start.lists (lists_at descs h i) placed new
  have members : ∀ b ∈ p :: h.free i, ∃ a, .arena a i ∈ h.groups ∧ Piece (.arena a i) b (classSize i) := by
    intro b listed
    rcases List.mem_cons.mp listed with rfl | old
    · exact ⟨a,held,piece⟩
    · exact start.sound.members i b old
  obtain ⟨s',pushed,moves⟩ := start.move does members
  refine (start.move_stays does members mine).bind pushed ?_
  have held' : .arena a i ∈ (h.withFree i (p :: h.free i)).groups := held
  refine Stays.read (moves.shape.freeCnt_run held') ?_
  exact (stays_header (mine _ held) Nat.one_pos (Nat.le_refl _)).seq fun _ _ _ => stays_pure ()

theorem Inv.freeBlock_stays (inv : Inv descs s h) (held : .arena a i ∈ h.groups) (piece : Piece (.arena a i) p (classSize i))
    (unlisted : p ∉ h.free i) (mine : ∀ g ∈ h.groups, g.held ∈ own) : Stays descs own (freeBlock a (descAt descs i) p) s := by
  have shape := inv.shape
  obtain ⟨t,moves,ran⟩ := shape.enlist_run held piece unlisted
  have listed : Confined descs own s.memory t.memory := shape.enlist_stays held piece unlisted mine () t (ran (pure ()))
  have held' : .arena a i ∈ (h.withFree i (p :: h.free i)).groups := held
  have count : freeCnt a t = .ok ((h.withFree i (p :: h.free i)).listed i a,t) := moves.shape.freeCnt_run held'
  intro u s' done
  unfold freeBlock at done
  rw [bind_go (shape.blockSizeOf_run i),ran,bind_go (moves.shape.blocksPerArena_run i),bind_go count] at done
  split at done
  · rename_i all
    have exactly := Nat.le_antisymm (moves.shape.full_iff held').1 all
    have full := (moves.shape.full_iff held').2.mp exactly
    rw [bind_go count,bind_go (assert_run (decide_eq_true exactly))] at done
    have rest : Stays descs own (removeBlocks (descAt descs i) a pgSize 0 >>= fun _ => pallocFreeMultiple a 1) t :=
      (moves.shape.removeBlocks_stays held' full mine).seq fun _ _ _ => stays_freePages (mine _ held)
    exact listed.trans (rest u s' done)
  · cases pure_ok.mp done
    exact listed

theorem Inv.free_stays (inv : Inv descs s h) (live : h.Live p n) (own_ : ∀ held ∈ s.pages, held ∈ own) :
    Stays descs own (free p) s := by
  obtain ⟨g,held,piece,unlisted⟩ := live
  have shape := inv.shape
  have mine := inv.mine own_
  have nonnull : p ≠ null := shape.sound.live_nonnull ⟨g,held,piece,unlisted⟩
  unfold free
  rw [if_pos nonnull]
  refine Stays.read (shape.blockToArena_run held piece) (Stays.read (shape.desc_run held) ?_)
  cases piece with
  | block inside =>
    rename_i k i a
    change Stays descs own (if descAt descs i ≠ null then freeBlock a (descAt descs i) _ else _) s
    rw [if_pos (ne_null (desc_nonnull shape.sound i))]
    exact inv.freeBlock_stays held (.block inside) (unlisted i) mine
  | whole =>
    rename_i a pageCnt
    have count : freeCnt a s = .ok (pageCnt,s) := shape.freeCnt_run held
    exact Stays.read count (stays_freePages (mine _ held))

theorem Inv.calloc_stays (inv : Inv descs s h) (offers : Offers descs s answers)
    (fits : a * b % sizeMod + arenaSize + (pgSize - 1) < sizeMod) (own_ : ∀ held ∈ s.pages, held ∈ own)
    (given : ∀ pageCnt, 0 < pageCnt → answers pageCnt ≠ null → (answers pageCnt,pageCnt) ∈ own) :
    Stays descs own (calloc descs answers a b) s := by
  unfold calloc
  by_cases wrapped : (a * b % sizeMod < a || a * b % sizeMod < b) = true
  · dsimp only
    rw [if_pos wrapped]
    exact stays_pure null
  dsimp only
  rw [if_neg wrapped]
  obtain ⟨p,s',ran,result⟩ := inv.malloc_run offers fits
  refine (inv.malloc_stays offers fits own_ given).bind ran ?_
  rcases result with ⟨rfl,rfl,_⟩ | ⟨h',n,grants,room⟩
  · exact stays_pure null
  split
  · obtain ⟨g,held,piece,_⟩ := grants.granted
    have own' : ∀ held ∈ s'.pages, held ∈ own := keeps_own_malloc given fits s p s' own_ ran
    refine Stays.seq (stays_memory (fun m => fill m p (a * b % sizeMod) 0) fun c foreign => if_neg ?_) fun _ _ _ => stays_pure p
    have away := piece.foreign (grants.inv.shape.sound.laid g held) (grants.inv.mine own' g held) foreign
    omega
  · exact stays_pure p

theorem Inv.realloc_stays (inv : Inv descs s h) (offers : Offers descs s answers)
    (fits : size + arenaSize + (pgSize - 1) < sizeMod) (outstanding : p = null ∨ ∃ k, h.Live p k)
    (own_ : ∀ held ∈ s.pages, held ∈ own)
    (given : ∀ pageCnt, 0 < pageCnt → answers pageCnt ≠ null → (answers pageCnt,pageCnt) ∈ own) :
    Stays descs own (realloc descs answers p size) s := by
  unfold realloc
  split
  · rcases outstanding with rfl | ⟨k,live⟩
    · exact stays_pure null
    · exact (inv.free_stays live own_).seq fun _ _ _ => stays_pure null
  obtain ⟨q,s',ran,result⟩ := inv.malloc_run offers fits
  refine (inv.malloc_stays offers fits own_ given).bind ran ?_
  split
  · rename_i both
    obtain ⟨k,live⟩ := outstanding.resolve_left both.1
    rcases result with ⟨none_,_⟩ | ⟨h',n,grants,room⟩
    · exact absurd none_ both.2
    have own' : ∀ held ∈ s'.pages, held ∈ own := keeps_own_malloc given fits s q s' own_ ran
    have live' : h'.Live p k := (grants.live p k).mpr (.inl live)
    have ⟨g,held,piece,_⟩ := live'
    have ⟨g',held',piece',_⟩ := grants.granted
    have written := grants.write (copy s'.memory q p (min size k)) fun b outside => (if_neg (by omega)).symm
    have copied : Stays descs own
        (modify fun t : State => { t with memory := copy t.memory q p (min size k) } : M PUnit) s' := by
      refine stays_memory (fun m => copy m q p (min size k)) fun b foreign => if_neg ?_
      have away := piece'.foreign (grants.inv.shape.sound.laid g' held') (grants.inv.mine own' g' held') foreign
      omega
    refine Stays.read (grants.inv.shape.blockSize_run held piece) (copied.bind (a := ⟨⟩) rfl ?_)
    exact (written.inv.free_stays live' own').seq fun _ _ _ => stays_pure q
  · exact stays_pure q

/-- A call writes to the descriptors, to pages that are held and to those that it is given. -/
theorem Inv.serve_stays {c : Call} (inv : Inv descs s h) (tracks : Tracks h out) (offers : Offers descs s answers) (allowed : c.Allowed out)
    (own_ : ∀ held ∈ s.pages, held ∈ own)
    (given : ∀ pageCnt, 0 < pageCnt → answers pageCnt ≠ null → (answers pageCnt,pageCnt) ∈ own) :
    Stays descs own (c.run descs answers) s := by
  have outstanding : c.block = null ∨ ∃ k, h.Live c.block k := by
    rcases allowed.outstanding with none_ | ⟨n,member⟩
    · exact .inl none_
    · obtain ⟨k,live,_⟩ := tracks.live _ n member
      exact .inr ⟨k,live⟩
  cases c with
  | malloc size => exact inv.malloc_stays offers allowed.fits own_ given
  | calloc a b => exact inv.calloc_stays offers allowed.fits own_ given
  | realloc p size => exact inv.realloc_stays offers allowed.fits outstanding own_ given
  | free p =>
    change p = null ∨ ∃ k, h.Live p k at outstanding
    rcases outstanding with rfl | ⟨k,live⟩
    · exact stays_pure null
    · exact (inv.free_stays live own_).seq fun _ _ _ => stays_pure null

end

end OsProj.Malloc
