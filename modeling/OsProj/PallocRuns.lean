import Mathlib.Data.List.Pairwise
import OsProj.Palloc

/-! Outstanding groups of pages in every run. A bit is set where a group has the page, so a scan
finds pages that no group has. -/
namespace OsProj.Palloc

open OsProj.Bitmap OsProj.ByteMemory OsProj.Faulting

/-! What the operations on bitmaps compute, where no assertion fails. -/

section
variable {b : Bitmap}

theorem assert_ok {c : Prop} [Decidable c] (holds : c) : assert (decide c) = .ok () := if_pos (decide_eq_true holds)

theorem bitmapSet_ok (inside : idx < b.bitCnt) (value : Bool) :
    bitmapSet b idx value = .ok { b with bits := fun i => if i = idx then value else b.bits i } := go (assert_ok inside)

theorem bitmapTest_ok (inside : idx < b.bitCnt) : bitmapTest b idx = .ok (b.bits idx) := go (assert_ok inside)

theorem setLoop_ok (inside : start + i + n ≤ b.bitCnt) :
    setLoop start value n i b = .ok { b with bits := setMultiple b.bits (start + i) n value } := by
  induction n generalizing i b with
  | zero =>
    have none : setMultiple b.bits (start + i) 0 value = b.bits := by
      funext j
      exact setMultiple_outside (by omega)
    rw [none]
    rfl
  | succ n ih =>
    rw [setLoop]
    refine (go (bitmapSet_ok (by omega) value)).trans ?_
    refine (ih (by simp only; omega)).trans ?_
    congr 2
    funext j
    simp only [setMultiple]
    split
    · rw [if_pos (by omega)]
    · split
      · rw [if_pos (by omega)]
      · rw [if_neg (by omega)]

theorem bitmapSetMultiple_ok (inside : start + cnt ≤ b.bitCnt) (small : b.bitCnt < sizeMod) :
    bitmapSetMultiple b start cnt value = .ok { b with bits := setMultiple b.bits start cnt value } := by
  have sum : (start + cnt) % sizeMod ≤ b.bitCnt := by rw [Nat.mod_eq_of_lt (by omega)]; exact inside
  refine (go (assert_ok (by omega))).trans ((go (assert_ok sum)).trans ?_)
  exact setLoop_ok inside

theorem contains_succ (bits : Nat → Bool) (start n : Nat) (value : Bool) :
    contains bits start (n + 1) value = (bits start == value || contains bits (start + 1) n value) := by
  simp only [contains,List.range_succ_eq_map,List.any_cons,List.any_map]
  congr 2
  funext i
  simp only [Function.comp_apply,Nat.succ_eq_add_one]
  congr 2
  omega

theorem containsLoop_ok (inside : start + i + n ≤ b.bitCnt) :
    containsLoop b start value n i = .ok (contains b.bits (start + i) n value) := by
  induction n generalizing i with
  | zero => rfl
  | succ n ih =>
    rw [containsLoop]
    refine (go (bitmapTest_ok (by omega))).trans ?_
    rw [contains_succ]
    split
    · rename_i same
      rw [same,beq_self_eq_true,Bool.true_or]
      rfl
    · rename_i other
      rw [beq_eq_false_iff_ne.mpr other,Bool.false_or]
      exact ih (by omega)

theorem bitmapContains_ok (inside : start + cnt ≤ b.bitCnt) (small : b.bitCnt < sizeMod) :
    bitmapContains b start cnt value = .ok (contains b.bits start cnt value) := by
  have sum : (start + cnt) % sizeMod ≤ b.bitCnt := by rw [Nat.mod_eq_of_lt (by omega)]; exact inside
  refine (go (assert_ok (by omega))).trans ((go (assert_ok sum)).trans ?_)
  exact containsLoop_ok inside

theorem scanLoop_ok (inside : i + n + cnt ≤ b.bitCnt + 1) (small : b.bitCnt < sizeMod) :
    scanLoop b cnt value n i = .ok ((List.range' i n).find? fun i => !contains b.bits i cnt (!value)) := by
  induction n generalizing i with
  | zero => rfl
  | succ n ih =>
    rw [scanLoop,List.range'_succ,List.find?_cons]
    refine (go (bitmapContains_ok (by omega) small)).trans ?_
    cases contains b.bits i cnt (!value) with
    | true => exact ih (by omega)
    | false => rfl

theorem bitmapScan_ok (small : b.bitCnt < sizeMod) :
    bitmapScan b 0 cnt value = .ok (scan b.bits b.bitCnt 0 cnt value) := by
  refine (go (assert_ok (Nat.zero_le _))).trans ?_
  unfold scan
  split
  · exact scanLoop_ok (by omega) small
  · rfl

/-- The scan as a whole, where a run of free bits is found and where there is none. -/
theorem bitmapScanAndFlip_ok (cnt : Nat) (small : b.bitCnt < sizeMod) :
    (∃ idx, scan b.bits b.bitCnt 0 cnt false = some idx ∧ bitmapScanAndFlip b 0 cnt false =
      .ok (some idx,{ b with bits := setMultiple b.bits idx cnt true })) ∨
    scan b.bits b.bitCnt 0 cnt false = none ∧ bitmapScanAndFlip b 0 cnt false = .ok (none,b) := by
  unfold bitmapScanAndFlip
  rw [go (bitmapScan_ok small)]
  cases found : scan b.bits b.bitCnt 0 cnt false with
  | none => exact .inr ⟨rfl,rfl⟩
  | some idx => exact .inl ⟨idx,rfl,go (bitmapSetMultiple_ok (scan_some found).2.1 small)⟩

end

/-! Groups of pages. -/

/-- Pages that were handed out together, and the pool they were asked from. -/
structure Group where
  pages : Nat
  pageCnt : Nat
  user : Bool
  deriving DecidableEq, Repr

def Group.Has (g : Group) (a : Nat) : Prop := g.pages ≤ a ∧ a < g.pages + pgSize * g.pageCnt

/-- The states of the allocator with the groups that are outstanding. Who has a group may write to it. -/
inductive Reached (ram : UInt16) (userPageLimit : Nat) : State → List Group → Prop where
  | boot (done : pallocInit boot (initRamPages ram) userPageLimit = .ok s) : Reached ram userPageLimit s []
  | getMultiple (before : Reached ram userPageLimit s out) (ran : pallocGetMultiple flags pageCnt s = .ok (pages,s')) :
      Reached ram userPageLimit s' (if pages = 0 then out else ⟨pages,pageCnt,flags.user⟩ :: out)
  | getPage (before : Reached ram userPageLimit s out) (ran : pallocGetPage flags s = .ok (pages,s')) :
      Reached ram userPageLimit s' (if pages = 0 then out else ⟨pages,1,flags.user⟩ :: out)
  | freeMultiple (before : Reached ram userPageLimit s out) (member : g ∈ out)
      (ran : pallocFreeMultiple g.pages g.pageCnt s = .ok ((),s')) : Reached ram userPageLimit s' (out.erase g)
  | freePage (before : Reached ram userPageLimit s out) (member : g ∈ out) (one : g.pageCnt = 1)
      (ran : pallocFreePage g.pages s = .ok ((),s')) : Reached ram userPageLimit s' (out.erase g)
  | write (before : Reached ram userPageLimit s out) (own : ∀ a, memory a ≠ s.memory a → ∃ g ∈ out, g.Has a) :
      Reached ram userPageLimit { s with memory := memory } out

/-- The pool takes the addresses from `first` to `last`, with its bitmap in front. -/
structure PoolAt (pool : Pool) (first last : Nat) : Prop where
  map : pool.usedMap.addr = first
  room : first + bitmapBufSize pool.usedMap.bitCnt ≤ pool.base
  aligned : pool.base % pgSize = 0
  last : pool.base + pgSize * pool.usedMap.bitCnt = last

structure Group.Inside (g : Group) (pool : Pool) : Prop where
  some_ : 0 < g.pageCnt
  place : ∃ idx, g.pages = pool.base + pgSize * idx ∧ idx + g.pageCnt ≤ pool.usedMap.bitCnt

def Group.Apart (g g' : Group) : Prop := ∀ a, g.Has a → ¬ g'.Has a

instance : Std.Symm Group.Apart := ⟨fun _ _ apart a has has' => apart a has' has⟩

structure Inv (lo mid hi : Nat) (s : State) (out : List Group) : Prop where
  kernel : PoolAt s.kernelPool lo mid
  user : PoolAt s.userPool mid hi
  low : 0 < lo
  high : hi < sizeMod
  inside : ∀ g ∈ out, g.Inside (s.pool g.user)
  apart : out.Pairwise Group.Apart
  marked : ∀ user, ∀ i < (s.pool user).usedMap.bitCnt, (s.pool user).usedMap.bits i = true ↔
    ∃ g ∈ out, g.user = user ∧ g.Has ((s.pool user).base + pgSize * i)

section
variable {s s' : State} {out : List Group} {g g' : Group} {pool : Pool} {map : Bitmap} {user : Bool} {lo mid hi : Nat}

theorem pool_setMap (s : State) (user user' : Bool) (map : Bitmap) :
    (s.setMap user map).pool user' = if user' = user then { s.pool user' with usedMap := map } else s.pool user' := by
  cases user <;> cases user' <;> rfl

theorem pool_with (s : State) (user user' : Bool) (map : Bitmap) (memory : Memory) :
    State.pool { s.setMap user map with memory := memory } user' =
      if user' = user then { s.pool user' with usedMap := map } else s.pool user' := pool_setMap s user user' map

theorem setMap_memory (s : State) (user : Bool) (map : Bitmap) : (s.setMap user map).memory = s.memory := by
  cases user <;> rfl

theorem setMap_with_memory (s : State) (user : Bool) (map : Bitmap) (memory : Memory) :
    State.setMap { s with memory := memory } user map = { s.setMap user map with memory := memory } := by
  cases user <;> rfl

theorem setMap_same (s : State) (user : Bool) : s.setMap user (s.pool user).usedMap = s := by
  cases user <;> rfl

/-- The pages of a group by their numbers in the pool. -/
theorem Group.has_index (g : Group) (place : g.pages = base + pgSize * idx) (i : Nat) :
    g.Has (base + pgSize * i) ↔ idx ≤ i ∧ i < idx + g.pageCnt := by
  simp only [Group.Has,place,pgSize]
  omega

/-- With an address of a page, the group has the page. -/
theorem Group.Inside.has_iff (inside : g.Inside pool) (a : Nat) :
    g.Has a ↔ pool.base ≤ a ∧ g.Has (pool.base + pgSize * ((a - pool.base) / pgSize)) := by
  obtain ⟨idx,place,_⟩ := inside.place
  simp only [Group.Has,place,pgSize]
  omega

theorem Group.Inside.range (inside : g.Inside pool) (located : PoolAt pool first last) (has : g.Has a) :
    pool.base ≤ a ∧ a < last := by
  obtain ⟨idx,place,fits⟩ := inside.place
  have last := located.last
  simp only [Group.Has,place,pgSize] at *
  omega

theorem Group.Inside.has_pages (inside : g.Inside pool) : g.Has g.pages := by
  have := inside.some_
  simp only [Group.Has,pgSize]
  omega

theorem Inv.pool_at (inv : Inv lo mid hi s out) (user : Bool) :
    ∃ first last, PoolAt (s.pool user) first last ∧ lo ≤ first ∧ first ≤ last ∧ last ≤ hi := by
  have kernel := inv.kernel.last
  have kernelRoom := inv.kernel.room
  have user' := inv.user.last
  have userRoom := inv.user.room
  cases user with
  | false => exact ⟨lo,mid,inv.kernel,by omega,by omega,by omega⟩
  | true => exact ⟨mid,hi,inv.user,by omega,by omega,by omega⟩

theorem Inv.base_pos (inv : Inv lo mid hi s out) (user : Bool) : 0 < (s.pool user).base := by
  obtain ⟨first,last,located,above,_,_⟩ := inv.pool_at user
  have low := inv.low
  have room := located.room
  simp only [bitmapBufSize] at room
  omega

theorem Inv.small (inv : Inv lo mid hi s out) (user : Bool) : (s.pool user).usedMap.bitCnt < sizeMod := by
  obtain ⟨first,last,located,_,_,below⟩ := inv.pool_at user
  have high := inv.high
  have last := located.last
  simp only [pgSize] at last
  omega

theorem Inv.nodup (inv : Inv lo mid hi s out) : out.Nodup := by
  refine inv.apart.imp_of_mem fun {g g'} here _ apart => ?_
  rintro rfl
  exact apart _ (inv.inside g here).has_pages (inv.inside g here).has_pages

/-- Groups of the two pools are apart in any case. -/
theorem Inv.other_pool (inv : Inv lo mid hi s out) (first : g.Inside (s.pool g.user)) (second : g'.Inside (s.pool g'.user))
    (different : g.user ≠ g'.user) : g.Apart g' := by
  intro a has has'
  have room := inv.user.room
  cases kind : g.user with
  | false =>
    have kind' : g'.user = true := by
      rw [kind] at different
      exact (Bool.eq_false_or_eq_true _).resolve_right (Ne.symm different)
    rw [kind] at first
    rw [kind'] at second
    have below := (first.range inv.kernel has).2
    have above := (second.range inv.user has').1
    simp only [State.pool] at above
    simp only [↓reduceIte] at above
    omega
  | true =>
    have kind' : g'.user = false := by
      rw [kind] at different
      exact (Bool.eq_false_or_eq_true _).resolve_left (Ne.symm different)
    rw [kind] at first
    rw [kind'] at second
    have above := (first.range inv.user has).1
    have below := (second.range inv.kernel has').2
    simp only [State.pool] at above
    simp only [↓reduceIte] at above
    omega

/-- A group of pages whose bits are clear is apart from all that are outstanding. -/
theorem Inv.fresh_apart (inv : Inv lo mid hi s out) (inside : g.Inside (s.pool g.user))
    (clear : ∀ i < (s.pool g.user).usedMap.bitCnt, g.Has ((s.pool g.user).base + pgSize * i) → (s.pool g.user).usedMap.bits i = false) :
    ∀ g' ∈ out, g.Apart g' := by
  intro g' here
  by_cases same : g.user = g'.user
  · intro a has has'
    have inside' := inv.inside g' here
    rw [← same] at inside'
    obtain ⟨low,first⟩ := (inside.has_iff a).mp has
    obtain ⟨_,second⟩ := (inside'.has_iff a).mp has'
    have bound : (a - (s.pool g.user).base) / pgSize < (s.pool g.user).usedMap.bitCnt := by
      obtain ⟨idx,place,fits⟩ := inside.place
      simp only [Group.Has,place,pgSize] at *
      omega
    have marked := (inv.marked g.user _ bound).mpr ⟨g',here,same.symm,second⟩
    rw [clear _ bound first] at marked
    contradiction
  · exact inv.other_pool inside (inv.inside g' here) same

/-- Only the bits of one pool are new. -/
theorem PoolAt.setBits (located : PoolAt pool lo hi) (bits : Nat → Bool) :
    PoolAt { pool with usedMap := { pool.usedMap with bits := bits } } lo hi :=
  ⟨located.map,located.room,located.aligned,located.last⟩

/-- The bits of a pool replaced, together with the list of groups. -/
theorem Inv.change (inv : Inv lo mid hi s out) (bits : Nat → Bool) (memory : Memory) {out' : List Group}
    (inside : ∀ g ∈ out', g.Inside (s.pool g.user)) (apart : out'.Pairwise Group.Apart)
    (own : ∀ i < (s.pool user).usedMap.bitCnt, bits i = true ↔
      ∃ g ∈ out', g.user = user ∧ g.Has ((s.pool user).base + pgSize * i))
    (others : ∀ g, g.user ≠ user → (g ∈ out' ↔ g ∈ out)) :
    Inv lo mid hi { s.setMap user { (s.pool user).usedMap with bits := bits } with memory := memory } out' := by
  refine ⟨?_,?_,inv.low,inv.high,?_,apart,?_⟩
  · cases user with
    | false => exact inv.kernel.setBits bits
    | true => exact inv.kernel
  · cases user with
    | false => exact inv.user
    | true => exact inv.user.setBits bits
  · intro g here
    rw [pool_with]
    have before := inside g here
    split
    · rename_i same
      subst same
      exact ⟨before.some_,before.place⟩
    · exact before
  · intro user'
    rw [pool_with]
    split
    · rename_i same
      subst same
      exact own
    · rename_i different
      intro i bound
      rw [inv.marked user' i bound]
      constructor
      · rintro ⟨g,here,rfl,has⟩
        exact ⟨g,(others g different).mpr here,rfl,has⟩
      · rintro ⟨g,here,rfl,has⟩
        exact ⟨g,(others g different).mp here,rfl,has⟩

/-- The allocator's way with a run of free pages. -/
theorem getMultiple_found (some_ : pageCnt ≠ 0) (base : 0 < (s.pool flags.user).base)
    (flipped : bitmapScanAndFlip (s.pool flags.user).usedMap 0 pageCnt false = .ok (some idx,map)) :
    pallocGetMultiple flags pageCnt s = .ok ((s.pool flags.user).base + pgSize * idx,
      { s.setMap flags.user map with
        memory := if flags.zero then fill s.memory ((s.pool flags.user).base + pgSize * idx) (pgSize * pageCnt) 0
          else s.memory }) := by
  rw [pallocGetMultiple,if_neg some_]
  refine (bind_go rfl).trans ((bind_go (lift_ok flipped)).trans ((bind_go rfl).trans ?_))
  have pages : (s.pool flags.user).base + pgSize * idx ≠ 0 := Nat.ne_of_gt (Nat.add_pos_left base _)
  rw [if_pos pages]
  cases flags.zero with
  | true =>
    refine (bind_go rfl).trans ?_
    dsimp only
    rw [setMap_memory]
    rfl
  | false =>
    simp only [Bool.false_eq_true,↓reduceIte]
    rw [← setMap_memory s flags.user map]
    rfl

/-- Its way without one. -/
theorem getMultiple_full (some_ : pageCnt ≠ 0)
    (kept : bitmapScanAndFlip (s.pool flags.user).usedMap 0 pageCnt false = .ok (none,(s.pool flags.user).usedMap)) :
    pallocGetMultiple flags pageCnt s = if flags.assert then .error .outOfPages else .ok (0,s) := by
  rw [pallocGetMultiple,if_neg some_]
  refine (bind_go rfl).trans ((bind_go (lift_ok kept)).trans ((bind_go rfl).trans ?_))
  simp only [ne_eq,not_true_eq_false,↓reduceIte]
  cases flags.assert with
  | true => rfl
  | false =>
    simp only [Bool.false_eq_true,↓reduceIte,setMap_same]
    rfl

/-- Pages with clear bits become a group. -/
theorem Inv.take (inv : Inv lo mid hi s out) (some_ : 0 < g.pageCnt) (place : g.pages = (s.pool g.user).base + pgSize * idx)
    (fits : idx + g.pageCnt ≤ (s.pool g.user).usedMap.bitCnt)
    (free : ∀ i, idx ≤ i → i < idx + g.pageCnt → (s.pool g.user).usedMap.bits i = false) (memory : Memory) :
    Inv lo mid hi { s.setMap g.user { (s.pool g.user).usedMap with
      bits := setMultiple (s.pool g.user).usedMap.bits idx g.pageCnt true } with memory := memory } (g :: out) := by
  have inside : g.Inside (s.pool g.user) := ⟨some_,idx,place,fits⟩
  have has := g.has_index place
  refine inv.change _ memory ?_ ?_ ?_ ?_
  · intro g' here
    rcases List.mem_cons.mp here with rfl | here
    · exact inside
    · exact inv.inside g' here
  · refine List.pairwise_cons.mpr ⟨inv.fresh_apart inside fun i _ here => ?_,inv.apart⟩
    exact free i ((has i).mp here).1 ((has i).mp here).2
  · intro i bound
    simp only [setMultiple,List.exists_mem_cons_iff,true_and]
    rw [has,← inv.marked g.user i bound]
    split
    · rename_i taken
      simp [taken]
    · rename_i other
      simp [other]
  · intro g' different
    rw [List.mem_cons,or_iff_right]
    rintro rfl
    exact different rfl

/-- The new group, and what becomes of the memory. -/
theorem Inv.get (inv : Inv lo mid hi s out) (flags : PallocFlags) (pageCnt : Nat) :
    (∃ pages s', pallocGetMultiple flags pageCnt s = .ok (pages,s') ∧
      Inv lo mid hi s' (if pages = 0 then out else ⟨pages,pageCnt,flags.user⟩ :: out) ∧
      (∀ a, s'.memory a ≠ s.memory a → pages ≠ 0 ∧ Group.Has ⟨pages,pageCnt,flags.user⟩ a) ∧
      (pages = 0 → s' = s) ∧
      (flags.zero = true → pages ≠ 0 → ∀ a, Group.Has ⟨pages,pageCnt,flags.user⟩ a → s'.memory a = 0) ∧
      pages = (scan (s.pool flags.user).usedMap.bits (s.pool flags.user).usedMap.bitCnt 0 pageCnt false).elim 0
        fun idx => if pageCnt = 0 then 0 else (s.pool flags.user).base + pgSize * idx) ∨
    pallocGetMultiple flags pageCnt s = .error .outOfPages ∧ flags.assert = true ∧
      scan (s.pool flags.user).usedMap.bits (s.pool flags.user).usedMap.bitCnt 0 pageCnt false = none := by
  by_cases none_ : pageCnt = 0
  · have nothing (place : Option Nat) : 0 = place.elim 0 fun idx =>
        if pageCnt = 0 then 0 else (s.pool flags.user).base + pgSize * idx := by
      cases place with
      | none => rfl
      | some idx => exact (if_pos none_).symm
    refine .inl ⟨0,s,?_,?_,fun a changed => absurd rfl changed,fun _ => rfl,fun _ some_ => absurd rfl some_,nothing _⟩
    · rw [pallocGetMultiple,if_pos none_]
      rfl
    · rw [if_pos rfl]
      exact inv
  rcases bitmapScanAndFlip_ok pageCnt (inv.small flags.user) with ⟨idx,found,flipped⟩ | ⟨absent,kept⟩
  · have base := inv.base_pos flags.user
    have pages : (s.pool flags.user).base + pgSize * idx ≠ 0 := Nat.ne_of_gt (Nat.add_pos_left base _)
    obtain ⟨_,fits,free⟩ := scan_some found
    refine .inl ⟨_,_,getMultiple_found none_ base flipped,?_,?_,fun none => absurd none pages,?_,
      by rw [found]; exact (if_neg none_).symm⟩
    · rw [if_neg pages]
      let g : Group := ⟨(s.pool flags.user).base + pgSize * idx,pageCnt,flags.user⟩
      exact inv.take (g := g) (Nat.pos_of_ne_zero none_) rfl fits free _
    · intro a changed
      refine ⟨pages,?_⟩
      by_contra outside
      refine changed ?_
      dsimp only
      split
      · exact if_neg outside
      · rfl
    · intro zero _ a inside
      simp only [zero,↓reduceIte]
      exact if_pos inside
  · have ran := getMultiple_full none_ kept
    cases asserted : flags.assert with
    | true => exact .inr ⟨ran.trans (if_pos asserted),rfl,absent⟩
    | false =>
      refine .inl ⟨0,s,ran.trans (if_neg (by simp [asserted])),?_,fun a changed => absurd rfl changed,fun _ => rfl,
        fun _ some_ => absurd rfl some_,by rw [absent]; rfl⟩
      rw [if_pos rfl]
      exact inv

/-- The pool of a group is found. -/
theorem Inv.findPool (inv : Inv lo mid hi s out) (here : g ∈ out) : Palloc.findPool s g.pages = .ok g.user := by
  obtain ⟨some_,idx,place,fits⟩ := inv.inside g here
  have kernel := inv.kernel.last
  have kernelAligned := inv.kernel.aligned
  have user := inv.user.aligned
  have room := inv.user.room
  cases kind : g.user with
  | false =>
    simp only [kind,State.pool,Bool.false_eq_true,↓reduceIte] at place fits
    have from_ : pageFromPool s.kernelPool g.pages = true := by
      simp only [pageFromPool,pgNo,place,pgSize,Bool.and_eq_true,decide_eq_true_eq] at *
      omega
    rw [Palloc.findPool,if_pos from_]
  | true =>
    simp only [kind,State.pool,↓reduceIte] at place fits
    have from_ : pageFromPool s.userPool g.pages = true := by
      simp only [pageFromPool,pgNo,place,pgSize,Bool.and_eq_true,decide_eq_true_eq] at *
      omega
    have other : pageFromPool s.kernelPool g.pages = false := by
      simp only [pageFromPool,pgNo,place,pgSize,Bool.and_eq_false_iff,decide_eq_false_iff_not] at *
      omega
    rw [Palloc.findPool,other,if_neg Bool.false_ne_true,if_pos from_]

def Available (s : State) (user : Bool) (page : Nat) : Prop :=
  ∃ i < (s.pool user).usedMap.bitCnt, page = (s.pool user).base + pgSize * i ∧ (s.pool user).usedMap.bits i = false

theorem Inv.group_index (inv : Inv lo mid hi s out) (place : g.pages = (s.pool g.user).base + pgSize * idx) :
    pgNo g.pages - pgNo (s.pool g.user).base = idx := by
  obtain ⟨first,last,located,_,_,_⟩ := inv.pool_at g.user
  have := located.aligned
  simp only [pgNo,place,pgSize] at *
  omega

theorem Inv.group_marked (inv : Inv lo mid hi s out) (here : g ∈ out)
    (place : g.pages = (s.pool g.user).base + pgSize * idx) (fits : idx + g.pageCnt ≤ (s.pool g.user).usedMap.bitCnt) :
    bitmapAll (s.pool g.user).usedMap idx g.pageCnt = .ok true := by
  have all : contains (s.pool g.user).usedMap.bits idx g.pageCnt false = false := by
    rw [contains_eq_false]
    intro i low high
    exact (inv.marked g.user i (by omega)).mpr ⟨g,here,rfl,(g.has_index place i).mpr ⟨low,high⟩⟩
  refine (go (bitmapContains_ok fits (inv.small g.user))).trans ?_
  rw [all]
  rfl

/-- A group that is given back passes every check. -/
theorem Inv.freeMultiple_ok (inv : Inv lo mid hi s out) (here : g ∈ out)
    (place : g.pages = (s.pool g.user).base + pgSize * idx) (fits : idx + g.pageCnt ≤ (s.pool g.user).usedMap.bitCnt) :
    pallocFreeMultiple g.pages g.pageCnt s = .ok ((),{ s.setMap g.user { (s.pool g.user).usedMap with
      bits := setMultiple (s.pool g.user).usedMap.bits idx g.pageCnt false } with
      memory := fill s.memory g.pages (pgSize * g.pageCnt) 0xcc }) := by
  obtain ⟨first,last,located,_,_,_⟩ := inv.pool_at g.user
  have base := inv.base_pos g.user
  have small := inv.small g.user
  have some_ := (inv.inside g here).some_
  have aligned : pgOfs g.pages = 0 := by
    have := located.aligned
    simp only [pgOfs,place,pgSize] at *
    omega
  refine (bind_go (lift_ok (assert_ok aligned))).trans ?_
  rw [if_neg (by omega)]
  refine (bind_go rfl).trans ((bind_go (lift_ok (inv.findPool here))).trans ((bind_go rfl).trans ?_))
  dsimp only
  rw [inv.group_index place]
  refine (bind_go (lift_ok (inv.group_marked here place fits))).trans ((bind_go (lift_ok rfl)).trans ?_)
  refine (bind_go (lift_ok (bitmapSetMultiple_ok fits small))).trans ?_
  exact congrArg (fun s' => Except.ok ((),s')) (setMap_with_memory s g.user _ _)

/-- The bits of a group cleared, and the group taken off the list. -/
theorem Inv.drop (inv : Inv lo mid hi s out) (here : g ∈ out) (place : g.pages = (s.pool g.user).base + pgSize * idx)
    (memory : Memory) :
    Inv lo mid hi { s.setMap g.user { (s.pool g.user).usedMap with
      bits := setMultiple (s.pool g.user).usedMap.bits idx g.pageCnt false } with memory := memory } (out.erase g) := by
  have has := g.has_index place
  refine inv.change _ memory ?_ ?_ ?_ ?_
  · exact fun g' other => inv.inside g' (List.mem_of_mem_erase other)
  · exact inv.apart.sublist List.erase_sublist
  · intro i bound
    simp only [setMultiple]
    split
    · rename_i freed
      refine iff_of_false Bool.false_ne_true ?_
      rintro ⟨g',other,_,has'⟩
      rw [inv.nodup.mem_erase_iff] at other
      exact inv.apart.forall other.2 here other.1 _ has' ((has i).mpr freed)
    · rename_i other
      rw [inv.marked g.user i bound]
      constructor
      · rintro ⟨g',here',same,has'⟩
        refine ⟨g',inv.nodup.mem_erase_iff.mpr ⟨?_,here'⟩,same,has'⟩
        rintro rfl
        exact other ((has i).mp has')
      · rintro ⟨g',here',same,has'⟩
        exact ⟨g',List.mem_of_mem_erase here',same,has'⟩
  · intro g' different
    refine ⟨List.mem_of_mem_erase,fun here' => inv.nodup.mem_erase_iff.mpr ⟨?_,here'⟩⟩
    rintro rfl
    exact different rfl

/-- The pages of the group, and no others, can be handed out again. -/
theorem available_drop (inside : g.Inside (s.pool g.user)) (aligned : (s.pool g.user).base % pgSize = 0)
    (place : g.pages = (s.pool g.user).base + pgSize * idx) (fits : idx + g.pageCnt ≤ (s.pool g.user).usedMap.bitCnt)
    (memory : Memory) (user : Bool) (page : Nat) :
    Available { s.setMap g.user { (s.pool g.user).usedMap with
      bits := setMultiple (s.pool g.user).usedMap.bits idx g.pageCnt false } with memory := memory } user page ↔
      Available s user page ∨ user = g.user ∧ g.Has page ∧ pgOfs page = 0 := by
  have has := g.has_index place
  unfold Available
  rw [pool_with]
  split
  · rename_i same
    subst same
    simp only [setMultiple,true_and]
    constructor
    · rintro ⟨i,bound,rfl,clear⟩
      split at clear
      · rename_i freed
        refine .inr ⟨(has i).mpr freed,?_⟩
        simp only [pgOfs,pgSize] at *
        omega
      · exact .inl ⟨i,bound,rfl,clear⟩
    · rintro (⟨i,bound,rfl,clear⟩ | ⟨own,start⟩)
      · exact ⟨i,bound,rfl,by rw [clear,ite_self]⟩
      · obtain ⟨low,own⟩ := (inside.has_iff page).mp own
        have freed := (has _).mp own
        refine ⟨(page - (s.pool g.user).base) / pgSize,by omega,?_,if_pos freed⟩
        simp only [pgOfs,pgSize] at *
        omega
  · rename_i different
    simp [different]

/-- A free takes the group back and no other page. -/
theorem Inv.free (inv : Inv lo mid hi s out) (here : g ∈ out) :
    ∃ s', pallocFreeMultiple g.pages g.pageCnt s = .ok ((),s') ∧ Inv lo mid hi s' (out.erase g) ∧
      (∀ user page, Available s' user page ↔ Available s user page ∨
        user = g.user ∧ g.Has page ∧ pgOfs page = 0) ∧
      ∀ a, s'.memory a ≠ s.memory a → g.Has a := by
  have inside := inv.inside g here
  obtain ⟨_,idx,place,fits⟩ := inv.inside g here
  obtain ⟨first,last,located,_,_,_⟩ := inv.pool_at g.user
  refine ⟨_,inv.freeMultiple_ok here place fits,inv.drop here place _,
    available_drop inside located.aligned place fits _,fun a changed => ?_⟩
  by_contra outside
  exact changed (if_neg outside)

/-! Boot. -/

theorem initPool_cases (stale : Nat → Bool) (name : String) (aligned : base % pgSize = 0) (small : pageCnt < sizeMod) :
    initPool stale base pageCnt name = .error (.notEnoughMemory name) ∨
    ∃ pool, initPool stale base pageCnt name = .ok pool ∧ PoolAt pool base (base + pgSize * pageCnt) ∧
      ∀ i < pool.usedMap.bitCnt, pool.usedMap.bits i = false := by
  let bmPages := divRoundUp (bitmapBufSize pageCnt) pgSize
  by_cases short : pageCnt < bmPages
  · exact .inl (if_pos short)
  have room : bitmapBufSize (pageCnt - bmPages) ≤ bmPages * pgSize := by
    simp only [bmPages,bitmapBufSize,divRoundUp,pgSize] at *
    omega
  have made : bitmapCreateInBuf stale (pageCnt - bmPages) base (bmPages * pgSize) =
      .ok ⟨base,pageCnt - bmPages,setMultiple stale 0 (pageCnt - bmPages) false⟩ := by
    refine (go (assert_ok room)).trans (bitmapSetMultiple_ok (by simp) ?_)
    dsimp only
    omega
  refine .inr ⟨⟨⟨base,pageCnt - bmPages,setMultiple stale 0 (pageCnt - bmPages) false⟩,base + bmPages * pgSize⟩,
    (if_neg short).trans (go made),⟨rfl,?_,?_,?_⟩,?_⟩
  · dsimp only
    omega
  · simp only [pgSize] at *
    omega
  · simp only [pgSize] at *
    omega
  · intro i bound
    exact setMultiple_inside (Nat.zero_le i) (by simpa using bound)

theorem initRamPages_range (ram : UInt16) : 256 ≤ initRamPages ram ∧ initRamPages ram ≤ 16384 := by
  unfold initRamPages
  omega

/-- The pools take the memory from the first megabyte on, or there is too little of it. -/
theorem pallocInit_cases (boot : Boot) (ram : UInt16) (userPageLimit : Nat) :
    (∃ name, pallocInit boot (initRamPages ram) userPageLimit = .error (.notEnoughMemory name)) ∨
    ∃ s mid, pallocInit boot (initRamPages ram) userPageLimit = .ok s ∧
      Inv (physBase + 1048576) mid (physBase + pgSize * initRamPages ram) s [] := by
  obtain ⟨low,high⟩ := initRamPages_range ram
  generalize initRamPages ram = pages at *
  have first : ptov (1024 * 1024) = .ok (1048576 + physBase) := rfl
  have bytes : pages * pgSize % sizeMod = pages * pgSize := by
    simp only [pgSize,sizeMod]
    omega
  have last : ptov (pages * pgSize % sizeMod) = .ok (pages * pgSize + physBase) := by
    rw [bytes]
    refine go (assert_ok ?_)
    simp only [pgSize,physBase]
    omega
  have free : (pages * pgSize + physBase - (1048576 + physBase)) / pgSize = pages - 256 := by
    simp only [pgSize,physBase]
    omega
  unfold pallocInit
  rw [go first,go last]
  dsimp only
  rw [free]
  generalize limited : (if userPageLimit < (pages - 256) / 2 then userPageLimit else (pages - 256) / 2) = userPages
  have fewer : userPages ≤ pages - 256 := by
    rw [← limited]
    split <;> omega
  have base : (1048576 + physBase) % pgSize = 0 := rfl
  rcases initPool_cases (boot.stale (1048576 + physBase)) "kernel pool" base
    (show pages - 256 - userPages < sizeMod by simp only [sizeMod]; omega) with failed | ⟨kernelPool,made,kernel,clear⟩
  · rw [failed]
    exact .inl ⟨_,rfl⟩
  rw [go made]
  rcases initPool_cases (boot.stale (1048576 + physBase + (pages - 256 - userPages) * pgSize)) "user pool"
    (show (1048576 + physBase + (pages - 256 - userPages) * pgSize) % pgSize = 0 by simp only [pgSize,physBase]; omega)
    (show userPages < sizeMod by simp only [sizeMod]; omega) with failed | ⟨userPool,made',user,clear'⟩
  · rw [failed]
    exact .inl ⟨_,rfl⟩
  rw [go made']
  refine .inr ⟨⟨kernelPool,userPool,boot.memory⟩,1048576 + physBase + (pages - 256 - userPages) * pgSize,rfl,?_,?_,?_,?_,
    by simp,List.Pairwise.nil,?_⟩
  · rw [Nat.add_comm physBase,Nat.mul_comm (pages - 256 - userPages)]
    exact kernel
  · have top : 1048576 + physBase + (pages - 256 - userPages) * pgSize + pgSize * userPages = physBase + pgSize * pages := by
      simp only [pgSize,physBase]
      omega
    rw [← top]
    exact user
  · decide
  · simp only [pgSize,physBase,sizeMod]
    omega
  · intro kind i bound
    refine iff_of_false ?_ (by simp)
    rw [Bool.not_eq_true]
    cases kind with
    | false => exact clear i bound
    | true => exact clear' i bound

theorem Reached.inv (reached : Reached ram userPageLimit s out) :
    ∃ mid, Inv (physBase + 1048576) mid (physBase + pgSize * initRamPages ram) s out := by
  induction reached with
  | @boot boot s done =>
    rcases pallocInit_cases boot ram userPageLimit with ⟨name,failed⟩ | ⟨s',mid,made,inv⟩
    · rw [failed] at done
      contradiction
    · obtain rfl := Except.ok.inj (done.symm.trans made)
      exact ⟨mid,inv⟩
  | getMultiple before ran ih | getPage before ran ih =>
    obtain ⟨mid,inv⟩ := ih
    rcases inv.get _ _ with ⟨pages,s',ran',inv',_⟩ | ⟨failed,_⟩
    · obtain ⟨rfl,rfl⟩ := Prod.mk.inj (Except.ok.inj (ran.symm.trans ran'))
      exact ⟨mid,inv'⟩
    · exact absurd (ran.symm.trans failed) (by simp)
  | freeMultiple before member ran ih =>
    obtain ⟨mid,inv⟩ := ih
    obtain ⟨s',ran',inv',_⟩ := inv.free member
    obtain ⟨_,rfl⟩ := Prod.mk.inj (Except.ok.inj (ran.symm.trans ran'))
    exact ⟨mid,inv'⟩
  | freePage before member one ran ih =>
    obtain ⟨mid,inv⟩ := ih
    obtain ⟨s',ran',inv',_⟩ := inv.free member
    rw [one] at ran'
    obtain ⟨_,rfl⟩ := Prod.mk.inj (Except.ok.inj (ran.symm.trans ran'))
    exact ⟨mid,inv'⟩
  | write before own ih =>
    obtain ⟨mid,inv⟩ := ih
    exact ⟨mid,inv.kernel,inv.user,inv.low,inv.high,inv.inside,inv.apart,inv.marked⟩

/-- The group starts on a page boundary, lies in the pages of its pool and on neither bitmap. -/
structure Group.Placed (g : Group) (s : State) : Prop where
  aligned : pgOfs g.pages = 0
  inside : ∀ a, g.Has a →
    (s.pool g.user).base ≤ a ∧ a < (s.pool g.user).base + pgSize * (s.pool g.user).usedMap.bitCnt
  maps : ∀ user a, g.Has a → ¬((s.pool user).usedMap.addr ≤ a ∧
    a < (s.pool user).usedMap.addr + bitmapBufSize (s.pool user).usedMap.bitCnt)

theorem Inv.placed (inv : Inv lo mid hi s out) (here : g ∈ out) : g.Placed s := by
  have inside := inv.inside g here
  obtain ⟨first,last,located,_⟩ := inv.pool_at g.user
  refine ⟨?_,fun a has => ?_,fun user a has => ?_⟩
  · obtain ⟨idx,place,_⟩ := inside.place
    have := located.aligned
    simp only [pgOfs,place,pgSize] at *
    omega
  · rw [located.last]
    exact inside.range located has
  · have kernelMap := inv.kernel.map
    have kernelRoom := inv.kernel.room
    have kernelLast := inv.kernel.last
    have userMap := inv.user.map
    have userRoom := inv.user.room
    cases kind : g.user with
    | false =>
      rw [kind] at inside
      have range := inside.range inv.kernel has
      cases user <;> simp only [State.pool,Bool.false_eq_true,↓reduceIte] at * <;> omega
    | true =>
      rw [kind] at inside
      have range := inside.range inv.user has
      cases user <;> simp only [State.pool,Bool.false_eq_true,↓reduceIte] at * <;> omega

/-- Boot gives two pools or tells that memory is short. From then on outstanding groups are placed
well and apart, no assertion fails, and a free gives back its own pages only. -/
theorem palloc_safe (ram : UInt16) (userPageLimit : Nat) :
    (∀ boot, (∃ name, pallocInit boot (initRamPages ram) userPageLimit = .error (.notEnoughMemory name)) ∨
      ∃ s, pallocInit boot (initRamPages ram) userPageLimit = .ok s) ∧
    ∀ s out, Reached ram userPageLimit s out →
      (∀ g ∈ out, g.Placed s) ∧ out.Pairwise Group.Apart ∧
      (∀ flags pageCnt, (∃ pages s', pallocGetMultiple flags pageCnt s = .ok (pages,s')) ∨
        pallocGetMultiple flags pageCnt s = .error .outOfPages ∧ flags.assert = true) ∧
      ∀ g ∈ out, ∃ s', pallocFreeMultiple g.pages g.pageCnt s = .ok ((),s') ∧
        ∀ user page, Available s' user page ↔ Available s user page ∨ user = g.user ∧ g.Has page ∧ pgOfs page = 0 := by
  refine ⟨fun boot => ?_,fun s out reached => ?_⟩
  · rcases pallocInit_cases boot ram userPageLimit with failed | ⟨s,mid,made,_⟩
    · exact .inl failed
    · exact .inr ⟨s,made⟩
  obtain ⟨mid,inv⟩ := reached.inv
  refine ⟨fun g => inv.placed,inv.apart,fun flags pageCnt => ?_,fun g here => ?_⟩
  · rcases inv.get flags pageCnt with ⟨pages,s',ran,_⟩ | ⟨failed,asserted,_⟩
    · exact .inl ⟨pages,s',ran⟩
    · exact .inr ⟨failed,asserted⟩
  · obtain ⟨s',ran,_,available,_⟩ := inv.free here
    exact ⟨s',ran,available⟩

def bootAndGet : Except Panic (Nat × State) := do
  pallocGetMultiple ⟨false,true,false⟩ 2 (← pallocInit ⟨fun _ => 0,fun _ _ => true⟩ (initRamPages 64) 100)

theorem palloc_safe_one :
    ∃ s out, Reached 64 100 s out ∧ out.length = 1 ∧ (∀ g ∈ out, g.Placed s) ∧ out.Pairwise Group.Apart := by
  have returned : (bootAndGet.map Prod.fst).toOption = some 3222278144 := by decide +kernel
  unfold bootAndGet at returned
  cases booted : pallocInit ⟨fun _ => 0,fun _ _ => true⟩ (initRamPages 64) 100 with
  | error panic =>
    rw [booted] at returned
    contradiction
  | ok s =>
    rw [go booted] at returned
    cases ran : pallocGetMultiple ⟨false,true,false⟩ 2 s with
    | error panic =>
      rw [ran] at returned
      contradiction
    | ok result =>
      obtain ⟨pages,s'⟩ := result
      rw [ran] at returned
      obtain rfl : pages = 3222278144 := Option.some.inj returned
      have reached := (Reached.boot booted).getMultiple ran
      rw [if_neg (by decide)] at reached
      obtain ⟨placed,apart,_⟩ := (palloc_safe 64 100).2 s' _ reached
      exact ⟨s',_,reached,rfl,placed,apart⟩

end

end OsProj.Palloc
