import OsProj.BitmapWordsRuns
import OsProj.PallocRuns

/-! The bitmaps of the pools over their words. The allocator is modelled with bits; over the words of bitmap.c it
takes the same steps and gives the same answers. -/
namespace OsProj.Palloc

open OsProj.Bitmap OsProj.Faulting
open OsProj.BitmapWords (Created Elem Represents Scanned bitmapError elemSize groups matching)

def Holds (w : BitmapWords.Bitmap) (b : Bitmap) : Prop := Represents w fun i : Fin b.bitCnt => b.bits i

/-- The words of the kernel pool and of the user pool. -/
abbrev Words := Bool → BitmapWords.Bitmap

/-- What getting pages, and freeing them, does to the words; the pools are those of the state. -/
def getWords (s : State) (flags : PallocFlags) (pageCnt : Nat) (w : Words) : Except BitmapWords.Panic (Nat × Words) := do
  if pageCnt = 0 then return (0,w)
  else
    let (pageIdx,usedMap) ← BitmapWords.bitmapScanAndFlip (w flags.user) 0 pageCnt false
    return (if pageIdx ≠ bitmapError then (s.pool flags.user).base + pgSize * pageIdx else 0,
      Function.update w flags.user usedMap)

def freeWords (s : State) (user : Bool) (pages pageCnt : Nat) (w : Words) : Except BitmapWords.Panic Words := do
  let pageIdx := pgNo pages - pgNo (s.pool user).base
  BitmapWords.assert (← BitmapWords.bitmapAll (w user) pageIdx pageCnt)
  return Function.update w user (← BitmapWords.bitmapSetMultiple (w user) pageIdx pageCnt false)

/-- The allocator beside the words of its pools. What they answer is what is handed out. -/
inductive Beside (ram : UInt16) (userPageLimit : Nat) : State → List Group → Words → Prop where
  | boot (done : pallocInit boot (initRamPages ram) userPageLimit = .ok s) (block : Bool → List Elem)
      (fits : ∀ user, elemSize * (block user).length = (s.pool user).base - (s.pool user).usedMap.addr)
      (made : ∀ user, BitmapWords.bitmapCreateInBuf (s.pool user).usedMap.bitCnt (block user)
        ((s.pool user).base - (s.pool user).usedMap.addr) = .ok (w user)) : Beside ram userPageLimit s [] w
  | getMultiple (before : Beside ram userPageLimit s out w) (ran : pallocGetMultiple flags pageCnt s = .ok (pages,s'))
      (words : getWords s flags pageCnt w = .ok (pages',w')) :
      Beside ram userPageLimit s' (if pages' = 0 then out else ⟨pages',pageCnt,flags.user⟩ :: out) w'
  | freeMultiple (before : Beside ram userPageLimit s out w) (member : g ∈ out)
      (ran : pallocFreeMultiple g.pages g.pageCnt s = .ok ((),s')) (found : findPool s g.pages = .ok user)
      (words : freeWords s user g.pages g.pageCnt w = .ok w') : Beside ram userPageLimit s' (out.erase g) w'
  | write (before : Beside ram userPageLimit s out w) (own : ∀ a, memory a ≠ s.memory a → ∃ g ∈ out, g.Has a) :
      Beside ram userPageLimit { s with memory := memory } out w

section
variable {w w' : BitmapWords.Bitmap} {b b' : Bitmap}

/-! The operations, on words and on bits. -/

theorem Holds.small (holds : Holds w b) : b.bitCnt + 32 ≤ sizeMod := Represents.small holds

theorem Holds.setMultiple (holds : Holds w b) (inside : start + cnt ≤ b.bitCnt) (value : Bool) :
    ∃ w' b', BitmapWords.bitmapSetMultiple w start cnt value = .ok w' ∧ bitmapSetMultiple b start cnt value = .ok b' ∧
      Holds w' b' := by
  have small := holds.small
  obtain ⟨w',went,after⟩ := BitmapWords.bitmapSetMultiple_ok holds inside value
  exact ⟨w',_,went,bitmapSetMultiple_ok inside (by omega),after⟩

theorem matching_nonempty (inside : start + cnt ≤ b.bitCnt) :
    (matching (fun i : Fin b.bitCnt => b.bits i) start cnt value).Nonempty ↔ contains b.bits start cnt value = true := by
  constructor
  · rintro ⟨i,member⟩
    obtain ⟨low,high,same⟩ := BitmapWords.mem_matching.mp member
    by_contra none
    have other := contains_eq_false.mp (Bool.eq_false_iff.mpr none) i low high
    rw [same] at other
    cases value <;> contradiction
  · intro some_
    by_contra none
    refine Bool.eq_false_iff.mp (contains_eq_false.mpr fun i low high => ?_) some_
    by_contra other
    exact none ⟨⟨i,by omega⟩,BitmapWords.mem_matching.mpr ⟨low,high,by simpa using other⟩⟩

theorem Holds.contains (holds : Holds w b) (inside : start + cnt ≤ b.bitCnt) (value : Bool) :
    ∃ found, BitmapWords.bitmapContains w start cnt value = .ok found ∧ bitmapContains b start cnt value = .ok found := by
  have small := holds.small
  refine ⟨_,BitmapWords.bitmapContains_ok holds inside value,?_⟩
  rw [bitmapContains_ok inside (by omega)]
  congr 1
  rw [Bool.eq_iff_iff,decide_eq_true_iff,matching_nonempty inside]

theorem Holds.all (holds : Holds w b) (inside : start + cnt ≤ b.bitCnt) :
    ∃ every, BitmapWords.bitmapAll w start cnt = .ok every ∧ bitmapAll b start cnt = .ok every := by
  obtain ⟨found,words,bits⟩ := holds.contains inside false
  exact ⟨!found,go words,go bits⟩

/-- A scan finds the same group, or none. -/
theorem scanned_bits (scanned : Scanned (fun i : Fin b.bitCnt => b.bits i) 0 cnt value idx) :
    idx = (scan b.bits b.bitCnt 0 cnt value).getD bitmapError := by
  cases found : scan b.bits b.bitCnt 0 cnt value with
  | none =>
    rcases scanned with ⟨⟨⟨-,high,same⟩,-⟩,-⟩ | ⟨-,missed⟩
    · obtain ⟨i,low',high',other⟩ := scan_none found (Nat.zero_le idx) high
      have here : b.bits i = value := same ⟨i,by omega⟩ low' high'
      rw [other] at here
      cases value <;> contradiction
    · exact missed
  | some first =>
    obtain ⟨-,high,same⟩ := scan_some found
    have group : first ∈ groups (fun i : Fin b.bitCnt => b.bits i) 0 cnt value :=
      ⟨Nat.zero_le _,high,fun j low' high' => same j low' high'⟩
    rcases scanned with ⟨⟨⟨-,top,mine⟩,least⟩,-⟩ | ⟨none,-⟩
    · refine Nat.le_antisymm (least group) (Nat.le_of_not_lt fun before => ?_)
      obtain ⟨i,low',high',other⟩ := scan_least found (Nat.zero_le idx) before
      have here : b.bits i = value := mine ⟨i,by omega⟩ low' high'
      rw [other] at here
      cases value <;> contradiction
    · exact absurd group (none ▸ Set.notMem_empty _)

theorem Holds.scanAndFlip (holds : Holds w b) (cnt : Nat) :
    ∃ found w' b', BitmapWords.bitmapScanAndFlip w 0 cnt false = .ok (found.getD bitmapError,w') ∧
      bitmapScanAndFlip b 0 cnt false = .ok (found,b') ∧ found ≠ some bitmapError ∧ Holds w' b' := by
  have small := holds.small
  obtain ⟨idx,went,scanned⟩ := BitmapWords.bitmapScan_ok holds (Nat.zero_le _) cnt false
  have place := scanned_bits scanned
  unfold BitmapWords.bitmapScanAndFlip
  rcases bitmapScanAndFlip_ok cnt (by omega : b.bitCnt < sizeMod) with ⟨first,found,flipped⟩ | ⟨none,kept⟩
  · rw [found,Option.getD_some] at place
    subst place
    have high := (scan_some found).2.1
    obtain ⟨w',b',words,bits,after⟩ := holds.setMultiple high true
    have proper : idx ≠ bitmapError := by
      unfold sizeMod at small
      unfold bitmapError
      omega
    rw [bitmapSetMultiple_ok high (by omega)] at bits
    obtain rfl := Except.ok.inj bits
    exact ⟨some idx,w',_,(go went).trans ((if_pos proper).trans (go words)),flipped,fun same => proper (Option.some.inj same),after⟩
  · rw [none,Option.getD_none] at place
    subst place
    exact ⟨Option.none,w,b,go went,kept,(Option.some_ne_none _).symm,holds⟩

/-- Words for clear bits can be made in a block that is large enough. -/
theorem zeros_created {block : List Elem} (small : n + 32 ≤ sizeMod) (room : bitmapBufSize n ≤ blockSize)
    (fits : elemSize * block.length = blockSize) : ∃ w, BitmapWords.bitmapCreateInBuf n block blockSize = .ok w := by
  have counted : BitmapWords.bitmapBufSize n = bitmapBufSize n := by
    unfold sizeMod at small
    unfold BitmapWords.bitmapBufSize BitmapWords.byteCnt BitmapWords.elemCnt BitmapWords.divRoundUp BitmapWords.elemBits
      BitmapWords.sizeMod elemSize bitmapBufSize divRoundUp
    omega
  have size : ((block.drop 2).take (BitmapWords.elemCnt n)).length = BitmapWords.elemCnt n := by
    unfold BitmapWords.bitmapBufSize BitmapWords.byteCnt at counted
    unfold elemSize at *
    simp only [List.length_take,List.length_drop]
    omega
  have enough : n ≤ 32 * BitmapWords.elemCnt n := by
    unfold sizeMod at small
    unfold BitmapWords.elemCnt BitmapWords.divRoundUp BitmapWords.elemBits BitmapWords.sizeMod
    omega
  let fresh : BitmapWords.Bitmap := ⟨n,(block.drop 2).take (BitmapWords.elemCnt n)⟩
  have stale : Represents fresh fun i : Fin n => BitmapWords.bit fresh i := ⟨rfl,size,size.symm ▸ enough,fun _ => rfl⟩
  obtain ⟨w,went,-⟩ := BitmapWords.bitmapSetAll_ok stale false
  exact ⟨w,(go (BitmapWords.assert_ok (by rw [counted]; exact room))).trans went⟩

end

section
variable {s s' : State} {out : List Group} {lo mid hi : Nat} {w w' : Words}

/-! The allocator. -/

theorem holds_update (holds : ∀ user, Holds (w user) (s.pool user).usedMap)
    (after : Holds used map) (user : Bool) :
    Holds (Function.update w user' used user) (State.pool { s.setMap user' map with memory := memory } user).usedMap := by
  rw [pool_with]
  by_cases same : user = user'
  · rw [if_pos same]
    subst same
    rw [Function.update_self]
    exact after
  · rw [if_neg same,Function.update_of_ne same]
    exact holds user

theorem Inv.bits_small (inv : Inv lo mid hi s out) (user : Bool) : (s.pool user).usedMap.bitCnt + 32 ≤ sizeMod := by
  obtain ⟨first,last,located,_,_,below⟩ := inv.pool_at user
  have high := inv.high
  have last := located.last
  have room := located.room
  unfold bitmapBufSize at room
  unfold pgSize at last
  unfold sizeMod at *
  omega

/-- The pages before a pool are whole words, enough for its bitmap. -/
theorem Inv.buffer (inv : Inv lo mid hi s out) (start : lo % pgSize = 0) (user : Bool) :
    ((s.pool user).base - (s.pool user).usedMap.addr) % elemSize = 0 ∧
      bitmapBufSize (s.pool user).usedMap.bitCnt ≤ (s.pool user).base - (s.pool user).usedMap.addr := by
  have last := inv.kernel.last
  have aligned := inv.kernel.aligned
  unfold pgSize at *
  unfold elemSize
  cases user with
  | false =>
    have map := inv.kernel.map
    have room := inv.kernel.room
    simp only [State.pool,Bool.false_eq_true,↓reduceIte]
    omega
  | true =>
    have map := inv.user.map
    have room := inv.user.room
    have aligned' := inv.user.aligned
    unfold pgSize at *
    simp only [State.pool,↓reduceIte]
    omega

/-- At boot no bit is set. -/
theorem Inv.holds_created {user : Bool} (inv : Inv lo mid hi s []) (created : Created (s.pool user).usedMap.bitCnt used) :
    Holds used (s.pool user).usedMap := by
  have clear : (fun i : Fin (s.pool user).usedMap.bitCnt => (s.pool user).usedMap.bits i) = fun _ => false := by
    funext i
    refine Bool.eq_false_iff.mpr fun marked => ?_
    obtain ⟨g,member,-⟩ := (inv.marked user i i.isLt).mp marked
    exact List.not_mem_nil member
  unfold Holds
  rw [clear]
  exact created.represents (inv.small user)

theorem Inv.getWords_ok (inv : Inv lo mid hi s out) (holds : ∀ user, Holds (w user) (s.pool user).usedMap)
    (ran : pallocGetMultiple flags pageCnt s = .ok (pages,s')) :
    ∃ w', getWords s flags pageCnt w = .ok (pages,w') ∧ ∀ user, Holds (w' user) (s'.pool user).usedMap := by
  unfold getWords
  by_cases none_ : pageCnt = 0
  · rw [pallocGetMultiple,if_pos none_] at ran
    obtain ⟨rfl,rfl⟩ := Prod.mk.inj (pure_ok.mp ran)
    exact ⟨w,if_pos none_,holds⟩
  rw [if_neg none_]
  obtain ⟨found,used,map,words,bits,proper,after⟩ := (holds flags.user).scanAndFlip pageCnt
  rw [go words]
  cases found with
  | some idx =>
    have got := getMultiple_found none_ (inv.base_pos flags.user) bits
    obtain ⟨rfl,rfl⟩ := Prod.mk.inj (Except.ok.inj (ran.symm.trans got))
    have place : idx ≠ bitmapError := fun same => proper (congrArg some same)
    refine ⟨_,?_,holds_update holds after⟩
    dsimp only [Option.getD_some]
    rw [if_pos place]
    rfl
  | none =>
    rcases bitmapScanAndFlip_ok pageCnt (inv.small flags.user) with ⟨idx,-,flipped⟩ | ⟨-,kept⟩
    · cases bits.symm.trans flipped
    · obtain ⟨-,rfl⟩ := Prod.mk.inj (Except.ok.inj (bits.symm.trans kept))
      rw [getMultiple_full none_ kept] at ran
      split at ran
      · contradiction
      · obtain ⟨rfl,rfl⟩ := Prod.mk.inj (Except.ok.inj ran)
        refine ⟨_,rfl,fun user => ?_⟩
        by_cases same : user = flags.user
        · subst same
          rw [Function.update_self]
          exact after
        · rw [Function.update_of_ne same]
          exact holds user

theorem Inv.freeWords_ok (inv : Inv lo mid hi s out) (here : g ∈ out) (holds : ∀ user, Holds (w user) (s.pool user).usedMap)
    (ran : pallocFreeMultiple g.pages g.pageCnt s = .ok ((),s')) :
    ∃ w', freeWords s g.user g.pages g.pageCnt w = .ok w' ∧ ∀ user, Holds (w' user) (s'.pool user).usedMap := by
  obtain ⟨idx,place,fits⟩ := (inv.inside g here).place
  obtain ⟨-,rfl⟩ := Prod.mk.inj (Except.ok.inj (ran.symm.trans (inv.freeMultiple_ok here place fits)))
  obtain ⟨every,words,bits⟩ := (holds g.user).all fits
  obtain rfl := Except.ok.inj (bits.symm.trans (inv.group_marked here place fits))
  obtain ⟨used,cleared,after⟩ := BitmapWords.bitmapSetMultiple_ok (holds g.user) fits false
  refine ⟨_,?_,holds_update holds after⟩
  unfold freeWords
  rw [inv.group_index place]
  exact (go words).trans (go cleared)

/-! Runs. -/

theorem Beside.holds (beside : Beside ram userPageLimit s out w) :
    Reached ram userPageLimit s out ∧ ∀ user, Holds (w user) (s.pool user).usedMap := by
  induction beside with
  | boot done block fits made =>
    have reached := Reached.boot done
    obtain ⟨mid,inv⟩ := reached.inv
    exact ⟨reached,fun user => inv.holds_created (.inBuf (fits user) (made user))⟩
  | getMultiple before ran words ih =>
    obtain ⟨reached,holds⟩ := ih
    obtain ⟨mid,inv⟩ := reached.inv
    obtain ⟨w'',words',holds'⟩ := inv.getWords_ok holds ran
    obtain ⟨rfl,rfl⟩ := Prod.mk.inj (Except.ok.inj (words.symm.trans words'))
    exact ⟨reached.getMultiple ran,holds'⟩
  | freeMultiple before member ran found words ih =>
    obtain ⟨reached,holds⟩ := ih
    obtain ⟨mid,inv⟩ := reached.inv
    obtain rfl := Except.ok.inj (found.symm.trans (inv.findPool member))
    obtain ⟨w'',words',holds'⟩ := inv.freeWords_ok member holds ran
    obtain rfl := Except.ok.inj (words.symm.trans words')
    exact ⟨reached.freeMultiple member ran,holds'⟩
  | write before own ih =>
    obtain ⟨reached,holds⟩ := ih
    refine ⟨reached.write own,fun user => ?_⟩
    cases user with
    | false => exact holds false
    | true => exact holds true

theorem Beside.get (beside : Beside ram userPageLimit s out w) (ran : pallocGetMultiple flags pageCnt s = .ok (pages,s')) :
    ∃ w', Beside ram userPageLimit s' (if pages = 0 then out else ⟨pages,pageCnt,flags.user⟩ :: out) w' := by
  obtain ⟨reached,holds⟩ := beside.holds
  obtain ⟨mid,inv⟩ := reached.inv
  obtain ⟨w',words,-⟩ := inv.getWords_ok holds ran
  exact ⟨w',beside.getMultiple ran words⟩

theorem Beside.free (beside : Beside ram userPageLimit s out w) (member : g ∈ out)
    (ran : pallocFreeMultiple g.pages g.pageCnt s = .ok ((),s')) : ∃ w', Beside ram userPageLimit s' (out.erase g) w' := by
  obtain ⟨reached,holds⟩ := beside.holds
  obtain ⟨mid,inv⟩ := reached.inv
  obtain ⟨w',words,-⟩ := inv.freeWords_ok member holds ran
  exact ⟨w',beside.freeMultiple member ran (inv.findPool member) words⟩

theorem beside_boot (done : pallocInit boot (initRamPages ram) userPageLimit = .ok s) :
    ∃ w, Beside ram userPageLimit s [] w := by
  obtain ⟨mid,inv⟩ := (Reached.boot done).inv
  have start : (physBase + 1048576) % pgSize = 0 := rfl
  have block user : ∃ block : List Elem, elemSize * block.length = (s.pool user).base - (s.pool user).usedMap.addr := by
    refine ⟨List.replicate (((s.pool user).base - (s.pool user).usedMap.addr) / elemSize) 0,?_⟩
    rw [List.length_replicate]
    exact Nat.mul_div_cancel' (Nat.dvd_of_mod_eq_zero (inv.buffer start user).1)
  choose block fits using block
  have created user := zeros_created (inv.bits_small user) (inv.buffer start user).2 (fits user)
  choose w made using created
  exact ⟨w,.boot done block fits made⟩

/-- Every run of the allocator goes the same way over words: no call on them fails, and they hold the bits. -/
theorem Reached.on_words (reached : Reached ram userPageLimit s out) :
    ∃ w, Beside ram userPageLimit s out w ∧ ∀ user, Holds (w user) (s.pool user).usedMap := by
  have beside : ∃ w, Beside ram userPageLimit s out w := by
    induction reached with
    | boot done => exact beside_boot done
    | getMultiple before ran ih | getPage before ran ih =>
      obtain ⟨w,beside⟩ := ih
      exact beside.get ran
    | freeMultiple before member ran ih =>
      obtain ⟨w,beside⟩ := ih
      exact beside.free member ran
    | freePage before member one ran ih =>
      obtain ⟨w,beside⟩ := ih
      exact beside.free member (one ▸ ran)
    | write before own ih =>
      obtain ⟨w,beside⟩ := ih
      exact ⟨w,beside.write own⟩
  obtain ⟨w,beside⟩ := beside
  exact ⟨w,beside,beside.holds.2⟩

end

end OsProj.Palloc
