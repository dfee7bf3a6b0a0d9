import Mathlib.Data.Fintype.Basic
import Mathlib.Data.Fintype.Pi
import OsProj.BitmapWords
import OsProj.Faulting

/-! Bitmaps as vectors of booleans: every call within range returns, with the result and the
vector that the calls on booleans give. -/
namespace OsProj.BitmapWords

open OsProj.Faulting

section
variable (v : Fin n → Bool)

/-- The places from `start` on, `cnt` of them, that have the value. -/
def matching (start cnt : Nat) (value : Bool) : Finset (Fin n) :=
  Finset.univ.filter fun i => start ≤ i.val ∧ i.val < start + cnt ∧ v i = value

def setRange (start cnt : Nat) (value : Bool) : Fin n → Bool :=
  fun i => if start ≤ i.val ∧ i.val < start + cnt then value else v i

/-- The places from `start` on at which `cnt` equal bits begin. -/
def groups (start cnt : Nat) (value : Bool) : Set Nat :=
  {i | start ≤ i ∧ i + cnt ≤ n ∧ ∀ j : Fin n, i ≤ j.val → j.val < i + cnt → v j = value}

end

/-- The calls on a vector of booleans. -/
inductive Step (v : Fin n → Bool) : Call → Result → (Fin n → Bool) → Prop
  | set (inside : idx < n) (value : Bool) : Step v (.set idx value) .void (Function.update v ⟨idx,inside⟩ value)
  | mark (inside : idx < n) : Step v (.mark idx) .void (Function.update v ⟨idx,inside⟩ true)
  | reset (inside : idx < n) : Step v (.reset idx) .void (Function.update v ⟨idx,inside⟩ false)
  | flip (inside : idx < n) : Step v (.flip idx) .void (Function.update v ⟨idx,inside⟩ (!v ⟨idx,inside⟩))
  | test (inside : idx < n) : Step v (.test idx) (.bool (v ⟨idx,inside⟩)) v
  | setAll (value : Bool) : Step v (.setAll value) .void (fun _ => value)
  | setMultiple (start cnt : Nat) (value : Bool) :
      Step v (.setMultiple start cnt value) .void (setRange v start cnt value)
  | count (start cnt : Nat) (value : Bool) :
      Step v (.count start cnt value) (.size (matching v start cnt value).card) v
  | contains (start cnt : Nat) (value : Bool) :
      Step v (.contains start cnt value) (.bool (decide (matching v start cnt value).Nonempty)) v
  | any (start cnt : Nat) : Step v (.any start cnt) (.bool (decide (matching v start cnt true).Nonempty)) v
  | none (start cnt : Nat) : Step v (.none start cnt) (.bool (decide (matching v start cnt true = ∅))) v
  | all (start cnt : Nat) : Step v (.all start cnt) (.bool (decide (matching v start cnt false = ∅))) v
  | scanFound (least : IsLeast (groups v start cnt value) idx) (proper : idx ≠ bitmapError) :
      Step v (.scan start cnt value) (.size idx) v
  | scanMissed (absent : groups v start cnt value = ∅) : Step v (.scan start cnt value) (.size bitmapError) v
  | flipFound (least : IsLeast (groups v start cnt value) idx) (proper : idx ≠ bitmapError) :
      Step v (.scanAndFlip start cnt value) (.size idx) (setRange v idx cnt (!value))
  | flipMissed (absent : groups v start cnt value = ∅) :
      Step v (.scanAndFlip start cnt value) (.size bitmapError) v

inductive Steps : (Fin n → Bool) → List Call → List Result → (Fin n → Bool) → Prop
  | nil : Steps v [] [] v
  | cons (step : Step v c result w) (rest : Steps w calls results x) :
      Steps v (c :: calls) (result :: results) x

/-- The bitmaps that the two functions make: `malloc` gives as much as was asked for, and nothing
where nothing was. -/
inductive Created (n : Nat) : Bitmap → Prop
  | allocated (given : ∀ size bits, malloc size = some bits → 0 < size ∧ elemSize * bits.length = size)
      (made : bitmapCreate room malloc n = .ok (some b)) : Created n b
  | inBuf (fits : elemSize * block.length = blockSize) (made : bitmapCreateInBuf n block blockSize = .ok b) :
      Created n b

def bit (b : Bitmap) (i : Nat) : Bool := (b.bits.getD (i / 32) 0#32).getLsbD (i % 32)

/-- A bitmap with room for its bits, and the vector that they are. -/
structure Represents (b : Bitmap) (v : Fin n → Bool) : Prop where
  size : b.bitCnt = n
  words : b.bits.length = elemCnt n
  room : n ≤ 32 * b.bits.length
  same : ∀ i : Fin n, bit b i = v i

section
variable {b : Bitmap} {v : Fin n → Bool}

theorem assert_ok {c : Prop} [Decidable c] (holds : c) : assert (decide c) = .ok () := if_pos (decide_eq_true holds)

/-- The size of a bitmap that has its words leaves a gap below the largest `size_t`. -/
theorem Represents.small (r : Represents b v) : n + 32 ≤ sizeMod := by
  have room := r.room
  rw [r.words] at room
  unfold elemCnt divRoundUp elemBits sizeMod at room
  unfold sizeMod
  omega

theorem Represents.word (r : Represents b v) (inside : idx < n) : idx / 32 < b.bits.length := by
  have room := r.room
  omega

theorem getElem_ok (inside : idx < b.bits.length) : getElem b idx = .ok (b.bits.getD idx 0#32) := by
  unfold getElem
  rw [List.getD_eq_getElem?_getD,List.getElem?_eq_getElem inside]
  rfl

theorem getLsbD_bitMask (idx : Nat) (inside : j < 32) : (bitMask idx).getLsbD j = decide (j = idx % 32) := by
  unfold bitMask elemBits
  rw [BitVec.getLsbD_shiftLeft,BitVec.getLsbD_one]
  by_cases same : j = idx % 32
  · simp [same]
    omega
  · simp [same]
    omega

/-- An instruction that changes one bit of a word. -/
theorem modifyElem_ok (r : Represents b v) (inside : idx < n) {f : Elem → Elem} (g : Bool → Bool)
    (changes : ∀ w j, j < 32 → (f w).getLsbD j = if j = idx % 32 then g (w.getLsbD j) else w.getLsbD j) :
    ∃ b', modifyElem b (elemIdx idx) f = .ok b' ∧
      Represents b' (Function.update v ⟨idx,inside⟩ (g (v ⟨idx,inside⟩))) := by
  have word := r.word inside
  refine ⟨_,go (getElem_ok word),r.size,?_,?_,?_⟩
  · simpa using r.words
  · simpa using r.room
  · intro i
    unfold bit elemIdx elemBits
    simp only [List.getD_eq_getElem?_getD,List.getElem?_set]
    by_cases there : idx / 32 = i.val / 32
    · rw [if_pos there,if_pos word]
      simp only [Option.getD_some]
      rw [changes _ _ (by omega)]
      by_cases same : i.val = idx
      · have place : i = ⟨idx,inside⟩ := Fin.ext same
        rw [if_pos (by omega),place,Function.update_self,← r.same ⟨idx,inside⟩]
        simp [bit]
      · rw [if_neg (by omega),Function.update_of_ne (fun eq => same (congrArg Fin.val eq)),there]
        simpa [bit] using r.same i
    · rw [if_neg there,Function.update_of_ne (fun eq => there (by rw [eq]))]
      simpa [bit] using r.same i

theorem bitmapMark_ok (r : Represents b v) (inside : idx < n) :
    ∃ b', bitmapMark b idx = .ok b' ∧ Represents b' (Function.update v ⟨idx,inside⟩ true) := by
  apply modifyElem_ok r inside fun _ => true
  intro w j below
  rw [BitVec.getLsbD_or,getLsbD_bitMask idx below]
  split <;> simp [*]

theorem bitmapReset_ok (r : Represents b v) (inside : idx < n) :
    ∃ b', bitmapReset b idx = .ok b' ∧ Represents b' (Function.update v ⟨idx,inside⟩ false) := by
  apply modifyElem_ok r inside fun _ => false
  intro w j below
  rw [BitVec.getLsbD_and,BitVec.getLsbD_not,getLsbD_bitMask idx below]
  split <;> simp [*]

theorem bitmapFlip_ok (r : Represents b v) (inside : idx < n) :
    ∃ b', bitmapFlip b idx = .ok b' ∧ Represents b' (Function.update v ⟨idx,inside⟩ (!v ⟨idx,inside⟩)) := by
  apply modifyElem_ok r inside fun bit => !bit
  intro w j below
  rw [BitVec.getLsbD_xor,getLsbD_bitMask idx below]
  split <;> simp [*]

theorem bitmapSet_ok (r : Represents b v) (inside : idx < n) (value : Bool) :
    ∃ b', bitmapSet b idx value = .ok b' ∧ Represents b' (Function.update v ⟨idx,inside⟩ value) := by
  unfold bitmapSet
  rw [go (assert_ok (by rw [r.size]; exact inside))]
  cases value with
  | true => exact bitmapMark_ok r inside
  | false => exact bitmapReset_ok r inside

theorem bitmapTest_ok (r : Represents b v) (inside : idx < n) : bitmapTest b idx = .ok (v ⟨idx,inside⟩) := by
  unfold bitmapTest
  rw [go (assert_ok (by rw [r.size]; exact inside)),go (getElem_ok (show elemIdx idx < _ from r.word inside)),← r.same]
  have one : ∀ w : Elem, (w &&& bitMask idx != 0) = w.getLsbD (idx % 32) := by
    intro w
    apply Bool.eq_iff_iff.mpr
    rw [bne_iff_ne]
    constructor
    · intro some
      by_contra off
      apply some
      apply BitVec.eq_of_getLsbD_eq
      intro j below
      rw [BitVec.getLsbD_and,getLsbD_bitMask idx below]
      by_cases same : j = idx % 32
      · simpa [same] using off
      · simp [same]
    · intro on same
      have zero := congrArg (fun w => w.getLsbD (idx % 32)) same
      simp [getLsbD_bitMask idx (show idx % 32 < 32 by omega),on] at zero
  exact congrArg _ (one _)

/-! The loops. -/

theorem Represents.wrap (r : Represents b v) (inside : i ≤ n) : i % sizeMod = i := by
  have small := r.small
  exact Nat.mod_eq_of_lt (by omega)

/-- The check that a range ends within the bitmap. -/
theorem range_ok (r : Represents b v) (range : start + cnt ≤ n) (rest : Except Panic α) :
    (assert (start ≤ b.bitCnt) >>= fun _ => assert ((start + cnt) % sizeMod ≤ b.bitCnt) >>= fun _ => rest) = rest := by
  rw [go (assert_ok (by rw [r.size]; omega)),r.wrap range,go (assert_ok (by rw [r.size]; exact range))]

theorem setRange_zero (v : Fin n → Bool) : setRange v start 0 value = v := by
  funext i
  exact if_neg (by omega)

theorem setRange_succ (v : Fin n → Bool) (inside : start < n) :
    setRange (Function.update v ⟨start,inside⟩ value) (start + 1) m value = setRange v start (m + 1) value := by
  funext i
  unfold setRange
  by_cases first : i = ⟨start,inside⟩
  · subst first
    simp
  · have other : i.val ≠ start := fun same => first (Fin.ext same)
    rw [Function.update_of_ne first]
    split <;> split <;> first | rfl | omega

theorem setLoop_ok (r : Represents b v) (range : start + i + m ≤ n) :
    ∃ b', setLoop start value m i b = .ok b' ∧ Represents b' (setRange v (start + i) m value) := by
  induction m generalizing i b v with
  | zero => exact ⟨b,rfl,by rwa [setRange_zero]⟩
  | succ m ih =>
    rw [setLoop,r.wrap (by omega)]
    obtain ⟨b₁,went,r₁⟩ := bitmapSet_ok r (show start + i < n by omega) value
    rw [go went,← setRange_succ v (by omega)]
    exact ih r₁ (by omega)

theorem bitmapSetMultiple_ok (r : Represents b v) (range : start + cnt ≤ n) (value : Bool) :
    ∃ b', bitmapSetMultiple b start cnt value = .ok b' ∧ Represents b' (setRange v start cnt value) := by
  unfold bitmapSetMultiple
  rw [range_ok r range]
  exact setLoop_ok r (by omega)

theorem bitmapSetAll_ok (r : Represents b v) (value : Bool) :
    ∃ b', bitmapSetAll b value = .ok b' ∧ Represents b' (fun _ : Fin n => value) := by
  unfold bitmapSetAll bitmapSize
  rw [r.size]
  have all : setRange v 0 n value = fun _ : Fin n => value := by
    funext i
    exact if_pos ⟨Nat.zero_le _,by omega⟩
  rw [← all]
  exact bitmapSetMultiple_ok r (by omega) value

theorem mem_matching : i ∈ matching v start cnt value ↔ start ≤ i.val ∧ i.val < start + cnt ∧ v i = value := by
  simp [matching]

theorem matching_zero : matching v start 0 value = ∅ := by
  apply Finset.eq_empty_of_forall_notMem
  intro i member
  have place := mem_matching.mp member
  omega

/-- The first place of a range matches or it does not; the others are those of the rest. -/
theorem matching_succ (inside : start < n) : matching v start (m + 1) value =
    if v ⟨start,inside⟩ = value then insert ⟨start,inside⟩ (matching v (start + 1) m value)
    else matching v (start + 1) m value := by
  ext i
  by_cases first : i = ⟨start,inside⟩
  · subst first
    split <;> simp [mem_matching, *]
  · have other : i.val ≠ start := fun same => first (Fin.ext same)
    have same : i ∈ matching v start (m + 1) value ↔ i ∈ matching v (start + 1) m value := by
      rw [mem_matching,mem_matching]
      constructor
      · rintro ⟨low,high,equal⟩
        exact ⟨by omega,by omega,equal⟩
      · rintro ⟨low,high,equal⟩
        exact ⟨by omega,by omega,equal⟩
    rw [same]
    split
    · rw [Finset.mem_insert,or_iff_right first]
    · rfl

theorem countLoop_ok (r : Represents b v) (range : start + i + m ≤ n) (counted : valueCnt ≤ i) :
    countLoop b start value m i valueCnt = .ok (valueCnt + (matching v (start + i) m value).card) := by
  induction m generalizing i valueCnt with
  | zero =>
    rw [matching_zero]
    rfl
  | succ m ih =>
    rw [countLoop,r.wrap (by omega),go (bitmapTest_ok r (by omega)),matching_succ (by omega)]
    split
    · rw [r.wrap (by omega),ih (by omega) (by omega),Finset.card_insert_of_notMem]
      · congr 1
        rw [Nat.add_assoc start]
        omega
      · intro member
        exact Nat.not_succ_le_self _ (mem_matching.mp member).1
    · exact ih (by omega) (by omega)

theorem bitmapCount_ok (r : Represents b v) (range : start + cnt ≤ n) (value : Bool) :
    bitmapCount b start cnt value = .ok (matching v start cnt value).card := by
  unfold bitmapCount
  rw [range_ok r range,countLoop_ok r (by omega) (by omega)]
  simp

theorem containsLoop_ok (r : Represents b v) (range : start + i + m ≤ n) :
    containsLoop b start value m i = .ok (decide (matching v (start + i) m value).Nonempty) := by
  induction m generalizing i with
  | zero =>
    rw [matching_zero]
    rfl
  | succ m ih =>
    rw [containsLoop,r.wrap (by omega),go (bitmapTest_ok r (by omega)),matching_succ (by omega)]
    split
    · simp
      rfl
    · exact ih (by omega)

theorem bitmapContains_ok (r : Represents b v) (range : start + cnt ≤ n) (value : Bool) :
    bitmapContains b start cnt value = .ok (decide (matching v start cnt value).Nonempty) := by
  unfold bitmapContains
  rw [range_ok r range]
  exact containsLoop_ok r (by omega)

/-- No place of a range has the opposite value where a group begins. -/
theorem mem_groups_iff : i ∈ groups v start cnt value ↔
    start ≤ i ∧ i + cnt ≤ n ∧ ¬ (matching v i cnt (!value)).Nonempty := by
  unfold groups
  simp only [Set.mem_ofPred_eq,Finset.not_nonempty_iff_eq_empty,Finset.eq_empty_iff_forall_notMem,mem_matching]
  refine and_congr_right fun _ => and_congr_right fun _ => forall_congr' fun j => ?_
  cases v j <;> cases value <;> simp

def Scanned (v : Fin n → Bool) (start cnt : Nat) (value : Bool) (idx : Nat) : Prop :=
  IsLeast (groups v start cnt value) idx ∧ idx ≠ bitmapError ∨ groups v start cnt value = ∅ ∧ idx = bitmapError

theorem Scanned.next (rest : Scanned v (i + 1) cnt value idx) (taken : (matching v i cnt (!value)).Nonempty) :
    Scanned v i cnt value idx := by
  have same : groups v i cnt value = groups v (i + 1) cnt value := by
    ext j
    rw [mem_groups_iff,mem_groups_iff]
    constructor
    · rintro ⟨low,high,clear⟩
      have other : j ≠ i := fun equal => clear (equal ▸ taken)
      exact ⟨by omega,high,clear⟩
    · rintro ⟨low,high,clear⟩
      exact ⟨by omega,high,clear⟩
  unfold Scanned
  rwa [same]

theorem scanLoop_ok (r : Represents b v) (fits : cnt ≤ n) (fuel : n - cnt + 1 < i + m) (start : i ≤ n - cnt + 1) :
    ∃ idx, scanLoop b cnt value (n - cnt) m i = .ok idx ∧ Scanned v i cnt value idx := by
  induction m generalizing i with
  | zero => omega
  | succ m ih =>
    have small := r.small
    unfold sizeMod at small
    rw [scanLoop]
    split
    · rename_i inside
      rw [go (bitmapContains_ok r (by omega) _)]
      by_cases taken : (matching v i cnt (!value)).Nonempty
      · obtain ⟨j,member⟩ := id taken
        have place := mem_matching.mp member
        rw [decide_eq_true taken,r.wrap (by omega)]
        obtain ⟨idx,went,scanned⟩ := ih (i := i + 1) (by omega) (by omega)
        exact ⟨idx,went,scanned.next taken⟩
      · rw [decide_eq_false taken]
        refine ⟨i,rfl,.inl ⟨⟨mem_groups_iff.mpr ⟨Nat.le_refl _,by omega,taken⟩,?_⟩,?_⟩⟩
        · intro j member
          exact member.1
        · unfold bitmapError
          omega
    · refine ⟨bitmapError,rfl,.inr ⟨?_,rfl⟩⟩
      apply Set.eq_empty_of_forall_notMem
      intro j member
      have low := member.1
      have high := member.2.1
      omega

theorem bitmapScan_ok (r : Represents b v) (inside : start ≤ n) (cnt : Nat) (value : Bool) :
    ∃ idx, bitmapScan b start cnt value = .ok idx ∧ Scanned v start cnt value idx := by
  unfold bitmapScan
  rw [go (assert_ok (by rw [r.size]; exact inside)),r.size]
  split
  · rename_i fits
    by_cases room : start ≤ n - cnt + 1
    · have small := r.small
      exact scanLoop_ok r fits (by omega) room
    · refine ⟨bitmapError,?_,.inr ⟨?_,rfl⟩⟩
      · unfold sizeMod
        rw [scanLoop,if_neg (by omega)]
        rfl
      · apply Set.eq_empty_of_forall_notMem
        intro j member
        have low := member.1
        have high := member.2.1
        omega
  · refine ⟨bitmapError,rfl,.inr ⟨?_,rfl⟩⟩
    apply Set.eq_empty_of_forall_notMem
    intro j member
    have high := member.2.1
    omega

theorem bitmapScanAndFlip_ok (r : Represents b v) (inside : start ≤ n) (cnt : Nat) (value : Bool) :
    ∃ idx b' w, bitmapScanAndFlip b start cnt value = .ok (idx,b') ∧
      Step v (.scanAndFlip start cnt value) (.size idx) w ∧ Represents b' w := by
  unfold bitmapScanAndFlip
  obtain ⟨idx,went,⟨least,proper⟩ | ⟨absent,rfl⟩⟩ := bitmapScan_ok r inside cnt value
  · obtain ⟨b',flipped,after⟩ := bitmapSetMultiple_ok r least.1.2.1 (!value)
    rw [go went,if_pos proper,go flipped]
    exact ⟨idx,b',_,rfl,.flipFound least proper,after⟩
  · rw [go went]
    exact ⟨_,b,v,rfl,.flipMissed absent,r⟩

theorem not_nonempty (s : Finset (Fin n)) : (!decide s.Nonempty) = decide (s = ∅) := by
  rw [← decide_not]
  exact decide_eq_decide.mpr Finset.not_nonempty_iff_eq_empty

/-- A call within range returns, and does to the vector what the call on booleans does. -/
theorem Represents.step (r : Represents b v) (inside : c.Within n) :
    ∃ result b' w, c.run b = .ok (result,b') ∧ Step v c result w ∧ Represents b' w := by
  cases c with
  | set idx value =>
    obtain ⟨b',went,after⟩ := bitmapSet_ok r inside value
    exact ⟨_,b',_,go went,.set inside value,after⟩
  | mark idx =>
    obtain ⟨b',went,after⟩ := bitmapMark_ok r inside
    exact ⟨_,b',_,go went,.mark inside,after⟩
  | reset idx =>
    obtain ⟨b',went,after⟩ := bitmapReset_ok r inside
    exact ⟨_,b',_,go went,.reset inside,after⟩
  | flip idx =>
    obtain ⟨b',went,after⟩ := bitmapFlip_ok r inside
    exact ⟨_,b',_,go went,.flip inside,after⟩
  | test idx => exact ⟨_,b,v,go (bitmapTest_ok r inside),.test inside,r⟩
  | setAll value =>
    obtain ⟨b',went,after⟩ := bitmapSetAll_ok r value
    exact ⟨_,b',_,go went,.setAll value,after⟩
  | setMultiple start cnt value =>
    obtain ⟨b',went,after⟩ := bitmapSetMultiple_ok r inside value
    exact ⟨_,b',_,go went,.setMultiple start cnt value,after⟩
  | count start cnt value => exact ⟨_,b,v,go (bitmapCount_ok r inside value),.count start cnt value,r⟩
  | contains start cnt value => exact ⟨_,b,v,go (bitmapContains_ok r inside value),.contains start cnt value,r⟩
  | any start cnt => exact ⟨_,b,v,go (bitmapContains_ok r inside true),.any start cnt,r⟩
  | none start cnt =>
    refine ⟨_,b,v,go (go (bitmapContains_ok r inside true)),?_,r⟩
    rw [not_nonempty]
    exact .none start cnt
  | all start cnt =>
    refine ⟨_,b,v,go (go (bitmapContains_ok r inside false)),?_,r⟩
    rw [not_nonempty]
    exact .all start cnt
  | scan start cnt value =>
    obtain ⟨idx,went,⟨least,proper⟩ | ⟨absent,rfl⟩⟩ := bitmapScan_ok r inside cnt value
    · exact ⟨_,b,v,go went,.scanFound least proper,r⟩
    · exact ⟨_,b,v,go went,.scanMissed absent,r⟩
  | scanAndFlip start cnt value =>
    obtain ⟨idx,b',w,went,step,after⟩ := bitmapScanAndFlip_ok r inside cnt value
    exact ⟨_,b',w,go went,step,after⟩

theorem Represents.steps (r : Represents b v) (inside : ∀ c ∈ calls, Call.Within n c) :
    ∃ results b' w, runCalls b calls = .ok (results,b') ∧ Steps v calls results w ∧ Represents b' w := by
  induction calls generalizing b v with
  | nil => exact ⟨[],b,v,rfl,.nil,r⟩
  | cons c calls ih =>
    obtain ⟨result,b₁,w₁,went,step,r₁⟩ := r.step (inside c List.mem_cons_self)
    obtain ⟨results,b₂,w₂,went',steps,r₂⟩ := ih r₁ fun c member => inside c (List.mem_cons_of_mem _ member)
    refine ⟨_,b₂,w₂,?_,.cons step steps,r₂⟩
    rw [runCalls,go went]
    exact go went'

end

/-! New bitmaps. -/

/-- Words that were counted without wrapping around have room for the bits. -/
theorem elemCnt_room (size : n < sizeMod) (counted : 0 < elemCnt n ∨ n = 0) : n ≤ 32 * elemCnt n := by
  unfold elemCnt divRoundUp elemBits sizeMod at *
  omega

/-- Fresh words become the vector without a true bit. -/
theorem setAll_created {bits : List (BitVec 32)} (words : bits.length = elemCnt n) (room : n ≤ 32 * elemCnt n)
    (made : bitmapSetAll ⟨n,bits⟩ false = .ok b) : Represents b (fun _ : Fin n => false) := by
  have stale : Represents ⟨n,bits⟩ (fun i : Fin n => bit ⟨n,bits⟩ i) := ⟨rfl,words,words ▸ room,fun _ => rfl⟩
  obtain ⟨b',went,after⟩ := bitmapSetAll_ok stale false
  rw [made] at went
  obtain rfl := Except.ok.inj went
  exact after

/-- Without a word there is no bit to set. -/
theorem setAll_none (size : n + 1 < sizeMod) : bitmapSetAll ⟨n + 1,[]⟩ false = .error .outside := by
  unfold bitmapSetAll bitmapSetMultiple
  rw [go (assert_ok (Nat.zero_le _)),go (assert_ok _)]
  · rfl
  · simp only [Nat.zero_add,bitmapSize]
    rw [Nat.mod_eq_of_lt size]

theorem Created.represents (size : n < sizeMod) (created : Created n b) : Represents b (fun _ : Fin n => false) := by
  cases created with
  | @allocated malloc room _ given made =>
    unfold bitmapCreate at made
    cases room with
    | false => cases made
    | true =>
      simp only [↓reduceIte] at made
      split at made
      · rename_i bits answer
        obtain ⟨some,exact_⟩ := given _ _ answer
        have words : bits.length = elemCnt n := by
          unfold byteCnt elemSize at exact_
          omega
        have counted : 0 < elemCnt n := by
          unfold byteCnt elemSize at some
          omega
        cases done : bitmapSetAll ⟨n,bits⟩ false with
        | error fault =>
          rw [done] at made
          cases made
        | ok b' =>
          rw [go done] at made
          obtain rfl := Option.some.inj (Except.ok.inj made)
          exact setAll_created words (elemCnt_room size (.inl counted)) done
      · split at made
        · rename_i zero
          subst zero
          obtain rfl := Option.some.inj (Except.ok.inj made)
          exact setAll_created List.length_nil (Nat.zero_le _) rfl
        · cases made
  | @inBuf blockSize block _ fits made =>
    unfold bitmapCreateInBuf at made
    by_cases enough : bitmapBufSize n ≤ blockSize
    · rw [go (assert_ok enough)] at made
      have words : ((block.drop 2).take (elemCnt n)).length = elemCnt n := by
        unfold bitmapBufSize byteCnt elemSize at enough
        unfold elemSize at fits
        simp only [List.length_take,List.length_drop]
        omega
      by_cases counted : 0 < elemCnt n ∨ n = 0
      · exact setAll_created words (elemCnt_room size counted) made
      · obtain ⟨m,rfl⟩ : ∃ m, n = m + 1 := ⟨n - 1,by omega⟩
        rw [show elemCnt (m + 1) = 0 by omega,List.take_zero,setAll_none size] at made
        cases made
    · unfold assert at made
      rw [decide_eq_false enough] at made
      cases made

/-- After any calls within range a new bitmap, of any size, is the vector that they make of false
bits, and each call has returned what it returns for the vector. -/
theorem bitmap_refines_vector (size : n < sizeMod) (created : Created n b)
    (inside : ∀ c ∈ calls, Call.Within n c) :
    ∃ results b' w, runCalls b calls = .ok (results,b') ∧ Steps (fun _ : Fin n => false) calls results w ∧
      ∀ i : Fin n, bit b' i = w i := by
  obtain ⟨results,b',w,went,steps,after⟩ := (created.represents size).steps inside
  exact ⟨results,b',w,went,steps,after.same⟩

theorem bitmap_refines_vector_five : ∃ b, Created 5 b ∧ ∃ results b' w,
    runCalls b [.mark 1,.scanAndFlip 0 2 false] = .ok (results,b') ∧
      Steps (fun _ : Fin 5 => false) [.mark 1,.scanAndFlip 0 2 false] results w ∧ ∀ i : Fin 5, bit b' i = w i := by
  have created : Created 5 ⟨5,[0#32]⟩ := by
    refine @Created.allocated 5 (fun size => if size = 4 then some [7#32] else none) true _ ?_ rfl
    intro size bits answer
    split at answer
    · rename_i four
      obtain rfl := Option.some.inj answer
      exact ⟨by omega,four.symm⟩
    · cases answer
  refine ⟨_,created,bitmap_refines_vector (by decide) created ?_⟩
  intro c member
  simp only [List.mem_cons,List.not_mem_nil,or_false] at member
  obtain rfl | rfl := member <;> simp [Call.Within]

end OsProj.BitmapWords
