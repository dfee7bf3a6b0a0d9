import OsProj.History
import OsProj.UserMemoryLoad

/-! Runs of a loaded process that moves its break. The break stays in user memory as long as
no decrement takes it below the start of the heap; an increment that wraps around asks for
more frames than there are. -/
namespace OsProj.UserMemory

open OsProj.Bitmap OsProj.ByteMemory OsProj.Faulting OsProj.History

def pageUp (a : Nat) : Nat := (a + pgSize - 1) / pgSize

theorem pgRoundUp_eq (high : a ≤ physBase) : pgRoundUp a = pageUp a * pgSize := by
  simp only [pgRoundUp,pageUp,physBase,pgSize] at *
  omega

theorem pagesAdded_eq (less : old ≤ new) (high : new ≤ physBase) :
    pagesAdded old new = pageUp new - pageUp old := by
  rw [pagesAdded,pgRoundUp_eq high,pgRoundUp_eq (less.trans high)]
  simp only [pageUp,physBase,pgSize] at *
  omega

/-- An increment that wraps around needs a quarter of the address space. -/
theorem pagesAdded_wrapped (less : new < old) (high : old ≤ physBase)
    (different : pgRoundUp new ≠ pgRoundUp old) : 262144 ≤ pagesAdded old new := by
  have low : new ≤ physBase := by omega
  rw [pgRoundUp_eq high,pgRoundUp_eq low] at different
  rw [pagesAdded,pgRoundUp_eq high,pgRoundUp_eq low]
  simp only [pageUp,physBase,pgSize] at *
  omega

theorem signed_eq {x : Int} (low : -2147483648 ≤ x) (high : x < 2147483648) : signed x = x :=
  Int.bmod_eq_of_le (by omega) (by omega)

theorem pagesRemoved_eq (less : new ≤ old) (high : old ≤ physBase)
    (near : pageUp old < pageUp new + 524288) : pagesRemoved old new = pageUp old - pageUp new := by
  have order : pageUp new ≤ pageUp old := by
    simp only [pageUp,pgSize]
    omega
  obtain ⟨n,removed⟩ : ∃ n, n = pageUp old - pageUp new := ⟨_,rfl⟩
  have difference : ((pageUp new * pgSize : Nat) : Int) - (pageUp old * pgSize : Nat) = -(n * pgSize) := by
    simp only [pgSize]
    omega
  have quotient : ((n : Int) * 4096).tdiv 4096 = n := Int.mul_tdiv_cancel _ (by decide)
  have once : signed (-(n * (4096 : Nat))) = -(n * 4096) := signed_eq (by omega) (by omega)
  have twice : signed (-(n * 4096) * -1) = n * 4096 := by
    rw [Int.neg_mul_neg,Int.mul_one]
    exact signed_eq (by omega) (by omega)
  rw [pagesRemoved,pgRoundUp_eq high,pgRoundUp_eq (less.trans high),difference,pgSize,once,twice]
  have cast : ((4096 : Nat) : Int) = 4096 := rfl
  rw [cast,quotient]
  omega

/-- How many bytes a call moves the break by, as `intptr_t`. -/
def InRange (increment : Int) : Prop := -2147483648 ≤ increment ∧ increment < 2147483648

instance (increment : Int) : Decidable (InRange increment) := inferInstanceAs (Decidable (_ ∧ _))

theorem displace_up {old : Nat} {increment : Int} (range : InRange increment) (positive : 0 < increment)
    (high : old < physBase) : (displace old increment : Int) = old + increment ∨
      (displace old increment : Int) + 4294967296 = old + increment := by
  unfold InRange at range
  simp only [displace,physBase] at *
  omega

theorem displace_down {old : Nat} {increment : Int} (negative : increment < 0) (low : 0 ≤ old + increment)
    (high : old < physBase) : (displace old increment : Int) = old + increment := by
  simp only [displace,physBase] at *
  omega

inductive Moved (ram : Ram) (grants : Nat → Bool) (s : Process) (new : Nat) : Nat → Process → Prop where
  | refused : Moved ram grants s new sbrkFailed s
  | within : pageUp new = pageUp s.segbreak → Moved ram grants s new s.segbreak { s with segbreak := new }
  | grown : pageUp s.segbreak < pageUp new → idx + (pageUp new - pageUp s.segbreak) ≤ ram.count →
      (∀ f, idx ≤ f → f < idx + (pageUp new - pageUp s.segbreak) → s.used f = none) →
      Grown ram grants { s with
          used := setMultiple s.used idx (pageUp new - pageUp s.segbreak) (some .heap)
          mem := fill s.mem (ram.kpage idx) (pgSize * (pageUp new - pageUp s.segbreak)) 0 }
        (pageUp s.segbreak) idx 0 (pageUp new - pageUp s.segbreak) t →
      Moved ram grants s new s.segbreak { t with segbreak := new }
  | shrunk : pageUp new < pageUp s.segbreak →
      Shrunk ram s (s.segbreak / pgSize) 0 (pageUp s.segbreak - pageUp new) t →
      Moved ram grants s new s.segbreak { t with segbreak := new }

/-- The break lies in user memory behind the start of the heap, and the heap has not taken
more pages than the process has frames. -/
structure Bounded (ram : Ram) (heapStart : Nat) (s : Process) : Prop where
  framed : Framed ram s
  low : heapStart ≤ s.segbreak
  high : s.segbreak < physBase
  budget : pageUp s.segbreak ≤ pageUp heapStart + (s.frames ram).card

theorem frames_le (ram : Ram) (s : Process) : (s.frames ram).card ≤ ram.count := by
  refine (Finset.card_filter_le _ _).trans ?_
  rw [Finset.card_range]

theorem Ram.count_lt (ram : Ram) : ram.count < 16384 := by
  have low := ram.low
  have high := ram.high
  have capped := ram.capped
  simp only [physBase,pgSize] at *
  omega

section
variable {ram : Ram} {s s' : Process}

theorem grow_spec (framed : Framed ram s) (less : s.segbreak ≤ new) (high : new < physBase) :
    ∃ granted t, grow ram grants s.segbreak new s = .ok (granted,t) ∧
      if granted then Moved ram grants s new s.segbreak { t with segbreak := new } else t = s := by
  have old : s.segbreak ≤ physBase := by omega
  unfold grow
  rw [pgRoundUp_eq old,pgRoundUp_eq (Nat.le_of_lt high),pagesAdded_eq less (Nat.le_of_lt high)]
  split
  · rename_i same
    exact ⟨true,s,rfl,.within (Nat.mul_right_cancel (by decide) same)⟩
  rename_i different
  have more : pageUp s.segbreak < pageUp new := by
    simp only [pageUp,pgSize] at *
    omega
  obtain ⟨⟨kpages,t⟩,allocated⟩ := pallocGetMultiple_total ram .heap true (pageUp new - pageUp s.segbreak) s
  rcases pallocGetMultiple_cases allocated with ⟨rfl,rfl⟩ | ⟨idx,_,rfl,inside,free,rfl⟩
  · exact ⟨false,t,bind_ok.mpr ⟨_,_,allocated,rfl⟩,rfl⟩
  have user : pageUp s.segbreak + 0 + (pageUp new - pageUp s.segbreak) ≤ physBase / pgSize := by
    simp only [pageUp,physBase,pgSize] at *
    omega
  have framed₁ := framed.allocate free .heap
    (fill s.mem (ram.kpage idx) (pgSize * (pageUp new - pageUp s.segbreak)) 0)
  have pending (j : Nat) (_ : 0 ≤ j) (within : j < 0 + (pageUp new - pageUp s.segbreak)) :
      idx + j < ram.count ∧
      Owner.Ours (setMultiple s.used idx (pageUp new - pageUp s.segbreak) (some .heap) (idx + j)) ∧
      Unmapped ram { s with
        used := setMultiple s.used idx (pageUp new - pageUp s.segbreak) (some .heap)
        mem := fill s.mem (ram.kpage idx) (pgSize * (pageUp new - pageUp s.segbreak)) 0 } (idx + j) := by
    refine ⟨by omega,.inl (if_pos ⟨by omega,by omega⟩),?_⟩
    exact framed.free_unmapped (free (idx + j) (by omega) (by omega))
  obtain ⟨t,done,grown⟩ := growPages_spec framed₁ (pgRoundUp_eq old) user pending
  refine ⟨true,t,bind_ok.mpr ⟨_,_,allocated,?_⟩,.grown more inside free grown⟩
  rw [if_neg (ram.kpage_real (by omega))]
  exact bind_ok.mpr ⟨_,_,done,rfl⟩

/-- There are not as many frames as a wrapped increment needs. -/
theorem grow_wrapped (less : new + 2147483648 < s.segbreak) (high : s.segbreak < physBase) :
    grow ram grants s.segbreak new s = .ok (false,s) := by
  have old : s.segbreak ≤ physBase := Nat.le_of_lt high
  have different : pgRoundUp new ≠ pgRoundUp s.segbreak := by
    rw [pgRoundUp_eq old,pgRoundUp_eq (by omega)]
    simp only [pageUp,pgSize]
    omega
  have many := pagesAdded_wrapped (by omega) old different
  have few := ram.count_lt
  unfold grow
  rw [if_neg different]
  refine bind_ok.mpr ⟨null,s,?_,rfl⟩
  rw [pallocGetMultiple,if_neg (by omega),scan,if_neg (by omega)]

theorem shrink_spec (framed : Framed ram s) (less : new ≤ s.segbreak) (high : s.segbreak < physBase)
    (near : pageUp s.segbreak < pageUp new + 524288) :
    ∃ t, shrink ram s.segbreak new s = .ok ((),t) ∧
      Moved ram grants s new s.segbreak { t with segbreak := new } := by
  have old : s.segbreak ≤ physBase := Nat.le_of_lt high
  unfold shrink
  rw [pgRoundUp_eq old,pgRoundUp_eq (less.trans old),pagesRemoved_eq less old near]
  split
  · rename_i same
    exact ⟨s,rfl,.within (Nat.mul_right_cancel (by decide) same)⟩
  rename_i different
  have fewer : pageUp new < pageUp s.segbreak := by
    simp only [pageUp,pgSize] at *
    omega
  have user : s.segbreak / pgSize < physBase / pgSize := by
    simp only [physBase,pgSize] at *
    omega
  have enough : 0 + (pageUp s.segbreak - pageUp new) ≤ s.segbreak / pgSize + 1 := by
    simp only [pageUp,pgSize] at *
    omega
  obtain ⟨t,done,shrunk⟩ := shrinkPages_spec framed rfl user enough
  exact ⟨t,done,.shrunk fewer shrunk⟩

def StaysAbove (heapStart : Nat) (s : Process) (increment : Int) : Prop :=
  increment < 0 → (heapStart : Int) ≤ s.segbreak + increment

instance (heapStart : Nat) (s : Process) (increment : Int) : Decidable (StaysAbove heapStart s increment) :=
  inferInstanceAs (Decidable (_ → _))

/-- A call returns, and what it has done. -/
theorem syscallSbrk_spec (bounded : Bounded ram heapStart s) (range : InRange increment)
    (above : StaysAbove heapStart s increment) (grants : Nat → Bool) :
    ∃ p s', syscallSbrk ram grants increment s = .ok (p,s') ∧
      ((p = sbrkFailed ∧ s' = s) ∨ ∃ new : Nat, (new : Int) = s.segbreak + increment ∧ new < physBase ∧
        heapStart ≤ new ∧ Moved ram grants s new p s') := by
  have framed := bounded.framed
  have low := bounded.low
  have high := bounded.high
  by_cases none : increment = 0
  · subst none
    refine ⟨s.segbreak,s,rfl,.inr ⟨s.segbreak,by omega,high,low,.within rfl⟩⟩
  by_cases positive : 0 < increment
  · obtain ⟨new,wrapped⟩ : ∃ new, new = displace s.segbreak increment := ⟨_,rfl⟩
    have moved := displace_up range positive high
    rw [← wrapped] at moved
    by_cases limit : physBase ≤ new
    · refine ⟨sbrkFailed,s,get_bind.mpr ?_,.inl ⟨rfl,rfl⟩⟩
      rw [if_neg none,if_pos positive,← wrapped,if_pos limit]
      rfl
    rcases moved with moved | moved
    · have below := Nat.lt_of_not_le limit
      obtain ⟨granted,t,done,outcome⟩ : ∃ granted t, grow ram grants s.segbreak new s = .ok (granted,t) ∧ _ :=
        grow_spec framed (by omega) below
      cases granted with
      | false =>
        obtain rfl : t = s := outcome
        refine ⟨sbrkFailed,t,get_bind.mpr ?_,.inl ⟨rfl,rfl⟩⟩
        rw [if_neg none,if_pos positive,← wrapped,if_neg limit]
        exact bind_ok.mpr ⟨_,_,done,rfl⟩
      | true =>
        refine ⟨s.segbreak,_,get_bind.mpr ?_,.inr ⟨new,moved,below,by omega,outcome⟩⟩
        rw [if_neg none,if_pos positive,← wrapped,if_neg limit]
        exact bind_ok.mpr ⟨_,_,done,rfl⟩
    · unfold InRange at range
      have done : grow ram grants s.segbreak new s = .ok (false,s) := grow_wrapped (by omega) high
      refine ⟨sbrkFailed,s,get_bind.mpr ?_,.inl ⟨rfl,rfl⟩⟩
      rw [if_neg none,if_pos positive,← wrapped,if_neg limit]
      exact bind_ok.mpr ⟨_,_,done,rfl⟩
  · have negative : increment < 0 := by omega
    have stays := above negative
    obtain ⟨new,lowered⟩ : ∃ new, new = displace s.segbreak increment := ⟨_,rfl⟩
    have moved := displace_down negative (by omega) high
    rw [← lowered] at moved
    have near : pageUp s.segbreak < pageUp new + 524288 := by
      have budget := bounded.budget
      have few := ram.count_lt
      have frames := frames_le ram s
      have order : pageUp heapStart ≤ pageUp new := by
        simp only [pageUp,pgSize]
        omega
      omega
    obtain ⟨t,done,outcome⟩ := shrink_spec framed (by omega) high near
    refine ⟨s.segbreak,_,get_bind.mpr ?_,.inr ⟨new,moved,by omega,by omega,outcome⟩⟩
    rw [if_neg none,if_neg positive,← lowered]
    exact bind_ok.mpr ⟨_,_,done,rfl⟩

/-- New frames of the heap add to those of the process. -/
theorem frames_allocated (inside : idx + n ≤ ram.count) (free : ∀ f, idx ≤ f → f < idx + n → s.used f = none)
    (same : s'.used = setMultiple s.used idx n (some .heap)) :
    (s.frames ram).card + n = (s'.frames ram).card := by
  have added : s'.frames ram = s.frames ram ∪ (Finset.range n).map ⟨(idx + ·),add_right_injective idx⟩ := by
    ext f
    simp only [Finset.mem_union,mem_frames,Finset.mem_map,Finset.mem_range,Function.Embedding.coeFn_mk,same,
      setMultiple]
    constructor
    · rintro ⟨bound,ours⟩
      split at ours
      · exact .inr ⟨f - idx,by omega,by omega⟩
      · exact .inl ⟨bound,ours⟩
    · rintro (⟨bound,ours⟩ | ⟨k,small,rfl⟩)
      · refine ⟨bound,?_⟩
        split
        · exact .inl rfl
        · exact ours
      · exact ⟨by omega,by rw [if_pos ⟨by omega,by omega⟩]; exact .inl rfl⟩
  have apart : Disjoint (s.frames ram) ((Finset.range n).map ⟨(idx + ·),add_right_injective idx⟩) := by
    rw [Finset.disjoint_left]
    intro f member new
    simp only [Finset.mem_map,Finset.mem_range,Function.Embedding.coeFn_mk] at new
    obtain ⟨k,small,rfl⟩ := new
    rw [mem_frames,free (idx + k) (by omega) (by omega)] at member
    rcases member.2 with ours | ours <;> contradiction
  rw [added,Finset.card_union_of_disjoint apart,Finset.card_map,Finset.card_range]

theorem frames_congr (same : ∀ f, Owner.Ours (s'.used f) ↔ Owner.Ours (s.used f)) :
    s'.frames ram = s.frames ram := by
  ext f
  rw [mem_frames,mem_frames,same]

theorem Bounded.moved (bounded : Bounded ram heapStart s) (high : new < physBase) (low : heapStart ≤ new)
    (moved : Moved ram grants s new p s') : Bounded ram heapStart s' := by
  have budget := bounded.budget
  cases moved with
  | refused => exact bounded
  | within same =>
    refine ⟨⟨bounded.framed.owned,bounded.framed.distinct⟩,low,high,?_⟩
    dsimp only
    rw [same]
    exact budget
  | grown more inside free grown =>
    refine ⟨⟨grown.framed.owned,grown.framed.distinct⟩,low,high,?_⟩
    have added := frames_allocated inside free grown.used
    dsimp only [Process.frames] at added ⊢
    dsimp only [Process.frames] at budget
    omega
  | shrunk fewer shrunk =>
    refine ⟨⟨shrunk.framed.owned,shrunk.framed.distinct⟩,low,high,?_⟩
    have lost := shrunk.budget
    dsimp only [Process.frames] at lost budget ⊢
    omega

end

/-! Runs. -/

inductive Call where
  | sbrk (grants : Nat → Bool) (increment : Int)
  | elsewhere

abbrev Event := Call × Nat

/-- Between the calls bytes are written, and others take frames and give them back. -/
structure Elsewhere (s s' : Process) : Prop where
  pagedir : s'.pagedir = s.pagedir
  startHeap : s'.startHeap = s.startHeap
  segbreak : s'.segbreak = s.segbreak
  used : ∀ f, s'.used f = s.used f ∨ (¬Owner.Ours (s.used f) ∧ ¬Owner.Ours (s'.used f))

def Step (ram : Ram) (_ : List Event) (s : Process) (e : Event) (s' : Process) : Prop :=
  match e.1 with
  | .sbrk grants increment => InRange increment ∧ syscallSbrk ram grants increment s = .ok (e.2,s')
  | .elsewhere => Elsewhere s s'

/-- A process that has been loaded. Its break is then the start of the heap. -/
structure Boot (ram : Ram) where
  exe : Executable
  grants : Nat → Bool
  used : Nat → Option Owner
  mem : Memory
  process : Process
  others : ∀ f, used f = none ∨ used f = some .other
  loaded : load ram exe grants (unloaded used mem) = .ok (true,process)

def Boot.heapStart (boot : Boot ram) : Nat := boot.process.segbreak

def KeepsStart (heapStart : Nat) (_ : List Event) (s : Process) : Event → Prop
  | (.sbrk _ increment,_) => StaysAbove heapStart s increment
  | (.elsewhere,_) => True

section
variable {ram : Ram} {s s' : Process}

theorem Elsewhere.page (elsewhere : Elsewhere s s') (v : Nat) : s'.page v = s.page v := by
  unfold Process.page
  rw [elsewhere.pagedir]

theorem Elsewhere.ours (elsewhere : Elsewhere s s') (f : Nat) :
    Owner.Ours (s'.used f) ↔ Owner.Ours (s.used f) := by
  rcases elsewhere.used f with same | ⟨before,behind⟩
  · rw [same]
  · exact iff_of_false behind before

theorem Framed.elsewhere (framed : Framed ram s) (elsewhere : Elsewhere s s') : Framed ram s' := by
  constructor
  · intro v pte present
    rw [elsewhere.page] at present
    obtain ⟨user,f,inside,frame,ours⟩ := framed.owned v pte present
    exact ⟨user,f,inside,frame,(elsewhere.ours f).mpr ours⟩
  · intro v w pte pte' present present'
    rw [elsewhere.page] at present present'
    exact framed.distinct v w pte pte' present present'

theorem Bounded.elsewhere (bounded : Bounded ram heapStart s) (elsewhere : Elsewhere s s') :
    Bounded ram heapStart s' := by
  have same := elsewhere.segbreak
  refine ⟨bounded.framed.elsewhere elsewhere,same ▸ bounded.low,same ▸ bounded.high,?_⟩
  rw [same,frames_congr elsewhere.ours]
  exact bounded.budget

theorem Bounded.step (bounded : Bounded ram heapStart s) (step : Step ram h s e s')
    (condition : KeepsStart heapStart h s e) : Bounded ram heapStart s' := by
  obtain ⟨call,p⟩ := e
  cases call with
  | elsewhere => exact bounded.elsewhere step
  | sbrk grants increment =>
    obtain ⟨range,ok⟩ := step
    obtain ⟨p',t,done,outcome⟩ := syscallSbrk_spec bounded range condition grants
    obtain ⟨rfl,rfl⟩ := Prod.mk.inj (Except.ok.inj (done.symm.trans ok))
    rcases outcome with ⟨_,rfl⟩ | ⟨new,_,high,low,moved⟩
    · exact bounded
    · exact bounded.moved high low moved

theorem bounded_boot (boot : Boot ram) : Bounded ram boot.heapStart boot.process := by
  have loaded := load_spec boot.others boot.loaded
  have room := loaded.room
  refine ⟨loaded.framed,Nat.le_refl _,?_,Nat.le_add_right _ _⟩
  simp only [pgSize,physBase] at *
  omega

theorem run_bounded (boot : Boot ram)
    (run : Path (Guarded (Step ram) (KeepsStart boot.heapStart)) [] boot.process h s) :
    Bounded ram boot.heapStart s :=
  run.invariant (fun _ s => Bounded ram boot.heapStart s)
    (fun _ _ _ _ bounded step => bounded.step step.1 step.2) (bounded_boot boot)

end

/-- The break lies in the heap's part of user memory, and every call that does not move it
below the start of the heap returns with it there. -/
theorem break_bounded (boot : Boot ram)
    (run : Path (Guarded (Step ram) (KeepsStart boot.heapStart)) [] boot.process h s) :
    boot.heapStart ≤ s.segbreak ∧ s.segbreak < physBase ∧
      ∀ grants increment, InRange increment → StaysAbove boot.heapStart s increment →
        ∃ p s', syscallSbrk ram grants increment s = .ok (p,s') ∧
          boot.heapStart ≤ s'.segbreak ∧ s'.segbreak < physBase := by
  have bounded := run_bounded boot run
  refine ⟨bounded.low,bounded.high,?_⟩
  intro grants increment range above
  obtain ⟨p,s',done,outcome⟩ := syscallSbrk_spec bounded range above grants
  have bounded' : Bounded ram boot.heapStart s' := by
    rcases outcome with ⟨_,rfl⟩ | ⟨new,_,high,low,moved⟩
    · exact bounded
    · exact bounded.moved high low moved
  exact ⟨p,s',done,bounded'.low,bounded'.high⟩

/-! One executable on a small machine. -/

def sixFrames : Ram where
  pages := 512
  base := 3222274048
  count := 6
  aligned := by decide
  low := by decide
  high := by decide
  capped := by decide

/-- A file with one segment of two pages, the break behind it. -/
def oneSegment (vaddr : UInt32) : Executable := ⟨100,fun _ => 1,[⟨1,0,vaddr,100,5000,6⟩]⟩

def nobody : Nat → Option Owner := fun _ => none

def always : Nat → Bool := fun _ => true

def loadProcess (ram : Ram) (exe : Executable) : Option Process :=
  match load ram exe always (unloaded nobody fun _ => 0) with
  | .ok (true,s) => some s
  | _ => none

theorem loadProcess_loaded (loaded : (loadProcess ram exe).isSome = true) :
    load ram exe always (unloaded nobody fun _ => 0) =
      .ok (true,(loadProcess ram exe).getD (unloaded nobody fun _ => 0)) := by
  unfold loadProcess at loaded ⊢
  split at loaded
  · rename_i done
    simp [done]
  · contradiction

def bootSegment (vaddr : UInt32) (loaded : (loadProcess sixFrames (oneSegment vaddr)).isSome = true) :
    Boot sixFrames where
  exe := oneSegment vaddr
  grants := always
  used := nobody
  mem := fun _ => 0
  process := (loadProcess sixFrames (oneSegment vaddr)).getD (unloaded nobody fun _ => 0)
  others := fun _ => .inl rfl
  loaded := loadProcess_loaded loaded

def bootLow : Boot sixFrames := bootSegment 134512640 (by decide +kernel)

def perform (call : Call) (s : Process) : Option (Event × Process) :=
  match call with
  | .sbrk grants increment => match syscallSbrk sixFrames grants increment s with
    | .ok (p,s') => some ((call,p),s')
    | .error _ => none
  | .elsewhere => some ((.elsewhere,0),s)

def Admissible (_ : List Event) (_ : Process) : Event → Prop
  | (.sbrk _ increment,_) => InRange increment
  | (.elsewhere,_) => True

instance (h : List Event) (s : Process) : (e : Event) → Decidable (Admissible h s e)
  | (.sbrk _ increment,_) => inferInstanceAs (Decidable (InRange increment))
  | (.elsewhere,_) => inferInstanceAs (Decidable True)

instance (heapStart : Nat) (h : List Event) (s : Process) : (e : Event) → Decidable (KeepsStart heapStart h s e)
  | (.sbrk _ increment,_) => inferInstanceAs (Decidable (StaysAbove heapStart s increment))
  | (.elsewhere,_) => inferInstanceAs (Decidable True)

theorem perform_step (h : List Event) (s : Process) (call : Call) (e : Event) (s' : Process)
    (performed : perform call s = some (e,s')) (admitted : Admissible h s e) : Step sixFrames h s e s' := by
  unfold perform at performed
  split at performed
  · split at performed
    · rename_i done
      obtain ⟨rfl,rfl⟩ := Prod.mk.inj (Option.some.inj performed)
      exact ⟨admitted,done⟩
    · contradiction
  · obtain ⟨rfl,rfl⟩ := Prod.mk.inj (Option.some.inj performed)
    exact ⟨rfl,rfl,rfl,fun _ => .inl rfl⟩

def outcome (boot : Boot sixFrames) (calls : List Call) : List Event × Process :=
  arrive perform Admissible boot.process calls

/-- The break grows over three pages, shrinks and stays where it is for a call that fails. -/
theorem break_bounded_moved :
    let reached := outcome bootLow [.sbrk always 10000,.sbrk always (-5000),.sbrk always 2147483647]
    reached.2.segbreak = bootLow.heapStart + 5000 ∧
      bootLow.heapStart ≤ reached.2.segbreak ∧ reached.2.segbreak < physBase ∧
      ∀ grants increment, InRange increment → StaysAbove bootLow.heapStart reached.2 increment →
        ∃ p s', syscallSbrk sixFrames grants increment reached.2 = .ok (p,s') ∧
          bootLow.heapStart ≤ s'.segbreak ∧ s'.segbreak < physBase := by
  intro reached
  exact ⟨by decide +kernel,break_bounded bootLow (arrive_guarded perform_step (by decide +kernel))⟩

/-- One byte given up right after loading moves the break below the start of the heap. -/
theorem break_leaves_heap :
    let reached := outcome bootLow [.sbrk always (-1)]
    Path (Step sixFrames) [] bootLow.process reached.1 reached.2 ∧
      ¬(bootLow.heapStart ≤ reached.2.segbreak ∧ reached.2.segbreak < physBase) := by
  intro reached
  exact ⟨arrive_path perform_step (by decide +kernel),by decide +kernel⟩

end OsProj.UserMemory
