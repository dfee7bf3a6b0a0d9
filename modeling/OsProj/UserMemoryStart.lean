import OsProj.UserMemoryBreak

/-! Where `load` puts the start of the heap. The break follows every loaded segment, the start of
the heap is set by the last program header only. -/
namespace OsProj.UserMemory

open OsProj.Bitmap OsProj.ByteMemory OsProj.Faulting

def Phdr.finish (phdr : Phdr) : Nat := pgRoundDown phdr.pVaddr.toNat + phdr.bytes

def Phdr.Has (phdr : Phdr) (w : Nat) : Prop := pgRoundDown phdr.pVaddr.toNat ≤ w * pgSize ∧ w * pgSize < phdr.finish

def breakAfter : Nat → List Phdr → Nat
  | old, [] => old
  | old, phdr :: rest => breakAfter (if phdr.pType = 1 then phdr.finish else old) rest

def startAfter : Nat → List Phdr → Nat
  | old, [] => old
  | old, phdr :: rest => startAfter (if phdr.pType = 1 ∧ rest = [] then phdr.finish else old) rest

structure Placed (phdrs : List Phdr) (s s' : Process) : Prop where
  pages : ∀ w, (s'.page w).isSome = true ↔ (s.page w).isSome = true ∨ ∃ phdr ∈ phdrs, phdr.pType = 1 ∧ phdr.Has w
  segbreak : s'.segbreak = breakAfter s.segbreak phdrs
  startHeap : s'.startHeap = startAfter s.startHeap phdrs
  ends : ∀ phdr ∈ phdrs, phdr.pType = 1 → phdr.finish % pgSize = 0 ∧ 0 < phdr.finish ∧
    phdr.Has (phdr.finish / pgSize - 1)

section
variable {ram : Ram} {s s' : Process} {exe : Executable}

theorem validateSegment_ends (valid : validateSegment exe phdr = true) :
    phdr.finish % pgSize = 0 ∧ 0 < phdr.finish ∧ phdr.Has (phdr.finish / pgSize - 1) := by
  obtain ⟨v,n,first,bytes,some,_,_⟩ := validateSegment_range valid
  unfold Phdr.Has Phdr.finish
  rw [first,bytes]
  simp only [pgSize]
  omega

theorem loadSegments_placed (loading : Loading ram s) (ok : loadSegments ram exe grants phdrs s = .ok (true,s')) :
    Placed phdrs s s' := by
  induction phdrs generalizing s with
  | nil =>
    obtain ⟨_,rfl⟩ := Prod.mk.inj (pure_ok.mp ok)
    exact ⟨fun w => by simp,rfl,rfl,by simp⟩
  | cons phdr rest ih =>
    unfold loadSegments at ok
    split at ok
    · rename_i loads
      split at ok
      · rename_i valid
        obtain ⟨placed,t,loaded,ok⟩ := bind_ok.mp ok
        cases placed with
        | false => exact absurd (Prod.mk.inj (pure_ok.mp ok)).1 (by decide)
        | true =>
          rw [if_pos rfl] at ok
          obtain ⟨_,_,_,startHeap,mapped⟩ := loadSegment_spec loading valid loaded
          have after := ih (loading.segment valid loaded _) (modify_bind.mp ok)
          refine ⟨fun w => ?_,?_,?_,?_⟩
          · rw [after.pages w]
            have here : (t.page w).isSome = true ↔ (s.page w).isSome = true ∨ phdr.Has w := mapped w
            change (t.page w).isSome = true ∨ _ ↔ _
            rw [here,or_assoc,List.exists_mem_cons_iff]
            simp only [loads,true_and]
          · rw [after.segbreak,breakAfter,if_pos loads]
            rfl
          · rw [after.startHeap,startAfter]
            cases rest with
            | nil => simp [loads,Phdr.finish]
            | cons next rest => simp [startHeap]
          · intro p member
            rcases List.mem_cons.mp member with rfl | behind
            · exact fun _ => validateSegment_ends valid
            · exact after.ends p behind
      · exact absurd (Prod.mk.inj (pure_ok.mp ok)).1 (by decide)
    · rename_i other
      split at ok
      · exact absurd (Prod.mk.inj (pure_ok.mp ok)).1 (by decide)
      · have after := ih loading ok
        refine ⟨fun w => ?_,?_,?_,?_⟩
        · rw [after.pages w]
          simp [other]
        · rw [after.segbreak,breakAfter,if_neg other]
        · rw [after.startHeap,startAfter,if_neg (fun both => other both.1)]
        · intro p member loads
          rcases List.mem_cons.mp member with rfl | behind
          · exact absurd loads other
          · exact after.ends p behind loads

theorem breakAfter_last (old : Nat) (init : List Phdr) (last : Phdr) (loads : last.pType = 1) :
    breakAfter old (init ++ [last]) = last.finish := by
  induction init generalizing old with
  | nil => simp [breakAfter,loads]
  | cons phdr init ih => exact ih _

theorem startAfter_last (old : Nat) (init : List Phdr) (last : Phdr) :
    startAfter old (init ++ [last]) = if last.pType = 1 then last.finish else old := by
  induction init generalizing old with
  | nil => simp [startAfter]
  | cons phdr init ih =>
    rw [List.cons_append,startAfter,if_neg (by simp)]
    exact ih old

/-- A loaded segment leaves the break behind page 0. -/
theorem breakAfter_pos (old : Nat) (ends : ∀ phdr ∈ phdrs, phdr.pType = 1 → 0 < phdr.finish)
    (some : 0 < old ∨ ∃ phdr ∈ phdrs, phdr.pType = 1) : 0 < breakAfter old phdrs := by
  induction phdrs generalizing old with
  | nil =>
    rcases some with positive | ⟨_,member,_⟩
    · exact positive
    · contradiction
  | cons phdr rest ih =>
    refine ih _ (fun p member => ends p (List.mem_cons_of_mem _ member)) ?_
    by_cases loads : phdr.pType = 1
    · left
      rw [if_pos loads]
      exact ends phdr List.mem_cons_self loads
    · rw [if_neg loads]
      refine some.imp_right ?_
      rintro ⟨p,member,found⟩
      rcases List.mem_cons.mp member with rfl | behind
      · contradiction
      · exact ⟨p,behind,found⟩

theorem load_placed (others : ∀ f, used f = none ∨ used f = some .other)
    (ok : load ram exe grants (unloaded used mem) = .ok (true,s)) :
    ∃ t, Placed exe.phdrs (unloaded used mem) t ∧ t.page stackPage = none ∧ s.segbreak = t.segbreak ∧
      s.startHeap = t.startHeap ∧ ∀ w, (s.page w).isSome = true ↔ w = stackPage ∨ (t.page w).isSome = true := by
  obtain ⟨loaded,t,segments,rest⟩ := bind_ok.mp ok
  cases loaded with
  | false => exact absurd (Prod.mk.inj (pure_ok.mp rest)).1 (by decide)
  | true =>
    have loading : Loading ram (unloaded used mem) := loading_unloaded others
    obtain ⟨_,_,stacked⟩ := setupStack_spec (loading.segments segments) rest
    exact ⟨t,loadSegments_placed loading segments,stacked⟩

/-- The heap starts at the break, on a page boundary, and every page but that of the stack is below both. -/
structure HeapBehind (s : Process) : Prop where
  same : s.startHeap = s.segbreak
  start : s.startHeap % pgSize = 0
  segbreak : s.segbreak % pgSize = 0
  below : ∀ w, (s.page w).isSome = true → w ≠ stackPage → w * pgSize < s.startHeap ∧ w * pgSize < s.segbreak

/-- The heap starts behind the segments exactly if the last header is that of a segment, and no
segment ends behind that one. -/
theorem heap_start_iff (others : ∀ f, used f = none ∨ used f = some .other)
    (ok : load ram exe grants (unloaded used mem) = .ok (true,s)) (some : ∃ phdr ∈ exe.phdrs, phdr.pType = 1) :
    HeapBehind s ↔ ∃ init last, exe.phdrs = init ++ [last] ∧ last.pType = 1 ∧
      ∀ phdr ∈ init, phdr.pType = 1 → phdr.finish ≤ last.finish := by
  obtain ⟨t,placed,unstacked,segbreak,startHeap,pages⟩ := load_placed others ok
  have nonempty : exe.phdrs ≠ [] := by
    obtain ⟨_,member,_⟩ := some
    exact List.ne_nil_of_mem member
  obtain ⟨init,last,split⟩ : ∃ init last, exe.phdrs = init ++ [last] :=
    ⟨_,_,(List.dropLast_append_getLast nonempty).symm⟩
  have start : s.startHeap = if last.pType = 1 then last.finish else 0 := by
    rw [startHeap,placed.startHeap,split]
    exact startAfter_last 0 init last
  have ends : last.pType = 1 → s.segbreak = last.finish := by
    intro loads
    rw [segbreak,placed.segbreak,split]
    exact breakAfter_last _ init last loads
  have positive : 0 < s.segbreak := by
    rw [segbreak,placed.segbreak]
    exact breakAfter_pos _ (fun phdr member loads => (placed.ends phdr member loads).2.1) (.inr some)
  constructor
  · intro behind
    have loads : last.pType = 1 := by
      by_contra other
      have same := behind.same
      rw [start,if_neg other] at same
      omega
    refine ⟨init,last,split,loads,?_⟩
    intro phdr member loaded
    have listed : phdr ∈ exe.phdrs := by simp [split,member]
    obtain ⟨aligned,nonzero,has⟩ := placed.ends phdr listed loaded
    have mapped : (t.page (phdr.finish / pgSize - 1)).isSome = true := (placed.pages _).mpr (.inr ⟨phdr,listed,loaded,has⟩)
    have other : phdr.finish / pgSize - 1 ≠ stackPage := by
      intro same
      rw [same,unstacked] at mapped
      contradiction
    have low := (behind.below _ ((pages _).mpr (.inr mapped)) other).1
    have boundary := (placed.ends last (by simp [split]) loads).1
    rw [start,if_pos loads] at low
    simp only [pgSize] at *
    omega
  · rintro ⟨init',last',split',loads,highest⟩
    obtain ⟨rfl,same⟩ := List.append_inj' (split.symm.trans split') rfl
    obtain rfl : last = last' := List.singleton_inj.mp same
    have boundary := (placed.ends last (by simp [split]) loads).1
    rw [if_pos loads] at start
    refine ⟨by rw [start,ends loads],by rw [start]; exact boundary,by rw [ends loads]; exact boundary,?_⟩
    intro w mapped other
    rw [start,ends loads,and_self_iff]
    rcases (placed.pages w).mp (((pages w).mp mapped).resolve_left other) with none | ⟨phdr,listed,loaded,has⟩
    · contradiction
    rw [split] at listed
    rcases List.mem_append.mp listed with before | last
    · have low := highest phdr before loaded
      have inside := has.2
      omega
    · rw [List.mem_singleton.mp last] at has
      exact has.2

/-- One segment, and no header behind it. -/
theorem heap_start_iff_low :
    HeapBehind bootLow.process ↔ ∃ init last, bootLow.exe.phdrs = init ++ [last] ∧ last.pType = 1 ∧
      ∀ phdr ∈ init, phdr.pType = 1 → phdr.finish ≤ last.finish :=
  heap_start_iff bootLow.others bootLow.loaded ⟨_,List.mem_cons_self,rfl⟩

/-- A segment with a note behind it, as in the order of many linkers. -/
def noteBehind : Executable := ⟨100,fun _ => 1,[⟨1,0,134512640,100,5000,6⟩,⟨4,0,0,0,0,4⟩]⟩

def higherFirst : Executable := ⟨100,fun _ => 1,[⟨1,0,134520832,100,5000,6⟩,⟨1,0,134512640,100,5000,6⟩]⟩

/-- With a note behind the segment the heap starts at 0; with the higher segment first the heap starts on it. -/
theorem heap_start_misplaced :
    (∃ s, load sixFrames noteBehind always (unloaded nobody fun _ => 0) = .ok (true,s) ∧ s.startHeap ≠ s.segbreak) ∧
    ∃ s, load sixFrames higherFirst always (unloaded nobody fun _ => 0) = .ok (true,s) ∧
      ∃ w, (s.page w).isSome = true ∧ w ≠ stackPage ∧ ¬w * pgSize < s.startHeap := by
  refine ⟨⟨_,loadProcess_loaded (by decide +kernel),by decide +kernel⟩,_,loadProcess_loaded (by decide +kernel),32842,?_⟩
  decide +kernel

end

end OsProj.UserMemory
