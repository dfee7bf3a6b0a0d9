import OsProj.MmAllocShape

/-! Requests for which a call of `sbrk` fails. If a list exists and the first of the two calls fails, the
request leaves no trace; a failure of the second one leaves a header without a payload behind. -/
namespace OsProj.MmAlloc

open OsProj.ByteMemory OsProj.Faulting OsProj.History

def Fails (s : System) : Request → Prop
  | .malloc grants size | .realloc grants _ size => Extends s.heap size ∧ ¬grants.Suffice s.heap size
  | _ => False

def Grants.Refused (grants : Grants) (s : Heap) : Prop := ¬(grants.header = true ∧ s.brk + nodeSize ≤ addressLimit)

/-- From `a` on the headers can be read one after the other until the list ends. -/
def walks (s : Heap) : Nat → Nat → Bool
  | 0, _ => false
  | fuel + 1, a => a = null || s.mapped a nodeSize && walks s fuel (nodeAt s.mem a).next

def Walkable (s : Heap) : Prop := ∃ fuel, walks s fuel s.memHead = true

/-- A list exists, and what fails is the call for the header. -/
def FailsEarly (s : System) : Request → Prop
  | .malloc grants _ | .realloc grants _ _ => s.heap.memHead ≠ null ∧ grants.Refused s.heap
  | _ => True

def FailsCleanly (_ : List Event) (s : System) (e : Event) : Prop := Fails s e.1 → FailsEarly s e.1

section
variable {s s' : Heap}

theorem mallocAppend_refused (refused : grants.Refused s) : mallocAppend grants size s = .ok (null,s) := by
  have failed : sbrk grants.header nodeSize s = .ok (sbrkFailed,s) := by
    refine if_neg ?_
    rw [Bool.and_eq_true,decide_eq_true_eq]
    exact refused
  exact (bind_go failed).trans (congrFun (if_pos rfl) s)

theorem walks_succ (walked : walks s (fuel + 1) a = true) :
    a = null ∨ a ≠ null ∧ s.mapped a nodeSize = true ∧ walks s fuel (nodeAt s.mem a).next = true := by
  simp only [walks,Bool.or_eq_true,decide_eq_true_eq,Bool.and_eq_true] at walked
  by_cases ended : a = null
  · exact .inl ended
  · exact .inr ⟨ended,walked.resolve_left ended⟩

theorem mapped_field (header : s.mapped a nodeSize = true) (inside : offset + width ≤ nodeSize) :
    s.mapped (a + offset) width = true := by
  simp only [Heap.mapped,decide_eq_true_eq] at *
  have whole := header.resolve_left (by decide)
  exact .inr ⟨by omega,by omega⟩

/-- Where no block fits, the search comes to the end of the list. -/
theorem findFit_returns (walked : walks s fuel a = true) (none : ∀ curr, ¬FirstFit s.mem size a curr) :
    findFit size fuel a s = .ok (null,s) := by
  induction fuel generalizing a with
  | zero => contradiction
  | succ fuel ih =>
    unfold findFit
    rcases walks_succ walked with ended | ⟨present,header,onward⟩
    · rw [if_pos ended]
      rfl
    · rw [if_neg present]
      have unsuited : ¬(size ≤ (nodeAt s.mem a).size ∧ (nodeAt s.mem a).free = true) :=
        fun suited => none a (.here present suited)
      have tested : fits a size s = .ok (false,s) := by
        refine getSize_bind.mpr ⟨mapped_field header (by decide),?_⟩
        split
        · rename_i large
          have taken : (nodeAt s.mem a).free = false := Bool.eq_false_iff.mpr fun free => unsuited ⟨large,free⟩
          rw [← bind_pure (getFree a),getFree_bind,taken]
          exact ⟨mapped_field header (by decide),rfl⟩
        · rfl
      rw [bind_go tested,if_neg Bool.false_ne_true]
      exact getNext_bind.mpr ⟨mapped_field header (by decide),
        ih onward fun curr fit => none curr (.later present unsuited fit)⟩

theorem findBlock_returns (ptr : Nat) (walked : walks s fuel a = true) : ∃ curr, findBlock ptr fuel a s = .ok (curr,s) := by
  induction fuel generalizing a with
  | zero => contradiction
  | succ fuel ih =>
    unfold findBlock
    rcases walks_succ walked with ended | ⟨present,header,onward⟩
    · rw [if_pos ended]
      exact ⟨null,rfl⟩
    · rw [if_neg present]
      by_cases found : (nodeAt s.mem a).allocated = ptr
      · refine ⟨a,getAllocated_bind.mpr ⟨mapped_field header (by decide),?_⟩⟩
        rw [if_pos found]
        rfl
      · obtain ⟨curr,searched⟩ := ih onward
        refine ⟨curr,getAllocated_bind.mpr ⟨mapped_field header (by decide),?_⟩⟩
        rw [if_neg found]
        exact getNext_bind.mpr ⟨mapped_field header (by decide),searched⟩

/-- The call comes back, from each list that has an end. -/
theorem mmMalloc_returns (listed : s.memHead ≠ null) (walked : walks s fuel s.memHead = true)
    (extends' : Extends s size) (refused : grants.Refused s) : mmMalloc fuel grants size s = .ok (null,s) := by
  obtain ⟨positive,empty | ⟨most,none⟩⟩ := extends'
  · exact absurd empty listed
  unfold mmMalloc
  rw [if_neg (by omega)]
  refine get_bind.mpr ?_
  rw [if_neg listed,if_neg (by omega),bind_go (findFit_returns walked none),if_pos rfl]
  exact mallocAppend_refused refused

theorem mmRealloc_returns (listed : s.memHead ≠ null) (walked : walks s fuel s.memHead = true)
    (extends' : Extends s size) (refused : grants.Refused s) :
    mmRealloc fuel grants ptr size s = .ok (null,s) := by
  have positive := extends'.1
  have allocated := mmMalloc_returns listed walked extends' refused
  obtain ⟨curr,searched⟩ := findBlock_returns ptr walked
  unfold mmRealloc
  rw [if_neg (by omega)]
  split
  · exact allocated
  · refine get_bind.mpr ?_
    rw [bind_go searched,bind_go allocated,if_pos rfl]
    rfl

/-- No part of the heap has changed. -/
theorem mmMalloc_refused (listed : s.memHead ≠ null) (extends' : Extends s size) (refused : grants.Refused s)
    (ok : mmMalloc fuel grants size s = .ok (p,s')) : p = null ∧ s' = s := by
  obtain ⟨positive,empty | ⟨most,none⟩⟩ := extends'
  · exact absurd empty listed
  unfold mmMalloc at ok
  rw [if_neg (by omega)] at ok
  have started := get_bind.mp ok
  rw [if_neg listed,if_neg (by omega)] at started
  obtain ⟨curr,t,searched,rest⟩ := bind_ok.mp started
  obtain ⟨rfl,found⟩ := findFit_spec searched
  rw [if_pos (found.resolve_right (none curr)),mallocAppend_refused refused] at rest
  obtain ⟨rfl,rfl⟩ := Prod.mk.inj (Except.ok.inj rest)
  exact ⟨rfl,rfl⟩

/-- Looking for a block changes nothing. -/
theorem findBlock_same (ok : findBlock ptr fuel a s = .ok (curr,s')) : s' = s := by
  induction fuel generalizing a with
  | zero => contradiction
  | succ fuel ih =>
    unfold findBlock at ok
    split at ok
    · exact (Prod.mk.inj (pure_ok.mp ok)).2
    · obtain ⟨_,rest⟩ := getAllocated_bind.mp ok
      split at rest
      · exact (Prod.mk.inj (pure_ok.mp rest)).2
      · exact ih (getNext_bind.mp rest).2

theorem mmRealloc_refused (listed : s.memHead ≠ null) (extends' : Extends s size) (refused : grants.Refused s)
    (ok : mmRealloc fuel grants ptr size s = .ok (p,s')) : p = null ∧ s' = s := by
  have positive := extends'.1
  unfold mmRealloc at ok
  rw [if_neg (by omega)] at ok
  split at ok
  · exact mmMalloc_refused listed extends' refused ok
  · have started := get_bind.mp ok
    obtain ⟨curr,t,searched,rest⟩ := bind_ok.mp started
    obtain rfl := findBlock_same searched
    obtain ⟨newPtr,t',allocated,returned⟩ := bind_ok.mp rest
    obtain ⟨rfl,rfl⟩ := mmMalloc_refused listed extends' refused allocated
    rw [if_pos rfl] at returned
    exact Prod.mk.inj (pure_ok.mp returned)

end

theorem Step.refused (step : Step h s (q,p) s') (fails : Fails s q) (early : FailsEarly s q) : p = null ∧ s' = s := by
  obtain ⟨_,fuel,executed⟩ := step
  cases q with
  | malloc grants size =>
    simp only [execute] at executed
    split at executed
    · rename_i ok
      obtain ⟨rfl,rfl⟩ := Prod.mk.inj (Except.ok.inj executed)
      obtain ⟨rfl,rfl⟩ := mmMalloc_refused early.1 fails.1 early.2 ok
      exact ⟨rfl,rfl⟩
    · contradiction
  | realloc grants ptr size =>
    have positive := fails.1.1
    simp only [execute] at executed
    split at executed
    · rename_i ok
      obtain ⟨rfl,rfl⟩ := Prod.mk.inj (Except.ok.inj executed)
      obtain ⟨rfl,rfl⟩ := mmRealloc_refused early.1 fails.1 early.2 ok
      rw [if_neg (by omega),if_pos rfl]
      exact ⟨rfl,rfl⟩
    · contradiction
  | free ptr => contradiction
  | write a v => contradiction

/-- A request that is refused its header returns null. -/
theorem FailsEarly.returns (early : FailsEarly s q) (walkable : Walkable s.heap) (fails : Fails s q) :
    ∃ fuel, execute fuel q s = .ok (null,s) := by
  obtain ⟨fuel,walked⟩ := walkable
  cases q with
  | malloc grants size =>
    obtain ⟨listed,refused⟩ := early
    refine ⟨fuel,?_⟩
    simp only [execute,mmMalloc_returns listed walked fails.1 refused]
    rfl
  | realloc grants ptr size =>
    obtain ⟨listed,refused⟩ := early
    have positive := fails.1.1
    refine ⟨fuel,?_⟩
    simp only [execute,mmRealloc_returns listed walked fails.1 refused]
    rw [if_neg (by omega)]
    rfl
  | free ptr => contradiction
  | write a v => contradiction

/-- In every run whose failing requests fail for want of a header, with a list that exists, each of them returns
null and changes nothing: the run has reached what it would have reached without them. Each comes back where the
list ends. -/
theorem failures_leave_no_trace (image : Image) (run : Path (Guarded Step FailsCleanly) [] image.boot h s) :
    (∀ q, Fails s q → FailsEarly s q → Walkable s.heap → ∃ fuel, execute fuel q s = .ok (null,s)) ∧
    (∀ q p s', Guarded Step FailsCleanly h s (q,p) s' → Fails s q → p = null ∧ s' = s) ∧
    ∃ h', h'.Sublist h ∧ Path (Guarded Step fun _ s e => ¬Fails s e.1) [] image.boot h' s := by
  refine ⟨fun q fails early walkable => early.returns walkable fails,
    fun q p s' step fails => step.1.refused fails (step.2 fails),?_⟩
  induction run with
  | refl => exact ⟨[],.slnil,.refl⟩
  | @snoc h s e s' _ step ih =>
    obtain ⟨h',sub,path⟩ := ih
    by_cases fails : Fails s e.1
    · obtain ⟨_,rfl⟩ := step.1.refused fails (step.2 fails)
      exact ⟨h',sub.cons e,path⟩
    · exact ⟨e :: h',sub.cons_cons e,path.snoc ⟨step.1,fails⟩⟩

/-- All that is asked of `sbrk` is granted, or it fails early. -/
def GrantedOrEarly (_ : List Event) (s : System) : Event → Prop
  | (.malloc grants size,_) | (.realloc grants _ size,_) => grants.Suffice s.heap size ∨
    s.heap.memHead ≠ null ∧ ¬(grants.header = true ∧ s.heap.brk + nodeSize ≤ addressLimit)
  | _ => True

instance (h : List Event) (s : System) : (e : Event) → Decidable (GrantedOrEarly h s e)
  | (.malloc ..,_) | (.realloc ..,_) => inferInstanceAs (Decidable (_ ∨ _))
  | (.free _,_) | (.write ..,_) => inferInstanceAs (Decidable True)

theorem GrantedOrEarly.cleanly (granted : GrantedOrEarly h s e) : FailsCleanly h s e := by
  obtain ⟨q,p⟩ := e
  intro fails
  cases q with
  | malloc grants size => exact granted.resolve_left fails.2
  | realloc grants ptr size => exact granted.resolve_left fails.2
  | _ => trivial

theorem outcome_clean (fuel : Nat) (requests : List Request)
    (handled : (replay (perform fuel) (fun h s e => e.1.Admissible s ∧ GrantedOrEarly h s e) requests
      ([],zeroed.boot)).isSome = true) :
    Path (Guarded Step FailsCleanly) [] zeroed.boot (outcome fuel requests).1 (outcome fuel requests).2 := by
  have path : Path (Guarded Step GrantedOrEarly) [] zeroed.boot
    (outcome fuel requests).1 (outcome fuel requests).2 := arrive_guarded (perform_step fuel) handled
  exact path.mono fun _ _ _ _ step => ⟨step.1,step.2.cleanly⟩

/-- A request that is refused its header, between two that are served; then one more such request. -/
theorem failures_leave_no_trace_between :
    let reached := outcome 4 [.malloc granted 100,.malloc ⟨false,true⟩ 50,.malloc granted 20]
    reached.1 = [(.malloc granted 20,4260),(.malloc ⟨false,true⟩ 50,null),(.malloc granted 100,4128)] ∧
      reached.2.live = [(4260,20),(4128,100)] ∧
      (∃ fuel, execute fuel (.malloc ⟨false,true⟩ 50) reached.2 = .ok (null,reached.2)) ∧
      ∃ h', h'.Sublist reached.1 ∧ Path (Guarded Step fun _ s e => ¬Fails s e.1) [] zeroed.boot h' reached.2 := by
  intro reached
  have path : Path (Guarded Step FailsCleanly) [] zeroed.boot reached.1 reached.2 :=
    outcome_clean 4 _ (by decide +kernel)
  have noFit : NoFitWithin 4 reached.2.heap 50 := by decide +kernel
  have listed : reached.2.heap.memHead ≠ null := by decide +kernel
  have walked : walks reached.2.heap 4 reached.2.heap.memHead = true := by decide +kernel
  have fails : Fails reached.2 (.malloc ⟨false,true⟩ 50) :=
    ⟨⟨by decide,.inr ⟨by decide,noFit.none⟩⟩,fun suffice => Bool.false_ne_true suffice.header.1⟩
  have early : FailsEarly reached.2 (.malloc ⟨false,true⟩ 50) :=
    ⟨listed,fun served => Bool.false_ne_true served.1⟩
  obtain ⟨returns,_,without⟩ := failures_leave_no_trace zeroed path
  exact ⟨by decide +kernel,by decide +kernel,returns _ fails early ⟨4,walked⟩,without⟩

/-- Every list of blocks can be walked. -/
theorem Chain.walks (chain : Chain s (xs ++ ys)) : walks s (ys.length + 1) (headAddr ys null) = true := by
  induction ys generalizing xs with
  | nil => rfl
  | cons b ys ih =>
    have onward := ih chain.advance
    have position := chain.laid.mem (show b ∈ xs ++ b :: ys by simp)
    have extent := b.header_le
    have header : s.mapped b.addr nodeSize = true :=
      decide_eq_true (.inr ⟨by omega,by simp only [pageSize]; omega⟩)
    simp only [headAddr_cons,List.length_cons,MmAlloc.walks,chain.node,header,onward,Bool.and_true,Bool.or_true]

/-- In a run that keeps the live ranges safe, a list that exists has an end, unless the very first `sbrk` failed. -/
theorem whole_runs_walkable (image : Image) (run : Path (Guarded Step WholeBlocks) [] image.boot h s) :
    s.heap.memHead = null ∨ s.heap.memHead = sbrkFailed ∨ Walkable s.heap := by
  have sound : Sound s := run.invariant (fun _ s => Sound s)
    (fun _ _ _ _ sound step => sound.step step.1 step.2) (sound_boot image)
  rcases sound with bare | ⟨blocks,working⟩
  · exact bare.head.imp_right .inl
  · have whole : Chain s.heap ([] ++ blocks) := working.chain
    have walked := whole.walks
    rw [← working.chain.head] at walked
    exact .inr (.inr ⟨_,walked⟩)

def faultOf (fuel : Nat) (q : Request) (s : System) : Option Fault :=
  match execute fuel q s with
  | .ok _ => none
  | .error fault => some fault

/-- The first request is granted its header and refused its payload. The header stays in `mem_head`, and the next
request breaks off where it would have been served. -/
theorem first_failure_breaks_the_next :
    let reached := outcome 4 [.malloc ⟨true,false⟩ 100]
    Path Step [] zeroed.boot reached.1 reached.2 ∧ Fails zeroed.boot (.malloc ⟨true,false⟩ 100) ∧
      reached.1 = [(.malloc ⟨true,false⟩ 100,null)] ∧ reached.2.heap.memHead ≠ zeroed.boot.heap.memHead ∧
      faultOf 4 (.malloc granted 10) zeroed.boot = none ∧
      faultOf 4 (.malloc granted 10) reached.2 = some .segmentation := by
  intro reached
  refine ⟨outcome_path 4 _ (by decide +kernel),⟨⟨by decide,.inl rfl⟩,by decide⟩,?_⟩
  decide +kernel

end OsProj.MmAlloc
