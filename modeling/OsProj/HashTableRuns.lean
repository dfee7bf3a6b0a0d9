import Mathlib.Data.Finset.Card
import Mathlib.Data.List.Nodup
import Mathlib.Order.Defs.Unbundled
import OsProj.HashTable

/-! The hash table as a set with at most one element for each key, over every sequence of
calls and every outcome of the allocations in between. -/
namespace OsProj.HashTable

open OsProj.Faulting

variable {α : Type} {hash : α → UInt32} {less : α → α → Bool}

/-- Neither element is less than the other: the two have the same key. -/
def Same (less : α → α → Bool) (a b : α) : Prop := less a b = false ∧ less b a = false

/-- Where the elements of a set are: each once, in the bucket of its hash. -/
structure Laid (hash : α → UInt32) (h : Hash α) (S : Finset α) : Prop where
  power : h.bucketCnt.isPowerOfTwo
  enough : minBuckets ≤ h.bucketCnt
  stored : ∀ i < h.bucketCnt, ∀ e, e ∈ h.buckets i ↔ e ∈ S ∧ findBucket hash h e = i
  nodup : ∀ i < h.bucketCnt, (h.buckets i).Nodup

structure Represents (hash : α → UInt32) (less : α → α → Bool) (h : Hash α) (S : Finset α) : Prop where
  laid : Laid hash h S
  count : h.elemCnt = S.card
  single : ∀ a ∈ S, ∀ b ∈ S, Same less a b → a = b

theorem Represents.init : Represents hash less (hashClear ⟨0,minBuckets,fun _ => []⟩ false).2 (∅ : Finset α) where
  laid := ⟨⟨2,rfl⟩,Nat.le_refl _,by simp [hashClear],by simp [hashClear]⟩
  count := rfl
  single := by simp

theorem findBucket_lt (power : h.bucketCnt.isPowerOfTwo) (e : α) : findBucket hash h e < h.bucketCnt := by
  obtain ⟨k,pow⟩ := power
  rw [findBucket,pow,Nat.and_two_pow_sub_one_eq_mod]
  exact Nat.mod_lt _ (Nat.two_pow_pos k)

/-! The number of buckets. -/

theorem isPowerOf2_iff : isPowerOf2 x = true ↔ x.isPowerOfTwo := by
  rw [isPowerOf2,← Nat.ne_zero_and_sub_one_eq_zero_iff_isPowerOfTwo,Bool.and_eq_true,decide_eq_true_eq,decide_eq_true_eq]
  rfl

theorem turnOffLeast1bit_lt (pos : 0 < x) : turnOffLeast1bit x < x := by
  have := Nat.and_le_right (n := x) (m := x - 1)
  unfold turnOffLeast1bit
  omega

/-- Turning off the lowest bit of a number with several keeps the highest. -/
theorem minBuckets_le_turnOff (several : ¬x.isPowerOfTwo) (enough : minBuckets ≤ x) :
    minBuckets ≤ turnOffLeast1bit x := by
  have pos : x ≠ 0 := by unfold minBuckets at enough; omega
  have top := Nat.ge_two_pow_of_testBit (Nat.and_sub_one_testBit_log2 pos several)
  have high : 2 ≤ x.log2 := (Nat.le_log2 pos).mpr enough
  calc minBuckets = 2 ^ 2 := rfl
    _ ≤ 2 ^ x.log2 := Nat.pow_le_pow_right (by decide) high
    _ ≤ turnOffLeast1bit x := top

theorem powerLoop_run (bound : cnt < fuel) (enough : minBuckets ≤ cnt) :
    ∃ n, powerLoop fuel cnt = .ok n ∧ n.isPowerOfTwo ∧ minBuckets ≤ n := by
  induction fuel generalizing cnt with
  | zero => contradiction
  | succ fuel ih =>
    by_cases power : isPowerOf2 cnt = true
    · exact ⟨cnt,if_pos power,isPowerOf2_iff.mp power,enough⟩
    · have several : ¬cnt.isPowerOfTwo := fun is => power (isPowerOf2_iff.mpr is)
      have smaller := turnOffLeast1bit_lt (x := cnt) (by unfold minBuckets at enough; omega)
      obtain ⟨n,ran,rest⟩ := ih (by omega) (minBuckets_le_turnOff several enough)
      exact ⟨n,(if_neg power).trans ran,rest⟩

theorem newBucketCnt_run (elemCnt : Nat) :
    ∃ n, newBucketCnt elemCnt = .ok n ∧ n.isPowerOfTwo ∧ minBuckets ≤ n := by
  apply powerLoop_run (Nat.lt_succ_self _)
  split <;> omega

/-! Single operations on the buckets. -/

theorem bucketAt_run (inside : i < h.bucketCnt) : bucketAt h i = .ok (h.buckets i : List α) := if_pos inside

theorem setBucket_run {h : Hash α} (inside : i < h.bucketCnt) (bucket : List α) :
    setBucket h i bucket = .ok { h with buckets := Function.update h.buckets i bucket } := if_pos inside

/-- A new element in front of its bucket. -/
theorem Laid.push [DecidableEq α] (laid : Laid hash h S) (absent : e ∉ S) (cnt : Nat) :
    Laid hash ⟨cnt,h.bucketCnt,Function.update h.buckets (findBucket hash h e) (e :: h.buckets (findBucket hash h e))⟩
      (insert e S) where
  power := laid.power
  enough := laid.enough
  stored := by
    intro i inside x
    change x ∈ Function.update h.buckets (findBucket hash h e) (e :: h.buckets (findBucket hash h e)) i ↔
      x ∈ insert e S ∧ findBucket hash h x = i
    by_cases same : i = findBucket hash h e
    · subst same
      rw [Function.update_self,List.mem_cons,laid.stored _ inside,Finset.mem_insert]
      constructor
      · rintro (rfl | ⟨member,place⟩)
        · exact ⟨.inl rfl,rfl⟩
        · exact ⟨.inr member,place⟩
      · rintro ⟨rfl | member,place⟩
        · exact .inl rfl
        · exact .inr ⟨member,place⟩
    · rw [Function.update_of_ne same,laid.stored i inside,Finset.mem_insert]
      constructor
      · rintro ⟨member,place⟩
        exact ⟨.inr member,place⟩
      · rintro ⟨rfl | member,place⟩
        · exact absurd place.symm same
        · exact ⟨member,place⟩
  nodup := by
    intro i inside
    change (Function.update h.buckets (findBucket hash h e) (e :: h.buckets (findBucket hash h e)) i).Nodup
    by_cases same : i = findBucket hash h e
    · subst same
      rw [Function.update_self]
      refine List.nodup_cons.mpr ⟨?_,laid.nodup _ inside⟩
      intro already
      exact absent ((laid.stored _ inside e).mp already).1
    · rw [Function.update_of_ne same]
      exact laid.nodup i inside

theorem insertElem_run [DecidableEq α] (laid : Laid hash h S) (absent : e ∉ S) :
    ∃ h', insertElem h (findBucket hash h e) e = .ok h' ∧ Laid hash h' (insert e S) ∧ h'.elemCnt = h.elemCnt + 1 := by
  have inside : findBucket hash h e < h.bucketCnt := findBucket_lt laid.power e
  refine ⟨_,?_,laid.push absent (h.elemCnt + 1),rfl⟩
  unfold insertElem
  rw [go (bucketAt_run inside)]
  exact if_pos inside

theorem moveElem_run [DecidableEq α] (laid : Laid hash h S) (absent : e ∉ S) :
    ∃ h', moveElem hash h e = .ok h' ∧ Laid hash h' (insert e S) ∧ h'.elemCnt = h.elemCnt := by
  have inside : findBucket hash h e < h.bucketCnt := findBucket_lt laid.power e
  refine ⟨_,?_,laid.push absent h.elemCnt,rfl⟩
  unfold moveElem
  rw [go (bucketAt_run inside)]
  exact setBucket_run inside _

theorem removeElem_laid [DecidableEq α] (laid : Laid hash h S) (e : α) : Laid hash (removeElem h e) (S.erase e) where
  power := laid.power
  enough := laid.enough
  stored := by
    intro i inside x
    change x ∈ (h.buckets i).erase e ↔ x ∈ S.erase e ∧ findBucket hash h x = i
    rw [(laid.nodup i inside).mem_erase_iff,laid.stored i inside,Finset.mem_erase,and_assoc]
  nodup := by
    intro i inside
    exact (laid.nodup i inside).erase e

/-! Moving every element to new buckets. -/

theorem moveAll_run [DecidableEq α] {elems : List α} (laid : Laid hash h S) (nodup : elems.Nodup) (absent : ∀ e ∈ elems, e ∉ S) :
    ∃ h', elems.foldlM (moveElem hash) h = .ok h' ∧ Laid hash h' (S ∪ elems.toFinset) ∧ h'.elemCnt = h.elemCnt := by
  induction elems generalizing h S with
  | nil => exact ⟨h,rfl,by simpa using laid,rfl⟩
  | cons e rest ih =>
    obtain ⟨new,nodup⟩ := List.nodup_cons.mp nodup
    obtain ⟨h₁,moved,laid₁,count₁⟩ := moveElem_run laid (absent e (by simp))
    have absent₁ : ∀ x ∈ rest, x ∉ insert e S := by
      intro x inside already
      rcases Finset.mem_insert.mp already with rfl | member
      · exact new inside
      · exact absent x (by simp [inside]) member
    obtain ⟨h₂,ran,laid₂,count₂⟩ := ih laid₁ nodup absent₁
    refine ⟨h₂,?_,?_,count₂.trans count₁⟩
    · rw [List.foldlM_cons,go moved]
      exact ran
    · rw [List.toFinset_cons,Finset.union_insert,← Finset.insert_union]
      exact laid₂

/-- The old buckets one after the other hold each element once. -/
theorem Laid.elems [DecidableEq α] (laid : Laid hash h S) :
    ((List.range h.bucketCnt).flatMap h.buckets).Nodup ∧ ((List.range h.bucketCnt).flatMap h.buckets).toFinset = S := by
  constructor
  · refine List.nodup_flatMap.mpr ⟨fun i inside => laid.nodup i (List.mem_range.mp inside),?_⟩
    refine List.Pairwise.imp_of_mem ?_ List.nodup_range
    intro i j here there other e first second
    have placeI := ((laid.stored i (List.mem_range.mp here) e).mp first).2
    have placeJ := ((laid.stored j (List.mem_range.mp there) e).mp second).2
    exact other (placeI.symm.trans placeJ)
  · ext e
    rw [List.mem_toFinset,List.mem_flatMap]
    constructor
    · rintro ⟨i,inside,member⟩
      exact ((laid.stored i (List.mem_range.mp inside) e).mp member).1
    · intro member
      have inside : findBucket hash h e < h.bucketCnt := findBucket_lt laid.power e
      exact ⟨_,List.mem_range.mpr inside,(laid.stored _ inside e).mpr ⟨member,rfl⟩⟩

theorem rehash_run [DecidableEq α] (granted : Bool) (laid : Laid hash h S) :
    ∃ h', rehash hash granted h = .ok h' ∧ Laid hash h' S ∧ h'.elemCnt = h.elemCnt := by
  obtain ⟨cnt,sized,power,enough⟩ := newBucketCnt_run h.elemCnt
  unfold rehash
  rw [go sized]
  split
  · exact ⟨h,rfl,laid,rfl⟩
  · split
    · exact ⟨h,rfl,laid,rfl⟩
    · have empty : Laid hash { h with bucketCnt := cnt,buckets := fun _ => [] } ∅ :=
        ⟨power,enough,by simp,by simp⟩
      obtain ⟨nodup,elems⟩ := laid.elems
      obtain ⟨h',ran,laid',count⟩ := moveAll_run empty nodup (by simp)
      refine ⟨h',?_,?_,count⟩
      · rw [← ran,foldlM_flatMap]
      · rw [elems,Finset.empty_union] at laid'
        exact laid'

theorem findElem_run (laid : Laid hash h S) (compatible : ∀ a b, Same less a b → hash a = hash b) (e : α) :
    ∃ found, findElem less h (findBucket hash h e) e = .ok found ∧
      ((found = none ∧ ∀ x ∈ S, ¬Same less x e) ∨ ∃ old, found = some old ∧ old ∈ S ∧ Same less old e) := by
  have inside : findBucket hash h e < h.bucketCnt := findBucket_lt laid.power e
  refine ⟨_,go (bucketAt_run inside),?_⟩
  cases look : (h.buckets (findBucket hash h e)).find? fun hi => !less hi e && !less e hi with
  | none =>
    refine .inl ⟨rfl,fun x member same => ?_⟩
    have place : findBucket hash h x = findBucket hash h e := by rw [findBucket,compatible x e same,findBucket]
    have missed := List.find?_eq_none.mp look x ((laid.stored _ inside x).mpr ⟨member,place⟩)
    simp [same.1,same.2] at missed
  | some old =>
    have member := List.mem_of_find?_eq_some look
    have same := List.find?_some look
    simp only [Bool.and_eq_true,Bool.not_eq_true'] at same
    exact .inr ⟨old,rfl,((laid.stored _ inside old).mp member).1,same⟩

/-! Whole calls. -/

inductive Op (α : Type) where
  | insert (new : α)
  | replace (new : α)
  | find (e : α)
  | delete (e : α)
  | clear (destructor : Bool)

section
variable [DecidableEq α]

def Op.run (hash : α → UInt32) (less : α → α → Bool) (granted : Bool) (h : Hash α) : Op α → Except Fault (Option α × Hash α)
  | insert new => hashInsert hash less granted h new
  | replace new => hashReplace hash less granted h new
  | find e => do return (← hashFind hash less h e,h)
  | delete e => hashDelete hash less granted h e
  | clear destructor => return (none,(hashClear h destructor).2)

inductive Acts (less : α → α → Bool) (S : Finset α) : Op α → Option α → Finset α → Prop
  | insertNew (absent : ∀ x ∈ S, ¬Same less x new) : Acts less S (.insert new) none (insert new S)
  | insertOld (here : old ∈ S) (same : Same less old new) : Acts less S (.insert new) (some old) S
  | replaceNew (absent : ∀ x ∈ S, ¬Same less x new) : Acts less S (.replace new) none (insert new S)
  | replaceOld (here : old ∈ S) (same : Same less old new) :
      Acts less S (.replace new) (some old) (insert new (S.erase old))
  | findNone (absent : ∀ x ∈ S, ¬Same less x e) : Acts less S (.find e) none S
  | findSome (here : found ∈ S) (same : Same less found e) : Acts less S (.find e) (some found) S
  | deleteNone (absent : ∀ x ∈ S, ¬Same less x e) : Acts less S (.delete e) none S
  | deleteSome (here : found ∈ S) (same : Same less found e) : Acts less S (.delete e) (some found) (S.erase found)
  | clear : Acts less S (.clear destructor) none ∅

def runAll (hash : α → UInt32) (less : α → α → Bool) : List (Op α × Bool) → Hash α → Except Fault (List (Option α) × Hash α)
  | [],h => return ([],h)
  | (op,granted) :: rest,h => do
    let (answer,h) ← op.run hash less granted h
    let (answers,h) ← runAll hash less rest h
    return (answer :: answers,h)

inductive ActsAll (less : α → α → Bool) : Finset α → List (Op α × Bool) → List (Option α) → Finset α → Prop
  | nil : ActsAll less S [] [] S
  | cons (acts : Acts less S op answer S') (rest : ActsAll less S' ops answers S'') :
      ActsAll less S ((op,granted) :: ops) (answer :: answers) S''

theorem Represents.insert (order : IsStrictWeakOrder α fun a b => less a b = true) (rep : Represents hash less h S)
    (absent : ∀ x ∈ S, ¬Same less x new) :
    ∃ h', insertElem h (findBucket hash h new) new = .ok h' ∧ Represents hash less h' (insert new S) := by
  have refl : Same less new new := by
    have := order.irrefl new
    simp only [Bool.not_eq_true] at this
    exact ⟨this,this⟩
  have away : new ∉ S := fun member => absent new member refl
  obtain ⟨h',ran,laid,count⟩ := insertElem_run rep.laid away
  refine ⟨h',ran,laid,?_,?_⟩
  · rw [count,rep.count,Finset.card_insert_of_notMem away]
  · intro a inA b inB same
    rcases Finset.mem_insert.mp inA with rfl | oldA
    · rcases Finset.mem_insert.mp inB with rfl | oldB
      · rfl
      · exact absurd same.symm (absent b oldB)
    · rcases Finset.mem_insert.mp inB with rfl | oldB
      · exact absurd same (absent a oldA)
      · exact rep.single a oldA b oldB same

theorem Represents.remove (rep : Represents hash less h S) (here : e ∈ S) :
    Represents hash less (removeElem h e) (S.erase e) where
  laid := removeElem_laid rep.laid e
  count := by
    rw [Finset.card_erase_of_mem here,← rep.count]
    rfl
  single := fun a inA b inB => rep.single a (Finset.mem_of_mem_erase inA) b (Finset.mem_of_mem_erase inB)

theorem Represents.rehash (rep : Represents hash less h S) (granted : Bool) :
    ∃ h', rehash hash granted h = .ok h' ∧ Represents hash less h' S := by
  obtain ⟨h',ran,laid,count⟩ := rehash_run granted rep.laid
  exact ⟨h',ran,laid,count.trans rep.count,rep.single⟩

/-- Without the element of its key no element of the set has the key of a new one. -/
theorem Represents.erased (order : IsStrictWeakOrder α fun a b => less a b = true) (rep : Represents hash less h S)
    (here : old ∈ S) (same : Same less old new) : ∀ x ∈ S.erase old, ¬Same less x new := by
  intro x inside same'
  obtain ⟨other,member⟩ := Finset.mem_erase.mp inside
  have both := order.incomp_trans x new old
    ⟨by simp [same'.1],by simp [same'.2]⟩ ⟨by simp [same.2],by simp [same.1]⟩
  simp only [Bool.not_eq_true] at both
  exact other (rep.single x member old here both)

/-- One call acts on the set, whatever the allocator does. -/
theorem Represents.step (order : IsStrictWeakOrder α fun a b => less a b = true)
    (compatible : ∀ a b, Same less a b → hash a = hash b) (rep : Represents hash less h S) (op : Op α) (granted : Bool) :
    ∃ answer h' S', op.run hash less granted h = .ok (answer,h') ∧ Acts less S op answer S' ∧ Represents hash less h' S' := by
  cases op with
  | insert new =>
    obtain ⟨found,looked,outcome⟩ := findElem_run rep.laid compatible new
    change ∃ answer h' S', hashInsert hash less granted h new = .ok (answer,h') ∧ _
    unfold hashInsert
    rw [go looked]
    rcases outcome with ⟨rfl,absent⟩ | ⟨old,rfl,here,same⟩
    · obtain ⟨h₁,put,rep₁⟩ := rep.insert order absent
      obtain ⟨h₂,moved,rep₂⟩ := rep₁.rehash granted
      refine ⟨none,h₂,_,?_,.insertNew absent,rep₂⟩
      rw [Option.isNone_none,if_pos rfl,go put]
      exact go moved
    · obtain ⟨h₂,moved,rep₂⟩ := rep.rehash granted
      refine ⟨some old,h₂,_,?_,.insertOld here same,rep₂⟩
      rw [Option.isNone_some,if_neg Bool.false_ne_true]
      exact go moved
  | replace new =>
    obtain ⟨found,looked,outcome⟩ := findElem_run rep.laid compatible new
    change ∃ answer h' S', hashReplace hash less granted h new = .ok (answer,h') ∧ _
    unfold hashReplace
    rw [go looked]
    rcases outcome with ⟨rfl,absent⟩ | ⟨old,rfl,here,same⟩
    · obtain ⟨h₁,put,rep₁⟩ := rep.insert order absent
      obtain ⟨h₂,moved,rep₂⟩ := rep₁.rehash granted
      refine ⟨none,h₂,_,?_,.replaceNew absent,rep₂⟩
      exact (go put).trans (go moved)
    · have absent := rep.erased order here same
      obtain ⟨h₁,put,rep₁⟩ := (rep.remove here).insert order absent
      obtain ⟨h₂,moved,rep₂⟩ := rep₁.rehash granted
      refine ⟨some old,h₂,_,?_,.replaceOld here same,rep₂⟩
      exact (go put).trans (go moved)
  | find e =>
    obtain ⟨found,looked,outcome⟩ := findElem_run rep.laid compatible e
    refine ⟨found,h,S,go looked,?_,rep⟩
    rcases outcome with ⟨rfl,absent⟩ | ⟨old,rfl,here,same⟩
    · exact .findNone absent
    · exact .findSome here same
  | delete e =>
    obtain ⟨found,looked,outcome⟩ := findElem_run rep.laid compatible e
    change ∃ answer h' S', hashDelete hash less granted h e = .ok (answer,h') ∧ _
    unfold hashDelete
    rw [go looked]
    rcases outcome with ⟨rfl,absent⟩ | ⟨old,rfl,here,same⟩
    · exact ⟨none,h,S,rfl,.deleteNone absent,rep⟩
    · obtain ⟨h₂,moved,rep₂⟩ := (rep.remove here).rehash granted
      refine ⟨some old,h₂,_,?_,.deleteSome here same,rep₂⟩
      exact go moved
  | clear destructor =>
    refine ⟨none,_,∅,rfl,.clear,⟨rep.laid.power,rep.laid.enough,?_,?_⟩,rfl,?_⟩
    · simp [hashClear]
    · simp [hashClear]
    · simp

theorem Represents.run (order : IsStrictWeakOrder α fun a b => less a b = true)
    (compatible : ∀ a b, Same less a b → hash a = hash b) (rep : Represents hash less h S) (ops : List (Op α × Bool)) :
    ∃ answers h' S', runAll hash less ops h = .ok (answers,h') ∧ ActsAll less S ops answers S' ∧
      Represents hash less h' S' := by
  induction ops generalizing h S with
  | nil => exact ⟨[],h,S,rfl,.nil,rep⟩
  | cons first ops ih =>
    obtain ⟨op,granted⟩ := first
    obtain ⟨answer,h₁,S₁,ran,acts,rep₁⟩ := rep.step order compatible op granted
    obtain ⟨answers,h₂,S₂,ran',acts',rep₂⟩ := ih rep₁
    refine ⟨answer :: answers,h₂,S₂,?_,.cons acts acts',rep₂⟩
    rw [runAll,go ran]
    exact go ran'

/-- A table behaves as a set with at most one element for each key: every sequence of calls
returns, answers what the set answers and ends with the set laid out by hash. -/
theorem hash_refines_set (order : IsStrictWeakOrder α fun a b => less a b = true)
    (compatible : ∀ a b, Same less a b → hash a = hash b) (init : hashInit granted = some h) (ops : List (Op α × Bool)) :
    ∃ answers h' S, runAll hash less ops h = .ok (answers,h') ∧ ActsAll less ∅ ops answers S ∧
      (∀ a ∈ S, ∀ b ∈ S, Same less a b → a = b) ∧ h'.elemCnt = S.card ∧
      h'.bucketCnt.isPowerOfTwo ∧ 4 ≤ h'.bucketCnt ∧
      (∀ i < h'.bucketCnt, (h'.buckets i).Nodup ∧
        ∀ e, e ∈ h'.buckets i ↔ e ∈ S ∧ (hash e).toNat &&& (h'.bucketCnt - 1) = i) := by
  unfold hashInit at init
  split at init
  · obtain rfl := Option.some.inj init
    obtain ⟨answers,h',S,ran,acts,rep⟩ := Represents.init.run order compatible ops
    exact ⟨answers,h',S,ran,acts,rep.single,rep.count,rep.laid.power,rep.laid.enough,
      fun i inside => ⟨rep.laid.nodup i inside,rep.laid.stored i inside⟩⟩
  · cases init

end

theorem hash_refines_set_numbers :
    ∃ answers h' S, runAll UInt32.ofNat (fun a b => decide (a < b))
        [(.insert 5,true),(.replace 9,false),(.find 5,true)] (hashClear ⟨0,minBuckets,fun _ => []⟩ false).2 = .ok (answers,h') ∧
      ActsAll (fun a b => decide (a < b)) ∅ [(.insert 5,true),(.replace 9,false),(.find 5,true)] answers S ∧
      h'.elemCnt = S.card ∧ 4 ≤ h'.bucketCnt := by
  have order : IsStrictWeakOrder Nat fun a b => decide (a < b) = true := by
    refine { irrefl := ?_,trans := ?_,incomp_trans := ?_ }
    · simp
    · intro a b c
      simp only [decide_eq_true_eq]
      exact Nat.lt_trans
    · intro a b c
      simp only [decide_eq_true_eq]
      omega
  have compatible : ∀ a b, Same (fun a b => decide (a < b)) a b → UInt32.ofNat a = UInt32.ofNat b := by
    intro a b same
    obtain ⟨first,second⟩ := same
    simp only [decide_eq_false_iff_not] at first second
    rw [show a = b by omega]
  obtain ⟨answers,h',S,ran,acts,_,count,_,enough,_⟩ := hash_refines_set order compatible (show hashInit true = some _ from rfl)
    [(.insert 5,true),(.replace 9,false),(.find 5,true)]
  exact ⟨answers,h',S,ran,acts,count,enough⟩

end OsProj.HashTable
