import Mathlib.Data.List.Pairwise
import OsProj.WorkerKeys

/-! Applications that count: every pair has the value 1 and the reduce function adds the
values of a key. Output files count the keys when no two different keys share a group. -/
namespace OsProj.Worker

open OsProj.ByteList
open OsProj.Faulting
open OsProj.Grouping

def intLimit : Nat := 2147483648

def intSize : Nat := 4

def intBytes (x : Int) : Bytes := leBytes intSize (x % 4294967296).toNat

def one : Bytes := intBytes 1

/-- The loop of the reduce functions; overflow of an `int` is undefined. -/
def countValues : Nat → Int → List KeyValue → Except Fault Int
  | _,count,[] => .ok count
  | i,count,kv :: rest =>
    if kv.value.length < intSize then .error .outOfBounds
    else
      let count := count + toInt (leValue (kv.value.take intSize))
      if count < -(intLimit : Int) ∨ (intLimit : Int) ≤ count then .error .overflow
      else if i + 1 < intLimit then countValues (i + 1) count rest
      else .error .overflow

def countReduce (key : Bytes) (input : List KeyValue) (_aux : Bytes) : Except Fault KeyValue := do
  let count ← countValues 0 0 input
  return ⟨key,intBytes count⟩

theorem toInt_one : toInt (leValue (one.take intSize)) = 1 := by decide

theorem countValues_step (kv : KeyValue) (value : kv.value = one) (i : Nat) (rest : List KeyValue) :
    countValues i i (kv :: rest) = if i + 1 < intLimit then countValues (i + 1) (i + 1 : Nat) rest else .error .overflow := by
  rw [countValues,value,if_neg (by decide)]
  dsimp only
  rw [toInt_one]
  by_cases fits : i + 1 < intLimit
  · rw [if_neg (by omega),if_pos fits,if_pos fits]
    rfl
  · rw [if_pos (by omega),if_neg fits]

/-- The sum of ones is how many there are, as long as an `int` holds it. -/
theorem countValues_ones (ones : ∀ kv ∈ kvs, kv.value = one) (i : Nat) (before : i < intLimit) :
    countValues i i kvs = if i + kvs.length < intLimit then .ok ((i + kvs.length : Nat) : Int) else .error .overflow := by
  induction kvs generalizing i with
  | nil => exact (if_pos before).symm
  | cons kv kvs ih =>
    rw [countValues_step kv (ones kv (by simp)),List.length_cons]
    by_cases fits : i + 1 < intLimit
    · rw [if_pos fits,ih (fun kv inside => ones kv (by simp [inside])) (i + 1) fits]
      rw [show i + 1 + kvs.length = i + (kvs.length + 1) by omega]
    · rw [if_neg fits,if_neg (by omega)]

def countResult (group : List KeyValue) : KeyValue := ⟨(group.head?.map KeyValue.key).getD [],intBytes group.length⟩

theorem countReduce_group (counting : app.reduce = countReduce) (ones : ∀ kv ∈ group, kv.value = one) (nonempty : group ≠ []) :
    reduceGroup app aux group = if group.length < intLimit then .ok (countResult group) else .error .overflow := by
  cases group with
  | nil => contradiction
  | cons kv rest =>
    have summed := countValues_ones ones 0 (by decide)
    rw [Nat.zero_add] at summed
    rw [reduceGroup,counting,countReduce,show (0 : Int) = (0 : Nat) from rfl,summed]
    split
    · rfl
    · rfl

/-- Every key of the list once, with the number of its occurrences, and no other key. -/
def Counts (keys : List Bytes) (outs : List KeyValue) : Prop :=
  (outs.map KeyValue.key).Nodup ∧ ∀ kv, kv ∈ outs ↔ kv.key ∈ keys ∧ kv.value = intBytes (keys.count kv.key)

def Separated (n : Nat) (keys : List Bytes) : Prop :=
  ∀ a ∈ keys, ∀ b ∈ keys, (ihash a).toNat % n = (ihash b).toNat % n → cstr a = cstr b → a = b

section
variable {kvs : List KeyValue} {groups : List (List KeyValue)}

/-- A group of separated keys holds the pairs of one key. -/
theorem group_key (separated : Separated n (kvs.map KeyValue.key)) (here : a ∈ kvs)
    (p : KeyValue → Bool) (grouping : ∀ x, p x = true ↔ reduceTask n x = reduceTask n a ∧ keyRank x = keyRank a) :
    kvs.filter p = kvs.filter fun x => decide (x.key = a.key) := by
  refine List.filter_congr fun x inside => ?_
  rw [Bool.eq_iff_iff,grouping,decide_eq_true_eq]
  constructor
  · rintro ⟨task,rank⟩
    exact separated x.key (List.mem_map_of_mem inside) a.key (List.mem_map_of_mem here) task rank
  · intro same
    rw [reduceTask,reduceTask,keyRank,keyRank,same]
    exact ⟨rfl,rfl⟩

theorem filter_key_length (kvs : List KeyValue) (k : Bytes) :
    (kvs.filter fun x => decide (x.key = k)).length = (kvs.map KeyValue.key).count k := by
  rw [List.count,List.countP_map,List.countP_eq_length_filter]
  exact congrArg List.length (List.filter_congr fun x _ => (beq_eq_decide ..).symm)

/-- A group holds as many pairs as its key occurs. -/
theorem group_length (shuffled : Shuffled (reduceTask n) keyRank kvs groups) (separated : Separated n (kvs.map KeyValue.key))
    (member : g ∈ groups) (inside : c ∈ g) : g.length = (kvs.map KeyValue.key).count c.key := by
  obtain ⟨a,rest,rfl,here,p,grouping,perm⟩ := shuffled.headed g member
  rw [group_key separated here p grouping] at perm
  have key : c.key = a.key := by simpa using (List.mem_filter.mp (perm.mem_iff.mp inside)).2
  rw [perm.length_eq,filter_key_length,key]

theorem counts_groups (shuffled : Shuffled (reduceTask n) keyRank kvs groups) (separated : Separated n (kvs.map KeyValue.key)) :
    Counts (kvs.map KeyValue.key) (groups.map countResult) := by
  have result : ∀ g ∈ groups, ∃ a ∈ kvs, a ∈ g ∧ countResult g = ⟨a.key,intBytes ((kvs.map KeyValue.key).count a.key)⟩ := by
    intro g member
    obtain ⟨a,rest,rfl,here,_⟩ := shuffled.headed g member
    refine ⟨a,here,by simp,?_⟩
    rw [countResult,group_length shuffled separated member (List.mem_cons_self ..)]
    rfl
  constructor
  · rw [List.map_map]
    refine List.pairwise_map.mpr (shuffled.apart.imp_of_mem ?_)
    intro g h inG inH apart same
    obtain ⟨a,_,memberA,resultG⟩ := result g inG
    obtain ⟨b,_,memberB,resultH⟩ := result h inH
    have keys : a.key = b.key := by
      simpa [resultG,resultH] using same
    apply apart a memberA b memberB
    rw [reduceTask,reduceTask,keyRank,keyRank,keys]
    exact ⟨rfl,rfl⟩
  · intro kv
    rw [List.mem_map]
    constructor
    · rintro ⟨g,member,rfl⟩
      obtain ⟨a,here,_,made⟩ := result g member
      rw [made]
      exact ⟨List.mem_map.mpr ⟨a,here,rfl⟩,rfl⟩
    · rintro ⟨known,value⟩
      obtain ⟨c,inside,key⟩ := List.mem_map.mp known
      obtain ⟨g,member,inG⟩ := shuffled.covered c inside
      obtain ⟨a,rest,rfl,here,p,grouping,perm⟩ := shuffled.headed g member
      obtain ⟨a',_,inG',made⟩ := result _ member
      have level : ∀ x ∈ a :: rest, x.key = a.key := by
        intro x inX
        rw [group_key separated here p grouping] at perm
        simpa using (List.mem_filter.mp (perm.mem_iff.mp inX)).2
      have same : a'.key = kv.key := (level a' inG').trans ((level c inG).symm.trans key)
      refine ⟨_,member,?_⟩
      rw [made,same,← value]

/-- Two keys in one group cannot both be counted. -/
theorem separated_of_listed (shuffled : Shuffled (reduceTask n) keyRank kvs groups)
    (listed : ∀ k ∈ kvs.map KeyValue.key, ⟨k,intBytes ((kvs.map KeyValue.key).count k)⟩ ∈ groups.map countResult) :
    Separated n (kvs.map KeyValue.key) := by
  have headed : ∀ k ∈ kvs.map KeyValue.key, ∃ g ∈ groups, ∃ a ∈ g, a.key = k ∧ (countResult g).key = k := by
    intro k known
    obtain ⟨g,member,made⟩ := List.mem_map.mp (listed k known)
    obtain ⟨a,rest,rfl,_⟩ := shuffled.headed g member
    have key : a.key = k := congrArg KeyValue.key made
    exact ⟨_,member,a,by simp,key,key⟩
  intro k known k' known' task same
  by_contra other
  obtain ⟨g,inG,a,inA,keyA,headG⟩ := headed k known
  obtain ⟨h,inH,b,inB,keyB,headH⟩ := headed k' known'
  have different : g ≠ h := by
    rintro rfl
    exact other (headG.symm.trans headH)
  have symmetric : Std.Symm fun g h : List KeyValue =>
      ∀ a ∈ g, ∀ b ∈ h, ¬(reduceTask n a = reduceTask n b ∧ keyRank a = keyRank b) :=
    ⟨fun g h apart b inB a inA both => apart a inA b inB ⟨both.1.symm,both.2.symm⟩⟩
  have apart := shuffled.apart.forall inG inH different a inA b inB
  rw [reduceTask,reduceTask,keyRank,keyRank,keyA,keyB] at apart
  exact apart ⟨task,same⟩

end

/-- An application that emits ones and adds them. -/
structure Counting (job : Job) (kvss : Nat → List KeyValue) : Prop where
  reduce : job.app.reduce = countReduce
  emits : Emits job kvss
  ones : ∀ kv ∈ emitted job kvss, kv.value = one
  ordered : Ordered (emitted job kvss)

/-- The job ends and its output counts the keys. -/
def Counted (qsort : Qsort) (job : Job) (maps reduces : List Nat) (files : Files) (keys : List Bytes) : Prop :=
  ∃ files' outs, runJob qsort job (tasks maps reduces) files = .ok files' ∧ outputs job files' = .ok outs ∧ Counts keys outs

section
variable {qsort : Qsort} {job : Job} {kvss : Nat → List KeyValue}

theorem Counting.short (counting : Counting job kvss) : ∀ kv ∈ emitted job kvss, kv.Short := by
  intro kv inside
  have key := counting.ordered.2 kv inside
  refine ⟨Nat.lt_trans key (by decide),?_⟩
  rw [Short,counting.ones kv inside]
  decide

/-- The groups as the reduce function sees them. -/
theorem Counting.reduces (counting : Counting job kvss) (shuffled : Shuffled (reduceTask job.nReduce) keyRank (emitted job kvss)
    (groups qsort job kvss)) (member : g ∈ groups qsort job kvss) :
    (reduceGroup job.app job.aux g = if g.length < intLimit then .ok (countResult g) else .error .overflow) ∧ (countResult g).Short := by
  obtain ⟨a,rest,rfl,here,p,_,perm⟩ := shuffled.headed g member
  constructor
  · refine countReduce_group counting.reduce (fun kv inside => ?_) (List.cons_ne_nil _ _)
    exact counting.ones kv (List.mem_of_mem_filter (perm.mem_iff.mp inside))
  · refine ⟨(counting.short a here).1,?_⟩
    change (leBytes intSize _).length < _
    rw [leBytes_length]
    decide

/-- A job whose output lists every key with its count kept different keys apart. -/
theorem separated_of_ran (sorts : Sorts qsort) (positive : 0 < job.nReduce) (counting : Counting job kvss)
    (schedule : Schedule job maps reduces) (ran : runJob qsort job (tasks maps reduces) files = .ok files')
    (read : outputs job files' = .ok outs)
    (listed : ∀ k ∈ (emitted job kvss).map KeyValue.key, ⟨k,intBytes (((emitted job kvss).map KeyValue.key).count k)⟩ ∈ outs) :
    Separated job.nReduce ((emitted job kvss).map KeyValue.key) ∧ ∀ k, ((emitted job kvss).map KeyValue.key).count k < intLimit := by
  have shuffled := groups_shuffled sorts positive counting.ordered
  have small : ∀ g ∈ groups qsort job kvss, g.length < intLimit := by
    intro g member
    obtain ⟨kv,made⟩ := job_reduces sorts counting.emits counting.short schedule ran member
    rw [(counting.reduces shuffled member).1] at made
    split at made
    · assumption
    · cases made
  obtain ⟨files₁,ran₁,read₁⟩ := job_runs sorts counting.emits counting.short schedule
    (fun g member => (counting.reduces shuffled member).1.trans (if_pos (small g member)))
    (fun g member => (counting.reduces shuffled member).2) files
  obtain rfl := Except.ok.inj (ran.symm.trans ran₁)
  obtain rfl := Except.ok.inj (read.symm.trans read₁)
  have separated := separated_of_listed shuffled listed
  refine ⟨separated,fun k => ?_⟩
  by_cases known : k ∈ (emitted job kvss).map KeyValue.key
  · obtain ⟨c,inside,rfl⟩ := List.mem_map.mp known
    obtain ⟨g,member,inG⟩ := shuffled.covered c inside
    rw [← group_length shuffled separated member inG]
    exact small g member
  · rw [List.count_eq_zero_of_not_mem known]
    decide

/-- The output counts the keys exactly when different keys stay apart and every count is an `int`. -/
theorem counted_iff (sorts : Sorts qsort) (positive : 0 < job.nReduce) (counting : Counting job kvss)
    (schedule : Schedule job maps reduces) (files : Files) :
    Counted qsort job maps reduces files ((emitted job kvss).map KeyValue.key) ↔
      Separated job.nReduce ((emitted job kvss).map KeyValue.key) ∧
        ∀ k, ((emitted job kvss).map KeyValue.key).count k < intLimit := by
  constructor
  · rintro ⟨files',outs,ran,read,counts⟩
    exact separated_of_ran sorts positive counting schedule ran read fun k known => (counts.2 ⟨k,_⟩).mpr ⟨known,rfl⟩
  · rintro ⟨separated,small⟩
    have shuffled := groups_shuffled sorts positive counting.ordered
    have fits : ∀ g ∈ groups qsort job kvss, g.length < intLimit := by
      intro g member
      obtain ⟨a,rest,rfl,_⟩ := shuffled.headed g member
      rw [group_length shuffled separated member (List.mem_cons_self ..)]
      exact small a.key
    obtain ⟨files',ran,read⟩ := job_runs sorts counting.emits counting.short schedule
      (fun g member => (counting.reduces shuffled member).1.trans (if_pos (fits g member)))
      (fun g member => (counting.reduces shuffled member).2) files
    exact ⟨files',_,ran,read,counts_groups shuffled separated⟩

end

/-- A counted key has one pair. -/
theorem Counts.pair (counts : Counts keys outs) (known : k ∈ keys) :
    (outs.filter fun kv => kv.key = k) = [⟨k,intBytes (keys.count k)⟩] := by
  have listed := (counts.2 ⟨k,intBytes (keys.count k)⟩).mpr ⟨known,rfl⟩
  obtain ⟨before,after,rfl⟩ := List.append_of_mem listed
  have once := counts.1
  rw [List.map_append,List.map_cons,List.nodup_append] at once
  obtain ⟨_,later,apart⟩ := once
  have notBefore : before.filter (fun kv => kv.key = k) = [] := by
    rw [List.filter_eq_nil_iff]
    intro kv inside same
    exact apart kv.key (List.mem_map_of_mem inside) k (List.mem_cons_self ..) (by simpa using same)
  have notAfter : after.filter (fun kv => kv.key = k) = [] := by
    rw [List.filter_eq_nil_iff]
    intro kv inside same
    refine (List.nodup_cons.mp later).1 (List.mem_map.mpr ⟨kv,inside,?_⟩)
    simpa using same
  rw [List.filter_append,List.filter_cons_of_pos (by simp),notBefore,notAfter,List.nil_append]

end OsProj.Worker
