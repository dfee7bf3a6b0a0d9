import Mathlib.Data.List.Forall2
import Mathlib.Logic.Function.Basic
import OsProj.Faulting
import OsProj.Grouping
import OsProj.WorkerCodec

/-! Map and reduce tasks of the worker in hw-map-reduce, for any application. A map task
writes its pairs to one file for each reduce task; a reduce task sorts the pairs of its
files and calls the application once for each run of keys that compare equal. -/
namespace OsProj.Worker

open OsProj.ByteList
open OsProj.Faulting
open OsProj.Grouping

structure KeyValue where
  key : Bytes
  value : Bytes
  deriving DecidableEq, Repr

def signExtend (b : UInt8) : UInt32 := if b < 128 then b.toUInt32 else b.toUInt32 ||| 0xffffff00

def ihash (buf : Bytes) : UInt32 :=
  buf.foldl (fun hash b => (hash * 0x811C9DC5) ^^^ signExtend b) 0 &&& 0x7fffffff

def strncmp : Bytes → Bytes → Nat → Int
  | x :: a,y :: b,n + 1 => if x ≠ y then x.toNat - y.toNat else if x = 0 then 0 else strncmp a b n
  | _,_,_ => 0

def toInt (x : Int) : Int := x.bmod 4294967296

def byKey (kv1 kv2 : KeyValue) : Int :=
  let ret := strncmp kv1.key kv2.key (min kv1.key.length kv2.key.length)
  if ret = 0 then toInt (kv1.key.length - kv2.key.length) else ret

structure App where
  map : KeyValue → Bytes → Except Fault (List KeyValue)
  reduce : Bytes → List KeyValue → Bytes → Except Fault KeyValue

abbrev Qsort := (KeyValue → KeyValue → Int) → List KeyValue → List KeyValue

/-- The C library leaves the order of pairs that compare equal open, and all of it when the
comparison is no order; it always returns the pairs it was given. -/
structure Sorts (qsort : Qsort) : Prop where
  perm : ∀ cmp kvs, (qsort cmp kvs).Perm kvs
  sorted : ∀ cmp kvs, (∀ a ∈ kvs, ∀ b ∈ kvs, cmp a b ≤ 0 ∨ cmp b a ≤ 0) →
    (∀ a ∈ kvs, ∀ b ∈ kvs, ∀ c ∈ kvs, cmp a b ≤ 0 → cmp b c ≤ 0 → cmp a c ≤ 0) →
    (qsort cmp kvs).Pairwise fun a b => cmp a b ≤ 0

def mergeQsort : Qsort := fun cmp kvs =>
  (kvs.attach.mergeSort fun a b => decide (cmp a.val b.val ≤ 0)).map Subtype.val

theorem mergeQsort_sorts : Sorts mergeQsort where
  perm cmp kvs := by
    have sorted := (List.mergeSort_perm kvs.attach fun a b => decide (cmp a.val b.val ≤ 0)).map Subtype.val
    rwa [List.attach_map_subtype_val] at sorted
  sorted cmp kvs total trans := by
    rw [mergeQsort,List.pairwise_map]
    let le : {a // a ∈ kvs} → {a // a ∈ kvs} → Bool := fun a b => decide (cmp a.val b.val ≤ 0)
    have sorted : (kvs.attach.mergeSort le).Pairwise fun a b => le a b :=
      List.pairwise_mergeSort (by simpa [le] using fun a inA b inB c inC => trans a inA b inB c inC) (by simpa [le] using total) _
    exact sorted.imp fun before => by simpa [le] using before

/-! Map tasks. -/

def writeMapKvs (nReduce : Nat) (writers : Nat → Bytes) (kvs : List KeyValue) : Nat → Bytes :=
  kvs.foldl (fun writers kv =>
    let reduceTask := (ihash kv.key).toNat % nReduce
    Function.update writers reduceTask (ldwWrite (ldwWrite (writers reduceTask) kv.key) kv.value)) writers

def handleMapTask (app : App) (nReduce : Nat) (aux : Bytes) (file : KeyValue) : Except Fault (Nat → Bytes) := do
  let kvs ← app.map file aux
  return writeMapKvs nReduce (fun _ => []) kvs

/-! Reduce tasks. -/

def readLoop (length : Nat) : Nat → Bytes → List KeyValue → Except Fault (List KeyValue)
  | 0,_,_ => .error .unending
  | fuel + 1,reader,kvs =>
    let key := ldrNext reader
    let value := ldrNext key.2
    match key.1,value.1 with
    | some k,some v => if kvs.length < length then readLoop length fuel value.2 (kvs ++ [⟨k,v⟩]) else .ok kvs
    | _,_ => .ok kvs

def readMapKvs (readers : List Bytes) (length : Nat) : Except Fault (List KeyValue) :=
  readers.foldlM (fun kvs reader => readLoop length (reader.length + 1) reader kvs) []

def reduceGroup (app : App) (aux : Bytes) (group : List KeyValue) : Except Fault KeyValue :=
  match group with
  | kv :: _ => app.reduce kv.key group aux
  | [] => .error .outOfBounds

def reduceLoop (app : App) (aux : Bytes) (kvs : List KeyValue) : Nat → Nat → Nat → Bytes → Except Fault Bytes
  | 0,_,_,_ => .error .unending
  | fuel + 1,p1,p2,writer =>
    match kvs[p1]? with
    | none => .ok writer
    | some first =>
      let more := match kvs[p2]? with
        | some kv => byKey first kv == 0
        | none => false
      if more then reduceLoop app aux kvs fuel p1 (p2 + 1) writer
      else if p2 > p1 then do
        let kv ← reduceGroup app aux ((kvs.drop p1).take (p2 - p1))
        reduceLoop app aux kvs fuel p2 (p2 + 1) (ldwWrite (ldwWrite writer kv.key) kv.value)
      else reduceLoop app aux kvs fuel p2 (p2 + 1) writer

def reduceKvs (qsort : Qsort) (app : App) (aux : Bytes)
    (kvs : List KeyValue) : Except Fault Bytes :=
  let kvs := qsort byKey kvs
  reduceLoop app aux kvs (kvs.length + 2) 0 1 []

/-- Files with a key that has no value are refused. -/
def handleReduceTask (qsort : Qsort) (app : App) (aux : Bytes)
    (readers : List Bytes) : Except Fault Bytes := do
  let entries ← readers.foldlM (fun entries reader => do return entries + (← ldrCount reader)) 0
  if entries % 2 = 1 then throw .failed
  if entries / 2 > 0 then
    let kvs ← readMapKvs readers (entries / 2)
    reduceKvs qsort app aux kvs
  else return []

def bufs (kvs : List KeyValue) : List Bytes := kvs.flatMap fun kv => [kv.key,kv.value]

def KeyValue.Short (kv : KeyValue) : Prop := Worker.Short kv.key ∧ Worker.Short kv.value

def reduceTask (nReduce : Nat) (kv : KeyValue) : Nat := (ihash kv.key).toNat % nReduce

theorem bufs_short (short : ∀ kv ∈ kvs, KeyValue.Short kv) : ∀ buf ∈ bufs kvs, Short buf := by
  intro buf inside
  obtain ⟨kv,member,inside⟩ := List.mem_flatMap.mp inside
  rcases List.mem_pair.mp inside with rfl | rfl
  · exact (short kv member).1
  · exact (short kv member).2

theorem bufs_length (kvs : List KeyValue) : (bufs kvs).length = 2 * kvs.length := by
  simp [bufs,List.length_flatMap,Nat.mul_comm]

theorem bufs_append (kvs kvs' : List KeyValue) : bufs (kvs ++ kvs') = bufs kvs ++ bufs kvs' := by
  simp [bufs]

theorem ldwWrite_pair (kvs : List KeyValue) (kv : KeyValue) :
    ldwWrite (ldwWrite (frames (bufs kvs)) kv.key) kv.value = frames (bufs (kvs ++ [kv])) := by
  rw [ldwWrite_frames,ldwWrite_frames,bufs_append]
  simp [bufs]

/-- Each file of a map task holds the pairs of its reduce task, in their order. -/
theorem writeMapKvs_file (kvs : List KeyValue) (r : Nat) (old : List KeyValue) (before : writers r = frames (bufs old)) :
    writeMapKvs n writers kvs r = frames (bufs (old ++ kvs.filter fun kv => reduceTask n kv = r)) := by
  induction kvs generalizing writers old with
  | nil => simpa [writeMapKvs] using before
  | cons kv kvs ih =>
    rw [writeMapKvs,List.foldl_cons]
    by_cases here : reduceTask n kv = r
    · have written : Function.update writers (reduceTask n kv)
          (ldwWrite (ldwWrite (writers (reduceTask n kv)) kv.key) kv.value) r = frames (bufs (old ++ [kv])) := by
        rw [here,Function.update_self,before,ldwWrite_pair]
      rw [List.filter_cons_of_pos (by simpa using here)]
      have rest := ih (old ++ [kv]) written
      rw [List.append_assoc,List.singleton_append] at rest
      exact rest
    · have kept : Function.update writers (reduceTask n kv)
          (ldwWrite (ldwWrite (writers (reduceTask n kv)) kv.key) kv.value) r = frames (bufs old) := by
        rw [Function.update_of_ne (Ne.symm here),before]
      rw [List.filter_cons_of_neg (by simpa using here)]
      exact ih old kept

/-- The pairs that are read from records; a last key without a value is left out. -/
def pairsOf : List Bytes → List KeyValue
  | key :: value :: rest => ⟨key,value⟩ :: pairsOf rest
  | _ => []

theorem pairsOf_bufs (kvs : List KeyValue) : pairsOf (bufs kvs) = kvs := by
  induction kvs with
  | nil => rfl
  | cons kv kvs ih =>
    change ⟨kv.key,kv.value⟩ :: pairsOf (bufs kvs) = _
    rw [ih]

theorem pairsOf_length (records : List Bytes) : (pairsOf records).length = records.length / 2 := by
  induction records using pairsOf.induct with
  | case1 key value rest ih =>
    rw [pairsOf,List.length_cons,ih,List.length_cons,List.length_cons]
    omega
  | case2 records short =>
    rcases records with _ | ⟨key,_ | ⟨value,rest⟩⟩
    · rfl
    · simp [pairsOf]
    · exact absurd rfl (short key value rest)

/-- The loop of `read_map_kvs` on a file takes its pairs. -/
theorem Holds.readLoop (holds : Holds file records) (enough : (pairsOf records).length < fuel)
    (room : acc.length + (pairsOf records).length ≤ length) : readLoop length fuel file acc = .ok (acc ++ pairsOf records) := by
  induction records using pairsOf.induct generalizing file fuel acc with
  | case1 key value rest ih =>
    obtain ⟨fuel,rfl⟩ : ∃ k, fuel = k + 1 := ⟨fuel - 1,by omega⟩
    rw [pairsOf,List.length_cons] at enough room
    cases holds with
    | next first more =>
      cases more with
      | next second more =>
        rw [Worker.readLoop,first]
        dsimp only
        rw [second]
        dsimp only
        rw [if_pos (by omega),ih more (by omega) (by rw [List.length_append,List.length_singleton]; omega),pairsOf,
          List.append_assoc,List.singleton_append]
  | case2 records short =>
    obtain ⟨fuel,rfl⟩ : ∃ k, fuel = k + 1 := ⟨fuel - 1,by omega⟩
    cases holds with
    | stop last =>
      rw [Worker.readLoop,last]
      simp [pairsOf]
    | next first more =>
      cases more with
      | stop last =>
        rw [Worker.readLoop,first]
        dsimp only
        rw [last]
        simp [pairsOf]
      | next second more => exact absurd rfl (short _ _ _)

theorem readMapKvs_holds (holds : List.Forall₂ Holds files records) (acc : List KeyValue)
    (room : acc.length + (records.flatMap pairsOf).length ≤ length) :
    files.foldlM (fun kvs reader => readLoop length (reader.length + 1) reader kvs) acc = .ok (acc ++ records.flatMap pairsOf) := by
  induction holds generalizing acc with
  | nil =>
    rw [List.flatMap_nil,List.append_nil]
    rfl
  | @cons file bufs files records first _ ih =>
    rw [List.flatMap_cons,List.length_append] at room
    have few := first.length_le
    have half := pairsOf_length bufs
    unfold lengthSize at few
    rw [List.foldlM_cons,go (first.readLoop (by omega) (by omega)),ih _ (by rw [List.length_append]; omega),List.flatMap_cons,
      List.append_assoc]

theorem entries_holds (holds : List.Forall₂ Holds files records) (acc : Nat) :
    files.foldlM (fun entries reader => do return entries + (← ldrCount reader)) acc =
      (.ok (acc + records.flatten.length) : Except Fault Nat) := by
  induction holds generalizing acc with
  | nil => rfl
  | @cons file bufs files records first _ ih =>
    rw [List.foldlM_cons,first.ldrCount]
    change List.foldlM _ (acc + bufs.length) _ = _
    rw [ih,List.flatten_cons,List.length_append,Nat.add_assoc]

/-- There are no more pairs in the files than half of all records. -/
theorem pairsOf_room (records : List (List Bytes)) : (records.flatMap pairsOf).length ≤ records.flatten.length / 2 := by
  induction records with
  | nil => exact Nat.zero_le _
  | cons bufs records ih =>
    rw [List.flatMap_cons,List.flatten_cons,List.length_append,List.length_append,pairsOf_length]
    omega

theorem holds_frames {files : List (List KeyValue)} (short : ∀ kvs ∈ files, ∀ kv ∈ kvs, KeyValue.Short kv) :
    List.Forall₂ Holds (files.map fun kvs => frames (bufs kvs)) (files.map bufs) := by
  rw [List.forall₂_map_left_iff,List.forall₂_map_right_iff,List.forall₂_same]
  intro kvs inside
  exact Holds.frames (bufs_short (short kvs inside))

theorem flatMap_pairsOf (files : List (List KeyValue)) : (files.map bufs).flatMap pairsOf = files.flatten := by
  rw [List.flatMap_map,List.flatten_eq_flatMap]
  congr 1
  funext kvs
  exact pairsOf_bufs kvs

theorem readMapKvs_frames {files : List (List KeyValue)} (short : ∀ kvs ∈ files, ∀ kv ∈ kvs, KeyValue.Short kv) (acc : List KeyValue)
    (room : acc.length + files.flatten.length ≤ length) :
    (files.map fun kvs => frames (bufs kvs)).foldlM (fun kvs reader => readLoop length (reader.length + 1) reader kvs) acc =
      .ok (acc ++ files.flatten) := by
  rw [← flatMap_pairsOf] at room ⊢
  exact readMapKvs_holds (holds_frames short) acc room

theorem flatten_bufs (files : List (List KeyValue)) : (files.map bufs).flatten.length = 2 * files.flatten.length := by
  induction files with
  | nil => rfl
  | cons kvs files ih =>
    rw [List.map_cons,List.flatten_cons,List.length_append,ih,bufs_length,List.flatten_cons,List.length_append,Nat.mul_add]

theorem entries_frames {files : List (List KeyValue)} (short : ∀ kvs ∈ files, ∀ kv ∈ kvs, KeyValue.Short kv) (acc : Nat) :
    (files.map fun kvs => frames (bufs kvs)).foldlM (fun entries reader => do return entries + (← ldrCount reader)) acc =
      (.ok (acc + 2 * files.flatten.length) : Except Fault Nat) := by
  rw [entries_holds (holds_frames short),flatten_bufs]

def sameKey (a b : KeyValue) : Bool := byKey a b == 0

/-- One round of the loop of `reduce_kvs`; `done` is behind it, `run` the run in progress. -/
theorem reduceLoop_round (app : App) (aux : Bytes) (started : ∃ t, run = a :: t) (done : List KeyValue) (writer : Bytes) :
    reduceLoop app aux (done ++ (run ++ rest)) (fuel + 1) done.length (done.length + run.length) writer =
      if rest.head?.any (sameKey a) then
        reduceLoop app aux (done ++ (run ++ rest)) fuel done.length (done.length + run.length + 1) writer
      else (do
        let kv ← reduceGroup app aux run
        reduceLoop app aux (done ++ (run ++ rest)) fuel (done.length + run.length) (done.length + run.length + 1)
          (ldwWrite (ldwWrite writer kv.key) kv.value)) := by
  have first : (done ++ (run ++ rest))[done.length]? = some a := by
    obtain ⟨t,rfl⟩ := started
    simp
  have second : (done ++ (run ++ rest))[done.length + run.length]? = rest.head? := by
    cases rest <;> simp
  have slice : ((done ++ (run ++ rest)).drop done.length).take (done.length + run.length - done.length) = run := by
    simp
  have longer : done.length + run.length > done.length := by
    obtain ⟨t,rfl⟩ := started
    simp
  rw [reduceLoop,first,second]
  dsimp only
  rw [slice]
  cases rest with
  | nil => rw [List.head?_nil,if_pos longer,Option.any_none]
  | cons b rest => rw [List.head?_cons,if_pos longer,Option.any_some,sameKey]

/-- The loop of `reduce_kvs` reduces one run after the other. -/
theorem reduceLoop_runs (app : App) (aux : Bytes) (started : ∃ t, run = a :: t) (done : List KeyValue) (writer : List KeyValue)
    (enough : rest.length + 2 ≤ fuel) :
    reduceLoop app aux (done ++ (run ++ rest)) fuel done.length (done.length + run.length) (frames (bufs writer)) =
      (do
        let outs ← (runsFrom sameKey a run rest).mapM (reduceGroup app aux)
        return frames (bufs (writer ++ outs))) := by
  induction rest generalizing a run done writer fuel with
  | nil =>
    obtain ⟨fuel,rfl⟩ : ∃ f, fuel = f + 2 := ⟨fuel - 2,by simp at enough; omega⟩
    rw [reduceLoop_round app aux started,List.head?_nil,Option.any_none,if_neg Bool.false_ne_true,runsFrom,List.mapM_cons]
    cases reduceGroup app aux run with
    | error fault => rfl
    | ok kv =>
      have ended : (done ++ (run ++ []))[done.length + run.length]? = none := by simp
      change reduceLoop app aux _ (fuel + 1) _ _ (ldwWrite (ldwWrite _ kv.key) kv.value) = _
      rw [reduceLoop,ended,ldwWrite_pair]
      rfl
  | cons b rest ih =>
    rw [List.length_cons] at enough
    obtain ⟨fuel,rfl⟩ : ∃ f, fuel = f + 1 := ⟨fuel - 1,by omega⟩
    rw [reduceLoop_round app aux started,runsFrom,List.head?_cons,Option.any_some]
    by_cases same : sameKey a b = true
    · rw [if_pos same,if_pos same]
      have started' : ∃ t, run ++ [b] = a :: t := by
        obtain ⟨t,rfl⟩ := started
        exact ⟨_,rfl⟩
      have next := ih started' done writer (show rest.length + 2 ≤ fuel by omega)
      rw [List.append_assoc,List.singleton_append,List.length_append,List.length_singleton,← Nat.add_assoc] at next
      exact next
    · rw [if_neg same,if_neg same,List.mapM_cons]
      cases reduceGroup app aux run with
      | error fault => rfl
      | ok kv =>
        have next := ih (show ∃ t, [b] = b :: t from ⟨[],rfl⟩) (done ++ run) (writer ++ [kv]) (show rest.length + 2 ≤ fuel by omega)
        rw [List.length_append,List.length_singleton,List.append_assoc,List.singleton_append] at next
        change reduceLoop app aux _ fuel _ _ (ldwWrite (ldwWrite _ kv.key) kv.value) = _
        rw [ldwWrite_pair,next]
        cases (runsFrom sameKey b [b] rest).mapM (reduceGroup app aux) with
        | error fault => rfl
        | ok outs => simp [bind,Except.bind,pure,Except.pure]

theorem reduceKvs_runs (qsort : Qsort) (app : App) (aux : Bytes)
    (kvs : List KeyValue) :
    reduceKvs qsort app aux kvs = (do
      let outs ← (runs sameKey (qsort byKey kvs)).mapM (reduceGroup app aux)
      return frames (bufs outs)) := by
  unfold reduceKvs
  dsimp only
  cases qsort byKey kvs with
  | nil => rfl
  | cons a rest =>
    have started : ∃ t, [a] = a :: t := ⟨[],rfl⟩
    exact reduceLoop_runs app aux started [] [] (Nat.le_succ _)

/-- A reduce task on any files: it counts all records, and takes the pairs file by file. -/
theorem handleReduceTask_holds (sorts : Sorts qsort) (app : App) (aux : Bytes) (holds : List.Forall₂ Holds files records) :
    handleReduceTask qsort app aux files =
      if records.flatten.length % 2 = 1 then .error .failed else (do
        let outs ← (runs sameKey (qsort byKey (records.flatMap pairsOf))).mapM (reduceGroup app aux)
        return frames (bufs outs)) := by
  have room := pairsOf_room records
  unfold handleReduceTask
  rw [go (entries_holds holds 0),Nat.zero_add]
  by_cases odd : records.flatten.length % 2 = 1
  · rw [if_pos odd,if_pos odd]
    rfl
  · rw [if_neg odd,if_neg odd]
    split
    · have read : readMapKvs files (records.flatten.length / 2) = .ok ([] ++ records.flatMap pairsOf) :=
        readMapKvs_holds holds [] (by rw [List.length_nil]; omega)
      rw [go read]
      exact reduceKvs_runs qsort app aux _
    · have none_ : records.flatMap pairsOf = [] := List.eq_nil_of_length_eq_zero (by omega)
      rw [none_,List.perm_nil.mp (sorts.perm byKey [])]
      rfl

/-- A reduce task on files written by map tasks. -/
theorem handleReduceTask_runs {files : List (List KeyValue)} (sorts : Sorts qsort) (app : App) (aux : Bytes)
    (short : ∀ kvs ∈ files, ∀ kv ∈ kvs, KeyValue.Short kv) :
    handleReduceTask qsort app aux (files.map fun kvs => frames (bufs kvs)) = (do
      let outs ← (runs sameKey (qsort byKey files.flatten)).mapM (reduceGroup app aux)
      return frames (bufs outs)) := by
  rw [handleReduceTask_holds sorts app aux (holds_frames short),flatten_bufs,if_neg (by omega),flatMap_pairsOf]

end OsProj.Worker
