import Mathlib.Data.List.Perm.Lattice
import OsProj.RustWorker

/-! A whole job of hw-map-reduce-rs. The coordinator gives each map task to some worker and,
when all are done, each reduce task with the workers that hold the buffers, in any order. -/
namespace OsProj.RustWorker

open OsProj.ByteList
open OsProj.Faulting
open OsProj.Grouping

/-- The inputs are file names with the contents of the files. -/
structure Job where
  app : App
  inputs : List KeyValue
  nReduce : Nat
  aux : Bytes
  id : Nat

structure Cluster where
  workers : Nat → WorkerState
  out : Nat → Option Bytes

/-- A task, with the worker of a map task or what a reduce task is told about the map tasks. -/
inductive Task where
  | map (worker task : Nat)
  | reduce (task : Nat) (mapTasks : List (Nat × Nat))
  deriving DecidableEq, Repr

section
variable (fnv : Bytes → UInt64) (sort : List KeyValue → List KeyValue) (job : Job)

def runTask (cluster : Cluster) : Task → Except Fault Cluster
  | .map worker task =>
    match job.inputs[task]? with
    | none => .error .failed
    | some file => do
      let state ← map fnv job.app job.id task job.nReduce file job.aux (cluster.workers worker)
      return { cluster with workers := Function.update cluster.workers worker state }
  | .reduce task mapTasks => do
    match ← reduce sort job.app cluster.workers job.id task mapTasks job.aux with
    -- The task is reported as failed and no file is written.
    | none => return cluster
    | some buf => return { cluster with out := Function.update cluster.out task (some buf) }

def runJob (tasks : List Task) (cluster : Cluster) : Except Fault Cluster := tasks.foldlM (runTask fnv sort job) cluster

def outputs (cluster : Cluster) : Except Fault (List KeyValue) :=
  (List.range job.nReduce).foldlM (fun kvs r =>
    match cluster.out r with
    | none => .error .failed
    | some buf => readPairs buf kvs) []

end

/-- Each map task is given to a worker once, and each reduce task once with the places of all
map tasks. -/
structure Plan (job : Job) where
  place : Nat → Nat
  maps : List Nat
  reduces : List Nat
  told : Nat → List (Nat × Nat)
  allMaps : maps.Perm (List.range job.inputs.length)
  allReduces : reduces.Perm (List.range job.nReduce)
  allTold : ∀ r, (told r).Perm ((List.range job.inputs.length).map fun i => (place i,i))

def Plan.tasks (plan : Plan job) : List Task :=
  plan.maps.map (fun i => .map (plan.place i) i) ++ plan.reduces.map fun r => .reduce r (plan.told r)

section
variable {fnv : Bytes → UInt64} {sort : List KeyValue → List KeyValue} {job : Job} {pairs : Nat → List KeyValue}

def emitted (job : Job) (pairs : Nat → List KeyValue) : List KeyValue := (List.range job.inputs.length).flatMap pairs

/-- The map function succeeds on every input and its packets are short enough. -/
structure Maps (job : Job) (pairs : Nat → List KeyValue) : Prop where
  succeeds : ∀ i file, job.inputs[i]? = some file → job.app.mapFn file job.aux = .ok ((pairs i).map .ok)
  fits : ∀ kv ∈ emitted job pairs, kv.Fits

def bucket (fnv : Bytes → UInt64) (n : Nat) (kv : KeyValue) : Nat := (fnv kv.key &&& 0x7fffffff).toNat % n

theorem ihash_run (fnv : Bytes → UInt64) (key : Bytes) : ihash fnv key = .ok (fnv key &&& 0x7fffffff).toNat := by
  refine if_pos ?_
  rw [UInt64.toNat_and]
  exact Nat.lt_of_le_of_lt Nat.and_le_right (by decide)

def Holds (n : Nat) (writers : List Bytes) (kvs : Nat → List KeyValue) : Prop :=
  writers.length = n ∧ ∀ r < n, writers[r]? = some (frames (packets (kvs r)))

theorem sendItem_run (fnv : Bytes → UInt64) (positive : 1 ≤ n) (fits : kv.Fits) (holds : Holds n writers kvs) :
    ∃ writers', sendItem fnv n writers (.ok kv) = .ok writers' ∧
      Holds n writers' fun r => kvs r ++ [kv].filter fun kv => bucket fnv n kv = r := by
  have inside : bucket fnv n kv < n := Nat.mod_lt _ positive
  refine ⟨writers.set (bucket fnv n kv) (frames (packets (kvs (bucket fnv n kv) ++ [kv]))),?_,?_,?_⟩
  · have hashed := ihash_run fnv kv.key
    rw [sendItem,go rfl,go hashed,if_neg (by omega),sendTo]
    change (match writers[bucket fnv n kv]? with
      | none => Except.error Fault.panic
      | some writer => do
        let writer ← send writer kv.key
        let writer ← send writer kv.value
        return writers.set (bucket fnv n kv) writer) = _
    rw [holds.2 _ inside]
    dsimp only
    rw [send_pair fits]
    rfl
  · rw [List.length_set]
    exact holds.1
  · intro r small
    by_cases same : bucket fnv n kv = r
    · subst same
      rw [List.getElem?_set_self (by rw [holds.1]; exact inside)]
      simp
    · rw [List.getElem?_set_ne same,holds.2 r small]
      simp [same]

theorem sendItems_run {kvs : List KeyValue} (fnv : Bytes → UInt64) (positive : 1 ≤ n) (fits : ∀ kv ∈ kvs, KeyValue.Fits kv) (holds : Holds n writers old) :
    ∃ writers', (kvs.map Except.ok).foldlM (sendItem fnv n) writers = .ok writers' ∧
      Holds n writers' fun r => old r ++ kvs.filter fun kv => bucket fnv n kv = r := by
  induction kvs generalizing writers old with
  | nil => exact ⟨writers,rfl,by simpa using holds⟩
  | cons kv kvs ih =>
    obtain ⟨writers₁,sent,holds₁⟩ := sendItem_run fnv positive (fits kv (by simp)) holds
    obtain ⟨writers₂,rest,holds₂⟩ := ih (fun kv inside => fits kv (by simp [inside])) holds₁
    refine ⟨writers₂,?_,?_⟩
    · rw [List.map_cons,List.foldlM_cons,go sent,rest]
    · have whole : (fun r => (old r ++ [kv].filter fun kv => bucket fnv n kv = r) ++ kvs.filter fun kv => bucket fnv n kv = r) =
          fun r => old r ++ (kv :: kvs).filter fun kv => bucket fnv n kv = r := by
        funext r
        rw [List.append_assoc,← List.filter_append,List.singleton_append]
      rwa [whole] at holds₂

def Stored (fnv : Bytes → UInt64) (job : Job) (place : Nat → Nat) (pairs : Nat → List KeyValue) (cluster : Cluster) (done : List Nat) : Prop :=
  ∀ i ∈ done, ∀ r < job.nReduce, (cluster.workers (place i)).getData job.id i r =
    some (frames (packets ((pairs i).filter fun kv => bucket fnv job.nReduce kv = r)))

theorem map_stored (maps : Maps job pairs) (positive : 1 ≤ job.nReduce) (inside : i < job.inputs.length)
    (stored : Stored fnv job place pairs cluster done) :
    ∃ cluster', runTask fnv sort job cluster (.map (place i) i) = .ok cluster' ∧ Stored fnv job place pairs cluster' (i :: done) := by
  have file := List.getElem?_eq_getElem inside
  have mapped := maps.succeeds i _ file
  have fits : ∀ kv ∈ pairs i, kv.Fits := fun kv member => maps.fits kv (List.mem_flatMap.mpr ⟨i,List.mem_range.mpr inside,member⟩)
  have empty : Holds job.nReduce (List.replicate job.nReduce []) fun _ => [] :=
    ⟨List.length_replicate,fun r small => by simp [small,packets,frames]⟩
  obtain ⟨writers,sent,length,holds⟩ := sendItems_run fnv positive fits empty
  let state : WorkerState := ⟨Function.update (cluster.workers (place i)).data job.id fun entry =>
    if entry.1 = i then writers[entry.2]? <|> (cluster.workers (place i)).data job.id entry
    else (cluster.workers (place i)).data job.id entry⟩
  refine ⟨{ cluster with workers := Function.update cluster.workers (place i) state },?_,?_⟩
  · rw [runTask,file]
    dsimp only
    rw [map,go mapped,go sent]
    rfl
  · intro j member r small
    change (Function.update cluster.workers (place i) state (place j)).data job.id (j,r) = _
    by_cases there : place j = place i
    · rw [there,Function.update_self]
      change Function.update (cluster.workers (place i)).data job.id _ job.id (j,r) = _
      rw [Function.update_self]
      dsimp only
      by_cases same : j = i
      · subst same
        rw [if_pos rfl,holds r small]
        simp
      · rw [if_neg same,← there]
        exact stored j ((List.mem_cons.mp member).resolve_left same) r small
    · have same : j ≠ i := fun equal => there (congrArg place equal)
      rw [Function.update_of_ne there]
      exact stored j ((List.mem_cons.mp member).resolve_left same) r small

theorem maps_stored (maps : Maps job pairs) (positive : 1 ≤ job.nReduce) (inside : ∀ i ∈ tasks, i < job.inputs.length)
    (stored : Stored fnv job place pairs cluster done) :
    ∃ cluster', runJob fnv sort job (tasks.map fun i => .map (place i) i) cluster = .ok cluster' ∧
      Stored fnv job place pairs cluster' (tasks ++ done) := by
  induction tasks generalizing cluster done with
  | nil => exact ⟨cluster,rfl,stored⟩
  | cons i tasks ih =>
    obtain ⟨cluster₁,ran,stored₁⟩ := map_stored maps positive (inside i (by simp)) stored
    obtain ⟨cluster₂,ran₂,stored₂⟩ := ih (fun j member => inside j (by simp [member])) stored₁
    refine ⟨cluster₂,?_,?_⟩
    · rw [runJob,List.map_cons,List.foldlM_cons,go ran]
      exact ran₂
    · intro j member
      exact stored₂ j (by simp only [List.mem_append,List.mem_cons] at member ⊢; tauto)

def gathered (fnv : Bytes → UInt64) (n : Nat) (pairs : Nat → List KeyValue) (mapTasks : List (Nat × Nat)) (r : Nat) : List KeyValue :=
  mapTasks.flatMap fun t => (pairs t.2).filter fun kv => bucket fnv n kv = r

theorem gathered_perm {place : Nat → Nat} (told : mapTasks.Perm ((List.range job.inputs.length).map fun i => (place i,i))) (r : Nat) :
    (gathered fnv job.nReduce pairs mapTasks r).Perm ((emitted job pairs).filter fun kv => bucket fnv job.nReduce kv = r) := by
  have all := told.flatMap_right fun t => (pairs t.2).filter fun kv => bucket fnv job.nReduce kv = r
  rw [List.flatMap_map] at all
  rw [emitted,List.filter_flatMap]
  exact all

theorem readAll_run (maps : Maps job pairs) (stored : Stored fnv job place pairs cluster (List.range job.inputs.length))
    (known : ∀ t ∈ mapTasks, t.1 = place t.2 ∧ t.2 < job.inputs.length) (small : r < job.nReduce) (old : List KeyValue) :
    readAll cluster.workers job.id r mapTasks old = .ok (some (old ++ gathered fnv job.nReduce pairs mapTasks r)) := by
  induction mapTasks generalizing old with
  | nil =>
    rw [gathered,List.flatMap_nil,List.append_nil]
    rfl
  | cons t mapTasks ih =>
    obtain ⟨worker,i⟩ := t
    obtain ⟨placed,inside⟩ := known (worker,i) (by simp)
    dsimp only at placed inside
    subst placed
    have fits : ∀ kv ∈ (pairs i).filter fun kv => bucket fnv job.nReduce kv = r, kv.Fits := fun kv member =>
      maps.fits kv (List.mem_flatMap.mpr ⟨i,List.mem_range.mpr inside,List.mem_of_mem_filter member⟩)
    rw [readAll,stored i (List.mem_range.mpr inside) r small]
    dsimp only
    rw [go (readPairs_frames fits old),ih fun t member => known t (by simp [member])]
    rw [gathered,gathered,List.flatMap_cons,List.append_assoc]

def ReducesTo (app : App) (aux : Bytes) (group : List KeyValue) (kv : KeyValue) : Prop :=
  ∃ a rest, group = a :: rest ∧ kv.key = a.key ∧ app.reduceFn a.key (group.map KeyValue.value) aux = .ok kv.value ∧ kv.Fits

variable {result : List KeyValue → KeyValue}

theorem reduceGroups_run {groups : List (List KeyValue)} (reduced : ∀ g ∈ groups, ReducesTo app aux g (result g)) (outs : List KeyValue) :
    groups.foldlM (reduceGroup app aux) (frames (packets outs)) = .ok (frames (packets (outs ++ groups.map result))) := by
  induction groups generalizing outs with
  | nil =>
    rw [List.map_nil,List.append_nil]
    rfl
  | cons g groups ih =>
    obtain ⟨a,rest,rfl,key,made,fits⟩ := reduced g (by simp)
    have one : reduceGroup app aux (frames (packets outs)) (a :: rest) = .ok (frames (packets (outs ++ [result (a :: rest)]))) := by
      rw [reduceGroup,go made,← key]
      have sent := send_pair fits outs (f := pure)
      simp only [bind_pure] at sent
      exact sent
    rw [List.foldlM_cons,go one,ih (fun g member => reduced g (by simp [member])),List.map_cons,List.append_assoc,List.singleton_append]

def taskGroups (fnv : Bytes → UInt64) (sort : List KeyValue → List KeyValue) (n : Nat) (pairs : Nat → List KeyValue)
    (told : Nat → List (Nat × Nat)) (r : Nat) : List (List KeyValue) :=
  runs sameKey (sort (gathered fnv n pairs (told r) r))

theorem reduce_run (maps : Maps job pairs) (plan : Plan job)
    (stored : Stored fnv job plan.place pairs cluster (List.range job.inputs.length)) (small : r < job.nReduce)
    (reduced : ∀ g ∈ taskGroups fnv sort job.nReduce pairs plan.told r, ReducesTo job.app job.aux g (result g)) :
    runTask fnv sort job cluster (.reduce r (plan.told r)) = .ok { cluster with
      out := Function.update cluster.out r (some (frames (packets ((taskGroups fnv sort job.nReduce pairs plan.told r).map result)))) } := by
  have known : ∀ t ∈ plan.told r, t.1 = plan.place t.2 ∧ t.2 < job.inputs.length := by
    intro t member
    obtain ⟨i,inside,rfl⟩ := List.mem_map.mp ((plan.allTold r).mem_iff.mp member)
    exact ⟨rfl,List.mem_range.mp inside⟩
  have read := readAll_run maps stored known small []
  have grouped := reduceGroups_run reduced []
  rw [List.nil_append] at read grouped
  have ran : reduce sort job.app cluster.workers job.id r (plan.told r) job.aux =
      .ok (some (frames (packets ((taskGroups fnv sort job.nReduce pairs plan.told r).map result)))) := by
    rw [reduce,go read]
    exact go grouped
  rw [runTask,go ran]
  rfl

def Reduced (out : Nat → Option Bytes) (groups : Nat → List (List KeyValue)) (result : List KeyValue → KeyValue) (done : List Nat) : Prop :=
  ∀ r ∈ done, out r = some (frames (packets ((groups r).map result)))

theorem reduces_run (maps : Maps job pairs) (plan : Plan job) (inside : ∀ r ∈ tasks, r < job.nReduce)
    (reduced : ∀ r < job.nReduce, ∀ g ∈ taskGroups fnv sort job.nReduce pairs plan.told r, ReducesTo job.app job.aux g (result g))
    (stored : Stored fnv job plan.place pairs cluster (List.range job.inputs.length))
    (finished : Reduced cluster.out (taskGroups fnv sort job.nReduce pairs plan.told) result done) :
    ∃ cluster', runJob fnv sort job (tasks.map fun r => .reduce r (plan.told r)) cluster = .ok cluster' ∧
      Reduced cluster'.out (taskGroups fnv sort job.nReduce pairs plan.told) result (tasks ++ done) := by
  induction tasks generalizing cluster done with
  | nil => exact ⟨cluster,rfl,finished⟩
  | cons r tasks ih =>
    have small := inside r (by simp)
    have ran := reduce_run maps plan stored small (reduced r small)
    have finished₁ : Reduced (Function.update cluster.out r
        (some (frames (packets ((taskGroups fnv sort job.nReduce pairs plan.told r).map result)))))
        (taskGroups fnv sort job.nReduce pairs plan.told) result (r :: done) := by
      intro s member
      by_cases same : s = r
      · subst same
        exact Function.update_self ..
      · rw [Function.update_of_ne same]
        exact finished s ((List.mem_cons.mp member).resolve_left same)
    let cluster₁ : Cluster := { cluster with
      out := Function.update cluster.out r (some (frames (packets ((taskGroups fnv sort job.nReduce pairs plan.told r).map result)))) }
    have stored₁ : Stored fnv job plan.place pairs cluster₁ (List.range job.inputs.length) := stored
    obtain ⟨cluster',ran',rest⟩ := ih (fun s member => inside s (by simp [member])) stored₁ finished₁
    refine ⟨cluster',?_,?_⟩
    · rw [runJob,List.map_cons,List.foldlM_cons,go ran]
      exact ran'
    · intro s member
      exact rest s (by simp only [List.mem_append,List.mem_cons] at member ⊢; tauto)

theorem outputs_run {groups : Nat → List (List KeyValue)} (fits : ∀ r < job.nReduce, ∀ g ∈ groups r, (result g).Fits)
    (finished : ∀ r < job.nReduce, cluster.out r = some (frames (packets ((groups r).map result)))) :
    outputs job cluster = .ok (((List.range job.nReduce).flatMap groups).map result) := by
  have loop : ∀ (l : List Nat) (old : List KeyValue), (∀ r ∈ l, r < job.nReduce) → l.foldlM (fun kvs r =>
      match cluster.out r with
      | none => .error .failed
      | some buf => readPairs buf kvs) old = Except.ok (old ++ (l.flatMap groups).map result) := by
    intro l
    induction l with
    | nil =>
      intro old _
      rw [List.flatMap_nil,List.map_nil,List.append_nil]
      rfl
    | cons r l ih =>
      intro old inside
      have small := inside r (by simp)
      have fitting : ∀ kv ∈ (groups r).map result, kv.Fits := by
        intro kv member
        obtain ⟨g,inG,rfl⟩ := List.mem_map.mp member
        exact fits r small g inG
      rw [List.foldlM_cons,finished r small]
      dsimp only
      rw [go (readPairs_frames fitting old),ih _ fun s member => inside s (by simp [member])]
      rw [List.flatMap_cons,List.map_append,List.append_assoc]
  have all := loop (List.range job.nReduce) [] fun r member => List.mem_range.mp member
  rwa [List.nil_append] at all

/-- The reduce function succeeds on the values of each key, in any order, and its output is
short enough. -/
def Reduces (job : Job) (pairs : Nat → List KeyValue) : Prop :=
  ∀ key values, key ∈ (emitted job pairs).map KeyValue.key →
    values.Perm (((emitted job pairs).filter fun kv => kv.key = key).map KeyValue.value) →
    ∃ out, job.app.reduceFn key values job.aux = .ok out ∧ out.length < u32Limit

/-- Each key once, with what the reduce function makes of all its values. -/
structure Correct (job : Job) (pairs : Nat → List KeyValue) (outs : List KeyValue) : Prop where
  once : (outs.map KeyValue.key).Nodup
  keys : ∀ key, key ∈ outs.map KeyValue.key ↔ key ∈ (emitted job pairs).map KeyValue.key
  values : ∀ kv ∈ outs, ∃ values, values.Perm (((emitted job pairs).filter fun x => x.key = kv.key).map KeyValue.value) ∧
    job.app.reduceFn kv.key values job.aux = .ok kv.value

def keyRank (kv : KeyValue) : List Nat := kv.key.map UInt8.toNat

theorem keyRank_key : keyRank a = keyRank b ↔ a.key = b.key :=
  (List.map_injective_iff.mpr fun _ _ => UInt8.toNat_inj.mp).eq_iff

theorem groups_shuffled (sorts : SortsByKey sort) (positive : 1 ≤ job.nReduce) (plan : Plan job) :
    Shuffled (bucket fnv job.nReduce) keyRank (emitted job pairs)
      ((List.range job.nReduce).flatMap (taskGroups fnv sort job.nReduce pairs plan.told)) := by
  apply parts_shuffled
  · intro kv _
    exact Nat.mod_lt _ positive
  · intro r _
    exact (sorts.perm _).trans (gathered_perm (plan.allTold r) r)
  · intro r _
    exact sorts.sorted _
  · intro a _ b _
    rw [sameKey,beq_iff_eq,keyRank_key]

/-- A group holds the pairs of one key. -/
theorem group_perm {groups : List (List KeyValue)} (shuffled : Shuffled (bucket fnv n) keyRank kvs groups) (member : g ∈ groups) :
    ∃ a rest, g = a :: rest ∧ a ∈ kvs ∧ g.Perm (kvs.filter fun kv => kv.key = a.key) := by
  obtain ⟨a,rest,rfl,here,p,grouping,perm⟩ := shuffled.headed g member
  refine ⟨a,rest,rfl,here,?_⟩
  have same : kvs.filter p = kvs.filter fun kv => kv.key = a.key := by
    refine List.filter_congr fun kv _ => ?_
    rw [Bool.eq_iff_iff,grouping,decide_eq_true_eq,keyRank_key]
    constructor
    · exact And.right
    · intro key
      rw [bucket,bucket,key]
      exact ⟨rfl,rfl⟩
  rwa [same] at perm

theorem groups_correct {groups : List (List KeyValue)} (shuffled : Shuffled (bucket fnv n) keyRank (emitted job pairs) groups)
    (reduced : ∀ g ∈ groups, ReducesTo job.app job.aux g (result g)) : Correct job pairs (groups.map result) := by
  have keyed : ∀ g ∈ groups, ∀ a ∈ g, (result g).key = a.key := by
    intro g member a inside
    obtain ⟨b,rest,rfl,_,perm⟩ := group_perm shuffled member
    obtain ⟨c,rest',shape,key,_⟩ := reduced _ member
    obtain ⟨rfl,_⟩ := List.cons.inj shape
    have same : a.key = b.key := by simpa using (List.mem_filter.mp (perm.mem_iff.mp inside)).2
    rw [key,same]
  refine ⟨?_,?_,?_⟩
  · rw [List.map_map]
    refine List.pairwise_map.mpr (shuffled.apart.imp_of_mem ?_)
    intro g h inG inH apart same
    obtain ⟨a,rest,rfl,_⟩ := group_perm shuffled inG
    obtain ⟨b,rest',rfl,_⟩ := group_perm shuffled inH
    have keys : a.key = b.key := by
      rw [← keyed _ inG a (by simp),← keyed _ inH b (by simp)]
      exact same
    apply apart a (by simp) b (by simp)
    rw [bucket,bucket,keyRank,keyRank,keys]
    exact ⟨rfl,rfl⟩
  · intro key
    rw [List.map_map,List.mem_map,List.mem_map]
    constructor
    · rintro ⟨g,member,rfl⟩
      obtain ⟨a,rest,rfl,here,_⟩ := group_perm shuffled member
      exact ⟨a,here,(keyed _ member a (by simp)).symm⟩
    · rintro ⟨a,here,rfl⟩
      obtain ⟨g,member,inside⟩ := shuffled.covered a here
      exact ⟨g,member,keyed g member a inside⟩
  · intro kv member
    obtain ⟨g,inG,rfl⟩ := List.mem_map.mp member
    obtain ⟨a,rest,rfl,_,perm⟩ := group_perm shuffled inG
    obtain ⟨b,rest',shape,key,made,_⟩ := reduced _ inG
    obtain ⟨rfl,_⟩ := List.cons.inj shape
    refine ⟨(a :: rest).map KeyValue.value,?_,?_⟩
    · rw [key]
      exact perm.map KeyValue.value
    · rw [key]
      exact made

/-- Every plan ends with each key once in the output files, with the reduce function applied
to all its values. -/
theorem worker_pipeline_correct (sorts : SortsByKey sort) (positive : 1 ≤ job.nReduce) (maps : Maps job pairs) (reduces : Reduces job pairs)
    (fnv : Bytes → UInt64) (plan : Plan job) (cluster : Cluster) :
    ∃ cluster' outs, runJob fnv sort job plan.tasks cluster = .ok cluster' ∧ outputs job cluster' = .ok outs ∧ Correct job pairs outs := by
  have shuffled : Shuffled (bucket fnv job.nReduce) keyRank (emitted job pairs)
    ((List.range job.nReduce).flatMap (taskGroups fnv sort job.nReduce pairs plan.told)) := groups_shuffled sorts positive plan
  have possible : ∀ g ∈ (List.range job.nReduce).flatMap (taskGroups fnv sort job.nReduce pairs plan.told),
      ∃ kv, ReducesTo job.app job.aux g kv := by
    intro g member
    obtain ⟨a,rest,rfl,here,perm⟩ := group_perm shuffled member
    obtain ⟨out,made,short⟩ := reduces a.key _ (List.mem_map_of_mem here) (perm.map KeyValue.value)
    exact ⟨⟨a.key,out⟩,a,rest,rfl,rfl,made,(maps.fits a here).1,short⟩
  have : Nonempty KeyValue := ⟨⟨[],[]⟩⟩
  choose! result reduced using possible
  have byTask : ∀ r < job.nReduce, ∀ g ∈ taskGroups fnv sort job.nReduce pairs plan.told r, ReducesTo job.app job.aux g (result g) :=
    fun r small g member => reduced g (List.mem_flatMap.mpr ⟨r,List.mem_range.mpr small,member⟩)
  obtain ⟨cluster₁,ran₁,stored⟩ : ∃ cluster', runJob fnv sort job (plan.maps.map fun i => .map (plan.place i) i) cluster = .ok cluster' ∧
      Stored fnv job plan.place pairs cluster' (plan.maps ++ []) :=
    maps_stored maps positive (fun i member => List.mem_range.mp (plan.allMaps.mem_iff.mp member)) (fun i none => by cases none)
  have stored' : Stored fnv job plan.place pairs cluster₁ (List.range job.inputs.length) := by
    intro i member
    exact stored i (by simpa using plan.allMaps.mem_iff.mpr member)
  have nothing : Reduced cluster₁.out (taskGroups fnv sort job.nReduce pairs plan.told) result [] := fun r none => by cases none
  obtain ⟨cluster₂,ran₂,finished⟩ := reduces_run maps plan (fun r member => List.mem_range.mp (plan.allReduces.mem_iff.mp member)) byTask
    stored' nothing
  refine ⟨cluster₂,_,?_,outputs_run ?_ fun r small => finished r ?_,groups_correct shuffled reduced⟩
  · rw [runJob,Plan.tasks,List.foldlM_append]
    exact (go ran₁).trans ran₂
  · intro r small g member
    obtain ⟨_,_,_,_,_,fits⟩ := byTask r small g member
    exact fits
  · simpa using plan.allReduces.mem_iff.mpr (List.mem_range.mpr small)

end

def fnv1a (key : Bytes) : UInt64 := key.foldl (fun hash b => (hash ^^^ b.toUInt64) * 0x100000001b3) 0

def mergeByKey (kvs : List KeyValue) : List KeyValue := kvs.mergeSort fun a b => decide (a.key.map UInt8.toNat ≤ b.key.map UInt8.toNat)

theorem mergeByKey_sorts : SortsByKey mergeByKey where
  perm kvs := List.mergeSort_perm kvs _
  sorted kvs := by
    have sorted : (mergeByKey kvs).Pairwise fun a b => decide (a.key.map UInt8.toNat ≤ b.key.map UInt8.toNat) = true :=
      List.pairwise_mergeSort (fun a b c => by simpa using le_trans) (fun a b => by simpa using le_total _ _) kvs
    exact sorted.imp fun before => of_decide_eq_true before

def byteCount : App where
  mapFn file _ := .ok (file.value.map fun b => .ok ⟨[b],[1]⟩)
  reduceFn _ values _ := .ok [UInt8.ofNat values.length]

def byteJob : Job := ⟨byteCount,[⟨[97],[5,6,5]⟩,⟨[98],[6,5]⟩],2,[],4⟩

def bytePairs (i : Nat) : List KeyValue := ((byteJob.inputs[i]?.map KeyValue.value).getD []).map fun b => ⟨[b],[1]⟩

def bytePlan : Plan byteJob where
  place i := 3 + 4 * i
  maps := [1,0]
  reduces := [0,1]
  told _ := [(7,1),(3,0)]
  allMaps := by decide
  allReduces := by decide
  allTold _ := by decide

theorem worker_pipeline_correct_bytes :
    ∃ cluster' outs, runJob fnv1a mergeByKey byteJob bytePlan.tasks ⟨fun _ => ⟨fun _ _ => none⟩,fun _ => none⟩ = .ok cluster' ∧
      outputs byteJob cluster' = .ok outs ∧ Correct byteJob bytePairs outs := by
  refine worker_pipeline_correct mergeByKey_sorts (by decide) ⟨?_,?_⟩ ?_ fnv1a bytePlan _
  · intro i file here
    rw [bytePairs,here]
    exact congrArg Except.ok List.map_map.symm
  · intro kv member
    obtain ⟨i,_,member⟩ := List.mem_flatMap.mp member
    obtain ⟨b,_,rfl⟩ := List.mem_map.mp member
    exact ⟨show 1 < u32Limit by decide,show 1 < u32Limit by decide⟩
  · intro key values _ _
    exact ⟨_,rfl,show 1 < u32Limit by decide⟩

end OsProj.RustWorker
