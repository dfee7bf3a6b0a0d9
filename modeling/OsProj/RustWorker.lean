import Mathlib.Data.List.Lex
import Mathlib.Logic.Function.Basic
import OsProj.ByteList
import OsProj.Faulting
import OsProj.Grouping

/-! The worker of hw-map-reduce-rs for any application: packets behind a 32-bit length,
map tasks that keep one buffer of packets for each reduce task, and reduce tasks that read
these buffers, sort by key and call the application once for each group of equal keys. -/
namespace OsProj.RustWorker

open OsProj.ByteList
open OsProj.Faulting
open OsProj.Grouping

/-- A panic, or an `Err` that ends the job. -/
inductive Fault where
  | panic
  | failed
  | unending
  deriving DecidableEq, Repr

structure KeyValue where
  key : Bytes
  value : Bytes
  deriving DecidableEq, Repr

/-! Packets. -/

def u32Limit : Nat := 4294967296

def putU32 (n : Nat) : Bytes := (leBytes 4 n).reverse

def getU32 (bytes : Bytes) : Nat := leValue bytes.reverse

def send (buf b : Bytes) : Except Fault Bytes :=
  if b.length < u32Limit then .ok (buf ++ (putU32 b.length ++ b)) else .error .panic

/-- `LengthDelimitedReader::next`; `get_u32` and `split_to` panic when bytes are missing. -/
def next (buf : Bytes) : Except Fault (Option Bytes × Bytes) :=
  if buf = [] then .ok (none,[])
  else if buf.length < 4 then .error .panic
  else
    let len := getU32 (buf.take 4)
    let rest := buf.drop 4
    if rest.length < len then .error .panic else .ok (some (rest.take len),rest.drop len)

/-! Map tasks. -/

/-- The outer result is that of making the iterator, the inner ones come from its items. -/
structure App where
  mapFn : KeyValue → Bytes → Except Fault (List (Except Fault KeyValue))
  reduceFn : Bytes → List Bytes → Bytes → Except Fault Bytes

/-- The buffers of a worker, by job and then by map task and reduce task. -/
structure WorkerState where
  data : Nat → Nat × Nat → Option Bytes

/-- The hash of the `fnv` crate, cut to 31 bits. -/
def ihash (fnv : Bytes → UInt64) (key : Bytes) : Except Fault Nat :=
  let value := fnv key &&& 0x7fffffff
  if value.toNat < u32Limit then .ok value.toNat else .error .panic

/-- Both packets of a pair go to the writer of its reduce task. -/
def sendTo (writers : List Bytes) (reduceIdx : Nat) (kv : KeyValue) : Except Fault (List Bytes) :=
  match writers[reduceIdx]? with
  | none => .error .panic
  | some writer => do
    let writer ← send writer kv.key
    let writer ← send writer kv.value
    return writers.set reduceIdx writer

def sendItem (fnv : Bytes → UInt64) (nReduce : Nat) (writers : List Bytes) (item : Except Fault KeyValue) :
    Except Fault (List Bytes) := do
  let kv ← item
  let hash ← ihash fnv kv.key
  -- The remainder by zero panics.
  if nReduce = 0 then throw .panic
  sendTo writers (hash % nReduce) kv

/-- `Worker::map` on a file that could be read. -/
def map (fnv : Bytes → UInt64) (app : App) (jobId task nReduce : Nat) (file : KeyValue) (aux : Bytes) (state : WorkerState) :
    Except Fault WorkerState := do
  let items ← app.mapFn file aux
  let writers ← items.foldlM (sendItem fnv nReduce) (List.replicate nReduce [])
  return ⟨Function.update state.data jobId fun entry =>
    if entry.1 = task then writers[entry.2]? <|> state.data jobId entry else state.data jobId entry⟩

/-! Reduce tasks. -/

def WorkerState.getData (state : WorkerState) (jobId mapTask reduceTask : Nat) : Option Bytes := state.data jobId (mapTask,reduceTask)

def readLoop : Nat → Bytes → List KeyValue → Except Fault (List KeyValue)
  | 0,_,_ => .error .unending
  | fuel + 1,buf,intermediate => do
    match ← next buf with
    | (none,_) => return intermediate
    | (some key,rest) =>
      match ← next rest with
      | (none,_) => throw .failed
      | (some value,rest') => readLoop fuel rest' (intermediate ++ [⟨key,value⟩])

/-- Each packet takes bytes from the buffer, so the loop ends. -/
def readPairs (buf : Bytes) (intermediate : List KeyValue) : Except Fault (List KeyValue) := readLoop (buf.length + 1) buf intermediate

/-- The pairs of some map tasks, each at its worker; `none` when a worker does not have the buffer. -/
def readAll (workers : Nat → WorkerState) (jobId task : Nat) : List (Nat × Nat) → List KeyValue → Except Fault (Option (List KeyValue))
  | [],intermediate => .ok (some intermediate)
  | (worker,mapTask) :: mapTasks,intermediate =>
    match (workers worker).getData jobId mapTask task with
    | none => .ok none
    | some buf => do
      let intermediate ← readPairs buf intermediate
      readAll workers jobId task mapTasks intermediate

/-- `slice::sort_unstable_by_key` by the bytes of the key; pairs of equal keys come in any order. -/
structure SortsByKey (sort : List KeyValue → List KeyValue) : Prop where
  perm : ∀ kvs, (sort kvs).Perm kvs
  sorted : ∀ kvs, (sort kvs).Pairwise fun a b => a.key.map UInt8.toNat ≤ b.key.map UInt8.toNat

def sameKey (a b : KeyValue) : Bool := a.key == b.key

def reduceGroup (app : App) (aux : Bytes) (writer : Bytes) (group : List KeyValue) : Except Fault Bytes :=
  match group with
  | [] => .ok writer
  | kv :: _ => do
    let output ← app.reduceFn kv.key (group.map KeyValue.value) aux
    let writer ← send writer kv.key
    send writer output

/-- `Worker::reduce`: the contents of the output file, or `none` for an error that can be retried. -/
def reduce (sort : List KeyValue → List KeyValue) (app : App) (workers : Nat → WorkerState) (jobId task : Nat)
    (mapTasks : List (Nat × Nat)) (aux : Bytes) : Except Fault (Option Bytes) := do
  match ← readAll workers jobId task mapTasks [] with
  | none => return none
  | some intermediate =>
    let buf ← (runs sameKey (sort intermediate)).foldlM (reduceGroup app aux) []
    return some buf

/-! Buffers of packets. -/

def frames (packets : List Bytes) : Bytes := packets.flatMap fun b => putU32 b.length ++ b

def packets (kvs : List KeyValue) : List Bytes := kvs.flatMap fun kv => [kv.key,kv.value]

def KeyValue.Fits (kv : KeyValue) : Prop := kv.key.length < u32Limit ∧ kv.value.length < u32Limit

theorem putU32_length (n : Nat) : (putU32 n).length = 4 := by
  rw [putU32,List.length_reverse,leBytes_length]

theorem getU32_putU32 (fits : n < u32Limit) : getU32 (putU32 n) = n := by
  rw [getU32,putU32,List.reverse_reverse,leValue_leBytes_of_lt (show n < 256 ^ 4 from fits)]

theorem next_packet (fits : b.length < u32Limit) (rest : Bytes) : next (putU32 b.length ++ b ++ rest) = .ok (some b,rest) := by
  have header : (putU32 b.length ++ (b ++ rest)).take 4 = putU32 b.length := List.take_left' (putU32_length _)
  have body : (putU32 b.length ++ (b ++ rest)).drop 4 = b ++ rest := List.drop_left' (putU32_length _)
  have long : ¬(putU32 b.length ++ (b ++ rest)).length < 4 := by
    rw [List.length_append,putU32_length]
    omega
  have nonempty : putU32 b.length ++ (b ++ rest) ≠ [] := by
    intro empty
    rw [empty] at long
    exact long (by decide)
  unfold next
  rw [List.append_assoc,if_neg nonempty,if_neg long,header,body,getU32_putU32 fits]
  dsimp only
  rw [if_neg (by simp),List.take_left,List.drop_left]

theorem packets_append (kvs kvs' : List KeyValue) : packets (kvs ++ kvs') = packets kvs ++ packets kvs' := by
  simp [packets]

theorem frames_append (bs bs' : List Bytes) : frames (bs ++ bs') = frames bs ++ frames bs' := by
  simp [frames]

/-- A key and its value sent to a buffer of pairs. -/
theorem send_pair {kv : KeyValue} (fits : kv.Fits) (kvs : List KeyValue) {f : Bytes → Except Fault β} :
    (do
      let writer ← send (frames (packets kvs)) kv.key
      let writer ← send writer kv.value
      f writer) = f (frames (packets (kvs ++ [kv]))) := by
  rw [send,if_pos fits.1]
  change (send _ kv.value >>= f) = _
  rw [send,if_pos fits.2,packets_append,frames_append]
  change f _ = _
  simp [packets,frames]

theorem readLoop_frames (fits : ∀ kv ∈ kvs, KeyValue.Fits kv) (enough : kvs.length < fuel) (old : List KeyValue) :
    readLoop fuel (frames (packets kvs)) old = .ok (old ++ kvs) := by
  induction kvs generalizing fuel old with
  | nil =>
    cases fuel with
    | zero => contradiction
    | succ fuel =>
      rw [List.append_nil]
      rfl
  | cons kv kvs ih =>
    cases fuel with
    | zero => contradiction
    | succ fuel =>
      rw [List.length_cons] at enough
      obtain ⟨fitsKey,fitsValue⟩ := fits kv (by simp)
      have shape : frames (packets (kv :: kvs)) =
          putU32 kv.key.length ++ kv.key ++ (putU32 kv.value.length ++ kv.value ++ frames (packets kvs)) := by
        simp [frames,packets]
      have rest := ih (fun kv inside => fits kv (by simp [inside])) (show kvs.length < fuel by omega) (old ++ [kv])
      rw [readLoop,shape,go (next_packet fitsKey _)]
      dsimp only
      rw [go (next_packet fitsValue _)]
      dsimp only
      rw [rest,List.append_assoc,List.singleton_append]

theorem readPairs_frames (fits : ∀ kv ∈ kvs, KeyValue.Fits kv) (old : List KeyValue) :
    readPairs (frames (packets kvs)) old = .ok (old ++ kvs) := by
  have enough : kvs.length ≤ (frames (packets kvs)).length := by
    induction kvs with
    | nil => exact Nat.zero_le _
    | cons kv kvs ih =>
      have := ih fun kv inside => fits kv (by simp [inside])
      rw [show kv :: kvs = [kv] ++ kvs from rfl,packets_append,frames_append,List.length_append,List.length_append]
      have header : 1 ≤ (frames (packets [kv])).length := by
        simp [packets,frames,putU32_length]
        omega
      simp only [List.length_singleton]
      omega
  exact readLoop_frames fits (Nat.lt_succ_of_le enough) old

end OsProj.RustWorker
