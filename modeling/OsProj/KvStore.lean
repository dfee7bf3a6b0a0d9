import Mathlib.Data.List.Induction
import Mathlib.Logic.Basic
import OsProj.ByteList
import OsProj.Faulting

/-! The key-value server of lab-rpc. A byte string comes as a pointer and a length, the hash table
of GLib maps byte strings by their contents, and a read behind the end of a block fails. -/
namespace OsProj.KvStore

open OsProj.ByteList
open OsProj.Faulting

inductive Fault
  /-- A byte outside of a block is read, or one behind a null pointer. -/
  | outside
  deriving DecidableEq, Repr

/-- A block, or `none` for a null pointer, and the length that goes with it. -/
structure Buf where
  buf_len : Nat
  buf_val : Option Bytes
  deriving DecidableEq, Repr

/-- How a byte string arrives; there is no block for the empty one. -/
def decode (bytes : Bytes) : Buf := ⟨bytes.length,if bytes = [] then none else some bytes⟩

structure PutRequest where
  key : Buf
  value : Buf
  deriving DecidableEq, Repr

/-! The libraries. -/

/-- A hash table made with `g_bytes_hash` and `g_bytes_equal`. -/
structure GHashTable (Table : Type) where
  new : Table
  insert : Table → Bytes → Bytes → Table
  lookup : Table → Bytes → Option Bytes
  lookup_new : ∀ key, lookup new key = none
  lookup_insert : ∀ table key value other, lookup (insert table key value) other =
    if other = key then some value else lookup table other

def g_bytes_new (data : Option Bytes) (size : Nat) : Except Fault Bytes :=
  if size ≤ (data.getD []).length then .ok ((data.getD []).take size) else .error .outside

def g_bytes_get_data (bytes : Bytes) : Option Bytes × Nat := (if bytes = [] then none else some bytes,bytes.length)

def strdup (s : Option Bytes) : Except Fault Bytes :=
  match s with
  | none => .error .outside
  | some block => if 0 ∈ block then .ok (block.takeWhile (· != 0) ++ [0]) else .error .outside

/-! The server. -/

section
variable {Table : Type} (glib : GHashTable Table)

def put_1_svc (ht : Table) (argp : PutRequest) : Except Fault (Table × PutRequest) := do
  let key ← g_bytes_new argp.key.buf_val argp.key.buf_len
  let value ← g_bytes_new argp.value.buf_val argp.value.buf_len
  let ht := glib.insert ht key value
  let key_val ← strdup argp.key.buf_val
  let value_val ← strdup argp.value.buf_val
  return (ht,⟨⟨argp.key.buf_len,some key_val⟩,⟨argp.value.buf_len,some value_val⟩⟩)

def get_1_svc (ht : Table) (argp : Buf) : Except Fault Buf := do
  let key ← g_bytes_new argp.buf_val argp.buf_len
  match glib.lookup ht key with
  | some value =>
    let (data,len) := g_bytes_get_data value
    return ⟨len,some (← strdup data)⟩
  | none => return ⟨0,none⟩

inductive Request
  | put (key value : Bytes)
  | get (key : Bytes)
  deriving DecidableEq, Repr

inductive Reply
  | void
  | buf (b : Buf)
  deriving DecidableEq, Repr

/-- One request; the replies so far are in order. -/
def serve (s : Table × List Reply) : Request → Except Fault (Table × List Reply)
  | .put key value => do
    let (ht,_) ← put_1_svc glib s.1 ⟨decode key,decode value⟩
    return (ht,s.2 ++ [.void])
  | .get key => do
    let result ← get_1_svc glib s.1 (decode key)
    return (s.1,s.2 ++ [.buf result])

def run (requests : List Request) : Except Fault (Table × List Reply) := requests.foldlM (serve glib) (glib.new,[])

end

/-! What a store is for. -/

def latest (requests : List Request) (key : Bytes) : Option Bytes :=
  requests.foldl (fun value request =>
    match request with
    | .put k v => if key = k then some v else value
    | .get _ => value) none

def Buf.Holds (b : Buf) (value : Bytes) : Prop :=
  b.buf_len = value.length ∧ (b.buf_val.getD []).take b.buf_len = value

/-- One reply to each request, and each GET gets the value of the latest earlier PUT, or nothing. -/
structure Answered (requests : List Request) (replies : List Reply) : Prop where
  length : replies.length = requests.length
  gets : ∀ earlier key later, requests = earlier ++ .get key :: later →
    ∃ b, replies[earlier.length]? = some (.buf b) ∧ b.Holds ((latest earlier key).getD [])

def Terminated (value : Bytes) : Prop := ∃ text, value = text ++ [0] ∧ 0 ∉ text

/-- The requests that the string functions of the server can deal with. -/
structure CStrings (requests : List Request) : Prop where
  puts : ∀ key value, .put key value ∈ requests → 0 ∈ key ∧ 0 ∈ value
  gets : ∀ earlier key later value, requests = earlier ++ .get key :: later → latest earlier key = some value → Terminated value

/-! The copies. -/

theorem g_bytes_new_decode (bytes : Bytes) : g_bytes_new (decode bytes).buf_val (decode bytes).buf_len = .ok bytes := by
  by_cases empty : bytes = []
  · subst empty
    rfl
  · simp [g_bytes_new,decode,empty]

/-- The string function stays inside a block that holds a zero byte, and only there. -/
theorem strdup_decode (bytes : Bytes) : strdup (decode bytes).buf_val =
    if 0 ∈ bytes then .ok (bytes.takeWhile (· != 0) ++ [0]) else .error .outside := by
  by_cases empty : bytes = []
  · subst empty
    rfl
  · simp [strdup,decode,empty]

theorem takeWhile_text {text : Bytes} (apart : 0 ∉ text) (rest : Bytes) :
    (text ++ 0 :: rest).takeWhile (· != 0) = text := by
  rw [List.takeWhile_append_of_pos]
  · simp
  · intro byte inside
    simp only [bne_iff_ne,ne_eq]
    rintro rfl
    exact apart inside

/-- The copy of a value is the whole value exactly for a terminated string. -/
theorem holds_strdup_iff {value : Bytes} (zero : 0 ∈ value) :
    Buf.Holds ⟨value.length,some (value.takeWhile (· != 0) ++ [0])⟩ value ↔ Terminated value := by
  obtain ⟨text,rest,rfl,apart⟩ := List.eq_append_cons_of_mem zero
  rw [takeWhile_text apart]
  constructor
  · rintro ⟨-,same⟩
    -- the copy is too short when anything follows the first zero
    have lengths := congrArg List.length same
    simp only [Option.getD_some,List.length_take,List.length_append,List.length_cons,List.length_nil] at lengths
    obtain rfl := List.length_eq_zero_iff.mp (show rest.length = 0 by omega)
    exact ⟨text,rfl,apart⟩
  · rintro ⟨other,same,alone⟩
    have texts : text = other := by
      rw [← takeWhile_text apart rest,same,takeWhile_text alone []]
    subst texts
    rw [List.append_cancel_left same]
    refine ⟨rfl,?_⟩
    rw [Option.getD_some,List.take_of_length_le (by simp)]

/-! One request. -/

section
variable {Table : Type} (glib : GHashTable Table)

theorem put_1_svc_decode (ht : Table) (key value : Bytes) :
    put_1_svc glib ht ⟨decode key,decode value⟩ = if 0 ∈ key ∧ 0 ∈ value then
      .ok (glib.insert ht key value,⟨⟨key.length,some (key.takeWhile (· != 0) ++ [0])⟩,
        ⟨value.length,some (value.takeWhile (· != 0) ++ [0])⟩⟩)
      else .error .outside := by
  unfold put_1_svc
  simp only [g_bytes_new_decode,strdup_decode]
  by_cases first : 0 ∈ key
  · by_cases second : 0 ∈ value
    · simp [first,second,bind,Except.bind,pure,Except.pure,decode]
    · simp [first,second,bind,Except.bind]
  · simp [first,bind,Except.bind]

theorem get_1_svc_decode (ht : Table) (key : Bytes) :
    get_1_svc glib ht (decode key) = match glib.lookup ht key with
      | some value => if 0 ∈ value then .ok ⟨value.length,some (value.takeWhile (· != 0) ++ [0])⟩ else .error .outside
      | none => .ok ⟨0,none⟩ := by
  unfold get_1_svc
  rw [go (g_bytes_new_decode key)]
  cases found : glib.lookup ht key with
  | none => rfl
  | some value =>
    have copied := strdup_decode value
    simp only [g_bytes_get_data]
    change (do let data ← strdup (decode value).buf_val; pure (Buf.mk value.length (some data))) = _
    rw [copied]
    by_cases zero : 0 ∈ value
    · simp [zero,bind,Except.bind,pure,Except.pure]
    · simp [zero,bind,Except.bind]

def Fits (earlier : List Request) : Request → Reply → Prop
  | .put _ _,_ => True
  | .get key,reply => ∃ b, reply = .buf b ∧ b.Holds ((latest earlier key).getD [])

def Fine (earlier : List Request) : Request → Prop
  | .put key value => 0 ∈ key ∧ 0 ∈ value
  | .get key => ∀ value, latest earlier key = some value → Terminated value

def Stores (ht : Table) (requests : List Request) : Prop := ∀ key, glib.lookup ht key = latest requests key

theorem latest_put (requests : List Request) (key value other : Bytes) :
    latest (requests ++ [.put key value]) other = if other = key then some value else latest requests other := by
  simp [latest]

theorem latest_get (requests : List Request) (key other : Bytes) :
    latest (requests ++ [.get key]) other = latest requests other := by
  simp [latest]

/-- A request that is fine gets the reply that fits, and the table stays the map of the requests. -/
theorem serve_fine {ht : Table} {requests : List Request} {request : Request} (stores : Stores glib ht requests)
    (fine : Fine requests request) (replies : List Reply) : ∃ ht' reply,
    serve glib (ht,replies) request = .ok (ht',replies ++ [reply]) ∧
      Stores glib ht' (requests ++ [request]) ∧ Fits requests request reply := by
  cases request with
  | put key value =>
    have done := put_1_svc_decode glib ht key value
    rw [if_pos (show 0 ∈ key ∧ 0 ∈ value from fine)] at done
    refine ⟨glib.insert ht key value,.void,?_,?_,trivial⟩
    · rw [serve,go done]
      rfl
    · intro other
      rw [glib.lookup_insert,latest_put,stores other]
  | get key =>
    have done := get_1_svc_decode glib ht key
    have kept : Stores glib ht (requests ++ [.get key]) := by
      intro other
      rw [latest_get,stores other]
    rw [stores key] at done
    cases found : latest requests key with
    | none =>
      rw [found] at done
      refine ⟨ht,.buf ⟨0,none⟩,?_,kept,_,rfl,?_⟩
      · rw [serve,go done]
        rfl
      · rw [found]
        exact ⟨rfl,rfl⟩
    | some value =>
      have terminated := fine value found
      have zero : 0 ∈ value := by
        obtain ⟨text,rfl,-⟩ := terminated
        simp
      rw [found] at done
      simp only [zero,if_true] at done
      refine ⟨ht,.buf ⟨value.length,some (value.takeWhile (· != 0) ++ [0])⟩,?_,kept,_,rfl,?_⟩
      · rw [serve,go done]
        rfl
      · rw [found]
        exact (holds_strdup_iff zero).mpr terminated

/-- A request that gets a reply that fits is fine. -/
theorem fine_of_fits {ht ht' : Table} {requests : List Request} {request : Request} {replies : List Reply} {reply : Reply}
    (stores : Stores glib ht requests) (went : serve glib (ht,replies) request = .ok (ht',replies ++ [reply]))
    (fits : Fits requests request reply) : Fine requests request := by
  cases request with
  | put key value =>
    by_contra bad
    have done := put_1_svc_decode glib ht key value
    rw [if_neg (show ¬(0 ∈ key ∧ 0 ∈ value) from bad)] at done
    simp [serve,done,bind,Except.bind] at went
  | get key =>
    intro value found
    have done := get_1_svc_decode glib ht key
    rw [stores key,found] at done
    by_cases zero : 0 ∈ value
    · simp only [zero,if_true] at done
      rw [serve,go done] at went
      obtain ⟨b,rfl,holds⟩ := fits
      rw [found] at holds
      have same : Buf.mk value.length (some (value.takeWhile (· != 0) ++ [0])) = b := by
        have both : ht = ht' ∧ Buf.mk value.length (some (value.takeWhile (· != 0) ++ [0])) = b := by
          simpa [pure,Except.pure] using went
        exact both.2
      rw [← same] at holds
      exact (holds_strdup_iff zero).mp holds
    · simp [serve,done,zero,bind,Except.bind] at went

/-- Every request that is served gets one reply. -/
theorem serve_reply {ht : Table} {replies : List Reply} {request : Request} {out : Table × List Reply}
    (went : serve glib (ht,replies) request = .ok out) : ∃ reply, out.2 = replies ++ [reply] := by
  cases request with
  | put key value =>
    rw [serve] at went
    cases done : put_1_svc glib ht ⟨decode key,decode value⟩ with
    | error fault => simp [done,bind,Except.bind] at went
    | ok result =>
      rw [go done] at went
      cases went
      exact ⟨.void,rfl⟩
  | get key =>
    rw [serve] at went
    cases done : get_1_svc glib ht (decode key) with
    | error fault => simp [done,bind,Except.bind] at went
    | ok result =>
      rw [go done] at went
      cases went
      exact ⟨.buf result,rfl⟩

/-! The whole run. -/

theorem run_append (requests : List Request) (request : Request) :
    run glib (requests ++ [request]) = run glib requests >>= fun s => serve glib s request := by
  simp [run,List.foldlM_append]

end

/-- A GET in a longer history is one of the history before, or the last request. -/
theorem append_eq_get_iff {requests earlier later : List Request} {request : Request} {key : Bytes} :
    requests ++ [request] = earlier ++ .get key :: later ↔
      (later = [] ∧ requests = earlier ∧ request = .get key) ∨
        ∃ later', later = later' ++ [request] ∧ requests = earlier ++ .get key :: later' := by
  constructor
  · intro same
    rcases List.eq_nil_or_concat later with rfl | ⟨later',last,rfl⟩
    · obtain ⟨front,back⟩ := List.append_inj' same rfl
      exact .inl ⟨rfl,front,by simpa using back⟩
    · have same' : requests ++ [request] = (earlier ++ .get key :: later') ++ [last] := by simpa using same
      obtain ⟨front,back⟩ := List.append_inj' same' rfl
      obtain rfl : request = last := by simpa using back
      exact .inr ⟨later',by simp,front⟩
  · rintro (⟨rfl,rfl,rfl⟩ | ⟨later',rfl,rfl⟩)
    · rfl
    · simp

theorem cStrings_append_iff {requests : List Request} {request : Request} :
    CStrings (requests ++ [request]) ↔ CStrings requests ∧ Fine requests request := by
  constructor
  · intro strings
    refine ⟨⟨?_,?_⟩,?_⟩
    · intro key value inside
      exact strings.puts key value (by simp [inside])
    · intro earlier key later value same found
      exact strings.gets earlier key (later ++ [request]) value (by simp [same]) found
    · cases request with
      | put key value => exact strings.puts key value (by simp)
      | get key =>
        intro value found
        exact strings.gets requests key [] value rfl found
  · rintro ⟨strings,fine⟩
    refine ⟨?_,?_⟩
    · intro key value inside
      rcases List.mem_append.mp inside with before | last
      · exact strings.puts key value before
      · obtain rfl : .put key value = request := by simpa using last
        exact fine
    · intro earlier key later value same found
      rcases append_eq_get_iff.mp same with ⟨-,rfl,rfl⟩ | ⟨later',-,before⟩
      · exact fine value found
      · exact strings.gets earlier key later' value before found

theorem answered_append_iff {requests : List Request} {request : Request} {replies : List Reply} {reply : Reply}
    (lengths : replies.length = requests.length) :
    Answered (requests ++ [request]) (replies ++ [reply]) ↔ Answered requests replies ∧ Fits requests request reply := by
  -- a reply before the last one is at its place in the shorter list
  have place {earlier later : List Request} {key : Bytes} (before : requests = earlier ++ .get key :: later) :
      (replies ++ [reply])[earlier.length]? = replies[earlier.length]? :=
    List.getElem?_append_left (by rw [lengths,before]; simp)
  have last : (replies ++ [reply])[requests.length]? = some reply := by
    rw [← lengths,List.getElem?_concat_length]
  constructor
  · intro answered
    refine ⟨⟨lengths,?_⟩,?_⟩
    · intro earlier key later same
      rw [← place same]
      exact answered.gets earlier key (later ++ [request]) (by simp [same])
    · cases request with
      | put key value => trivial
      | get key =>
        obtain ⟨b,here,holds⟩ := answered.gets requests key [] rfl
        exact ⟨b,Option.some.inj (last.symm.trans here),holds⟩
  · rintro ⟨answered,fits⟩
    refine ⟨by simp [lengths],?_⟩
    intro earlier key later same
    rcases append_eq_get_iff.mp same with ⟨-,rfl,rfl⟩ | ⟨later',-,before⟩
    · obtain ⟨b,rfl,holds⟩ := fits
      exact ⟨b,last,holds⟩
    · rw [place before]
      exact answered.gets earlier key later' before

section
variable {Table : Type} (glib : GHashTable Table)

/-- Requests with C strings are all answered. -/
theorem run_strings {requests : List Request} (strings : CStrings requests) : ∃ ht replies,
    run glib requests = .ok (ht,replies) ∧ Stores glib ht requests ∧ Answered requests replies := by
  induction requests using List.reverseRecOn with
  | nil =>
    refine ⟨glib.new,[],rfl,?_,rfl,?_⟩
    · intro key
      exact glib.lookup_new key
    · intro earlier key later same
      simp at same
  | append_singleton requests request ih =>
    obtain ⟨before,fine⟩ := cStrings_append_iff.mp strings
    obtain ⟨ht,replies,went,stores,answered⟩ := ih before
    obtain ⟨ht',reply,served,stores',fits⟩ := serve_fine glib stores fine replies
    refine ⟨ht',replies ++ [reply],?_,stores',(answered_append_iff answered.length).mpr ⟨answered,fits⟩⟩
    rw [run_append,go went]
    exact served

/-- Only requests with C strings are all answered. -/
theorem strings_of_run {requests : List Request} {ht : Table} {replies : List Reply}
    (went : run glib requests = .ok (ht,replies)) (answered : Answered requests replies) : CStrings requests := by
  induction requests using List.reverseRecOn generalizing ht replies with
  | nil => exact ⟨by simp,by simp⟩
  | append_singleton requests request ih =>
    rw [run_append] at went
    cases first : run glib requests with
    | error fault => simp [first,bind,Except.bind] at went
    | ok s =>
      rw [go first] at went
      obtain ⟨reply,rfl⟩ := serve_reply glib went
      have lengths : s.2.length = requests.length := by
        have all := answered.length
        simpa using all
      obtain ⟨earlier,fits⟩ := (answered_append_iff lengths).mp answered
      have strings := ih first earlier
      obtain ⟨ht',replies',again,stores,-⟩ := run_strings glib strings
      obtain rfl := Except.ok.inj (again.symm.trans first)
      exact cStrings_append_iff.mpr ⟨strings,fine_of_fits glib stores went fits⟩

/-- A run answers every request, and reads inside of the blocks it was given, exactly for C strings. -/
theorem store_answers_iff (requests : List Request) :
    (∃ ht replies, run glib requests = .ok (ht,replies) ∧ Answered requests replies) ↔ CStrings requests := by
  constructor
  · rintro ⟨ht,replies,went,answered⟩
    exact strings_of_run glib went answered
  · intro strings
    obtain ⟨ht,replies,went,-,answered⟩ := run_strings glib strings
    exact ⟨ht,replies,went,answered⟩

end

def assoc : GHashTable (Bytes → Option Bytes) where
  new := fun _ => none
  insert := fun table key value => Function.update table key (some value)
  lookup := fun table key => table key
  lookup_new := by
    intro key
    rfl
  lookup_insert := by
    intro table key value other
    exact Function.update_apply table key (some value) other

/-- The key and the value that the client of the lab sends, without their terminators. -/
theorem not_store_answers : ¬∀ requests, ∃ ht replies, run assoc requests = .ok (ht,replies) ∧ Answered requests replies := by
  intro all
  obtain ⟨ht,replies,went,-⟩ := all [.put [97] [98],.get [97]]
  cases went

end OsProj.KvStore
