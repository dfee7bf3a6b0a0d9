import Mathlib.Data.List.DropRight
import Mathlib.Data.Nat.Find
import OsProj.ByteList
import OsProj.MaximalRuns
import OsProj.Utf8

/-! The request parser of hw-http-rs. The bytes of a request come in chunks, one read takes what is
there of the next chunk, and the reads go on until one of them contains a carriage return. -/
namespace OsProj.Http

open OsProj.ByteList
open OsProj.MaximalRuns
open OsProj.Utf8

def REQUEST_BUF_SIZE : Nat := 1024

structure Request where
  method : List Char
  path : List Char
  deriving DecidableEq, Repr

inductive HttpError
  | utf8
  | InvalidRequest
  deriving DecidableEq, Repr

/-! Text. -/

/-- The characters with the Unicode property `White_Space`. -/
def is_whitespace (c : Char) : Bool :=
  9 ≤ c.toNat && c.toNat ≤ 13 || [32,0x85,0xa0,0x1680,0x2028,0x2029,0x202f,0x205f,0x3000].contains c.toNat ||
    0x2000 ≤ c.toNat && c.toNat ≤ 0x200a

def trim (s : List Char) : List Char := (s.dropWhile is_whitespace).rdropWhile is_whitespace

def split_whitespace (s : List Char) : List (List Char) := pieces (fun c => !is_whitespace c) 1 s

/-! Reading. -/

/-- At most `room` bytes of the next chunk, and what is still to come. At the end there are none. -/
def read (room : Nat) : List Bytes → Bytes × List Bytes
  | [] => ([],[])
  | chunk :: rest => (chunk.take room,if chunk.length ≤ room then rest else chunk.drop room :: rest)

theorem read_flatten (room : Nat) (s : List Bytes) : (read room s).1 ++ (read room s).2.flatten = s.flatten := by
  cases s with
  | nil => rfl
  | cons chunk rest =>
    rw [read]
    split
    · rename_i whole
      rw [List.take_of_length_le whole,List.flatten_cons]
    · rw [List.flatten_cons,List.flatten_cons,← List.append_assoc,List.take_append_drop]

/-- The loop over the reads; `buf` is the buffer up to `end`. -/
def fill (s : List Bytes) (buf : Bytes) : Bytes :=
  let got := read (REQUEST_BUF_SIZE - buf.length) s
  if 0 < got.1.length then
    if '\r'.toUInt8 ∈ got.1 then buf ++ got.1 else fill got.2 (buf ++ got.1)
  else buf
termination_by s.flatten.length
decreasing_by
  rename_i some_ _
  rw [← read_flatten (REQUEST_BUF_SIZE - buf.length) s,List.length_append]
  exact Nat.lt_add_of_pos_left some_

def from_utf8 (v : Bytes) : Except HttpError (List Char) :=
  match decode v with
  | some s => .ok s
  | none => .error .utf8

def parse_request (s : List Bytes) : Except HttpError Request := do
  let iter := split_whitespace (trim (← from_utf8 (fill s [])))
  match iter with
  | method :: path :: _ => return ⟨method,path⟩
  | _ => throw .InvalidRequest

/-! Words. -/

theorem split_whitespace_dropWhile (s : List Char) : split_whitespace (s.dropWhile is_whitespace) = split_whitespace s := by
  induction s with
  | nil => rfl
  | cons c s ih =>
    rw [List.dropWhile_cons]
    split
    · rename_i blank
      rw [ih]
      have blanks : ∀ d ∈ [c],(!is_whitespace d) = false := by simpa using blank
      exact (pieces_others_append blanks s).symm
    · rfl

theorem split_whitespace_rdropWhile (s : List Char) : split_whitespace (s.rdropWhile is_whitespace) = split_whitespace s := by
  induction s using List.reverseRecOn with
  | nil => rfl
  | append_singleton s c ih =>
    rw [List.rdropWhile_concat]
    split
    · rename_i blank
      rw [ih]
      exact (pieces_append_others s (by simpa using blank)).symm
    · rfl

theorem split_whitespace_trim (s : List Char) : split_whitespace (trim s) = split_whitespace s := by
  rw [trim,split_whitespace_rdropWhile,split_whitespace_dropWhile]

theorem split_whitespace_separated {c : Char} (blank : is_whitespace c = true) (front back : List Char) :
    split_whitespace (front ++ c :: back) = split_whitespace front ++ split_whitespace back :=
  pieces_separated (by simp [blank]) front back

/-! What the parser makes of the bytes it has read. -/

def requestOf : List (List Char) → Option Request
  | method :: path :: _ => some ⟨method,path⟩
  | _ => none

def parsed (buf : Bytes) : Option Request := (decode buf).bind fun text => requestOf (split_whitespace text)

theorem parse_request_toOption (s : List Bytes) : (parse_request s).toOption = parsed (fill s []) := by
  unfold parse_request from_utf8 parsed
  cases decode (fill s []) with
  | none => rfl
  | some text =>
    rw [Option.bind_some,← split_whitespace_trim]
    change Except.toOption (match split_whitespace (trim text) with | method :: path :: _ => _ | _ => _) = _
    match split_whitespace (trim text) with
    | [] => rfl
    | [word] => rfl
    | method :: path :: rest => rfl

/-- The words of the line and the words behind the carriage return. -/
theorem parsed_line (line tail : Bytes) : parsed (line ++ '\r'.toUInt8 :: tail) =
    (decode line).bind fun left => (decode tail).bind fun right => requestOf (split_whitespace left ++ split_whitespace right) := by
  rw [parsed,decode_separated (by decide)]
  cases decode line with
  | none => rfl
  | some left =>
    cases decode tail with
    | none => rfl
    | some right =>
      rw [Option.bind_some,Option.map_some,Option.bind_some,Option.bind_some,Option.bind_some,split_whitespace_separated (by decide)]

theorem requestOf_append (words : 2 ≤ front.length) (back : List (List Char)) : requestOf (front ++ back) = requestOf front := by
  match front,words with
  | method :: path :: rest,_ => rfl

theorem requestOf_isSome_iff : (requestOf words).isSome ↔ 2 ≤ words.length := by
  match words with
  | [] => simp [requestOf]
  | [word] => simp [requestOf]
  | method :: path :: rest => simp [requestOf]

theorem requestOf_eq_none_iff : requestOf words = none ↔ words.length < 2 := by
  rw [← Option.not_isSome_iff_eq_none,requestOf_isSome_iff,Nat.not_le]

/-! The buffer. -/

theorem read_length (room : Nat) (s : List Bytes) : (read room s).1.length ≤ room := by
  cases s with
  | nil => exact Nat.zero_le room
  | cons chunk rest => exact List.length_take_le room chunk

theorem read_some {s : List Bytes} (parts : [] ∉ s) (more : s.flatten ≠ []) (room_some : 0 < room) : 0 < (read room s).1.length := by
  cases s with
  | nil => exact absurd rfl more
  | cons chunk rest =>
    have here : 0 < chunk.length := by
      rw [List.length_pos_iff]
      rintro rfl
      exact parts (List.mem_cons_self)
    rw [read,List.length_take]
    exact Nat.lt_min.mpr ⟨room_some,here⟩

theorem read_parts {s : List Bytes} (parts : [] ∉ s) (room : Nat) : [] ∉ (read room s).2 := by
  cases s with
  | nil => exact parts
  | cons chunk rest =>
    rw [List.mem_cons,not_or] at parts
    rw [read]
    split
    · exact parts.2
    · rename_i long
      rw [List.mem_cons,not_or]
      refine ⟨?_,parts.2⟩
      intro empty
      have gone := congrArg List.length empty
      rw [List.length_drop,List.length_nil] at gone
      omega

/-- The reads stop somewhere behind the first carriage return. -/
theorem fill_eq_take (s : List Bytes) (buf : Bytes) (parts : [] ∉ s) (clean : '\r'.toUInt8 ∉ buf) (room : buf.length ≤ REQUEST_BUF_SIZE)
    (line : '\r'.toUInt8 ∈ (buf ++ s.flatten).take REQUEST_BUF_SIZE) :
    ∃ n ≤ REQUEST_BUF_SIZE,'\r'.toUInt8 ∈ (buf ++ s.flatten).take n ∧ fill s buf = (buf ++ s.flatten).take n := by
  induction s,buf using fill.induct with
  | case1 s buf got some_ found =>
    have bound : got.1.length ≤ REQUEST_BUF_SIZE - buf.length := read_length _ s
    have whole : buf ++ s.flatten = (buf ++ got.1) ++ got.2.flatten := by
      rw [List.append_assoc,read_flatten]
    refine ⟨(buf ++ got.1).length,?_,?_,?_⟩
    · rw [List.length_append]
      omega
    · rw [whole,List.take_left]
      exact List.mem_append_right buf found
    · rw [whole,List.take_left,fill,if_pos some_,if_pos found]
  | case2 s buf got some_ absent ih =>
    have bound : got.1.length ≤ REQUEST_BUF_SIZE - buf.length := read_length _ s
    have whole : buf ++ s.flatten = (buf ++ got.1) ++ got.2.flatten := by
      rw [List.append_assoc,read_flatten]
    have clean' : '\r'.toUInt8 ∉ buf ++ got.1 := by
      rw [List.mem_append,not_or]
      exact ⟨clean,absent⟩
    rw [whole] at line ⊢
    obtain ⟨n,small,inside,same⟩ := ih (read_parts parts _) clean' (by rw [List.length_append]; omega) line
    refine ⟨n,small,inside,?_⟩
    rw [fill,if_pos some_,if_neg absent]
    exact same
  | case3 s buf got none_ =>
    -- a read of nothing is at the end of the stream or of the buffer
    exfalso
    by_cases full : 0 < REQUEST_BUF_SIZE - buf.length
    · by_cases more : s.flatten = []
      · rw [more,List.append_nil] at line
        exact clean (List.mem_of_mem_take line)
      · exact none_ (read_some parts more full)
    · rw [show REQUEST_BUF_SIZE = buf.length by omega,List.take_left] at line
      exact clean line

/-- Some reads stop at any given place behind the carriage return. -/
theorem exists_fill (stream : Bytes) (small : n ≤ REQUEST_BUF_SIZE) (inside : '\r'.toUInt8 ∈ stream.take n) :
    ∃ s : List Bytes,s.flatten = stream ∧ [] ∉ s ∧ fill s [] = stream.take n := by
  have first : stream.take n ≠ [] := List.ne_nil_of_mem inside
  have fits : (stream.take n).length ≤ REQUEST_BUF_SIZE - ([] : Bytes).length := Nat.le_trans (List.length_take_le n stream) small
  have stops (rest : List Bytes) : fill (stream.take n :: rest) [] = stream.take n := by
    rw [fill,read,List.take_of_length_le fits]
    simp only [List.nil_append]
    rw [if_pos (List.length_pos_iff.mpr first),if_pos inside]
  by_cases last : stream.drop n = []
  · refine ⟨[stream.take n],?_,?_,stops []⟩
    · have whole := List.take_append_drop n stream
      rwa [last] at whole
    · simpa using first
  · refine ⟨[stream.take n,stream.drop n],?_,?_,stops [stream.drop n]⟩
    · simp
    · simp only [List.mem_cons,List.not_mem_nil,or_false,not_or]
      exact ⟨Ne.symm first,Ne.symm last⟩

/-- A line that comes in one chunk is a request with its first two words. -/
theorem parse_request_line {text : List Char} (short : (encode text).length < REQUEST_BUF_SIZE)
    (words : split_whitespace text = method :: path :: rest) :
    parse_request [encode text ++ ['\r'.toUInt8]] = .ok ⟨method,path⟩ := by
  have filled : fill [encode text ++ ['\r'.toUInt8]] [] = encode text ++ '\r'.toUInt8 :: [] := by
    have fits : (encode text ++ ['\r'.toUInt8]).length ≤ REQUEST_BUF_SIZE - ([] : Bytes).length := by
      rw [List.length_append]
      exact short
    rw [fill,read,List.take_of_length_le fits]
    simp
  have result : (parse_request [encode text ++ ['\r'.toUInt8]]).toOption = some ⟨method,path⟩ := by
    rw [parse_request_toOption,filled,parsed_line,decode_encode,decode_eq_some_iff.mpr encode_nil.symm,Option.bind_some,Option.bind_some,words]
    rfl
  cases done : parse_request [encode text ++ ['\r'.toUInt8]] with
  | ok request =>
    rw [done] at result
    exact congrArg Except.ok (Option.some.inj result)
  | error e =>
    rw [done] at result
    cases result

/-! Where the chunks do not matter. -/

def lineOf (stream : Bytes) : Bytes := stream.takeWhile (· != '\r'.toUInt8)

/-- The bytes behind the first carriage return that the buffer has room for. -/
def behind (stream : Bytes) : Bytes := (stream.take REQUEST_BUF_SIZE).drop ((lineOf stream).length + 1)

/-- The length of the longest part at the front that is UTF-8. -/
def valid_up_to (bytes : Bytes) : Nat := Nat.findGreatest (fun n => (decode (bytes.take n)).isSome) bytes.length

/-- What comes behind the carriage return has no influence: the line is an error already, or it is a
request and only ASCII can follow, or not even the longest valid text makes it a request. -/
def Steady (stream : Bytes) : Prop :=
  match decode (lineOf stream) with
  | none => True
  | some text =>
    if 2 ≤ (split_whitespace text).length then ∀ b ∈ behind stream, b < 128
    else ∀ more, decode ((behind stream).take (valid_up_to (behind stream))) = some more →
      (split_whitespace text ++ split_whitespace more).length < 2

section
variable {line : Bytes}

theorem lineOf_append (clean : '\r'.toUInt8 ∉ line) (rest : Bytes) : lineOf (line ++ '\r'.toUInt8 :: rest) = line := by
  rw [lineOf,List.takeWhile_append_of_pos]
  · simp
  · intro b inside
    rw [bne_iff_ne]
    rintro rfl
    exact clean inside

theorem behind_append (clean : '\r'.toUInt8 ∉ line) (rest : Bytes) :
    behind (line ++ '\r'.toUInt8 :: rest) = rest.take (REQUEST_BUF_SIZE - (line.length + 1)) := by
  rw [behind,lineOf_append clean,List.drop_take,← List.drop_drop,List.drop_left]
  rfl

theorem take_line (line rest : Bytes) (m : Nat) :
    (line ++ '\r'.toUInt8 :: rest).take (line.length + 1 + m) = line ++ '\r'.toUInt8 :: rest.take m := by
  rw [Nat.add_assoc,List.take_length_add_append,Nat.add_comm 1 m,List.take_succ_cons]

theorem length_lt_of_mem_take (clean : '\r'.toUInt8 ∉ line) {rest : Bytes} (inside : '\r'.toUInt8 ∈ (line ++ '\r'.toUInt8 :: rest).take n) :
    line.length < n := by
  by_contra short
  rw [List.take_append_of_le_length (by omega)] at inside
  exact clean (List.mem_of_mem_take inside)

/-- The buffers that the reads can leave are the line and the beginnings of what is behind it. -/
theorem buffers_iff (clean : '\r'.toUInt8 ∉ line) (rest buf : Bytes)
    (found : '\r'.toUInt8 ∈ (line ++ '\r'.toUInt8 :: rest).take REQUEST_BUF_SIZE) :
    (∃ s : List Bytes,s.flatten = line ++ '\r'.toUInt8 :: rest ∧ [] ∉ s ∧ fill s [] = buf) ↔
      ∃ m,buf = line ++ '\r'.toUInt8 :: (behind (line ++ '\r'.toUInt8 :: rest)).take m := by
  have room := length_lt_of_mem_take clean found
  rw [behind_append clean]
  constructor
  · rintro ⟨s,whole,parts,rfl⟩
    obtain ⟨n,small,inside,same⟩ := fill_eq_take s [] parts (List.not_mem_nil) (Nat.zero_le _) (by rwa [List.nil_append,whole])
    rw [List.nil_append,whole] at inside same
    have long := length_lt_of_mem_take clean inside
    refine ⟨n - (line.length + 1),?_⟩
    rw [same,List.take_take,Nat.min_eq_left (by omega),← take_line]
    congr 1
    omega
  · rintro ⟨m,rfl⟩
    rw [List.take_take,← take_line]
    apply exists_fill _ (by omega)
    rw [take_line]
    simp

/-- All the chunks that a stream can come in give the same exactly when the bytes behind the line
make no difference. -/
theorem same_requests_iff (clean : '\r'.toUInt8 ∉ line) (rest : Bytes)
    (found : '\r'.toUInt8 ∈ (line ++ '\r'.toUInt8 :: rest).take REQUEST_BUF_SIZE) :
    (∀ s t : List Bytes,s.flatten = line ++ '\r'.toUInt8 :: rest → t.flatten = line ++ '\r'.toUInt8 :: rest →
      [] ∉ s → [] ∉ t → (parse_request s).toOption = (parse_request t).toOption) ↔
        ∀ m,parsed (line ++ '\r'.toUInt8 :: (behind (line ++ '\r'.toUInt8 :: rest)).take m) = parsed (line ++ '\r'.toUInt8 :: []) := by
  constructor
  · intro same m
    obtain ⟨s,whole,parts,filled⟩ := (buffers_iff clean rest _ found).mpr ⟨m,rfl⟩
    obtain ⟨t,whole',parts',filled'⟩ := (buffers_iff clean rest _ found).mpr ⟨0,rfl⟩
    rw [← filled,← parse_request_toOption,same s t whole whole' parts parts',parse_request_toOption,filled',List.take_zero]
  · intro fixed s t whole whole' parts parts'
    obtain ⟨m,filled⟩ := (buffers_iff clean rest _ found).mp ⟨s,whole,parts,rfl⟩
    obtain ⟨m',filled'⟩ := (buffers_iff clean rest _ found).mp ⟨t,whole',parts',rfl⟩
    rw [parse_request_toOption,parse_request_toOption,filled,filled',fixed m,fixed m']

end

theorem valid_up_to_spec (bytes : Bytes) : ∃ text,decode (bytes.take (valid_up_to bytes)) = some text := by
  rw [← Option.isSome_iff_exists]
  exact Nat.findGreatest_spec (P := fun n => (decode (bytes.take n)).isSome = true) (Nat.zero_le _) (Option.isSome_of_eq_some (decode_encode []))

/-- Every part at the front that is UTF-8 begins the longest one. -/
theorem valid_up_to_longest {bytes : Bytes} {m : Nat} {text whole : List Char} (valid : decode (bytes.take m) = some text)
    (longest : decode (bytes.take (valid_up_to bytes)) = some whole) : ∃ more,whole = text ++ more := by
  have short : min m bytes.length ≤ valid_up_to bytes := by
    apply Nat.le_findGreatest (Nat.min_le_right _ _)
    rw [← List.take_eq_take_min,valid]
    rfl
  have front : (bytes.take (valid_up_to bytes)).take (min m bytes.length) = bytes.take m := by
    rw [List.take_take,Nat.min_eq_left short,← List.take_eq_take_min]
  rw [← List.take_append_drop (min m bytes.length) (bytes.take (valid_up_to bytes)),front,decode_append valid] at longest
  obtain ⟨more,-,rfl⟩ := Option.map_eq_some_iff.mp longest
  exact ⟨more,rfl⟩

/-- The bytes behind a line make no difference exactly in the three cases. -/
theorem steady_iff {line : Bytes} (clean : '\r'.toUInt8 ∉ line) (rest : Bytes) :
    (∀ m,parsed (line ++ '\r'.toUInt8 :: (behind (line ++ '\r'.toUInt8 :: rest)).take m) = parsed (line ++ '\r'.toUInt8 :: [])) ↔
      Steady (line ++ '\r'.toUInt8 :: rest) := by
  rw [Steady,lineOf_append clean]
  generalize behind (line ++ '\r'.toUInt8 :: rest) = tail
  simp only [parsed_line]
  cases decode line with
  | none => simp
  | some text =>
    have none_ : split_whitespace [] = [] := rfl
    simp only [Option.bind_some,decode_eq_some_iff.mpr encode_nil.symm,none_,List.append_nil]
    by_cases words : 2 ≤ (split_whitespace text).length
    · rw [if_pos words]
      simp only [requestOf_append words]
      obtain ⟨request,here⟩ := Option.isSome_iff_exists.mp (requestOf_isSome_iff.mpr words)
      rw [here]
      constructor
      · intro fixed
        apply ascii_of_take
        intro m
        obtain ⟨right,valid,-⟩ := Option.bind_eq_some_iff.mp (fixed m)
        exact Option.isSome_of_eq_some valid
      · intro ascii m
        obtain ⟨right,valid⟩ := Option.isSome_iff_exists.mp (decode_ascii fun b inside => ascii b (List.mem_of_mem_take inside))
        rw [valid]
        rfl
    · rw [if_neg words,requestOf_eq_none_iff.mpr (Nat.not_le.mp words)]
      constructor
      · intro fixed more longest
        have gone := fixed (valid_up_to tail)
        rw [longest,Option.bind_some] at gone
        exact requestOf_eq_none_iff.mp gone
      · intro few m
        cases valid : decode (tail.take m) with
        | none => rfl
        | some right =>
          obtain ⟨whole,longest⟩ := valid_up_to_spec tail
          obtain ⟨more,rfl⟩ := valid_up_to_longest valid longest
          have all := few _ longest
          have fewer : (split_whitespace right).length ≤ (split_whitespace (right ++ more)).length :=
            pieces_length_le (show ∀ c ∈ [],(!is_whitespace c) = true by simp) right more
          rw [Option.bind_some,requestOf_eq_none_iff]
          rw [List.length_append] at all ⊢
          omega

/-- The parser makes the same of all the chunks that a stream with its first carriage return in the
buffer can come in exactly for the steady streams. -/
theorem parse_request_steady_iff (stream : Bytes) (found : '\r'.toUInt8 ∈ stream.take REQUEST_BUF_SIZE) :
    (∀ s t : List Bytes,s.flatten = stream → t.flatten = stream → [] ∉ s → [] ∉ t →
      (parse_request s).toOption = (parse_request t).toOption) ↔ Steady stream := by
  obtain ⟨line,rest,rfl,clean⟩ := List.eq_append_cons_of_mem (List.mem_of_mem_take found)
  rw [same_requests_iff clean rest found,steady_iff clean rest]

theorem parse_request_steady_iff_get :
    (∀ s t : List Bytes,s.flatten = [71,32,47,13,10] → t.flatten = [71,32,47,13,10] → [] ∉ s → [] ∉ t →
      (parse_request s).toOption = (parse_request t).toOption) ↔ Steady [71,32,47,13,10] :=
  parse_request_steady_iff [71,32,47,13,10] (by decide)

/-- A request with the two bytes of an `é` behind its first line. The read that gets the first byte
only leaves a buffer that is not UTF-8. -/
theorem not_parse_request_steady :
    ¬ ∀ stream : Bytes,'\r'.toUInt8 ∈ stream.take REQUEST_BUF_SIZE → ∀ s t : List Bytes,s.flatten = stream → t.flatten = stream →
      [] ∉ s → [] ∉ t → (parse_request s).toOption = (parse_request t).toOption := by
  intro all
  have clean : '\r'.toUInt8 ∉ ([71,32,47] : Bytes) := by decide
  have same := (same_requests_iff clean [195,169] (by decide)).mp (all _ (by decide))
  have high := (steady_iff clean [195,169]).mp same
  rw [Steady,lineOf_append clean,decode_eq_some_iff.mpr (show _ = encode ['G',' ','/'] by decide)] at high
  simp only at high
  rw [if_pos (by decide),behind_append clean] at high
  exact absurd (high 195 (by decide)) (by decide)

end OsProj.Http
