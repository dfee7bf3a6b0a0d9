import Mathlib.Data.List.TakeWhile
import OsProj.ByteList
import OsProj.Faulting

/-! The request parser of hw-http/libhttp.c. A pointer into the read buffer is an index. The scan
fails where it would read a byte that neither `read` nor the parser has written. -/
namespace OsProj.LibHttp

open OsProj.ByteList
open OsProj.Faulting

inductive Fault
  | outside
  deriving DecidableEq, Repr

structure HttpRequest where
  method : Bytes
  path : Bytes
  deriving DecidableEq, Repr

def LIBHTTP_REQUEST_MAX_SIZE : Nat := 8192

/-- What one `read` of `LIBHTTP_REQUEST_MAX_SIZE` bytes can deliver. -/
abbrev Delivered := {bytes : Bytes // bytes.length ≤ LIBHTTP_REQUEST_MAX_SIZE}

/-- `*(read_buffer + i)` -/
def charAt (read_buffer : Bytes) (i : Nat) : Except Fault UInt8 :=
  match read_buffer[i]? with
  | some c => .ok c
  | none => .error .outside

/-- `while (p(*read_end)) read_end++;` for a loop that has reached the given rest of the buffer. -/
def scanFrom (p : UInt8 → Bool) : Bytes → Nat → Except Fault Nat
  | [],_ => .error .outside
  | c :: rest,i => if p c then scanFrom p rest (i + 1) else .ok i

def scan (p : UInt8 → Bool) (read_buffer : Bytes) (read_end : Nat) : Except Fault Nat :=
  scanFrom p (read_buffer.drop read_end) read_end

def copy (read_buffer : Bytes) (read_start read_size : Nat) : Bytes := (read_buffer.drop read_start).take read_size

def isMethod (c : UInt8) : Bool := c ≥ 'A'.toUInt8 && c ≤ 'Z'.toUInt8
def isPath (c : UInt8) : Bool := c != 0 && c != ' '.toUInt8 && c != '\n'.toUInt8
def isRest (c : UInt8) : Bool := c != 0 && c != '\n'.toUInt8

/-- The buffer has one byte more than `read` may deliver, for the terminator. -/
def terminated (bytes : Bytes) : Except Fault Bytes :=
  if bytes.length < LIBHTTP_REQUEST_MAX_SIZE + 1 then .ok (bytes ++ [0]) else .error .outside

def http_request_parse (delivered : Delivered) : Except Fault (Option HttpRequest) := do
  let read_buffer ← terminated delivered.val
  -- The method: "[A-Z]*"
  let read_start := 0
  let read_end ← scan isMethod read_buffer read_start
  if read_end - read_start = 0 then return none
  let method := copy read_buffer read_start (read_end - read_start)
  let read_start := read_end
  if (← charAt read_buffer read_end) ≠ ' '.toUInt8 then return none
  -- The path: "[^ \n]*"
  let read_start := read_start + 1
  let read_end ← scan isPath read_buffer read_start
  if read_end - read_start = 0 then return none
  let path := copy read_buffer read_start (read_end - read_start)
  -- The version and the rest of the line: ".*"
  let read_end ← scan isRest read_buffer read_end
  if (← charAt read_buffer read_end) ≠ '\n'.toUInt8 then return none
  return some ⟨method,path⟩

/-! The grammar. -/

/-- The bytes begin with a request line: letters, a space, a path, anything but newlines and
zeros, and a newline. -/
structure RequestLine (bytes method path rest tail : Bytes) : Prop where
  whole : bytes = method ++ ' '.toUInt8 :: (path ++ (rest ++ '\n'.toUInt8 :: tail))
  method_some : method ≠ []
  letters : ∀ c ∈ method, 'A'.toUInt8 ≤ c ∧ c ≤ 'Z'.toUInt8
  path_some : path ≠ []
  path_bytes : ∀ c ∈ path, c ≠ ' '.toUInt8 ∧ c ≠ '\n'.toUInt8 ∧ c ≠ 0
  rest_bytes : ∀ c ∈ rest, c ≠ '\n'.toUInt8 ∧ c ≠ 0

/-- The request of the first line of a text, read with lists instead of pointers. -/
def firstLine (bytes : Bytes) : Option HttpRequest :=
  let method := bytes.takeWhile isMethod
  let behind := bytes.dropWhile isMethod
  let path := behind.tail.takeWhile isPath
  let rest := (behind.tail.dropWhile isPath).dropWhile isRest
  if method = [] then none
  else if behind.headD 0 ≠ ' '.toUInt8 then none
  else if path = [] then none
  else if rest.headD 0 ≠ '\n'.toUInt8 then none
  else some ⟨method,path⟩

section
variable {p q : UInt8 → Bool} {bytes : Bytes} {i : Nat}

theorem charAt_eq (bytes : Bytes) (inside : i ≤ bytes.length) : charAt (bytes ++ [0]) i = .ok ((bytes.drop i).headD 0) := by
  unfold charAt
  rcases Nat.eq_or_lt_of_le inside with rfl | less
  · simp
  · rw [List.getElem?_append_left less,List.getElem?_eq_getElem less,List.drop_eq_getElem_cons less]
    rfl

/-- The terminator ends every loop whose condition it fails. -/
theorem scanFrom_eq (ends : p 0 = false) (bytes : Bytes) (i : Nat) :
    scanFrom p (bytes ++ [0]) i = .ok (i + (bytes.takeWhile p).length) := by
  induction bytes generalizing i with
  | nil =>
    change (if p 0 = true then _ else _) = _
    rw [ends]
    rfl
  | cons c bytes ih =>
    rw [List.cons_append,scanFrom,List.takeWhile_cons]
    cases p c with
    | true =>
      change scanFrom p (bytes ++ [0]) (i + 1) = _
      rw [ih,Nat.add_assoc,Nat.add_comm 1]
      rfl
    | false => rfl

theorem drop_takeWhile (p : UInt8 → Bool) (bytes : Bytes) : bytes.drop (bytes.takeWhile p).length = bytes.dropWhile p := by
  calc bytes.drop (bytes.takeWhile p).length
      = (bytes.takeWhile p ++ bytes.dropWhile p).drop (bytes.takeWhile p).length := by rw [List.takeWhile_append_dropWhile]
    _ = bytes.dropWhile p := List.drop_left

theorem take_takeWhile (p : UInt8 → Bool) (bytes : Bytes) : bytes.take (bytes.takeWhile p).length = bytes.takeWhile p := by
  calc bytes.take (bytes.takeWhile p).length
      = (bytes.takeWhile p ++ bytes.dropWhile p).take (bytes.takeWhile p).length := by rw [List.takeWhile_append_dropWhile]
    _ = bytes.takeWhile p := List.take_left

/-- A loop over the text from a place on: where it stops, what it has read, and what is behind it. -/
structure Scanned (p : UInt8 → Bool) (bytes : Bytes) (i : Nat) (rest : Bytes) : Prop where
  stop : scan p (bytes ++ [0]) i = .ok (i + (rest.takeWhile p).length)
  text : copy (bytes ++ [0]) i (rest.takeWhile p).length = rest.takeWhile p
  behind : bytes.drop (i + (rest.takeWhile p).length) = rest.dropWhile p
  within : i + (rest.takeWhile p).length ≤ bytes.length
  next : charAt (bytes ++ [0]) (i + (rest.takeWhile p).length) = .ok ((rest.dropWhile p).headD 0)

/-- A loop that the terminator ends stays inside of the text. -/
theorem scanned (ends : p 0 = false) (at_ : bytes.drop i = rest) (inside : i ≤ bytes.length) : Scanned p bytes i rest := by
  have short := (List.takeWhile_prefix p (l := rest)).length_le
  have size := congrArg List.length at_
  rw [List.length_drop] at size
  have behind : bytes.drop (i + (rest.takeWhile p).length) = rest.dropWhile p := by
    rw [← List.drop_drop,at_,drop_takeWhile]
  have within : i + (rest.takeWhile p).length ≤ bytes.length := by omega
  refine ⟨?_,?_,behind,within,?_⟩
  · rw [scan,List.drop_append_of_le_length inside,scanFrom_eq ends,at_]
  · rw [copy,List.drop_append_of_le_length inside,at_,List.take_append_of_le_length short,take_takeWhile]
  · rw [charAt_eq bytes within,behind]

/-- The parser with pointers gives what the one with lists does. -/
theorem http_request_parse_eq (delivered : Delivered) : http_request_parse delivered = .ok (firstLine delivered.val) := by
  obtain ⟨bytes,fits⟩ := delivered
  have room : terminated bytes = .ok (bytes ++ [0]) := if_pos (Nat.lt_succ_of_le fits)
  have method := scanned (p := isMethod) (by decide) (show bytes.drop 0 = bytes from List.drop_zero) (Nat.zero_le _)
  unfold http_request_parse firstLine
  rw [go room,go method.stop,go method.next,Nat.zero_add]
  by_cases empty : bytes.takeWhile isMethod = []
  · rw [if_pos (by rw [empty]; rfl),if_pos empty]
    rfl
  rw [if_neg (by rwa [Nat.sub_zero,List.length_eq_zero_iff]),if_neg empty]
  by_cases other : (bytes.dropWhile isMethod).headD 0 ≠ ' '.toUInt8
  · rw [if_pos other,if_pos other]
    rfl
  rw [if_neg other,if_neg other]
  -- the space is a byte of the text, so the path starts inside of it
  have behind := method.behind
  rw [Nat.zero_add] at behind
  have path_from : (bytes.takeWhile isMethod).length + 1 ≤ bytes.length := by
    by_contra last
    have none_ := congrArg List.length behind
    rw [List.length_drop,show bytes.length - (bytes.takeWhile isMethod).length = 0 by omega] at none_
    rw [List.length_eq_zero_iff.mp none_.symm] at other
    exact other (by decide)
  have path_at : bytes.drop ((bytes.takeWhile isMethod).length + 1) = (bytes.dropWhile isMethod).tail := by
    rw [← List.drop_drop,behind,List.drop_one]
  have path := scanned (p := isPath) (by decide) path_at path_from
  have rest := scanned (p := isRest) (by decide) path.behind path.within
  have text := method.text
  simp only [go path.stop,go rest.stop,go rest.next,Nat.add_sub_cancel_left,List.length_eq_zero_iff,Nat.sub_zero,text,path.text]
  by_cases none_ : (bytes.dropWhile isMethod).tail.takeWhile isPath = []
  · rw [if_pos none_,if_pos none_]
    rfl
  rw [if_neg none_,if_neg none_]
  split
  · rfl
  · rfl

/-! What the parser accepts. -/

theorem isMethod_iff (c : UInt8) : isMethod c = true ↔ 'A'.toUInt8 ≤ c ∧ c ≤ 'Z'.toUInt8 := by simp [isMethod]

theorem isPath_iff (c : UInt8) : isPath c = true ↔ c ≠ ' '.toUInt8 ∧ c ≠ '\n'.toUInt8 ∧ c ≠ 0 := by
  simp [isPath]
  tauto

theorem isRest_iff (c : UInt8) : isRest c = true ↔ c ≠ '\n'.toUInt8 ∧ c ≠ 0 := by
  simp [isRest]
  tauto

theorem cons_of_headD (here : bytes.headD 0 = c) (some_ : c ≠ 0) : bytes = c :: bytes.tail := by
  cases bytes with
  | nil => exact absurd here.symm some_
  | cons d bytes => rw [show d = c from here,List.tail_cons]

theorem head_dropWhile (here : (bytes.dropWhile p).head? = some c) : p c = false := by
  have ends := List.head?_dropWhile_not p bytes
  rwa [here] at ends

theorem all_takeWhile {P : UInt8 → Prop} (meaning : ∀ c, p c = true ↔ P c) (bytes : Bytes) : ∀ c ∈ bytes.takeWhile p, P c :=
  fun c inside => (meaning c).mp (List.mem_takeWhile_imp inside)

/-- The path of an accepted line goes on until a byte that no path has. -/
theorem firstLine_sound (accepted : firstLine bytes = some request) :
    ∃ rest tail, RequestLine bytes request.method request.path rest tail ∧
      ∀ c, (rest ++ '\n'.toUInt8 :: tail).head? = some c → c = ' '.toUInt8 ∨ c = '\n'.toUInt8 ∨ c = 0 := by
  simp only [firstLine,Option.ite_none_left_eq_some,not_not] at accepted
  obtain ⟨method_some,space,path_some,newline,same⟩ := accepted
  obtain rfl := Option.some.inj same
  have behind := cons_of_headD space (by decide)
  have ending := cons_of_headD newline (by decide)
  have path_rest := List.takeWhile_append_dropWhile (p := isPath) (l := (bytes.dropWhile isMethod).tail)
  have rest_tail := List.takeWhile_append_dropWhile (p := isRest) (l := (bytes.dropWhile isMethod).tail.dropWhile isPath)
  rw [ending] at rest_tail
  have whole : bytes = bytes.takeWhile isMethod ++ ' '.toUInt8 :: ((bytes.dropWhile isMethod).tail.takeWhile isPath ++
      (((bytes.dropWhile isMethod).tail.dropWhile isPath).takeWhile isRest ++
        '\n'.toUInt8 :: (((bytes.dropWhile isMethod).tail.dropWhile isPath).dropWhile isRest).tail)) := by
    rw [rest_tail,path_rest,← behind,List.takeWhile_append_dropWhile]
  refine ⟨_,_,⟨whole,method_some,all_takeWhile isMethod_iff _,path_some,all_takeWhile isPath_iff _,all_takeWhile isRest_iff _⟩,?_⟩
  intro c here
  rw [rest_tail] at here
  have ends := head_dropWhile here
  rw [← Bool.not_eq_true,isPath_iff] at ends
  tauto

theorem takeWhile_run {P : UInt8 → Prop} (meaning : ∀ c, p c = true ↔ P c) (all : ∀ c ∈ run, P c) (stop : p c = false)
    (rest : Bytes) : (run ++ c :: rest).takeWhile p = run := by
  rw [List.takeWhile_append_of_pos fun d inside => (meaning d).mpr (all d inside),List.takeWhile_cons_of_neg (by simp [stop]),
    List.append_nil]

theorem dropWhile_run {P : UInt8 → Prop} (meaning : ∀ c, p c = true ↔ P c) (all : ∀ c ∈ run, P c) (stop : p c = false)
    (rest : Bytes) : (run ++ c :: rest).dropWhile p = c :: rest := by
  rw [List.dropWhile_append_of_pos fun d inside => (meaning d).mpr (all d inside),List.dropWhile_cons_of_neg (by simp [stop])]

/-- What a weaker test skips after a stronger one is what it skips alone. -/
theorem dropWhile_dropWhile (weaker : ∀ c, q c = true → p c = true) (bytes : Bytes) :
    (bytes.dropWhile q).dropWhile p = bytes.dropWhile p := by
  induction bytes with
  | nil => rfl
  | cons c bytes ih =>
    rw [List.dropWhile_cons]
    split
    · rename_i holds
      rw [ih,List.dropWhile_cons_of_pos (weaker c holds)]
    · rfl

/-- Every request line is accepted, however its path is cut off from the rest. -/
theorem firstLine_complete (line : RequestLine bytes method path rest tail) : ∃ request, firstLine bytes = some request := by
  obtain ⟨rfl,method_some,letters,path_some,path_bytes,rest_bytes⟩ := line
  have path_head : (path ++ (rest ++ '\n'.toUInt8 :: tail)).takeWhile isPath ≠ [] := by
    obtain ⟨c,path,rfl⟩ := List.exists_cons_of_ne_nil path_some
    rw [List.cons_append,List.takeWhile_cons_of_pos ((isPath_iff c).mpr (path_bytes c (List.mem_cons_self ..)))]
    exact List.cons_ne_nil _ _
  have no_newline : ∀ c ∈ path ++ rest, c ≠ '\n'.toUInt8 ∧ c ≠ 0 := by
    intro c inside
    rcases List.mem_append.mp inside with early | late
    · exact (path_bytes c early).2
    · exact rest_bytes c late
  have ending : ((path ++ (rest ++ '\n'.toUInt8 :: tail)).dropWhile isPath).dropWhile isRest = '\n'.toUInt8 :: tail := by
    rw [dropWhile_dropWhile fun c holds => (isRest_iff c).mpr ((isPath_iff c).mp holds).2,← List.append_assoc,
      dropWhile_run isRest_iff no_newline (by decide)]
  refine ⟨⟨method,(path ++ (rest ++ '\n'.toUInt8 :: tail)).takeWhile isPath⟩,?_⟩
  simp only [firstLine,takeWhile_run isMethod_iff letters (show isMethod ' '.toUInt8 = false by decide),
    dropWhile_run isMethod_iff letters (show isMethod ' '.toUInt8 = false by decide),List.tail_cons,ending,List.headD_cons]
  rw [if_neg method_some,if_neg (not_not.mpr rfl),if_neg path_head,if_neg (not_not.mpr rfl)]

/-- The parser reads nothing behind the terminator, accepts exactly the texts that begin with a
request line, and returns all of the letters and then all of the path. -/
theorem http_request_parse_accepts (delivered : Delivered) :
    ∃ result, http_request_parse delivered = .ok result ∧
      ((∃ request, result = some request) ↔ ∃ method path rest tail, RequestLine delivered.val method path rest tail) ∧
      ∀ request, result = some request → ∃ rest tail, RequestLine delivered.val request.method request.path rest tail ∧
        ∀ c, (rest ++ '\n'.toUInt8 :: tail).head? = some c → c = ' '.toUInt8 ∨ c = '\n'.toUInt8 ∨ c = 0 := by
  refine ⟨firstLine delivered.val,http_request_parse_eq delivered,⟨?_,?_⟩,fun request => firstLine_sound⟩
  · rintro ⟨request,accepted⟩
    obtain ⟨rest,tail,line,-⟩ := firstLine_sound accepted
    exact ⟨_,_,rest,tail,line⟩
  · rintro ⟨method,path,rest,tail,line⟩
    exact firstLine_complete line

end

end OsProj.LibHttp
