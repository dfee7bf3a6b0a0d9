import OsProj.HttpServer
import OsProj.LexicalPath

/-! The server opens and lists what the text of the request leads to, and refuses no path for the
place it leads to. -/
namespace OsProj.Http

open OsProj.ByteList
open OsProj.Exiting
open OsProj.LexicalPath (Component Inside Balanced components normalize)
open OsProj.Utf8

/-- The status of the reply is one of an error, or there is no reply, and nothing is behind its head. -/
def Refused (sent : Bytes) : Prop :=
  (sent = [] ∨ (sent.drop 9).head? = some '4'.toUInt8 ∨ (sent.drop 9).head? = some '5'.toUInt8) ∧ (replyOf sent).2 = []

def Confined (w : World) : Prop := (∀ path ∈ w.opened,Inside path) ∨ Refused w.sent

section
variable {env : Env} {P : Path → Prop}

/-! What is opened. -/

def Opens (P : Path → Prop) (w : World) : Prop := ∀ path ∈ w.opened,P path

theorem opens_write_all (buf : Bytes) : Keeps (Opens P) (write_all env buf) := by
  intro w kept
  unfold write_all
  split
  · exact kept
  · exact kept

theorem opens_try_write (buf : Bytes) : Keeps (Opens P) (try_write env buf) := fun _ kept => kept

theorem opens_next_read : Keeps (Opens P) (next_read env) := by
  intro w kept
  unfold next_read
  split
  · exact kept
  · exact kept

theorem opens_snoc {w : World} (kept : Opens P w) {path : Path} (good : P path) : ∀ other ∈ w.opened ++ [path],P other := by
  intro other inside
  rcases List.mem_append.mp inside with old | new
  · exact kept other old
  · rwa [List.mem_singleton.mp new]

theorem opens_open_file {path : Path} (good : P path) : Keeps (Opens P) (open_file env path) :=
  fun _ kept => opens_snoc kept good

theorem opens_read_dir {path : Path} (good : P path) : Keeps (Opens P) (read_dir env path) := by
  intro w kept
  unfold read_dir
  split
  · exact opens_snoc kept good
  · exact opens_snoc kept good

theorem opens_not_found : Keeps (Opens P) (not_found env) := (opens_write_all _).bind fun _ => opens_write_all _

theorem opens_copy (f : Bytes) : Keeps (Opens P) (copy env f) := by
  induction f using copy.induct with
  | case1 f ih =>
    rw [copy]
    refine opens_next_read.bind ?_
    intro bytes_read
    by_cases short : (f.take (min bytes_read 1024)).length < 1024
    · simp only [if_pos short]
      exact (opens_try_write _).bind fun _ => keeps_pure _
    · simp only [if_neg short]
      exact (opens_try_write _).bind fun _ => ih bytes_read short

theorem opens_send_file (path : Path) (f : File) : Keeps (Opens P) (send_file env path f) := by
  unfold send_file
  cases f.metadata with
  | none => exact keeps_throw _
  | some len =>
    exact (opens_write_all _).bind fun _ => (opens_write_all _).bind fun _ => (opens_write_all _).bind fun _ =>
      (opens_write_all _).bind fun _ => opens_copy _

theorem opens_send_entries (path : Path) (entries : List (Option Bytes)) : Keeps (Opens P) (send_entries env path entries) := by
  induction entries with
  | nil => exact keeps_pure _
  | cons entry entries ih =>
    cases entry with
    | none => exact keeps_throw _
    | some name =>
      unfold send_entries
      cases decode name with
      | none => exact keeps_throw _
      | some filename => exact (opens_try_write _).bind fun _ => ih

theorem opens_send_listing {path : Path} (good : P path) : Keeps (Opens P) (send_listing env path) :=
  (opens_read_dir good).bind fun entries => (opens_write_all _).bind fun _ => (opens_write_all _).bind fun _ =>
    (opens_write_all _).bind fun _ => (opens_try_write _).bind fun _ => (opens_try_write _).bind fun _ => opens_send_entries path entries

theorem opens_open_and_send {path : Path} (good : P path) : Keeps (Opens P) (open_and_send env path) := by
  refine (opens_open_file good).bind ?_
  rintro (_ | f)
  · exact opens_not_found
  · exact opens_send_file path f

/-- Only the path of the request and the index in it are opened or listed. -/
theorem opens_handle_socket {s : List Bytes} {parsed : Request} (done : parse_request s = .ok parsed) (file : P ('.' :: parsed.path))
    (index : P (format_index ('.' :: parsed.path ++ ['/']))) : Keeps (Opens P) (handle_socket env s) := by
  intro w kept
  unfold handle_socket
  rw [bind_go (request_ok done w)]
  revert w
  change Keeps (Opens P) _
  simp only
  split
  · split
    · split
      · exact opens_open_and_send index
      · exact opens_send_listing file
    · split
      · exact opens_open_and_send file
      · exact opens_not_found
  · exact opens_not_found

theorem inside_index {path : Path} (inside : Inside ('.' :: path)) : Inside (format_index ('.' :: path ++ ['/'])) := by
  have text : format_index ('.' :: path ++ ['/']) = ('.' :: path) ++ '/' :: "/index.html".toList := by simp [format_index]
  have names : components ('.' :: path ++ '/' :: "/index.html".toList) = components ('.' :: path) ++ [[]] ++ ["index.html".toList] := by
    rw [LexicalPath.components_append,List.append_assoc]
    congr 1
  rw [text]
  refine ⟨by simp,?_⟩
  rw [names,LexicalPath.normalize_concat,LexicalPath.normalize_concat,LexicalPath.step_name _ (by decide) (by decide),
    LexicalPath.step_idle _ rfl]
  exact inside.2

theorem inside_iff (path : Path) : Inside ('.' :: path) ↔ Balanced (components ('.' :: path)) := by
  rw [Inside,LexicalPath.normalize_inside_iff]
  simp

/-! Paths that lead out. -/

/-- A directory without entries that only the path names. -/
def lists (path : Path) : Env where
  found other := other == path
  is_dir _ := true
  is_file _ := false
  file _ := none
  dir _ := some []
  reads _ := none
  tries _ := some 1024
  writes _ := none

theorem send_listing_lists (path other : Path) : (send_listing (lists path) other .start).2.opened = [other] ∧
    ∃ rest,(send_listing (lists path) other .start).2.sent = encode "HTTP/1.0 200 OK".toList ++ rest := by
  refine ⟨rfl,?_⟩
  have status : encode ("HTTP/1.0 ".toList ++ Nat.toDigits 10 200 ++ " ".toList ++ response_message 200 ++ "\r\n".toList) =
      encode "HTTP/1.0 200 OK".toList ++ encode "\r\n".toList := rfl
  change ∃ rest,((([] ++ encode ("HTTP/1.0 ".toList ++ Nat.toDigits 10 200 ++ " ".toList ++ response_message 200 ++ "\r\n".toList)) ++
    encode ("Content-Type".toList ++ ": ".toList ++ "text/html".toList ++ "\r\n".toList)) ++ encode "\r\n".toList ++
      (encode (format_href other ['.'])).take 1024 ++ (encode (format_href (parent other) ['.','.'])).take 1024 : Bytes) = _
  rw [status]
  simp only [List.nil_append,List.append_assoc]
  exact ⟨_,rfl⟩

theorem handle_socket_lists {s : List Bytes} {parsed : Request} (done : parse_request s = .ok parsed) (clean : NUL ∉ parsed.path) :
    handle_socket (lists ('.' :: parsed.path)) s .start = send_listing (lists ('.' :: parsed.path)) ('.' :: parsed.path) .start := by
  have here : path_exists (lists ('.' :: parsed.path)) ('.' :: parsed.path) = true := by
    have dot : NUL ≠ '.' := by decide
    simp [path_exists,lists,clean,dot]
  have missing : path_exists (lists ('.' :: parsed.path)) (format_index ('.' :: parsed.path ++ ['/'])) = false := by
    have longer : format_index ('.' :: parsed.path ++ ['/']) ≠ '.' :: parsed.path := by
      intro same
      have lengths := congrArg List.length same
      simp [format_index] at lengths
    simp only [path_exists,lists,Bool.and_eq_false_iff]
    exact .inr (by simpa using longer)
  unfold handle_socket
  rw [bind_go (request_ok done .start)]
  simp only [here,missing]
  rfl

/-- What leads out of the directory is listed when it is a directory. -/
theorem not_confined {s : List Bytes} {parsed : Request} (done : parse_request s = .ok parsed) (clean : NUL ∉ parsed.path)
    (out : ¬Inside ('.' :: parsed.path)) : ¬Confined (handle_socket (lists ('.' :: parsed.path)) s .start).2 := by
  obtain ⟨opened,rest,sent⟩ := send_listing_lists ('.' :: parsed.path) ('.' :: parsed.path)
  rw [handle_socket_lists done clean]
  rintro (inside | ⟨status,-⟩)
  · exact out (inside _ (by rw [opened]; exact List.mem_singleton_self _))
  · have digit : ((encode "HTTP/1.0 200 OK".toList ++ rest).drop 9).head? = some 50 := rfl
    rw [← sent] at digit
    rcases status with none_ | four | five
    · rw [none_] at digit
      cases digit
    · exact absurd (digit.symm.trans four) (by decide)
    · exact absurd (digit.symm.trans five) (by decide)

/-- In every file system all that a request opens or lists is inside of the directory exactly if its
path never has more `..` than names in front of them, or has a NUL. -/
theorem requests_confined_iff {s : List Bytes} {parsed : Request} (done : parse_request s = .ok parsed) :
    (∀ env,Confined (handle_socket env s .start).2) ↔ Balanced (components ('.' :: parsed.path)) ∨ NUL ∈ parsed.path := by
  rw [← inside_iff]
  constructor
  · intro confined
    by_contra bad
    rw [not_or] at bad
    exact not_confined done bad.2 bad.1 (confined _)
  · rintro (inside | nul) env
    · exact .inl (opens_handle_socket done inside (inside_index inside) .start nofun)
    · left
      have missing : path_exists env ('.' :: parsed.path) = false := by simp [path_exists,nul]
      unfold handle_socket
      rw [bind_go (request_ok done .start)]
      simp only [missing]
      exact opens_not_found .start nofun

theorem requests_confined_iff_root :
    (∀ env,Confined (handle_socket env [encode ['G',' ','/'] ++ ['\r'.toUInt8]] .start).2) ↔
      Balanced (components ['.','/']) ∨ NUL ∈ ['/'] :=
  requests_confined_iff (parse_request_line (by decide) (show _ = ['G'] :: ['/'] :: [] by decide))

/-- The request `G /..` lists the directory above. -/
theorem not_requests_confined :
    ¬ ∀ (s : List Bytes) (parsed : Request),parse_request s = .ok parsed → ∀ env,Confined (handle_socket env s .start).2 := by
  intro all
  have done : parse_request [encode ['G',' ','/','.','.'] ++ ['\r'.toUInt8]] = .ok ⟨['G'],['/','.','.']⟩ :=
    parse_request_line (by decide) (show _ = ['G'] :: ['/','.','.'] :: [] by decide)
  exact not_confined done (by decide) (fun inside => absurd inside.2 (by decide)) (all _ _ done _)

end

end OsProj.Http
