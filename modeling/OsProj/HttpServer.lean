import OsProj.Exiting
import OsProj.HttpRequest

/-! The file server of hw-http-rs. What the file system and the socket answer to each call is given
by an environment: any file may be there, a read may give less than it is asked for, and a write
may take less than it is given. -/
namespace OsProj.Http

open OsProj.ByteList
open OsProj.Exiting
open OsProj.Utf8

abbrev Path := List Char

inductive Error
  | http (e : HttpError)
  | io
  | panic
  deriving DecidableEq, Repr

structure File where
  contents : Bytes
  /-- The length that the metadata has, or an error. -/
  metadata : Option Nat
  deriving DecidableEq, Repr

/-- The answers of the system. The calls on the socket and on an open file are numbered. -/
structure Env where
  found : Path → Bool
  is_dir : Path → Bool
  is_file : Path → Bool
  file : Path → Option File
  /-- The names in a directory; nothing in place of a name is an error. -/
  dir : Path → Option (List (Option Bytes))
  /-- How much more than a byte a read gives at most, or an error. -/
  reads : Nat → Option Nat
  /-- How much a single try takes at most, or an error. -/
  tries : Nat → Option Nat
  /-- Nothing when a write takes all, else how much of it is taken before the error. -/
  writes : Nat → Option Nat

/-- The bytes that the socket has taken, the paths opened or listed, and the calls so far. -/
structure World where
  sent : Bytes
  opened : List Path
  reads : Nat
  tries : Nat
  writes : Nat
  deriving DecidableEq, Repr

def World.start : World := ⟨[],[],0,0,0⟩

abbrev Task := ExceptT Error (StateM World)

/-! Calls of the system. -/

def write_all (env : Env) (buf : Bytes) : Task Unit := fun w =>
  match env.writes w.writes with
  | none => (.ok (),{ w with sent := w.sent ++ buf,writes := w.writes + 1 })
  | some taken => (.error .io,{ w with sent := w.sent ++ buf.take taken,writes := w.writes + 1 })

def Env.accept (env : Env) (k : Nat) (buf : Bytes) : Bytes := buf.take ((env.tries k).getD 0)

def try_write (env : Env) (buf : Bytes) : Task (Option Nat) := fun w =>
  (.ok ((env.tries w.tries).map (min buf.length)),{ w with sent := w.sent ++ env.accept w.tries buf,tries := w.tries + 1 })

def next_read (env : Env) : Task Nat := fun w =>
  match env.reads w.reads with
  | some more => (.ok (more + 1),{ w with reads := w.reads + 1 })
  | none => (.error .io,{ w with reads := w.reads + 1 })

def open_file (env : Env) (path : Path) : Task (Option File) := fun w =>
  (.ok (env.file path),{ w with opened := w.opened ++ [path] })

def read_dir (env : Env) (path : Path) : Task (List (Option Bytes)) := fun w =>
  match env.dir path with
  | some entries => (.ok entries,{ w with opened := w.opened ++ [path] })
  | none => (.error .io,{ w with opened := w.opened ++ [path] })

def NUL : Char := Char.ofNat 0

/-- A path with a NUL names nothing. -/
def path_exists (env : Env) (path : Path) : Bool := !path.contains NUL && env.found path

/-! Replies. -/

def response_message (status_code : Nat) : List Char :=
  match status_code with
  | 100 => "Continue".toList
  | 200 => "OK".toList
  | 301 => "Moved Permanently".toList
  | 302 => "Found".toList
  | 304 => "Not Modified".toList
  | 400 => "Bad Request".toList
  | 401 => "Unauthorized".toList
  | 403 => "Forbidden".toList
  | 404 => "Not Found".toList
  | 405 => "Method Not Allowed".toList
  | _ => "Internal Server Error".toList

def start_response (env : Env) (status_code : Nat) : Task Unit :=
  write_all env (encode ("HTTP/1.0 ".toList ++ Nat.toDigits 10 status_code ++ " ".toList ++ response_message status_code ++ "\r\n".toList))

def send_header (env : Env) (key value : List Char) : Task Unit :=
  write_all env (encode (key ++ ": ".toList ++ value ++ "\r\n".toList))

def end_headers (env : Env) : Task Unit := write_all env (encode "\r\n".toList)

/-- The last component of a path, unless it is `..`; a path that starts with a dot has no root. -/
def file_name (path : Path) : Option (List Char) :=
  match ((path.splitOn '/').filter fun c => c != [] && c != ['.']).getLast? with
  | some name => if name = ['.','.'] then none else some name
  | none => none

/-- What is behind the last dot of the file name, if anything is in front of it. -/
def file_extension (path : Path) : Option (List Char) := do
  let name ← file_name path
  if '.' ∈ name ∧ name.rdropWhile (· != '.') ≠ ['.'] then some (name.rtakeWhile (· != '.')) else none

def get_mime_type (path : Path) : List Char :=
  match (file_extension path).map String.ofList with
  | some "html" => "text/html".toList
  | some "htm" => "text/html".toList
  | some "jpg" => "image/jpeg".toList
  | some "jpeg" => "image/jpeg".toList
  | some "png" => "image/png".toList
  | some "css" => "text/css".toList
  | some "js" => "application/javascript".toList
  | some "pdf" => "application/pdf".toList
  | _ => "text/plain".toList

def format_href (path filename : List Char) : List Char :=
  "<a href=\"/".toList ++ path ++ "\">".toList ++ filename ++ "</a><br/>".toList

def format_index (path : Path) : Path := path ++ "/index.html".toList

/-- `parent` of a path that starts with a dot: what is in front of the last component. -/
def parent (path : Path) : Path :=
  let trim := fun (front : List (List Char)) => front.take 1 ++ (front.drop 1).rdropWhile fun c => c = [] || c = ['.']
  ['/'].intercalate (trim (trim (path.splitOn '/')).dropLast)

def join (path name : Path) : Path := if path.getLast? = some '/' then path ++ name else path ++ '/' :: name

/-! The server. -/

def copy (env : Env) (f : Bytes) : Task Unit := do
  let bytes_read ← next_read env
  let buf := f.take (min bytes_read 1024)
  if buf.length < 1024 then
    let _ ← try_write env buf
    return
  else
    let _ ← try_write env buf
    copy env (f.drop buf.length)
termination_by f.length
decreasing_by
  rename_i full
  rw [List.length_take] at full
  rw [List.length_drop,List.length_take]
  omega

def send_file (env : Env) (path : Path) (f : File) : Task Unit := do
  let mime_type := get_mime_type path
  match f.metadata with
  | none => throw .io
  | some len =>
    let filesize := Nat.toDigits 10 len
    start_response env 200
    send_header env "Content-Type".toList mime_type
    send_header env "Content-Length".toList filesize
    end_headers env
    copy env f.contents

def not_found (env : Env) : Task Unit := do
  start_response env 404
  end_headers env

/-- The hyperlinks to the entries of a directory. A name that is not UTF-8 panics. -/
def send_entries (env : Env) (path : Path) : List (Option Bytes) → Task Unit
  | [] => pure ()
  | none :: _ => throw .io
  | some name :: entries =>
    match decode name with
    | none => throw .panic
    | some filename => do
      let _ ← try_write env (encode (format_href (join path filename) filename))
      send_entries env path entries

def send_listing (env : Env) (path : Path) : Task Unit := do
  let entries ← read_dir env path
  start_response env 200
  send_header env "Content-Type".toList "text/html".toList
  end_headers env
  let _ ← try_write env (encode (format_href path ['.']))
  let _ ← try_write env (encode (format_href (parent path) ['.','.']))
  send_entries env path entries

def open_and_send (env : Env) (path : Path) : Task Unit := do
  match ← open_file env path with
  | some f => send_file env path f
  | none => not_found env

def request (s : List Bytes) : Task Request :=
  match parse_request s with
  | .ok parsed => pure parsed
  | .error e => throw (.http e)

theorem request_ok {s : List Bytes} {parsed : Request} (done : parse_request s = .ok parsed) (w : World) :
    request s w = (Except.ok parsed,w) := by
  unfold request
  rw [done]
  rfl

def handle_socket (env : Env) (s : List Bytes) : Task Unit := do
  let parsed ← request s
  let file_path := '.' :: parsed.path
  if path_exists env file_path then
    if env.is_dir file_path then
      let complete_idx_path := format_index (file_path ++ ['/'])
      if path_exists env complete_idx_path then open_and_send env complete_idx_path
      else send_listing env file_path
    else if env.is_file file_path then open_and_send env file_path
    else not_found env
  else not_found env

/-! What a client sees. -/

/-- The lines of a reply in front of its first empty line, and the bytes behind that. -/
def replyFrom (line : Bytes) : Bytes → List Bytes × Bytes
  | 13 :: 10 :: rest => if line = [] then ([],rest) else (line :: (replyFrom [] rest).1,(replyFrom [] rest).2)
  | c :: rest => replyFrom (line ++ [c]) rest
  | [] => ([line],[])

def replyOf (sent : Bytes) : List Bytes × Bytes := replyFrom [] sent

def headerOf (name : List Char) (lines : List Bytes) : Option Bytes :=
  (lines.find? (encode (name ++ ": ".toList)).isPrefixOf).map (·.drop (encode (name ++ ": ".toList)).length)

end OsProj.Http
