import OsProj.HttpServer

/-! The body of a reply is the file exactly when no read and no write was cut short. -/
namespace OsProj.Http

open OsProj.ByteList
open OsProj.Exiting
open OsProj.Utf8

/-- What a read gives of the rest of a file. -/
def Env.give (env : Env) (k : Nat) (f : Bytes) : Option Bytes := (env.reads k).map fun more => f.take (min (more + 1) 1024)

/-- The parts of 1024 bytes that a file is sent in; the last one is shorter. -/
def part (f : Bytes) (i : Nat) : Bytes := (f.drop (1024 * i)).take 1024

/-- Each part of the file comes in one read and goes out in one write, from the given calls on. -/
def Whole (env : Env) (reads tries : Nat) (f : Bytes) : Prop :=
  ∀ i ≤ f.length / 1024,
    env.give (reads + i) (f.drop (1024 * i)) = some (part f i) ∧ env.accept (tries + i) (part f i) = part f i

section
variable {env : Env} {w w' w'' : World} {f : Bytes}

/-! One round of the loop. -/

theorem accept_length (env : Env) (k : Nat) (buf : Bytes) : (env.accept k buf).length ≤ buf.length := List.length_take_le' _ buf

theorem whole_short (short : f.length < 1024) :
    Whole env reads tries f ↔ env.give reads f = some f ∧ env.accept tries f = f := by
  have here : part f 0 = f := List.take_of_length_le (by simpa using Nat.le_of_lt short)
  rw [Whole,Nat.div_eq_of_lt short]
  constructor
  · intro whole
    have first := whole 0 (Nat.le_refl 0)
    rwa [here] at first
  · rintro first i bound
    obtain rfl := Nat.le_zero.mp bound
    rw [here]
    exact first

theorem whole_long (long : 1024 ≤ f.length) :
    Whole env reads tries f ↔ (env.give reads f = some (f.take 1024) ∧ env.accept tries (f.take 1024) = f.take 1024) ∧
      Whole env (reads + 1) (tries + 1) (f.drop 1024) := by
  have count : f.length / 1024 = (f.drop 1024).length / 1024 + 1 := by
    rw [List.length_drop]
    omega
  have next (i : Nat) : f.drop (1024 * (i + 1)) = (f.drop 1024).drop (1024 * i) := by
    rw [List.drop_drop,Nat.mul_succ,Nat.add_comm]
  have partNext (i : Nat) : part f (i + 1) = part (f.drop 1024) i := by
    rw [part,part,next]
  constructor
  · intro whole
    refine ⟨whole 0 (Nat.zero_le _),?_⟩
    intro i bound
    have later := whole (i + 1) (by omega)
    rwa [next,partNext,← Nat.add_assoc,← Nat.add_assoc,Nat.add_right_comm reads,Nat.add_right_comm tries] at later
  · rintro ⟨first,later⟩ i bound
    cases i with
    | zero => exact first
    | succ i =>
      have here := later i (by omega)
      rwa [← next,← partNext,Nat.add_right_comm reads,Nat.add_right_comm tries,Nat.add_assoc,Nat.add_assoc] at here

theorem give_begins {buf : Bytes} (given : env.give k f = some buf) : buf <+: f := by
  obtain ⟨more,-,rfl⟩ := Option.map_eq_some_iff.mp given
  exact List.take_prefix _ f

theorem give_full {buf : Bytes} (given : env.give k f = some buf) (full : 1024 ≤ buf.length) : buf = f.take 1024 ∧ 1024 ≤ f.length := by
  obtain ⟨more,-,rfl⟩ := Option.map_eq_some_iff.mp given
  rw [List.length_take] at full
  rw [show min (more + 1) 1024 = 1024 by omega]
  exact ⟨rfl,by omega⟩

/-- What a round of the loop leaves to the next one, if there is one. -/
theorem copy_round (ran : copy env f w = (.ok (),w')) : ∃ buf,env.give w.reads f = some buf ∧
    if buf.length < 1024 then w' = ⟨w.sent ++ env.accept w.tries buf,w.opened,w.reads + 1,w.tries + 1,w.writes⟩
    else copy env (f.drop buf.length) ⟨w.sent ++ env.accept w.tries buf,w.opened,w.reads + 1,w.tries + 1,w.writes⟩ = (.ok (),w') := by
  rw [copy] at ran
  obtain ⟨bytes_read,w1,got,later⟩ := bind_ok.mp ran
  unfold next_read at got
  cases answer : env.reads w.reads with
  | none =>
    rw [answer] at got
    cases got
  | some more =>
    rw [answer] at got
    cases got
    refine ⟨f.take (min (more + 1) 1024),by rw [Env.give,answer]; rfl,?_⟩
    by_cases short : (f.take (min (more + 1) 1024)).length < 1024
    · simp only [if_pos short] at later ⊢
      cases later
      rfl
    · simp only [if_neg short] at later ⊢
      exact later

/-- The loop that sends a file sends no more than the file, and all of it only in whole parts. -/
theorem copy_spec (ran : copy env f w = (.ok (),w')) :
    ∃ body,w'.sent = w.sent ++ body ∧ body.length ≤ f.length ∧ (body = f ↔ Whole env w.reads w.tries f) := by
  induction f using copy.induct generalizing w with
  | case1 f ih =>
    obtain ⟨buf,given,next⟩ := copy_round ran
    have taken := accept_length env w.tries buf
    have begins := (give_begins given).length_le
    by_cases short : buf.length < 1024
    · rw [if_pos short] at next
      obtain rfl := next
      refine ⟨env.accept w.tries buf,rfl,by omega,?_⟩
      by_cases last : f.length < 1024
      · rw [whole_short last]
        constructor
        · intro all
          have lengths := congrArg List.length all
          obtain rfl : buf = f := (give_begins given).eq_of_length (by omega)
          exact ⟨given,all⟩
        · rintro ⟨whole,all⟩
          obtain rfl := Option.some.inj (given.symm.trans whole)
          exact all
      · -- neither the body nor the read has the 1024 bytes of a part
        rw [whole_long (by omega)]
        constructor
        · intro all
          have lengths := congrArg List.length all
          omega
        · rintro ⟨⟨whole,-⟩,-⟩
          obtain rfl := Option.some.inj (given.symm.trans whole)
          rw [List.length_take] at short
          omega
    · rw [if_neg short] at next
      obtain ⟨rfl,long⟩ := give_full given (by omega)
      have size : (f.take 1024).length = 1024 := by
        rw [List.length_take]
        omega
      have again := ih 1024
      simp only [Nat.min_self] at again
      obtain ⟨body,sent,bound,all⟩ := again short next
      rw [size] at bound all
      rw [List.length_drop] at bound
      refine ⟨env.accept w.tries (f.take 1024) ++ body,by rw [sent,List.append_assoc],?_,?_⟩
      · rw [List.length_append]
        omega
      · rw [whole_long long,← all]
        constructor
        · intro same
          have lengths := congrArg List.length same
          rw [List.length_append] at lengths
          have halves : env.accept w.tries (f.take 1024) ++ body = f.take 1024 ++ f.drop 1024 := by
            rw [same,List.take_append_drop]
          obtain ⟨front,back⟩ := List.append_inj halves (by omega)
          exact ⟨⟨given,front⟩,back⟩
        · rintro ⟨⟨-,front⟩,back⟩
          rw [front,back,List.take_append_drop]

/-! The head of the reply. -/

/-- From one state to the next exactly the bytes went out, and no file was read. -/
structure Wrote (w w' : World) (buf : Bytes) : Prop where
  sent : w'.sent = w.sent ++ buf
  reads : w'.reads = w.reads
  tries : w'.tries = w.tries

theorem Wrote.trans {first second : Bytes} (before : Wrote w w' first) (after : Wrote w' w'' second) : Wrote w w'' (first ++ second) :=
  ⟨by rw [after.sent,before.sent,List.append_assoc],after.reads.trans before.reads,after.tries.trans before.tries⟩

theorem write_all_ok {buf : Bytes} (ran : write_all env buf w = (.ok (),w')) : Wrote w w' buf := by
  unfold write_all at ran
  cases answer : env.writes w.writes with
  | none =>
    rw [answer] at ran
    cases ran
    exact ⟨rfl,rfl,rfl⟩
  | some taken =>
    rw [answer] at ran
    cases ran

def crlf : Bytes := [13,10]

theorem encode_line (text : List Char) : encode (text ++ "\r\n".toList) = encode text ++ crlf := encode_append _ _

theorem start_response_ok (ran : start_response env 200 w = (.ok (),w')) : Wrote w w' (encode "HTTP/1.0 200 OK".toList ++ crlf) :=
  write_all_ok ran

theorem send_header_ok {key value : List Char} (ran : send_header env key value w = (.ok (),w')) :
    Wrote w w' (encode (key ++ ": ".toList ++ value) ++ crlf) := by
  rw [← encode_line]
  exact write_all_ok ran

theorem end_headers_ok (ran : end_headers env w = (.ok (),w')) : Wrote w w' crlf := write_all_ok ran

def headLines (path : Path) (len : Nat) : List (List Char) :=
  ["HTTP/1.0 200 OK".toList,"Content-Type".toList ++ ": ".toList ++ get_mime_type path,
    "Content-Length".toList ++ ": ".toList ++ Nat.toDigits 10 len]

theorem send_file_ok {path : Path} {file : File} (ran : send_file env path file w = (.ok (),w')) : ∃ len w1,file.metadata = some len ∧
    Wrote w w1 ((headLines path len).flatMap (encode · ++ crlf) ++ crlf) ∧ copy env file.contents w1 = (.ok (),w') := by
  unfold send_file at ran
  cases known : file.metadata with
  | none =>
    rw [known] at ran
    cases ran
  | some len =>
    rw [known] at ran
    obtain ⟨⟨⟩,w1,status,ran⟩ := bind_ok.mp ran
    obtain ⟨⟨⟩,w2,mime,ran⟩ := bind_ok.mp ran
    obtain ⟨⟨⟩,w3,length,ran⟩ := bind_ok.mp ran
    obtain ⟨⟨⟩,w4,empty,ran⟩ := bind_ok.mp ran
    refine ⟨len,w4,rfl,?_,ran⟩
    have wrote := (((start_response_ok status).trans (send_header_ok mime)).trans (send_header_ok length)).trans (end_headers_ok empty)
    simp only [headLines,List.flatMap_cons,List.flatMap_nil,List.append_nil,List.append_assoc] at wrote ⊢
    exact wrote

/-! The client. -/

theorem replyFrom_line {line : Bytes} (text : Bytes) (clean : 13 ∉ text) (some_ : line ++ text ≠ []) (rest : Bytes) :
    replyFrom line (text ++ 13 :: 10 :: rest) = ((line ++ text) :: (replyOf rest).1,(replyOf rest).2) := by
  induction text generalizing line with
  | nil =>
    rw [List.append_nil] at some_ ⊢
    rw [List.nil_append,replyFrom,if_neg some_]
    rfl
  | cons c text ih =>
    rw [List.mem_cons,not_or] at clean
    have step : replyFrom line (c :: (text ++ 13 :: 10 :: rest)) = replyFrom (line ++ [c]) (text ++ 13 :: 10 :: rest) := by
      rw [replyFrom]
      rintro rest' rfl
      exact absurd rfl clean.1
    rw [List.cons_append,step,ih clean.2 (by simp),List.append_assoc,List.singleton_append]

theorem replyOf_lines (lines : List Bytes) (clean : ∀ line ∈ lines, line ≠ [] ∧ 13 ∉ line) (body : Bytes) :
    replyOf (lines.flatMap (· ++ crlf) ++ crlf ++ body) = (lines,body) := by
  induction lines with
  | nil => rfl
  | cons line lines ih =>
    obtain ⟨some_,apart⟩ := clean line (by simp)
    have next := ih fun other inside => clean other (by simp [inside])
    have first : replyOf (line ++ 13 :: 10 :: (lines.flatMap (· ++ crlf) ++ crlf ++ body)) = _ :=
      replyFrom_line line apart (show [] ++ line ≠ [] from some_) _
    rw [next] at first
    simp only [List.flatMap_cons,List.append_assoc] at first ⊢
    exact first

theorem mem_encode {b : UInt8} (ascii : b < 128) {chars : List Char} (inside : b ∈ encode chars) : Char.ofNat b.toNat ∈ chars := by
  obtain ⟨front,back,same⟩ := List.append_of_mem inside
  obtain ⟨left,right,rfl,-,-⟩ := encode_eq_separated ascii same
  simp

theorem get_mime_type_clean (path : Path) : '\r' ∉ get_mime_type path := by
  unfold get_mime_type
  split
  all_goals decide

theorem digits_clean (n : Nat) : '\r' ∉ Nat.toDigits 10 n := by
  intro inside
  exact absurd (Nat.isDigit_of_mem_toDigits (by decide) (by decide) inside) (by decide)

theorem encode_ne_nil {text : List Char} (some_ : text ≠ []) : encode text ≠ [] := by
  obtain ⟨c,rest,rfl⟩ := List.exists_cons_of_ne_nil some_
  rw [encode_cons]
  exact List.append_ne_nil_of_left_ne_nil String.utf8EncodeChar_ne_nil _

theorem headLines_clean (path : Path) (len : Nat) : ∀ line ∈ (headLines path len).map encode,line ≠ [] ∧ 13 ∉ line := by
  have clean : ∀ text ∈ headLines path len,text ≠ [] ∧ '\r' ∉ text := by
    intro text inside
    simp only [headLines,List.mem_cons,List.not_mem_nil,or_false] at inside
    rcases inside with rfl | rfl | rfl
    · decide
    · refine ⟨nofun,?_⟩
      rw [List.mem_append,not_or]
      exact ⟨by decide,get_mime_type_clean path⟩
    · refine ⟨nofun,?_⟩
      rw [List.mem_append,not_or]
      exact ⟨by decide,digits_clean len⟩
  intro line inside
  obtain ⟨text,member,rfl⟩ := List.mem_map.mp inside
  refine ⟨encode_ne_nil (clean text member).1,?_⟩
  intro cut
  exact (clean text member).2 (mem_encode (by decide) cut)

theorem headerOf_length (path : Path) (len : Nat) :
    headerOf "Content-Length".toList ((headLines path len).map encode) = some (encode (Nat.toDigits 10 len)) := by
  have other : (encode ("Content-Length".toList ++ ": ".toList)).isPrefixOf
      (encode ("Content-Type".toList ++ ": ".toList ++ get_mime_type path)) = false := by
    rw [encode_append]
    rfl
  have here : (encode ("Content-Length".toList ++ ": ".toList)).isPrefixOf
      (encode ("Content-Length".toList ++ ": ".toList ++ Nat.toDigits 10 len)) = true := by
    rw [encode_append _ (Nat.toDigits 10 len),List.isPrefixOf_iff_prefix]
    exact List.prefix_append _ _
  unfold headerOf headLines
  rw [List.map_cons,List.map_cons,List.map_cons,List.find?_cons_of_neg (by decide),List.find?_cons_of_neg (by rw [other]; exact Bool.false_ne_true),
    List.find?_cons_of_pos here,Option.map_some,encode_append _ (Nat.toDigits 10 len),List.drop_left]

/-- The body is the file, and the length in the header is the one of the body. -/
structure Faithful (contents sent : Bytes) : Prop where
  body : (replyOf sent).2 = contents
  length : headerOf "Content-Length".toList (replyOf sent).1 = some (encode (Nat.toDigits 10 (replyOf sent).2.length))

/-- The request names the file, or a directory with the file as its index. -/
def Serves (env : Env) (s : List Bytes) (file : File) : Prop :=
  ∃ parsed,parse_request s = .ok parsed ∧ path_exists env ('.' :: parsed.path) = true ∧
    if env.is_dir ('.' :: parsed.path) then
      path_exists env (format_index ('.' :: parsed.path ++ ['/'])) = true ∧
        env.file (format_index ('.' :: parsed.path ++ ['/'])) = some file
    else env.is_file ('.' :: parsed.path) = true ∧ env.file ('.' :: parsed.path) = some file

theorem open_and_send_file {path : Path} {file : File} (named : env.file path = some file) :
    open_and_send env path w = send_file env path file { w with opened := w.opened ++ [path] } := by
  have opened : open_file env path w = (Except.ok (some file),{ w with opened := w.opened ++ [path] }) := by
    rw [← named]
    rfl
  rw [open_and_send,bind_go opened]

theorem handle_socket_serves {s : List Bytes} {file : File} (serves : Serves env s file) (w : World) :
    ∃ path,handle_socket env s w = send_file env path file { w with opened := w.opened ++ [path] } := by
  obtain ⟨parsed,request_,here,named⟩ := serves
  unfold handle_socket
  rw [bind_go (request_ok request_ w)]
  simp only [here,if_true]
  by_cases directory : env.is_dir ('.' :: parsed.path) = true
  · rw [if_pos directory] at named ⊢
    refine ⟨format_index ('.' :: parsed.path ++ ['/']),?_⟩
    rw [if_pos named.1,open_and_send_file named.2]
  · rw [if_neg directory] at named ⊢
    refine ⟨'.' :: parsed.path,?_⟩
    rw [if_pos named.1,open_and_send_file named.2]

/-- The reply of a run that serves a file. -/
theorem serves_reply {s : List Bytes} {file : File} (serves : Serves env s file)
    (regular : file.metadata = some file.contents.length) (ran : handle_socket env s .start = (.ok (),w)) :
    ∃ path body,replyOf w.sent = ((headLines path file.contents.length).map encode,body) ∧
      (body = file.contents ↔ Whole env 0 0 file.contents) := by
  obtain ⟨path,same⟩ := handle_socket_serves serves .start
  rw [same] at ran
  obtain ⟨len,w1,known,wrote,copied⟩ := send_file_ok ran
  obtain rfl := Option.some.inj (regular.symm.trans known)
  obtain ⟨body,sent,-,whole⟩ := copy_spec copied
  rw [wrote.reads,wrote.tries] at whole
  refine ⟨path,body,?_,whole⟩
  have lines := replyOf_lines _ (headLines_clean path file.contents.length) body
  rw [sent,wrote.sent,← lines,List.flatMap_map]
  rfl

/-- A run that serves a file sends the file, and its length, exactly when each part of 1024 bytes and
the rest behind them come in one read and go out in one write. -/
theorem body_faithful_iff {s : List Bytes} {file : File} (serves : Serves env s file)
    (regular : file.metadata = some file.contents.length) (ran : handle_socket env s .start = (.ok (),w)) :
    Faithful file.contents w.sent ↔ Whole env 0 0 file.contents := by
  obtain ⟨path,body,reply,whole⟩ := serves_reply serves regular ran
  rw [← whole]
  constructor
  · intro faithful
    have same := faithful.body
    rwa [reply] at same
  · intro all
    refine ⟨by rw [reply]; exact all,?_⟩
    rw [reply,all]
    exact headerOf_length path _

/-! One file that every path names. -/

def oneFile (contents : Bytes) (tries : Nat → Option Nat) : Env where
  found _ := true
  is_dir _ := false
  is_file _ := true
  file _ := some ⟨contents,some contents.length⟩
  dir _ := none
  reads _ := some 1023
  tries := tries
  writes _ := none

theorem serves_oneFile (contents : Bytes) (tries : Nat → Option Nat) :
    Serves (oneFile contents tries) [encode ['G',' ','/'] ++ ['\r'.toUInt8]] ⟨contents,some contents.length⟩ :=
  ⟨⟨['G'],['/']⟩,parse_request_line (by decide) (show _ = ['G'] :: ['/'] :: [] by decide),rfl,rfl,rfl⟩

theorem oneFile_runs {contents : Bytes} (short : contents.length < 1024) (tries : Nat → Option Nat) :
    ∃ w,handle_socket (oneFile contents tries) [encode ['G',' ','/'] ++ ['\r'.toUInt8]] .start = (.ok (),w) := by
  obtain ⟨path,same⟩ := handle_socket_serves (serves_oneFile contents tries) .start
  have last (w : World) : ∃ w',copy (oneFile contents tries) contents w = (.ok (),w') := by
    have all : (contents.take 1024).length < 1024 := by
      rw [List.length_take]
      omega
    have got : next_read (oneFile contents tries) w = (Except.ok 1024,{ w with reads := w.reads + 1 }) := rfl
    rw [copy,bind_go got]
    simp only [Nat.min_self,if_pos all]
    exact ⟨_,rfl⟩
  obtain ⟨w',done⟩ := last _
  exact ⟨w',same.trans done⟩

theorem body_faithful_iff_two : ∃ w,
    handle_socket (oneFile [104,105] fun _ => some 1024) [encode ['G',' ','/'] ++ ['\r'.toUInt8]] .start = (.ok (),w) ∧
      (Faithful [104,105] w.sent ↔ Whole (oneFile [104,105] fun _ => some 1024) 0 0 [104,105]) := by
  obtain ⟨w,ran⟩ := oneFile_runs (show [104,105].length < 1024 by decide) fun _ => some 1024
  exact ⟨w,ran,body_faithful_iff (serves_oneFile [104,105] fun _ => some 1024) rfl ran⟩

/-- The socket would block when the two bytes of the file are written, and the reply is a success
without them. -/
theorem not_body_faithful :
    ¬ ∀ (env : Env) (s : List Bytes) (file : File) (w : World),Serves env s file → file.metadata = some file.contents.length →
      handle_socket env s .start = (.ok (),w) → Faithful file.contents w.sent := by
  intro all
  obtain ⟨w,ran⟩ := oneFile_runs (show [104,105].length < 1024 by decide) fun _ => none
  have faithful := all _ _ _ w (serves_oneFile [104,105] fun _ => none) rfl ran
  obtain ⟨path,body,reply,whole⟩ := serves_reply (serves_oneFile [104,105] fun _ => none) rfl ran
  have same := faithful.body
  rw [reply] at same
  have accepted := (whole.mp same 0 (Nat.zero_le _)).2
  exact absurd accepted (by decide)

end

end OsProj.Http
