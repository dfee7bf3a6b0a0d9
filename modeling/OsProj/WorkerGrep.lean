import Mathlib.Data.Nat.Digits.Lemmas
import Mathlib.Data.List.Infix
import OsProj.WorkerDegree

/-! The line search of hw-map-reduce/app/grep. The map function cuts the content at its
newlines by writing zeros over them, and keeps the lines as pointers into that buffer; the
reduce function sorts the formatted lines by the numbers that it reads back from them. -/
namespace OsProj.Worker

open OsProj.ByteList
open OsProj.Faulting

def cstringAt (buffer : Bytes) (p : Nat) : Bytes := (buffer.drop p).takeWhile fun b => b != 0

def findSub (needle : Bytes) : Bytes → Option Nat
  | [] => if needle = [] then some 0 else none
  | b :: rest => if needle.isPrefixOf (b :: rest) then some 0 else (findSub needle rest).map (· + 1)

def strstr (buffer : Bytes) (haystack : Nat) (needle : Bytes) : Option Nat :=
  (findSub needle (cstringAt buffer haystack)).map (haystack + ·)

structure Occurrence where
  lineNum : Nat
  line : Nat
  deriving DecidableEq, Repr

def findLoop (search : Bytes) : Nat → Bytes → Nat → Nat → List Occurrence → Except Fault (Bytes × List Occurrence)
  | 0,_,_,_,_ => .error .unending
  | fuel + 1,contents,rest,lineNum,occurrences =>
    match strstr contents rest [10] with
    | none => .ok (contents,occurrences)
    | some end_ =>
      let contents := contents.set end_ 0
      let occurrences := if (strstr contents rest search).isSome then occurrences ++ [⟨lineNum,rest⟩] else occurrences
      if lineNum + 1 < intLimit then findLoop search fuel contents (end_ + 1) (lineNum + 1) occurrences
      else .error .overflow

/-- The changed buffer and the occurrences. Every newline is met once. -/
def findOccurrences (contents search : Bytes) : Except Fault (Bytes × List Occurrence) :=
  findLoop search (contents.length + 1) contents 0 1 []

/-- What `%d` prints for a number that is not negative. -/
def decimalBytes (n : Nat) : Bytes := if n = 0 then [48] else (Nat.digits 10 n).reverse.map fun d => UInt8.ofNat (48 + d)

def entryText (lineNum : Nat) (line : Bytes) : Bytes := 9 :: (decimalBytes lineNum ++ 58 :: 32 :: line)

/-- The loop of `grep_map` over the occurrences; `kva` is the written part of an array of `n`
pairs, `sprintf` has no result for a text that is too long for an `int`. -/
def entryLoop (key contents : Bytes) (n : Nat) : List Occurrence → List KeyValue → Except Fault (List KeyValue)
  | [],kva => .ok kva
  | occ :: rest,kva =>
    let text := entryText occ.lineNum (cstringAt contents occ.line)
    if kva.length < n then
      if text.length < intLimit ∧ kva.length + 1 < intLimit then entryLoop key contents n rest (kva ++ [⟨key,text⟩])
      else .error .overflow
    else .error .outOfBounds

def grepMap (input : KeyValue) (aux : Bytes) : Except Fault (List KeyValue) := do
  let search := cstringAt (sizedBufferToStr aux) 0
  let (contents,occurrences) ← findOccurrences (sizedBufferToStr input.value) search
  let n := occurrences.length % guintLimit
  let kva ← entryLoop input.key contents n occurrences []
  if kva.length < n then throw .outOfBounds
  return kva

def atoi (str : Bytes) : Int :=
  match strtol str with
  | some (value,_) => toInt value
  | none => 0

def grepLineNumCompareFn (kv1 kv2 : KeyValue) : Int :=
  toInt (atoi (sizedBufferToStr kv1.value) - atoi (sizedBufferToStr kv2.value))

def totalLoop : Nat → Nat → List KeyValue → Except Fault Nat
  | _,total,[] => .ok total
  | i,total,kv :: rest => if i + 1 < intLimit then totalLoop (i + 1) (total + (kv.value.length + 1)) rest else .error .overflow

/-- The second loop of `grep_reduce`; `out` is the written part of the buffer without the
terminating zero, so that `index` is its length. A negative precision counts as none. -/
def printLoop (total : Nat) : Nat → Bytes → List KeyValue → Except Fault Bytes
  | _,out,[] => .ok out
  | i,out,kv :: rest =>
    let precision := toInt kv.value.length
    if precision < 0 then .error .outOfBounds
    else
      let text := (kv.value.take precision.toNat).takeWhile (fun b => b != 0) ++ [10]
      if out.length + text.length < intLimit ∧ i + 1 < intLimit then
        if out.length + text.length ≤ total then printLoop total (i + 1) (out ++ text) rest else .error .outOfBounds
      else .error .overflow

/-- Bytes of the result that were never written are a fault. -/
def grepReduce (qsort : Qsort) (key : Bytes) (input : List KeyValue) (_aux : Bytes) : Except Fault KeyValue := do
  let kvs := qsort grepLineNumCompareFn input
  let total ← totalLoop 0 0 kvs
  let out ← printLoop total 0 [] kvs
  if total = 0 ∨ out.length + 1 < total - 1 then throw .outOfBounds
  return ⟨key,(out ++ [0]).take (total - 1)⟩

def grepApp (qsort : Qsort) : App := ⟨grepMap,grepReduce qsort⟩

/-! Lines, as the search should see them. -/

def endedLines (content : Bytes) : List Bytes := (content.splitOnP fun b => b == 10).dropLast

def lastLine (content : Bytes) : Bytes := (content.splitOnP fun b => b == 10).getLastD []

/-- The pieces between newlines; behind a newline at the end there is no line. -/
def allLines (content : Bytes) : List Bytes :=
  if lastLine content = [] then endedLines content else endedLines content ++ [lastLine content]

/-- The lines that contain the search string, with their numbers from `first` on. -/
def foundLines (search : Bytes) (first : Nat) (lines : List Bytes) : List (Bytes × Nat) :=
  (lines.zipIdx first).filter fun line => search <:+: line.1

example : foundLines [97] 1 (allLines [97,98,10,10,98,97]) = [([97,98],1),([98,97],3)] := by decide

section
variable {content line rest done search : Bytes} {lines : List Bytes}

theorem findSub_isSome (needle s : Bytes) : (findSub needle s).isSome = true ↔ needle <:+: s := by
  induction s with
  | nil =>
    rw [findSub,List.infix_nil]
    split
    · rename_i empty
      simp [empty]
    · rename_i nonempty
      simp [nonempty]
  | cons b rest ih =>
    rw [findSub,List.infix_cons_iff]
    split
    · rename_i here
      simp [List.isPrefixOf_iff_prefix.mp here]
    · rename_i elsewhere
      rw [Option.isSome_map,ih]
      constructor
      · exact .inr
      · rintro (here | later)
        · exact absurd (List.isPrefixOf_iff_prefix.mpr here) elsewhere
        · exact later

theorem findSub_newline (clean : 10 ∉ line) (rest : Bytes) : findSub [10] (line ++ 10 :: rest) = some line.length := by
  induction line with
  | nil => simp [findSub]
  | cons b line ih =>
    rw [List.mem_cons,not_or] at clean
    rw [List.cons_append,findSub,if_neg (by simpa using clean.1),ih clean.2]
    rfl

theorem findSub_none (clean : 10 ∉ line) : findSub [10] line = none := by
  rw [← Option.not_isSome_iff_eq_none,findSub_isSome,List.singleton_infix_iff]
  exact clean

theorem nonzero_clean (clean : 0 ∉ line) : ∀ b ∈ line, (b != 0) = true := by
  intro b inside
  rw [bne_iff_ne]
  rintro rfl
  exact clean inside

/-- The string at an offset ends with the next zero. -/
theorem cstringAt_clean (clean : 0 ∉ line) (done rest : Bytes) : cstringAt (done ++ (line ++ 0 :: rest)) done.length = line := by
  rw [cstringAt,List.drop_left,List.takeWhile_append_of_pos (nonzero_clean clean)]
  simp

theorem lines_split (content : Bytes) : (content.splitOnP fun b => b == 10) = endedLines content ++ [lastLine content] := by
  have nonempty := List.splitOnP_ne_nil (fun b : UInt8 => b == 10) content
  rw [endedLines,lastLine,List.getLastD_eq_getLast?,List.getLast?_eq_some_getLast nonempty,Option.getD_some,
    List.dropLast_append_getLast]

theorem lines_of_split (split_ : (content.splitOnP fun b => b == 10) = lines ++ [line]) :
    endedLines content = lines ∧ lastLine content = line := by
  rw [endedLines,lastLine,split_]
  simp

/-- A content is its lines, each with its newline, and what stands behind the last one. -/
theorem lines_content (content : Bytes) :
    content = (endedLines content).flatMap (· ++ [10]) ++ lastLine content ∧
      (∀ line ∈ endedLines content, 10 ∉ line) ∧ 10 ∉ lastLine content := by
  induction content with
  | nil => decide
  | cons b content ih =>
    obtain ⟨whole,ended,last⟩ := ih
    have split_ := lines_split content
    have next : ((b :: content).splitOnP fun b => b == 10) = if b == 10 then [] :: content.splitOnP (fun b => b == 10)
        else (content.splitOnP fun b => b == 10).modifyHead (b :: ·) := List.splitOnP_cons_eq_if_modifyHead ..
    rw [split_] at next
    by_cases newline : b = 10
    · subst newline
      rw [if_pos (by decide),← List.cons_append] at next
      obtain ⟨lines,line⟩ := lines_of_split next
      rw [lines,line]
      refine ⟨?_,?_,last⟩
      · rw [List.flatMap_cons,List.append_assoc,← whole]
        rfl
      · intro line inside
        rcases List.mem_cons.mp inside with rfl | later
        · exact List.not_mem_nil
        · exact ended line later
    · rw [if_neg (by simpa using newline)] at next
      cases before : endedLines content with
      | nil =>
        rw [before,List.nil_append,List.modifyHead_cons] at next
        obtain ⟨lines,line⟩ := lines_of_split (show _ = [] ++ [b :: lastLine content] from next)
        rw [before,List.flatMap_nil,List.nil_append] at whole
        rw [lines,line]
        refine ⟨?_,fun _ none_ => absurd none_ List.not_mem_nil,?_⟩
        · rw [← whole]
          rfl
        · rw [List.mem_cons,not_or]
          exact ⟨fun same => newline same.symm,last⟩
      | cons first more =>
        rw [before,List.cons_append,List.modifyHead_cons,← List.cons_append] at next
        obtain ⟨lines,line⟩ := lines_of_split next
        rw [before] at whole ended
        rw [lines,line]
        refine ⟨?_,?_,last⟩
        · rw [List.flatMap_cons,List.append_assoc,List.cons_append,List.cons_append] at *
          rw [← whole]
        · intro line inside
          rcases List.mem_cons.mp inside with rfl | later
          · rw [List.mem_cons,not_or]
            exact ⟨fun same => newline same.symm,ended first (List.mem_cons_self ..)⟩
          · exact ended line (List.mem_cons_of_mem _ later)

def occurrencesFrom (search : Bytes) : Nat → Nat → List Bytes → List Occurrence
  | _,_,[] => []
  | offset,lineNum,line :: rest =>
    if search <:+: line then ⟨lineNum,offset⟩ :: occurrencesFrom search (offset + line.length + 1) (lineNum + 1) rest
    else occurrencesFrom search (offset + line.length + 1) (lineNum + 1) rest

/-- The loop cuts the lines apart; `done` is cut already. -/
theorem findLoop_lines (clean : ∀ l ∈ lines, 0 ∉ l ∧ 10 ∉ l) (last : 0 ∉ line ∧ 10 ∉ line) (done : Bytes) (occurrences : List Occurrence)
    (enough : lines.length < fuel) (before : lineNum < intLimit) :
    findLoop search fuel (done ++ (lines.flatMap (· ++ [10]) ++ (line ++ [0]))) done.length lineNum occurrences =
      if lineNum + lines.length < intLimit then
        .ok (done ++ (lines.flatMap (· ++ [0]) ++ (line ++ [0])),occurrences ++ occurrencesFrom search done.length lineNum lines)
      else .error .overflow := by
  induction lines generalizing done occurrences fuel lineNum with
  | nil =>
    obtain ⟨fuel,rfl⟩ : ∃ k, fuel = k + 1 := ⟨fuel - 1,by omega⟩
    have whole : done ++ (([] : List Bytes).flatMap (· ++ [10]) ++ (line ++ [0])) = done ++ (line ++ 0 :: []) := rfl
    rw [whole,findLoop,strstr,cstringAt_clean last.1,findSub_none last.2,if_pos (by simpa using before)]
    simp [occurrencesFrom]
  | cons first lines ih =>
    obtain ⟨fuel,rfl⟩ : ∃ k, fuel = k + 1 := ⟨fuel - 1,by omega⟩
    rw [List.length_cons] at enough
    obtain ⟨solid,single⟩ := clean first (List.mem_cons_self ..)
    have later : ∀ l ∈ lines, 0 ∉ l ∧ 10 ∉ l := fun l inside => clean l (List.mem_cons_of_mem _ inside)
    let text := lines.flatMap (· ++ [10]) ++ line
    have zeroless : 0 ∉ first ++ 10 :: text := by
      simp only [text,List.mem_append,List.mem_cons,List.mem_flatMap,not_or]
      refine ⟨solid,by decide,?_,last.1⟩
      rintro ⟨l,inside,zero | zero⟩
      · exact (later l inside).1 zero
      · simp at zero
    have whole : done ++ ((first :: lines).flatMap (· ++ [10]) ++ (line ++ [0])) = done ++ (first ++ 10 :: text ++ 0 :: []) := by
      simp [text]
    have cut : (done ++ (first ++ 10 :: text ++ 0 :: [])).set (done.length + first.length) 0 = done ++ (first ++ 0 :: (text ++ [0])) := by
      simp
    have newline : strstr (done ++ (first ++ 10 :: text ++ 0 :: [])) done.length [10] = some (done.length + first.length) := by
      rw [strstr,cstringAt_clean zeroless,findSub_newline single]
      rfl
    have hit : (strstr (done ++ (first ++ 0 :: (text ++ [0]))) done.length search).isSome = true ↔ search <:+: first := by
      rw [strstr,cstringAt_clean solid,Option.isSome_map,findSub_isSome]
    rw [whole,findLoop,newline,List.length_cons,show lineNum + (lines.length + 1) = lineNum + 1 + lines.length by omega]
    dsimp only
    rw [cut]
    by_cases fits : lineNum + 1 < intLimit
    · have after : done ++ (first ++ 0 :: (text ++ [0])) =
          done ++ first ++ [0] ++ (lines.flatMap (· ++ [10]) ++ (line ++ [0])) := by simp [text]
      have place : (done ++ first ++ [0]).length = done.length + first.length + 1 := by
        rw [List.length_append,List.length_append,List.length_singleton]
      rw [if_pos fits,after,← place,ih later (done ++ first ++ [0]) _ (by omega) fits,place,← after]
      have final : done ++ first ++ [0] ++ (lines.flatMap (· ++ [0]) ++ (line ++ [0])) =
          done ++ ((first :: lines).flatMap (· ++ [0]) ++ (line ++ [0])) := by simp
      rw [final,occurrencesFrom]
      by_cases hits : search <:+: first
      · rw [if_pos (hit.mpr hits),if_pos hits,List.append_assoc,List.singleton_append]
      · rw [if_neg (fun some_ => hits (hit.mp some_)),if_neg hits]
    · rw [if_neg fits,if_neg (by omega)]

/-- The lines are read back from the cut buffer. -/
theorem occurrencesFrom_lines (clean : ∀ l ∈ lines, 0 ∉ l) (done rest : Bytes) (lineNum : Nat) :
    (occurrencesFrom search done.length lineNum lines).map
      (fun occ => (cstringAt (done ++ (lines.flatMap (· ++ [0]) ++ rest)) occ.line,occ.lineNum)) = foundLines search lineNum lines := by
  induction lines generalizing done lineNum with
  | nil => rfl
  | cons first lines ih =>
    have whole : done ++ ((first :: lines).flatMap (· ++ [0]) ++ rest) =
        done ++ first ++ [0] ++ (lines.flatMap (· ++ [0]) ++ rest) := by simp
    have place : (done ++ first ++ [0]).length = done.length + first.length + 1 := by
      rw [List.length_append,List.length_append,List.length_singleton]
    have line : cstringAt (done ++ first ++ [0] ++ (lines.flatMap (· ++ [0]) ++ rest)) done.length = first := by
      have here := cstringAt_clean (clean first (List.mem_cons_self ..)) done (lines.flatMap (· ++ [0]) ++ rest)
      simpa using here
    have next := ih (fun l inside => clean l (List.mem_cons_of_mem _ inside)) (done ++ first ++ [0]) (lineNum + 1)
    rw [place] at next
    rw [whole,occurrencesFrom,foundLines,List.zipIdx_cons]
    by_cases hits : search <:+: first
    · rw [if_pos hits,List.map_cons,next,line,List.filter_cons_of_pos (by simpa using hits)]
      rfl
    · rw [if_neg hits,next,List.filter_cons_of_neg (by simpa using hits)]
      rfl

def cutContent (content : Bytes) : Bytes := (endedLines content).flatMap (· ++ [0]) ++ (lastLine content ++ [0])

theorem lines_clean (clean : 0 ∉ content) : (∀ l ∈ endedLines content, 0 ∉ l ∧ 10 ∉ l) ∧ 0 ∉ lastLine content ∧ 10 ∉ lastLine content := by
  obtain ⟨whole,ended,last⟩ := lines_content content
  rw [whole] at clean
  simp only [List.mem_append,List.mem_flatMap,not_or,not_exists,not_and] at clean
  exact ⟨fun l inside => ⟨fun zero => clean.1 l inside |>.1 zero,ended l inside⟩,clean.2,last⟩

theorem lines_length (content : Bytes) : (endedLines content).length ≤ content.length := by
  have whole := congrArg List.length (lines_content content).1
  have each : ∀ lines : List Bytes, lines.length ≤ (lines.flatMap (· ++ [10])).length := by
    intro lines
    induction lines with
    | nil => exact Nat.le_refl _
    | cons l lines ih =>
      rw [List.flatMap_cons,List.length_append,List.length_append,List.length_singleton,List.length_cons]
      omega
  have ended := each (endedLines content)
  rw [List.length_append] at whole
  omega

theorem findOccurrences_lines (clean : 0 ∉ content) (search : Bytes) :
    findOccurrences (sizedBufferToStr content) search =
      if (endedLines content).length + 1 < intLimit then .ok (cutContent content,occurrencesFrom search 0 1 (endedLines content))
      else .error .overflow := by
  obtain ⟨ended,last⟩ := lines_clean clean
  have few := lines_length content
  have whole : sizedBufferToStr content = [] ++ ((endedLines content).flatMap (· ++ [10]) ++ (lastLine content ++ [0])) := by
    rw [List.nil_append,← List.append_assoc,← (lines_content content).1]
    rfl
  have enough : (endedLines content).length < (sizedBufferToStr content).length + 1 := by
    rw [sizedBufferToStr,List.length_append]
    omega
  have ran : findLoop search _ _ _ _ _ = _ := findLoop_lines ended last [] [] enough (show 1 < intLimit by decide)
  rw [← whole,Nat.add_comm 1] at ran
  exact ran

def entries (key : Bytes) (lines : List (Bytes × Nat)) : List KeyValue := lines.map fun line => ⟨key,entryText line.2 line.1⟩

def reportSize (lines : List (Bytes × Nat)) : Nat := (lines.map fun line => (entryText line.2 line.1).length + 1).sum

theorem entryText_length (lineNum : Nat) (line : Bytes) : 0 < (entryText lineNum line).length := Nat.succ_pos _

theorem reportSize_cons (line : Bytes × Nat) (lines : List (Bytes × Nat)) :
    reportSize (line :: lines) = (entryText line.2 line.1).length + 1 + reportSize lines := by
  simp [reportSize]

theorem reportSize_bounds (lines : List (Bytes × Nat)) :
    lines.length ≤ reportSize lines ∧ ∀ line ∈ lines, (entryText line.2 line.1).length < reportSize lines := by
  induction lines with
  | nil => exact ⟨Nat.le_refl _,fun _ none_ => absurd none_ List.not_mem_nil⟩
  | cons first lines ih =>
    rw [reportSize_cons,List.length_cons]
    refine ⟨by omega,?_⟩
    intro line inside
    rcases List.mem_cons.mp inside with rfl | later
    · omega
    · have bound := ih.2 line later
      omega

/-- The loop of `grep_map` writes the entries, or it does not come to its end. -/
theorem entryLoop_entries {occurrences : List Occurrence} (room : kva.length + occurrences.length ≤ n)
    (fits : kva.length + reportSize (occurrences.map fun occ => (cstringAt contents occ.line,occ.lineNum)) < intLimit) :
    entryLoop key contents n occurrences kva =
      .ok (kva ++ entries key (occurrences.map fun occ => (cstringAt contents occ.line,occ.lineNum))) := by
  induction occurrences generalizing kva with
  | nil => simp [entryLoop,entries]
  | cons occ occurrences ih =>
    rw [List.map_cons,reportSize_cons] at fits
    rw [List.length_cons] at room
    dsimp only at fits
    have text := entryText_length occ.lineNum (cstringAt contents occ.line)
    rw [entryLoop,if_pos (by omega),if_pos (by omega),ih]
    · simp [entries]
    · rw [List.length_append,List.length_singleton]
      omega
    · rw [List.length_append,List.length_singleton]
      omega

theorem entryLoop_ok {occurrences : List Occurrence} (ran : entryLoop key contents n occurrences kva = .ok kva') :
    kva' = kva ++ entries key (occurrences.map fun occ => (cstringAt contents occ.line,occ.lineNum)) ∧
      ∀ occ ∈ occurrences, (entryText occ.lineNum (cstringAt contents occ.line)).length < intLimit := by
  induction occurrences generalizing kva with
  | nil =>
    cases ran
    simp [entries]
  | cons occ occurrences ih =>
    rw [entryLoop] at ran
    split at ran
    · split at ran
      · rename_i fits
        obtain ⟨whole,short⟩ := ih ran
        refine ⟨by rw [whole]; simp [entries],?_⟩
        intro other inside
        rcases List.mem_cons.mp inside with rfl | later
        · exact fits.1
        · exact short other later
      · cases ran
    · cases ran

theorem str_clean (clean : 0 ∉ search) : cstringAt (sizedBufferToStr search) 0 = search := cstringAt_clean clean [] []

theorem occurrences_lines (clean : 0 ∉ content) (search : Bytes) :
    (occurrencesFrom search 0 1 (endedLines content)).map (fun occ => (cstringAt (cutContent content) occ.line,occ.lineNum)) =
      foundLines search 1 (endedLines content) :=
  occurrencesFrom_lines (fun l inside => ((lines_clean clean).1 l inside).1) [] (lastLine content ++ [0]) 1

/-- What `grep_map` returns if it returns: the entries of the lines that end with a newline. -/
theorem grepMap_ok (clean : 0 ∉ content ∧ 0 ∉ search) (ran : grepMap ⟨key,content⟩ search = .ok kva) :
    kva = entries key (foundLines search 1 (endedLines content)) ∧ (endedLines content).length + 1 < intLimit ∧
      ∀ line ∈ foundLines search 1 (endedLines content), (entryText line.2 line.1).length < intLimit := by
  unfold grepMap at ran
  dsimp only at ran
  rw [str_clean clean.2,findOccurrences_lines clean.1] at ran
  by_cases few : (endedLines content).length + 1 < intLimit
  · rw [if_pos few] at ran
    cases filled : entryLoop key (cutContent content) ((occurrencesFrom search 0 1 (endedLines content)).length % guintLimit)
        (occurrencesFrom search 0 1 (endedLines content)) [] with
    | error fault =>
      change (entryLoop key _ _ _ [] >>= _) = _ at ran
      rw [filled] at ran
      cases ran
    | ok kva' =>
      change (entryLoop key _ _ _ [] >>= _) = _ at ran
      rw [go filled] at ran
      obtain ⟨same,short⟩ := entryLoop_ok filled
      have found := occurrences_lines clean.1 search
      rw [found,List.nil_append] at same
      split at ran
      · cases ran
      · cases ran
        refine ⟨same,few,?_⟩
        rw [← found]
        intro line inside
        obtain ⟨occ,member,rfl⟩ := List.mem_map.mp inside
        exact short occ member
  · rw [if_neg few] at ran
    cases ran

/-- It does return when nothing overflows. -/
theorem grepMap_runs (clean : 0 ∉ content ∧ 0 ∉ search) (few : (endedLines content).length + 1 < intLimit)
    (fits : reportSize (foundLines search 1 (endedLines content)) < intLimit) :
    grepMap ⟨key,content⟩ search = .ok (entries key (foundLines search 1 (endedLines content))) := by
  have many := (reportSize_bounds (foundLines search 1 (endedLines content))).1
  have count : (occurrencesFrom search 0 1 (endedLines content)).length = (foundLines search 1 (endedLines content)).length := by
    rw [← occurrences_lines clean.1,List.length_map]
  have small : (occurrencesFrom search 0 1 (endedLines content)).length % guintLimit =
      (foundLines search 1 (endedLines content)).length := by
    rw [count]
    exact Nat.mod_eq_of_lt (by unfold intLimit at fits; unfold guintLimit; omega)
  have filled : entryLoop key (cutContent content) ((occurrencesFrom search 0 1 (endedLines content)).length % guintLimit)
      (occurrencesFrom search 0 1 (endedLines content)) [] = .ok (entries key (foundLines search 1 (endedLines content))) := by
    rw [entryLoop_entries (by rw [small,count,List.length_nil]; omega),occurrences_lines clean.1,List.nil_append]
    rw [occurrences_lines clean.1,List.length_nil]
    omega
  unfold grepMap
  dsimp only
  rw [str_clean clean.2,findOccurrences_lines clean.1,if_pos few]
  change (entryLoop key _ _ _ [] >>= _) = _
  rw [go filled,small,if_neg (by simp [entries])]
  rfl

/-! Numbers are printed and read back. -/

theorem digit_byte (small : d < 10) : isdigit (UInt8.ofNat (48 + d)) = true ∧ (UInt8.ofNat (48 + d)).toNat - 48 = d ∧
    isspace (UInt8.ofNat (48 + d)) = false ∧ UInt8.ofNat (48 + d) ≠ 45 ∧ UInt8.ofNat (48 + d) ≠ 43 ∧ UInt8.ofNat (48 + d) ≠ 0 := by
  revert d
  decide

theorem decimalBytes_digits (n : Nat) : ∃ digits : List Nat, (∀ d ∈ digits, d < 10) ∧ digits ≠ [] ∧ Nat.ofDigits 10 digits = n ∧
    decimalBytes n = digits.reverse.map fun d => UInt8.ofNat (48 + d) := by
  unfold decimalBytes
  by_cases zero : n = 0
  · subst zero
    refine ⟨[0],?_,List.cons_ne_nil _ _,rfl,rfl⟩
    intro d inside
    rw [List.mem_singleton.mp inside]
    decide
  · rw [if_neg zero]
    exact ⟨Nat.digits 10 n,fun d => Nat.digits_lt_base (by decide),Nat.digits_ne_nil_iff_ne_zero.mpr zero,Nat.ofDigits_digits 10 n,rfl⟩

theorem digitsValue_digits {digits : List Nat} (small : ∀ d ∈ digits, d < 10) :
    digitsValue (digits.reverse.map fun d => UInt8.ofNat (48 + d)) = Nat.ofDigits 10 digits := by
  induction digits with
  | nil => rfl
  | cons d digits ih =>
    have rest := ih (fun e inside => small e (List.mem_cons_of_mem _ inside))
    unfold digitsValue at rest ⊢
    rw [List.reverse_cons,List.map_append,List.foldl_append,rest,List.map_singleton,List.foldl_cons,List.foldl_nil,
      (digit_byte (small d (List.mem_cons_self ..))).2.1,Nat.ofDigits_cons]
    omega

/-- `atoi` finds the number at the start of an entry. -/
theorem atoi_entry (small : n < intLimit) (line : Bytes) : atoi (sizedBufferToStr (entryText n line)) = n := by
  obtain ⟨digits,digit,nonempty,value,printed⟩ := decimalBytes_digits n
  have all : ∀ b ∈ decimalBytes n, isdigit b = true ∧ isspace b = false ∧ b ≠ 45 ∧ b ≠ 43 := by
    intro b inside
    rw [printed,List.mem_map] at inside
    obtain ⟨d,member,rfl⟩ := inside
    obtain ⟨yes,_,nospace,minus,plus,_⟩ := digit_byte (digit d (List.mem_reverse.mp member))
    exact ⟨yes,nospace,minus,plus⟩
  have spelled : digitsValue (decimalBytes n) = n := by
    rw [printed,digitsValue_digits digit,value]
  have some_ : decimalBytes n ≠ [] := by
    rw [printed]
    simpa using nonempty
  let tail : Bytes := 58 :: 32 :: (line ++ [0])
  have shape : sizedBufferToStr (entryText n line) = 9 :: (decimalBytes n ++ tail) := by simp [sizedBufferToStr,entryText,tail]
  obtain ⟨b,more,begins⟩ := List.exists_cons_of_ne_nil some_
  have first := all b (begins ▸ List.mem_cons_self ..)
  have unsigned : sign (decimalBytes n) = (false,decimalBytes n) := by
    rw [begins]
    unfold sign
    split
    · rename_i same
      exact absurd (List.cons.inj same).1 first.2.2.1
    · rename_i same
      exact absurd (List.cons.inj same).1 first.2.2.2
    · rfl
  have skipped : (9 :: (decimalBytes n ++ tail)).dropWhile isspace = decimalBytes n ++ tail := by
    rw [List.dropWhile_cons_of_pos (by decide),begins,List.cons_append,List.dropWhile_cons_of_neg]
    rw [first.2.1]
    exact Bool.false_ne_true
  obtain ⟨taken,left⟩ := takeWhile_ended (fun b inside => (all b inside).1) (show tail.head?.all (fun b => !isdigit b) = true from rfl)
  unfold intLimit at small
  unfold atoi strtol
  rw [shape,skipped,sign_append some_,unsigned]
  dsimp only
  rw [taken,left,if_neg some_,signedValue,if_neg Bool.false_ne_true,spelled]
  have clamped : max (-9223372036854775808) (min 9223372036854775807 (n : Int)) = n := by omega
  dsimp only
  rw [clamped,toInt_small (by omega) (by omega)]

theorem entryText_clean (clean : 0 ∉ line) (n : Nat) : 0 ∉ entryText n line := by
  obtain ⟨digits,digit,_,_,printed⟩ := decimalBytes_digits n
  have number : 0 ∉ decimalBytes n := by
    rw [printed,List.mem_map]
    rintro ⟨d,member,zero⟩
    exact (digit_byte (digit d (List.mem_reverse.mp member))).2.2.2.2.2 zero
  simp [entryText,number,clean]

/-! The lines in the order of their numbers. -/

theorem foundLines_ordered (search : Bytes) (first : Nat) (lines : List Bytes) :
    (foundLines search first lines).Pairwise fun a b => a.2 < b.2 := by
  have all : (lines.zipIdx first).Pairwise fun a b => a.2 < b.2 := by
    rw [← List.pairwise_map (f := Prod.snd),List.zipIdx_map_snd]
    exact List.pairwise_lt_range'
  exact all.sublist List.filter_sublist

theorem foundLines_mem (member : (line,n) ∈ foundLines search first lines) :
    line ∈ lines ∧ first ≤ n ∧ n < first + lines.length := by
  have inside := List.mem_zipIdx (List.mem_of_mem_filter member)
  refine ⟨?_,inside.1,inside.2.1⟩
  rw [inside.2.2]
  exact List.getElem_mem _

def readNumber (kv : KeyValue) : Int := atoi (sizedBufferToStr kv.value)

section
variable {found : List (Bytes × Nat)}

theorem readNumber_entries (small : ∀ l ∈ found, l.2 < intLimit) (member : kv ∈ entries key found) :
    ∃ l ∈ found, kv = ⟨key,entryText l.2 l.1⟩ ∧ readNumber kv = l.2 ∧ l.2 < 2147483648 := by
  obtain ⟨l,inside,rfl⟩ := List.mem_map.mp member
  exact ⟨l,inside,rfl,atoi_entry (small l inside) l.1,small l inside⟩

theorem compare_entries (small : ∀ l ∈ found, l.2 < intLimit) (inA : a ∈ entries key found) (inB : b ∈ entries key found) :
    grepLineNumCompareFn a b ≤ 0 ↔ readNumber a ≤ readNumber b := by
  obtain ⟨l,_,_,numberA,smallL⟩ := readNumber_entries small inA
  obtain ⟨r,_,_,numberB,smallR⟩ := readNumber_entries small inB
  change toInt (readNumber a - readNumber b) ≤ 0 ↔ _
  rw [numberA,numberB,toInt_small (by omega) (by omega)]
  omega

/-- In whatever order the entries come, sorting puts them back. -/
theorem qsort_entries (sorts : Sorts qsort) (increasing : found.Pairwise fun a b => a.2 < b.2) (small : ∀ l ∈ found, l.2 < intLimit)
    (perm : order.Perm (entries key found)) : qsort grepLineNumCompareFn order = entries key found := by
  have member : ∀ a ∈ order, a ∈ entries key found := fun a inside => perm.mem_iff.mp inside
  have sorted : (qsort grepLineNumCompareFn order).Pairwise fun a b => grepLineNumCompareFn a b ≤ 0 := by
    refine sorts.sorted _ _ ?_ ?_
    · intro a inA b inB
      rw [compare_entries small (member a inA) (member b inB),compare_entries small (member b inB) (member a inA)]
      omega
    · intro a inA b inB c inC
      rw [compare_entries small (member a inA) (member b inB),compare_entries small (member b inB) (member c inC),
        compare_entries small (member a inA) (member c inC)]
      omega
  have before : (entries key found).Pairwise fun a b => grepLineNumCompareFn a b ≤ 0 := by
    refine List.pairwise_map.mpr (increasing.imp_of_mem ?_)
    intro l r inL inR less
    rw [compare_entries small (List.mem_map_of_mem inL) (List.mem_map_of_mem inR)]
    change atoi (sizedBufferToStr (entryText l.2 l.1)) ≤ atoi (sizedBufferToStr (entryText r.2 r.1))
    rw [atoi_entry (small l inL),atoi_entry (small r inR)]
    omega
  have numbers : (found.map Prod.snd).Nodup := (List.pairwise_map.mpr increasing).imp fun less => Nat.ne_of_lt less
  refine List.Perm.eq_of_pairwise ?_ sorted before ((sorts.perm _ _).trans perm)
  intro a b inA inB ab ba
  replace inA := ((sorts.perm _ _).trans perm).mem_iff.mp inA
  rw [compare_entries small inA inB] at ab
  rw [compare_entries small inB inA] at ba
  obtain ⟨l,inL,rfl,numberA,_⟩ := readNumber_entries small inA
  obtain ⟨r,inR,rfl,numberB,_⟩ := readNumber_entries small inB
  have same : l.2 = r.2 := by omega
  rw [List.inj_on_of_nodup_map numbers inL inR same]

/-! What the reduce function prints. -/

def report (found : List (Bytes × Nat)) : Bytes := [10].intercalate (found.map fun line => entryText line.2 line.1)

theorem totalLoop_entries (found : List (Bytes × Nat)) (i total : Nat) (before : i < intLimit) :
    totalLoop i total (entries key found) =
      if i + found.length < intLimit then .ok (total + reportSize found) else .error .overflow := by
  induction found generalizing i total with
  | nil => exact (if_pos before).symm
  | cons line found ih =>
    change (if i + 1 < intLimit then totalLoop (i + 1) (total + ((entryText line.2 line.1).length + 1)) (entries key found) else _) = _
    rw [List.length_cons,reportSize_cons,show i + (found.length + 1) = i + 1 + found.length by omega]
    by_cases fits : i + 1 < intLimit
    · rw [if_pos fits,ih _ _ fits,Nat.add_assoc total]
    · rw [if_neg fits,if_neg (by omega)]

def printed (found : List (Bytes × Nat)) : Bytes := found.flatMap fun line => entryText line.2 line.1 ++ [10]

theorem printLoop_entries (clean : ∀ line ∈ found, 0 ∉ line.1) (short : ∀ line ∈ found, (entryText line.2 line.1).length < intLimit)
    (out : Bytes) (room : out.length + reportSize found ≤ total) (few : i + found.length < intLimit) (before : out.length < intLimit) :
    printLoop total i out (entries key found) =
      if out.length + reportSize found < intLimit then .ok (out ++ printed found) else .error .overflow := by
  induction found generalizing i out with
  | nil => simp [entries,printLoop,reportSize,printed,before]
  | cons line found ih =>
    have length := short line (List.mem_cons_self ..)
    have positive := entryText_length line.2 line.1
    have precision : toInt (entryText line.2 line.1).length = (entryText line.2 line.1).length := by
      unfold intLimit at length
      exact toInt_small (by omega) (by omega)
    have text : (entryText line.2 line.1).takeWhile (fun b => b != 0) = entryText line.2 line.1 :=
      List.takeWhile_eq_self_iff.mpr (nonzero_clean (entryText_clean (clean line (List.mem_cons_self ..)) line.2))
    rw [reportSize_cons] at room ⊢
    rw [List.length_cons] at few
    rw [entries,List.map_cons,printLoop]
    dsimp only
    rw [precision,if_neg (by omega),Int.toNat_natCast,List.take_length,text,List.length_append,List.length_singleton]
    by_cases fits : out.length + ((entryText line.2 line.1).length + 1) < intLimit
    · have next := ih (fun l inside => clean l (List.mem_cons_of_mem _ inside)) (fun l inside => short l (List.mem_cons_of_mem _ inside))
        (out ++ (entryText line.2 line.1 ++ [10])) (by simp only [List.length_append,List.length_singleton]; omega)
        (show i + 1 + found.length < intLimit by omega) (by simpa only [List.length_append,List.length_singleton] using fits)
      rw [entries,List.length_append,List.length_append,List.length_singleton,Nat.add_assoc out.length] at next
      rw [if_pos ⟨fits,by omega⟩,if_pos (by omega),next,printed,printed,List.flatMap_cons,List.append_assoc]
    · rw [if_neg (fun both => fits both.1),if_neg (by omega)]

/-- The last newline is left out. -/
theorem printed_report (nonempty : found ≠ []) : printed found = report found ++ [10] := by
  induction found with
  | nil => contradiction
  | cons line found ih =>
    cases found with
    | nil => simp [printed,report]
    | cons next found =>
      have rest := ih (List.cons_ne_nil _ _)
      unfold printed report at rest ⊢
      simp only [List.map_cons] at rest ⊢
      rw [List.flatMap_cons,rest,List.intercalate_cons_cons]
      simp

theorem printed_length (found : List (Bytes × Nat)) : (printed found).length = reportSize found := by
  simp [printed,reportSize,List.length_flatMap]

theorem report_longer (nonempty : found ≠ []) (line : Bytes × Nat) : report found ≠ report (found ++ [line]) := by
  intro same
  have size := printed_length (found ++ [line])
  have more : reportSize (found ++ [line]) = reportSize found + ((entryText line.2 line.1).length + 1) := by simp [reportSize]
  rw [printed_report (List.append_ne_nil_of_left_ne_nil nonempty _),← same,← printed_report nonempty,printed_length,more] at size
  omega

/-- The reduce function returns the report of the lines, unless an `int` overflows. -/
theorem grepReduce_entries (sorts : Sorts qsort) (increasing : found.Pairwise fun a b => a.2 < b.2)
    (small : ∀ line ∈ found, line.2 < intLimit) (clean : ∀ line ∈ found, 0 ∉ line.1)
    (short : ∀ line ∈ found, (entryText line.2 line.1).length < intLimit)
    (perm : order.Perm (entries key found)) (nonempty : found ≠ []) (aux : Bytes) :
    grepReduce qsort key order aux = if reportSize found < intLimit then .ok ⟨key,report found⟩ else .error .overflow := by
  have many := (reportSize_bounds found).1
  unfold grepReduce
  dsimp only
  rw [qsort_entries sorts increasing small perm]
  have counted : totalLoop 0 0 (entries key found) = _ := totalLoop_entries found 0 0 (by decide)
  rw [Nat.zero_add,Nat.zero_add] at counted
  by_cases few : found.length < intLimit
  · rw [if_pos few] at counted
    have ran : printLoop (reportSize found) 0 [] (entries key found) = _ :=
      printLoop_entries clean short [] (by rw [List.length_nil]; omega) (by omega) (by decide)
    rw [List.length_nil,Nat.zero_add,List.nil_append] at ran
    by_cases fits : reportSize found < intLimit
    · rw [if_pos fits] at ran
      have length := printed_length found
      have newline := printed_report nonempty
      have size : reportSize found = (report found).length + 1 := by
        rw [← length,newline,List.length_append,List.length_singleton]
      rw [go counted,go ran,if_pos fits,if_neg (by omega),newline,List.append_assoc,size,Nat.add_sub_cancel,List.take_left]
      rfl
    · rw [if_neg fits] at ran
      rw [go counted,ran,if_neg fits]
      rfl
  · rw [if_neg few] at counted
    rw [counted,if_neg (by omega)]
    rfl

end

/-- What is asked of the two functions: for the lines that contain the search string, the
reduce function returns the entries by increasing number, in whatever order it gets them. -/
def Finds (qsort : Qsort) (key content search : Bytes) : Prop :=
  ∃ kva, grepMap ⟨key,content⟩ search = .ok kva ∧ (kva = [] ↔ foundLines search 1 (allLines content) = []) ∧
    ∀ order : List KeyValue, order.Perm kva → order ≠ [] →
      grepReduce qsort key order search = .ok ⟨key,report (foundLines search 1 (allLines content))⟩

theorem foundLines_last (content search : Bytes) :
    foundLines search 1 (allLines content) = foundLines search 1 (endedLines content) ++
      if lastLine content ≠ [] ∧ search <:+: lastLine content then [(lastLine content,1 + (endedLines content).length)] else [] := by
  unfold foundLines allLines
  by_cases none_ : lastLine content = []
  · rw [if_pos none_,if_neg (fun both => both.1 none_),List.append_nil]
  · rw [if_neg none_,List.zipIdx_append,List.filter_append,List.zipIdx_singleton]
    by_cases hits : search <:+: lastLine content
    · rw [if_pos ⟨none_,hits⟩,List.filter_cons_of_pos (by simpa using hits)]
      rfl
    · rw [if_neg (fun both => hits both.2),List.filter_cons_of_neg (by simpa using hits)]
      rfl

/-- The lines that `grep_map` returns meet what the reduce function needs. -/
theorem grepReduce_lines (sorts : Sorts qsort) (clean : 0 ∉ content) (few : (endedLines content).length + 1 < intLimit)
    (short : ∀ line ∈ foundLines search 1 (endedLines content), (entryText line.2 line.1).length < intLimit)
    (perm : order.Perm (entries key (foundLines search 1 (endedLines content))))
    (nonempty : foundLines search 1 (endedLines content) ≠ []) (aux : Bytes) :
    grepReduce qsort key order aux =
      if reportSize (foundLines search 1 (endedLines content)) < intLimit then
        .ok ⟨key,report (foundLines search 1 (endedLines content))⟩ else .error .overflow := by
  refine grepReduce_entries sorts (foundLines_ordered ..) ?_ ?_ short perm nonempty aux
  · intro line inside
    have bound := (foundLines_mem inside).2.2
    omega
  · intro line inside
    exact ((lines_clean clean).1 _ (foundLines_mem inside).1).1

/-- The search finds the lines with the search string exactly when what stands behind the
last newline is empty or does not contain it, and nothing overflows an `int`. -/
theorem grep_finds_lines (sorts : Sorts qsort) (clean : 0 ∉ content ∧ 0 ∉ search) (key : Bytes) :
    Finds qsort key content search ↔
      (lastLine content = [] ∨ ¬search <:+: lastLine content) ∧ (endedLines content).length + 1 < intLimit ∧
        reportSize (foundLines search 1 (endedLines content)) < intLimit := by
  have last := foundLines_last content search
  constructor
  · rintro ⟨kva,ran,empty,reduced⟩
    obtain ⟨rfl,few,short⟩ := grepMap_ok clean ran
    have none_ : entries key (foundLines search 1 (endedLines content)) = [] ↔ foundLines search 1 (endedLines content) = [] :=
      List.map_eq_nil_iff
    rw [none_] at empty
    by_cases nothing : foundLines search 1 (endedLines content) = []
    · rw [empty.mp nothing,nothing,List.nil_append] at last
      split at last
      · cases last
      · rename_i unhit
        rw [nothing]
        exact ⟨by tauto,few,by decide⟩
    · have result := reduced _ (List.Perm.refl _) (mt none_.mp nothing)
      rw [grepReduce_lines sorts clean.1 few short (List.Perm.refl _) nothing] at result
      by_cases fits : reportSize (foundLines search 1 (endedLines content)) < intLimit
      · refine ⟨?_,few,fits⟩
        by_contra counts
        rw [if_pos fits,last,if_pos (by tauto)] at result
        injection result with same
        injection same with _ same
        exact report_longer nothing _ same
      · rw [if_neg fits] at result
        cases result
  · rintro ⟨unhit,few,fits⟩
    rw [if_neg (by tauto),List.append_nil] at last
    have bounds := (reportSize_bounds (foundLines search 1 (endedLines content))).2
    refine ⟨_,grepMap_runs clean few fits,?_,?_⟩
    · rw [last]
      exact List.map_eq_nil_iff
    · intro order perm nonempty
      have some_ : foundLines search 1 (endedLines content) ≠ [] := by
        intro nothing
        rw [nothing] at perm
        exact nonempty perm.eq_nil
      rw [grepReduce_lines sorts clean.1 few (fun line inside => Nat.lt_trans (bounds line inside) fits) perm some_,if_pos fits,last]

end

/-- A last line without a newline is not found. -/
theorem grep_last_line_missed :
    grepMap ⟨[102],[97,98]⟩ [97] = .ok [] ∧ allLines [97,98] = [[97,98]] ∧ ¬Finds mergeQsort [102] [97,98] [97] := by
  have mapped : grepMap ⟨[102],[97,98]⟩ [97] = .ok [] := by decide
  refine ⟨mapped,by decide,?_⟩
  rintro ⟨kva,ran,empty,_⟩
  rw [mapped] at ran
  cases ran
  exact absurd (empty.mp rfl) (by decide)

theorem grep_finds_lines_two : Finds mergeQsort [102] [97,10,98,10,98,97,10] [97] :=
  (grep_finds_lines mergeQsort_sorts (by decide) [102]).mpr (by decide)

end OsProj.Worker
