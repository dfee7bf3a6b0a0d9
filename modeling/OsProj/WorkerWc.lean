import OsProj.MaximalRuns
import OsProj.WorkerCounting

/-! The word count of hw-map-reduce/app/wc. A first pass counts the words of a file with
an `int` index, a second one cuts them out with two pointers. Both see the maximal runs of
letters as long as the index of the first pass does not overflow. -/
namespace OsProj.Worker

open OsProj.ByteList
open OsProj.Faulting
open OsProj.MaximalRuns

/-- `isalpha` in the C locale; bytes from 128 on are no letters. -/
def isalpha (b : UInt8) : Bool := (65 ≤ b && b ≤ 90) || (97 ≤ b && b ≤ 122)

def tolower (b : UInt8) : UInt8 := if 65 ≤ b && b ≤ 90 then b + 32 else b

/-- The loop of `num_words`. The two counters never pass `i`, so only `i` can overflow. -/
def numLoop : Nat → Nat → Nat → Bytes → Except Fault Nat
  | _,numWords,counter,[] => .ok (if counter > 1 then numWords + 1 else numWords)
  | i,numWords,counter,b :: rest =>
    let numWords' := if isalpha b then numWords else if counter > 1 then numWords + 1 else numWords
    let counter' := if isalpha b then counter + 1 else 0
    if i + 1 < intLimit then numLoop (i + 1) numWords' counter' rest else .error .overflow

def numWords (buf : Bytes) : Except Fault Nat := numLoop 0 0 0 buf

/-- The loop of `wc_map`; `kva` is the written part of an array of `n` pairs. -/
def wcLoop (n : Nat) (buf : Bytes) : Nat → Nat → Nat → List KeyValue → Except Fault (List KeyValue)
  | 0,_,_,_ => .error .unending
  | fuel + 1,p1,p2,kva =>
    if p1 < buf.length then
      if buf[p2]?.any isalpha then wcLoop n buf fuel p1 (p2 + 1) kva
      else if p2 > p1 + 1 then
        let word := ((buf.drop p1).take (p2 - p1)).map tolower
        if kva.length < n then wcLoop n buf fuel (p2 + 1) (p2 + 1) (kva ++ [⟨word,one⟩])
        else .error .outOfBounds
      else wcLoop n buf fuel (p2 + 1) (p2 + 1) kva
    else .ok kva

/-- The result has `n` pairs: fewer words would leave pairs that were never written. -/
def wcMap (input : KeyValue) (_aux : Bytes) : Except Fault (List KeyValue) := do
  let n ← numWords input.value
  let kva ← wcLoop n input.value (input.value.length + 2) 0 0 []
  if kva.length < n then throw .outOfBounds
  return kva

def wcApp : App := ⟨wcMap,countReduce⟩

def longRuns (content : Bytes) : List Bytes := (content.splitOnP fun b => !isalpha b).filter fun run => 2 ≤ run.length

/-- The words of a file: its maximal runs of at least two letters, in lower case. -/
def words (content : Bytes) : List Bytes := (longRuns content).map fun run => run.map tolower

section
variable {run rest : Bytes}

theorem longRuns_letters (letters : ∀ b ∈ run, isalpha b = true) : longRuns run = if 2 ≤ run.length then [run] else [] :=
  pieces_run letters

theorem longRuns_separated (other : isalpha b = false) (run rest : Bytes) :
    longRuns (run ++ b :: rest) = longRuns run ++ longRuns rest := pieces_separated other run rest

/-- The first pass counts the long runs. -/
theorem numLoop_runs (letters : ∀ b ∈ run, isalpha b = true) (rest : Bytes) (i numWords : Nat) (before : i < intLimit) :
    numLoop i numWords run.length rest =
      if i + rest.length < intLimit then .ok (numWords + (longRuns (run ++ rest)).length) else .error .overflow := by
  induction rest generalizing run i numWords with
  | nil =>
    rw [numLoop,List.append_nil,longRuns_letters letters,List.length_nil,if_pos (show i + 0 < intLimit from before)]
    by_cases long : 2 ≤ run.length
    · rw [if_pos (show run.length > 1 from long),if_pos long]
      rfl
    · rw [if_neg (show ¬run.length > 1 from long),if_neg long]
      rfl
  | cons b rest ih =>
    rw [numLoop,List.length_cons]
    by_cases fits : i + 1 < intLimit
    · rw [if_pos fits,show i + (rest.length + 1) = i + 1 + rest.length by omega]
      by_cases letter : isalpha b = true
      · have next := ih (run_snoc letters letter) (i + 1) numWords fits
        rw [List.length_append,List.length_singleton,List.append_assoc,List.singleton_append] at next
        rw [if_pos letter,if_pos letter,next]
      · have next := ih (show ∀ b ∈ ([] : Bytes), isalpha b = true by simp) (i + 1)
          (if run.length > 1 then numWords + 1 else numWords) fits
        rw [List.length_nil,List.nil_append] at next
        rw [if_neg letter,if_neg letter,next,longRuns_separated (by simpa using letter),longRuns_letters letters,
          List.length_append]
        by_cases long : 2 ≤ run.length
        · rw [if_pos (show run.length > 1 from long),if_pos long,List.length_singleton,Nat.add_assoc numWords]
        · rw [if_neg (show ¬run.length > 1 from long),if_neg long,List.length_nil,Nat.zero_add]
    · rw [if_neg fits,if_neg (by omega)]

theorem numWords_runs (buf : Bytes) :
    numWords buf = if buf.length < intLimit then .ok (longRuns buf).length else .error .overflow := by
  have counted := numLoop_runs (show ∀ b ∈ ([] : Bytes), isalpha b = true by simp) buf 0 0 (by decide)
  simpa [numWords] using counted

def wordPair (run : Bytes) : KeyValue := ⟨run.map tolower,one⟩

/-- What the second pass does at the end of a run of letters. -/
theorem wcLoop_cut (letters : ∀ b ∈ run, isalpha b = true) (done : Bytes) (kva : List KeyValue) (nonempty : run ++ rest ≠ [])
    (ended : rest.head?.any isalpha = false) (room : kva.length + (longRuns run).length ≤ n) :
    wcLoop n (done ++ (run ++ rest)) (fuel + 1) done.length (done.length + run.length) kva =
      wcLoop n (done ++ (run ++ rest)) fuel (done.length + run.length + 1) (done.length + run.length + 1)
        (kva ++ (longRuns run).map wordPair) := by
  have inside : done.length < (done ++ (run ++ rest)).length := by
    have := List.length_pos_of_ne_nil nonempty
    rw [List.length_append]
    omega
  have second : (done ++ (run ++ rest))[done.length + run.length]? = rest.head? := by
    cases rest <;> simp
  have slice : ((done ++ (run ++ rest)).drop done.length).take (done.length + run.length - done.length) = run := by
    simp
  rw [wcLoop,if_pos inside,second,ended,if_neg Bool.false_ne_true]
  dsimp only
  rw [slice]
  rw [longRuns_letters letters] at room ⊢
  by_cases long : 2 ≤ run.length
  · rw [if_pos long,List.length_singleton] at room
    rw [if_pos (by omega),if_pos (by omega),if_pos long]
    rfl
  · rw [if_neg (by omega),if_neg long,List.map_nil,List.append_nil]

/-- The second pass cuts out the long runs. -/
theorem wcLoop_runs (letters : ∀ b ∈ run, isalpha b = true) (rest done : Bytes) (kva : List KeyValue)
    (enough : rest.length + 2 ≤ fuel) (room : kva.length + (longRuns (run ++ rest)).length ≤ n) :
    wcLoop n (done ++ (run ++ rest)) fuel done.length (done.length + run.length) kva =
      .ok (kva ++ (longRuns (run ++ rest)).map wordPair) := by
  induction rest generalizing run done kva fuel with
  | nil =>
    obtain ⟨fuel,rfl⟩ : ∃ f, fuel = f + 2 := ⟨fuel - 2,by simp at enough; omega⟩
    rw [List.append_nil] at room
    by_cases none : run = []
    · subst none
      simp [wcLoop,longRuns]
    · rw [wcLoop_cut letters done kva (by simpa using none) rfl room,wcLoop,if_neg (by simp),List.append_nil]
  | cons b rest ih =>
    rw [List.length_cons] at enough
    obtain ⟨fuel,rfl⟩ : ∃ f, fuel = f + 1 := ⟨fuel - 1,by omega⟩
    by_cases letter : isalpha b = true
    · have next := ih (run_snoc letters letter) done kva (show rest.length + 2 ≤ fuel by omega) (by simpa using room)
      rw [List.length_append,List.length_singleton,List.append_assoc,List.singleton_append,← Nat.add_assoc] at next
      have second : (done ++ (run ++ b :: rest))[done.length + run.length]? = some b := by simp
      rw [← next,wcLoop,if_pos (by simp only [List.length_append,List.length_cons]; omega),second,Option.any_some,if_pos letter]
    · have other : isalpha b = false := by simpa using letter
      rw [longRuns_separated other,List.length_append] at room
      have next := ih (show ∀ b ∈ ([] : Bytes), isalpha b = true by simp) (done ++ run ++ [b])
        (kva ++ (longRuns run).map wordPair) (show rest.length + 2 ≤ fuel by omega)
        (by rw [List.length_append,List.length_map,List.nil_append]; omega)
      have whole : done ++ run ++ [b] ++ ([] ++ rest) = done ++ (run ++ b :: rest) := by simp
      have place : (done ++ run ++ [b]).length = done.length + run.length + 1 := by
        rw [List.length_append,List.length_append,List.length_singleton]
      rw [whole,place,List.length_nil,Nat.add_zero] at next
      rw [wcLoop_cut letters done kva (by simp) (by simpa using other) (by omega),next,longRuns_separated other,
        List.nil_append,List.map_append,← List.append_assoc]

end

/-- `wc_map` emits the words of the file, unless the file is too long for an `int`. -/
theorem wcMap_words (input : KeyValue) (aux : Bytes) :
    wcMap input aux = if input.value.length < intLimit then .ok ((words input.value).map fun word => ⟨word,one⟩)
      else .error .overflow := by
  rw [wcMap,numWords_runs]
  by_cases short : input.value.length < intLimit
  · have cut := wcLoop_runs (show ∀ b ∈ ([] : Bytes), isalpha b = true by simp) input.value [] [] (Nat.le_refl _)
      (show ([] : List KeyValue).length + _ ≤ (longRuns input.value).length by simp)
    simp only [List.nil_append,List.length_nil,Nat.add_zero] at cut
    rw [if_pos short,if_pos short]
    change (do
      let kva ← wcLoop (longRuns input.value).length input.value (input.value.length + 2) 0 0 []
      if kva.length < (longRuns input.value).length then throw Fault.outOfBounds
      return kva) = _
    rw [go cut,if_neg (by simp),words,List.map_map]
    rfl
  · rw [if_neg short,if_neg short]
    rfl

/-- `wc_map` fills the array that `num_words` has sized: one pair for each maximal run of at
least two letters, in the order of the runs. -/
theorem wc_map_fills_array (input : KeyValue) (aux : Bytes) (short : input.value.length < intLimit) :
    ∃ found : List (Nat × Nat),
      (∀ start stop, (start,stop) ∈ found ↔ MaximalRun isalpha input.value start stop ∧ start + 2 ≤ stop) ∧
      found.Pairwise (fun s t => s.2 < t.1) ∧
      numWords input.value = .ok found.length ∧
      wcMap input aux = .ok (found.map fun span => ⟨(slice input.value span).map tolower,one⟩) := by
  have sliced : (spans isalpha 2 input.value).map (slice input.value) = longRuns input.value := spans_slices isalpha 2 input.value
  refine ⟨spans isalpha 2 input.value,fun start stop => mem_spans (by decide) isalpha _,spans_ordered isalpha 2 _,?_,?_⟩
  · rw [numWords_runs,if_pos short,← sliced,List.length_map]
  · rw [wcMap_words,if_pos short,words,← sliced,List.map_map,List.map_map]
    rfl

theorem wc_map_fills_array_three :
    ∃ found : List (Nat × Nat), numWords [70,111,111,32,97,32,98,97] = .ok found.length ∧
      wcMap ⟨[],[70,111,111,32,97,32,98,97]⟩ [] =
        .ok (found.map fun span => ⟨(slice [70,111,111,32,97,32,98,97] span).map tolower,one⟩) := by
  obtain ⟨found,_,_,counted,mapped⟩ := wc_map_fills_array ⟨[],[70,111,111,32,97,32,98,97]⟩ [] (by decide)
  exact ⟨found,counted,mapped⟩

/-- A run consists of letters and is no longer than the file. -/
theorem longRuns_run (member : run ∈ longRuns content) : (∀ b ∈ run, isalpha b = true) ∧ run.length ≤ content.length := by
  replace member : run ∈ content.splitOnP fun b => !isalpha b := List.mem_of_mem_filter member
  induction content generalizing run with
  | nil =>
    rw [List.splitOnP_nil,List.mem_singleton] at member
    simp [member]
  | cons b content ih =>
    rw [List.splitOnP_cons_eq_if_modifyHead] at member
    by_cases letter : isalpha b = true
    · rw [letter,Bool.not_true,if_neg Bool.false_ne_true] at member
      cases pieces : content.splitOnP fun b => !isalpha b with
      | nil => exact absurd pieces (List.splitOnP_ne_nil _ _)
      | cons head tail =>
        rw [pieces,List.modifyHead_cons] at member
        rcases List.mem_cons.mp member with rfl | later
        · obtain ⟨letters,short⟩ := ih (pieces ▸ List.mem_cons_self ..)
          refine ⟨?_,by simpa using short⟩
          intro c inside
          rcases List.mem_cons.mp inside with rfl | inside
          · exact letter
          · exact letters c inside
        · obtain ⟨letters,short⟩ := ih (pieces ▸ List.mem_cons_of_mem _ later)
          exact ⟨letters,Nat.le_succ_of_le short⟩
    · rw [Bool.not_eq_true] at letter
      rw [letter,Bool.not_false,if_pos rfl] at member
      rcases List.mem_cons.mp member with rfl | later
      · simp
      · obtain ⟨letters,short⟩ := ih later
        exact ⟨letters,Nat.le_succ_of_le short⟩

theorem tolower_letter (letter : isalpha b = true) : tolower b ≠ 0 := by
  intro zero
  simp only [isalpha,tolower,Bool.or_eq_true,Bool.and_eq_true,decide_eq_true_eq,UInt8.le_iff_toNat_le] at letter zero
  split at zero
  · have := congrArg UInt8.toNat zero
    simp at this letter
    omega
  · rw [zero] at letter
    simp at letter

/-- Words have no zero bytes and are no longer than the file. -/
theorem words_word (member : word ∈ words content) : 0 ∉ word ∧ word.length ≤ content.length := by
  obtain ⟨run,long,rfl⟩ := List.mem_map.mp member
  obtain ⟨letters,short⟩ := longRuns_run long
  refine ⟨?_,by simpa using short⟩
  intro zero
  obtain ⟨b,inside,made⟩ := List.mem_map.mp zero
  exact tolower_letter (letters b inside) made

def wcJob (inputs : List KeyValue) (nReduce : Nat) (aux : Bytes) : Job := ⟨wcApp,inputs,nReduce,aux⟩

def allWords (inputs : List KeyValue) : List Bytes := inputs.flatMap fun file => words file.value

def wordPairs (file : KeyValue) : List KeyValue := (words file.value).map fun word => ⟨word,one⟩

section
variable {inputs : List KeyValue}

theorem wordPairs_keys (inputs : List KeyValue) : (inputs.flatMap wordPairs).map KeyValue.key = allWords inputs := by
  simp [allWords,wordPairs,List.map_flatMap,Function.comp_def]

/-- Keys without zero bytes are told apart by their C strings. -/
theorem cstr_injective (clean : 0 ∉ a) (clean' : 0 ∉ b) (same : cstr a = cstr b) : a = b := by
  have whole : ∀ key : Bytes, 0 ∉ key → cstr key = key.map UInt8.toNat := by
    intro key clean
    have all : key.takeWhile (fun b => b ≠ 0) = key := by
      rw [List.takeWhile_eq_self_iff]
      intro b inside
      rw [decide_eq_true_eq]
      rintro rfl
      exact clean inside
    rw [cstr,all]
  rw [whole a clean,whole b clean'] at same
  exact List.map_injective_iff.mpr (fun x y => UInt8.toNat_inj.mp) same

theorem allWords_separated (n : Nat) (inputs : List KeyValue) : Separated n (allWords inputs) := by
  intro a inA b inB _ same
  obtain ⟨file,_,inA⟩ := List.mem_flatMap.mp inA
  obtain ⟨file',_,inB⟩ := List.mem_flatMap.mp inB
  exact cstr_injective (words_word inA).1 (words_word inB).1 same

theorem wc_counting (short : ∀ file ∈ inputs, file.value.length < intLimit) (n : Nat) (aux : Bytes) :
    Counting (wcJob inputs n aux) (mapped (wcJob inputs n aux) wordPairs) := by
  have member : ∀ kv ∈ inputs.flatMap wordPairs, (0 ∉ kv.key ∧ kv.key.length < intLimit) ∧ kv.value = one := by
    intro kv inside
    obtain ⟨file,given,inside⟩ := List.mem_flatMap.mp inside
    obtain ⟨word,found,rfl⟩ := List.mem_map.mp inside
    obtain ⟨clean,fits⟩ := words_word found
    exact ⟨⟨clean,Nat.lt_of_le_of_lt fits (short file given)⟩,rfl⟩
  have pairs := mapped_emitted (wcJob inputs n aux) wordPairs
  refine ⟨rfl,mapped_emits ?_,?_,?_⟩
  · intro file given
    exact (wcMap_words file aux).trans (if_pos (short file given))
  · intro kv inside
    rw [pairs] at inside
    exact (member kv inside).2
  · rw [pairs]
    exact ⟨fun a inA b inB => .inl ⟨(member a inA).1.1,(member b inB).1.1⟩,fun a inA => (member a inA).1.2⟩

/-- Word count ends with the count of every word exactly when every file is short enough
for the `int` index of `num_words`. -/
theorem wc_counts_words (sorts : Sorts qsort) (positive : 1 ≤ n) (schedule : Schedule (wcJob inputs n aux) maps reduces)
    (totals : ∀ word, (allWords inputs).count word < intLimit) (files : Files) :
    Counted qsort (wcJob inputs n aux) maps reduces files (allWords inputs) ↔
      ∀ file ∈ inputs, file.value.length < intLimit := by
  constructor
  · rintro ⟨files',outs,ran,_⟩ file given
    by_contra long
    obtain ⟨i,here⟩ := List.mem_iff_getElem?.mp given
    have inside : i < inputs.length := (List.getElem?_eq_some_iff.mp here).1
    have failed : (wcJob inputs n aux).app.map file aux = .error .overflow := (wcMap_words file aux).trans (if_neg long)
    obtain ⟨fault,stopped⟩ : ∃ fault, runJob qsort (wcJob inputs n aux) (tasks maps reduces) files = .error fault :=
      map_fails ((schedule.maps i).mpr inside) here failed reduces files
    cases ran.symm.trans stopped
  · intro short
    have counted := counted_iff sorts (show 0 < (wcJob inputs n aux).nReduce from positive) (wc_counting short n aux) schedule files
    rw [mapped_emitted,show (wcJob inputs n aux).inputs = inputs from rfl,wordPairs_keys] at counted
    exact counted.mpr ⟨allWords_separated n inputs,totals⟩

end

/-- Two files with "Foo bar", "foo" and one-letter words, on two reduce tasks. -/
theorem wc_counts_words_two :
    Counted mergeQsort (wcJob [⟨[],[70,111,111,32,98,97,114]⟩,⟨[],[97,32,102,111,111,46]⟩] 2 []) [1,0,1] [0,1] noFiles
      [[102,111,111],[98,97,114],[102,111,111]] := by
  have spelled : allWords [⟨[],[70,111,111,32,98,97,114]⟩,⟨[],[97,32,102,111,111,46]⟩] =
      [[102,111,111],[98,97,114],[102,111,111]] := by decide
  rw [← spelled]
  refine (wc_counts_words mergeQsort_sorts (by decide) ⟨?_,?_⟩ ?_ _).mpr (by decide)
  · intro i
    simp [wcJob]
    omega
  · intro r
    simp [wcJob]
    omega
  · intro word
    rw [spelled]
    exact Nat.lt_of_le_of_lt List.count_le_length (by decide)

theorem words_blank (n : Nat) : words (List.replicate n 32) = [] := by
  have blank : ∀ n, longRuns (List.replicate n 32) = [] := by
    intro n
    induction n with
    | zero => decide
    | succ n ih =>
      have cut := longRuns_separated (show isalpha 32 = false by decide) [] (List.replicate n 32)
      rw [ih] at cut
      exact cut
  rw [words,blank,List.map_nil]

/-- A file of 2^31 blanks stops the job. -/
theorem wc_blanks_uncounted :
    ¬∀ (qsort : Qsort) (inputs : List KeyValue) (n : Nat) (aux : Bytes) (maps reduces : List Nat) (files : Files),
      Sorts qsort → 1 ≤ n → Schedule (wcJob inputs n aux) maps reduces → (∀ word, (allWords inputs).count word < intLimit) →
      Counted qsort (wcJob inputs n aux) maps reduces files (allWords inputs) := by
  intro all
  let inputs : List KeyValue := [⟨[],List.replicate intLimit 32⟩]
  have none : allWords inputs = [] := by
    simp [inputs,allWords,words_blank]
  have schedule : Schedule (wcJob inputs 1 []) [0] [0] := ⟨by simp [wcJob,inputs],by simp [wcJob]⟩
  have totals : ∀ word, (allWords inputs).count word < intLimit := by
    intro word
    rw [none]
    exact (by decide : 0 < intLimit)
  have counted := all mergeQsort inputs 1 [] [0] [0] noFiles mergeQsort_sorts (Nat.le_refl 1) schedule totals
  obtain ⟨files',outs,ran,_⟩ := counted
  have failed : (wcJob inputs 1 []).app.map ⟨[],List.replicate intLimit 32⟩ [] = .error .overflow := by
    refine (wcMap_words _ []).trans (if_neg ?_)
    rw [List.length_replicate]
    exact Nat.lt_irrefl _
  obtain ⟨fault,stopped⟩ : ∃ fault, runJob mergeQsort (wcJob inputs 1 []) (tasks [0] [0]) noFiles = .error fault :=
    map_fails (List.mem_singleton.mpr rfl) rfl failed [0] _
  cases ran.symm.trans stopped

end OsProj.Worker
