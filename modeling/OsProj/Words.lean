import Mathlib.Logic.Function.Basic
import OsProj.ByteList
import OsProj.Faulting
import OsProj.MaximalRuns
import OsProj.PWords

/-! The word counts of hw-intro/words: `num_words` and `count_words` scan a file character by
character in the C locale, and `add_word` counts in a list. An `int` has 32 bits and wraps. -/
namespace OsProj.Words

open OsProj.ByteList
open OsProj.Faulting
open OsProj.MaximalRuns

inductive Fault
  /-- A byte outside of the word array is written. -/
  | outside
  /-- A word without a terminator is passed on. -/
  | unterminated
  deriving DecidableEq, Repr

structure WordCount where
  word : Bytes
  count : Int32
  deriving DecidableEq

/-- The list, newest word first, and the number of calls of `malloc` so far. -/
structure WordList where
  list : List WordCount
  mallocs : Nat

def MAX_WORD_LEN : Nat := 64

def isalpha (c : UInt8) : Bool := 'A'.toUInt8 ≤ c && c ≤ 'Z'.toUInt8 || 'a'.toUInt8 ≤ c && c ≤ 'z'.toUInt8

def tolower (c : UInt8) : UInt8 := if 'A'.toUInt8 ≤ c ∧ c ≤ 'Z'.toUInt8 then c + 32 else c

/-! The list. -/

def find_word : List WordCount → Bytes → Option Nat
  | [],_ => none
  | wc :: rest,word => if wc.word = word then some 0 else (find_word rest word).map (· + 1)

/-- The result is 1 when a call of `malloc` fails. -/
def add_word (malloc : Nat → Bool) (wclist : WordList) (word : Bytes) : Int32 × WordList :=
  match find_word wclist.list word with
  | some i => (0,{ wclist with list := wclist.list.modify i fun wc => { wc with count := wc.count + 1 } })
  | none =>
    if malloc wclist.mallocs then
      if malloc (wclist.mallocs + 1) then (0,⟨⟨word,1⟩ :: wclist.list,wclist.mallocs + 2⟩)
      else (1,{ wclist with mallocs := wclist.mallocs + 2 })
    else (1,{ wclist with mallocs := wclist.mallocs + 1 })

/-! Counting the words of a file. -/

structure Tally where
  num_words : Int32
  inWord : Bool
  letterCount : Int32

def tallyStep (s : Tally) (curr : UInt8) : Tally :=
  if isalpha curr then
    let s := { s with letterCount := s.letterCount + 1 }
    if !s.inWord && s.letterCount ≥ 2 then { s with inWord := true, num_words := s.num_words + 1 } else s
  else { s with inWord := false, letterCount := 0 }

def num_words (infile : Bytes) : Int32 := (infile.foldl tallyStep ⟨0,false,0⟩).num_words

/-! Counting each word. -/

structure Reading where
  wclist : WordList
  word : Nat → UInt8
  inWord : Bool
  letterCount : Int32

def zeros (_ : Nat) : UInt8 := 0

def string (word : Nat → UInt8) : Except Fault Bytes :=
  let text := ((List.range (MAX_WORD_LEN + 1)).map word).takeWhile (· != 0)
  if text.length < MAX_WORD_LEN + 1 then .ok text else .error .unterminated

/-- `strcmp(a, b) != 0` for two arrays, from index `i` on. -/
def differ (a b : Nat → UInt8) : Nat → Nat → Bool
  | 0,_ => false
  | n + 1,i => if a i ≠ b i then true else if a i = 0 then false else differ a b n (i + 1)

def letter (s : Reading) (curr : UInt8) : Except Fault Reading :=
  if 0 ≤ s.letterCount ∧ s.letterCount < 65 then
    let s := { s with
      word := Function.update s.word s.letterCount.toInt.toNat (tolower curr)
      letterCount := s.letterCount + 1 }
    .ok (if !s.inWord && s.letterCount ≥ 2 then { s with inWord := true } else s)
  else .error .outside

/-- The loop, with the result 1 for a `return 1` inside of it. -/
def countLoop (malloc : Nat → Bool) : Bytes → Reading → Except Fault (Int32 × Reading)
  | [],s => .ok (0,s)
  | curr :: rest,s => do
    if isalpha curr then
      let s ← letter s curr
      countLoop malloc rest s
    else if s.inWord then
      let (err,wclist) := add_word malloc s.wclist (← string s.word)
      if err = 1 then return (1,{ s with wclist := wclist })
      countLoop malloc rest ⟨wclist,zeros,false,0⟩
    else countLoop malloc rest ⟨s.wclist,zeros,false,0⟩

def finish (malloc : Nat → Bool) (ended : Int32 × Reading) : Except Fault (Int32 × Option WordList) := do
  let (err,s) := ended
  if err = 1 then return (1,some s.wclist)
  if differ s.word zeros (MAX_WORD_LEN + 1) 0 && s.inWord then
    let (err,wclist) := add_word malloc s.wclist (← string s.word)
    return (if err = 1 then 1 else 0,some wclist)
  return (0,some s.wclist)

def count_words (malloc : Nat → Bool) (wclist : Option WordList) (infile : Option Bytes) : Except Fault (Int32 × Option WordList) :=
  match infile,wclist with
  | some infile,some wclist => countLoop malloc infile ⟨wclist,zeros,false,0⟩ >>= finish malloc
  | _,wclist => .ok (1,wclist)

def countAll (malloc : Nat → Bool) : List Bytes → WordList → Except Fault (Int32 × WordList)
  | [],wclist => .ok (0,wclist)
  | infile :: rest,wclist => do
    let (err,wclist') ← count_words malloc (some wclist) (some infile)
    if err = 1 then return (1,wclist'.getD wclist)
    countAll malloc rest (wclist'.getD wclist)

/-! What the counts are about. -/

/-- The letter runs of two letters or more, in lower case. -/
def wordsOf (infile : Bytes) : List Bytes := (pieces isalpha 2 infile).map fun run => run.map tolower

/-- Runs of two letters or more are counted, also those with more letters than an `int` can count. -/
theorem tally_spec (run : Bytes) (letters : ∀ c ∈ run, isalpha c = true) (inWord : s.inWord = decide (2 ≤ run.length))
    (few : run.length < 2 → s.letterCount = Int32.ofNat run.length) (rest : Bytes) :
    (rest.foldl tallyStep s).num_words + (if 2 ≤ run.length then 1 else 0) =
      s.num_words + Int32.ofNat (pieces isalpha 2 (run ++ rest)).length := by
  induction rest generalizing s run with
  | nil =>
    rw [List.append_nil,pieces_run letters]
    split
    · rfl
    · rfl
  | cons c rest ih =>
    rw [List.foldl_cons]
    by_cases also : isalpha c = true
    · have next := run_snoc letters also
      have whole : run ++ c :: rest = (run ++ [c]) ++ rest := by simp
      rw [whole,tallyStep,if_pos also]
      match run with
      | [] =>
        obtain ⟨n,w,l⟩ := s
        obtain rfl : w = false := inWord
        obtain rfl : l = 0 := few (by simp)
        exact ih _ next rfl fun _ => rfl
      | [d] =>
        obtain ⟨n,w,l⟩ := s
        obtain rfl : w = false := inWord
        obtain rfl : l = 1 := few (by simp)
        have counted := ih (s := ⟨n + 1,true,2⟩) _ next rfl fun short => absurd short (by simp)
        change _ + 1 = n + 1 + _ at counted
        change (rest.foldl tallyStep ⟨n + 1,true,2⟩).num_words + 0 = n + _
        grind
      | d :: e :: run =>
        obtain ⟨n,w,l⟩ := s
        obtain rfl : w = true := inWord
        have counted := ih (s := ⟨n,true,l + 1⟩) _ next (by simp) fun short => absurd short (by simp)
        rw [if_pos (by simp)] at counted
        change (rest.foldl tallyStep ⟨n,true,l + 1⟩).num_words + (if 2 ≤ (d :: e :: run).length then 1 else 0) = _
        rw [if_pos (by simp)]
        exact counted
    · have reset := ih (s := ⟨s.num_words,false,0⟩) [] (by simp) rfl fun _ => rfl
      rw [tallyStep,if_neg also,pieces_separated (by simpa using also),List.length_append,pieces_run letters,Int32.ofNat_add]
      change _ + 0 = s.num_words + _ at reset
      rw [Int32.add_zero,List.nil_append] at reset
      rw [reset]
      split
      · change _ = s.num_words + (1 + _)
        grind
      · change _ = s.num_words + (0 + _)
        grind

theorem num_words_eq (infile : Bytes) : num_words infile = Int32.ofNat (wordsOf infile).length := by
  have counted := tally_spec (s := ⟨0,false,0⟩) [] (by simp) rfl (fun _ => rfl) infile
  change num_words infile + 0 = 0 + _ at counted
  rwa [Int32.add_zero,Int32.zero_add,List.nil_append,← List.length_map (f := fun run => run.map tolower)] at counted

/-! One run of letters in the word array. -/

/-- The run in progress; up to 65 letters fit the array. -/
structure Held (s : Reading) (run : Bytes) : Prop where
  letters : ∀ c ∈ run, isalpha c = true
  fits : run.length ≤ MAX_WORD_LEN + 1
  inWord : s.inWord = decide (2 ≤ run.length)
  letterCount : s.letterCount = Int32.ofNat run.length
  word : ∀ i, s.word i = (run.map tolower)[i]?.getD 0

theorem Held.start (wclist : WordList) : Held ⟨wclist,zeros,false,0⟩ [] :=
  ⟨by simp,Nat.zero_le _,rfl,rfl,fun _ => rfl⟩

theorem tolower_some (letter : isalpha c = true) : tolower c ≠ 0 := by
  have low : 65 ≤ c.toNat ∧ c.toNat ≤ 90 ∨ 97 ≤ c.toNat ∧ c.toNat ≤ 122 := by
    simp only [isalpha,UInt8.le_iff_toNat_le,Bool.or_eq_true,Bool.and_eq_true,decide_eq_true_eq] at letter
    exact letter
  intro zero
  have code := congrArg UInt8.toNat zero
  unfold tolower at code
  split at code
  · rename_i upper
    have bound : c.toNat ≤ 90 := UInt8.le_iff_toNat_le.mp upper.2
    rw [UInt8.toNat_add] at code
    change (c.toNat + 32) % 256 = 0 at code
    omega
  · change c.toNat = 0 at code
    omega

section
variable {s : Reading} {run : Bytes} {c : UInt8}

theorem Held.count (held : Held s run) : s.letterCount.toInt = run.length := by
  rw [held.letterCount,Int32.toInt_ofNat_of_lt (Nat.lt_of_le_of_lt held.fits (by decide))]

theorem Held.room_iff (held : Held s run) : (0 ≤ s.letterCount ∧ s.letterCount < 65) ↔ run.length ≤ MAX_WORD_LEN := by
  rw [Int32.le_iff_toInt_le,Int32.lt_iff_toInt_lt,held.count]
  change (0 : Int) ≤ run.length ∧ (run.length : Int) < 65 ↔ run.length ≤ 64
  omega

theorem Held.letter (held : Held s run) (also : isalpha c = true) (room : run.length ≤ MAX_WORD_LEN) :
    ∃ s', letter s c = .ok s' ∧ Held s' (run ++ [c]) ∧ s'.wclist = s.wclist := by
  have more : (run ++ [c]).length = run.length + 1 := by simp
  have count : s.letterCount + 1 = Int32.ofNat (run ++ [c]).length := by
    rw [more,Int32.ofNat_add,held.letterCount]
    rfl
  have two : s.letterCount + 1 ≥ 2 ↔ 2 ≤ (run ++ [c]).length := by
    rw [count,ge_iff_le,Int32.le_iff_toInt_le,Int32.toInt_ofNat_of_lt (by rw [more]; unfold MAX_WORD_LEN at room; omega)]
    change (2 : Int) ≤ _ ↔ _
    omega
  have word : ∀ i, Function.update s.word s.letterCount.toInt.toNat (tolower c) i = ((run ++ [c]).map tolower)[i]?.getD 0 := by
    intro i
    rw [held.count,Int.toNat_natCast,List.map_append,Function.update_apply,List.getElem?_append,List.length_map]
    split
    · rename_i here
      simp [here]
    · rename_i other
      rw [held.word]
      split
      · rfl
      · rw [List.getElem?_eq_none (by simpa using Nat.not_lt.mp ‹_›),List.getElem?_eq_none (by simp; omega)]
  unfold Words.letter
  rw [if_pos (held.room_iff.mpr room)]
  by_cases second : (!s.inWord && decide (s.letterCount + 1 ≥ 2)) = true
  · refine ⟨_,congrArg Except.ok (if_pos second),⟨run_snoc held.letters also,?_,?_,count,word⟩,rfl⟩
    · rw [more]
      exact Nat.succ_le_succ room
    · have long := two.mp (of_decide_eq_true (Bool.and_eq_true_iff.mp second).2)
      exact (decide_eq_true long).symm
  · refine ⟨_,congrArg Except.ok (if_neg second),⟨run_snoc held.letters also,?_,?_,count,word⟩,rfl⟩
    · rw [more]
      exact Nat.succ_le_succ room
    · change s.inWord = _
      rw [held.inWord] at second ⊢
      by_cases long : 2 ≤ run.length
      · rw [decide_eq_true long,decide_eq_true (more ▸ Nat.le_succ_of_le long)]
      · have short : ¬s.letterCount + 1 ≥ 2 := by simpa [long] using second
        rw [decide_eq_false long,decide_eq_false (mt two.mpr short)]

/-- A letter behind a full array is written outside of it. -/
theorem Held.letter_full (held : Held s run) (full : run.length = MAX_WORD_LEN + 1) : Words.letter s c = .error .outside := by
  have none_ : ¬(0 ≤ s.letterCount ∧ s.letterCount < 65) := by
    rw [held.room_iff,full]
    exact Nat.not_succ_le_self _
  exact if_neg none_

theorem Held.array (held : Held s run) :
    (List.range (MAX_WORD_LEN + 1)).map s.word = run.map tolower ++ List.replicate (MAX_WORD_LEN + 1 - run.length) 0 := by
  have fits := held.fits
  apply List.ext_getElem?
  intro i
  rw [List.getElem?_map,List.getElem?_append,List.length_map,List.getElem?_replicate]
  by_cases early : i < MAX_WORD_LEN + 1
  · rw [List.getElem?_range early,Option.map_some,held.word]
    split
    · rename_i inside
      rw [List.getElem?_eq_getElem (by rwa [List.length_map])]
      rfl
    · rename_i outside
      rw [List.getElem?_eq_none (by rw [List.length_map]; omega),if_pos (by omega)]
      rfl
  · rw [List.getElem?_eq_none (by rw [List.length_range]; omega),if_neg (by omega),if_neg (by omega)]
    rfl

theorem Held.text (held : Held s run) : ((List.range (MAX_WORD_LEN + 1)).map s.word).takeWhile (· != 0) = run.map tolower := by
  have solid : ∀ c ∈ run.map tolower, (c != 0) = true := by
    intro c inside
    obtain ⟨d,there,rfl⟩ := List.mem_map.mp inside
    exact bne_iff_ne.mpr (tolower_some (held.letters d there))
  rw [held.array,List.takeWhile_append_of_pos solid]
  simp

theorem Held.string (held : Held s run) (room : run.length ≤ MAX_WORD_LEN) : string s.word = .ok (run.map tolower) := by
  unfold Words.string
  rw [held.text]
  exact if_pos (by rw [List.length_map]; exact Nat.lt_succ_of_le room)

/-- A full array has no terminator. -/
theorem Held.string_full (held : Held s run) (full : run.length = MAX_WORD_LEN + 1) : Words.string s.word = .error .unterminated := by
  unfold Words.string
  rw [held.text]
  exact if_neg (by rw [List.length_map,full]; exact Nat.lt_irrefl _)

end

/-! A whole file. -/

def addAll (malloc : Nat → Bool) : List Bytes → WordList → Int32 × WordList
  | [],wclist => (0,wclist)
  | word :: words,wclist =>
    let (err,wclist) := add_word malloc wclist word
    if err = 1 then (1,wclist) else addAll malloc words wclist

section
variable {malloc : Nat → Bool} {s : Reading} {run : Bytes}

theorem wordsOf_run (letters : ∀ c ∈ run, isalpha c = true) :
    wordsOf run = if 2 ≤ run.length then [run.map tolower] else [] := by
  rw [wordsOf,pieces_run letters]
  split <;> rfl

theorem wordsOf_separated (other : ¬isalpha c = true) (run rest : Bytes) : wordsOf (run ++ c :: rest) = wordsOf run ++ wordsOf rest := by
  rw [wordsOf,pieces_separated (by simpa using other),List.map_append]
  rfl

/-- The array is not empty when a run is in it. -/
theorem Held.differ (held : Held s run) (long : 2 ≤ run.length) : differ s.word zeros (MAX_WORD_LEN + 1) 0 = true := by
  have first : s.word 0 ≠ 0 := by
    obtain ⟨c,run,rfl⟩ := List.exists_cons_of_length_pos (show 0 < run.length by omega)
    rw [held.word]
    exact tolower_some (held.letters c (List.mem_cons_self ..))
  exact if_pos first

theorem Held.short (held : Held s run) (short : ∀ piece ∈ pieces isalpha 1 (run ++ rest), piece.length ≤ MAX_WORD_LEN) :
    run.length ≤ MAX_WORD_LEN := by
  rcases Nat.eq_zero_or_pos run.length with none_ | some_
  · omega
  · obtain ⟨piece,inside,longer⟩ := exists_piece held.letters some_ rest
    exact Nat.le_trans longer (short piece inside)

/-- A file whose letter runs fit the array has its words added. -/
theorem count_spec (held : Held s run) (rest : Bytes)
    (short : ∀ piece ∈ pieces isalpha 1 (run ++ rest), piece.length ≤ MAX_WORD_LEN) :
    (countLoop malloc rest s >>= finish malloc) =
      .ok ((addAll malloc (wordsOf (run ++ rest)) s.wclist).1,some (addAll malloc (wordsOf (run ++ rest)) s.wclist).2) := by
  induction rest generalizing s run with
  | nil =>
    rw [List.append_nil,wordsOf_run held.letters,countLoop,go rfl,finish]
    by_cases long : 2 ≤ run.length
    · have inWord : s.inWord = true := by rw [held.inWord,decide_eq_true long]
      simp only
      rw [if_neg (by decide),held.differ long,inWord,if_pos (by rfl),held.string (held.short short),go rfl,if_pos long,addAll]
      cases add_word malloc s.wclist (run.map tolower) with
      | mk err wclist =>
        simp only
        split
        · rfl
        · rfl
    · have inWord : s.inWord = false := by rw [held.inWord,decide_eq_false long]
      simp only
      rw [if_neg (by decide),inWord,Bool.and_false,if_neg (by decide),if_neg long]
      rfl
  | cons c rest ih =>
    by_cases also : isalpha c = true
    · obtain ⟨s',ran,held',same⟩ := held.letter also (held.short short)
      have whole : run ++ c :: rest = (run ++ [c]) ++ rest := by simp
      rw [whole] at short ⊢
      rw [countLoop,if_pos also,go ran,← same]
      exact ih held' short
    · rw [countLoop,if_neg also,wordsOf_separated also,wordsOf_run held.letters]
      have room := held.short short
      rw [pieces_separated (by simpa using also)] at short
      have later := fun piece inside => short piece (List.mem_append_right _ inside)
      by_cases long : 2 ≤ run.length
      · have inWord : s.inWord = true := by rw [held.inWord,decide_eq_true long]
        rw [if_pos inWord,held.string room,go rfl,if_pos long,List.singleton_append,addAll]
        cases add_word malloc s.wclist (run.map tolower) with
        | mk err wclist =>
          simp only
          split
          · rfl
          · exact ih (Held.start wclist) later
      · have inWord : s.inWord = false := by rw [held.inWord,decide_eq_false long]
        rw [if_neg (by simp [inWord]),if_neg long]
        exact ih (Held.start s.wclist) later

theorem add_word_ok (memory : ∀ k, malloc k = true) (wclist : WordList) (word : Bytes) : (add_word malloc wclist word).1 = 0 := by
  unfold add_word
  split
  · rfl
  · rw [if_pos (memory _),if_pos (memory _)]

theorem Held.full_word (held : Held s run) (full : run.length = MAX_WORD_LEN + 1) : s.inWord = true := by
  rw [held.inWord,full]
  rfl

theorem Held.beyond (held : Held s run) (beyond : MAX_WORD_LEN < run.length) : run.length = MAX_WORD_LEN + 1 :=
  Nat.le_antisymm held.fits beyond

/-- A letter run that does not fit the array is written behind it, or has no terminator in it. -/
theorem count_faults (memory : ∀ k, malloc k = true) (held : Held s run) (rest : Bytes)
    (long : ∃ piece ∈ pieces isalpha 1 (run ++ rest), MAX_WORD_LEN < piece.length) :
    ∃ fault, (countLoop malloc rest s >>= finish malloc) = .error fault := by
  induction rest generalizing s run with
  | nil =>
    obtain ⟨piece,inside,beyond⟩ := long
    have full : run.length = MAX_WORD_LEN + 1 := by
      rw [List.append_nil,pieces_run held.letters] at inside
      split at inside
      · rw [List.mem_singleton.mp inside] at beyond
        exact held.beyond beyond
      · cases inside
    refine ⟨.unterminated,?_⟩
    rw [countLoop,go rfl,finish]
    simp only
    rw [if_neg (by decide),held.differ (by rw [full]; decide),held.full_word full,if_pos (by rfl),held.string_full full]
    rfl
  | cons c rest ih =>
    by_cases also : isalpha c = true
    · rw [countLoop,if_pos also]
      by_cases room : run.length ≤ MAX_WORD_LEN
      · obtain ⟨s',ran,held',-⟩ := held.letter also room
        have whole : run ++ c :: rest = (run ++ [c]) ++ rest := by simp
        rw [whole] at long
        rw [go ran]
        exact ih held' long
      · rw [held.letter_full (held.beyond (Nat.not_le.mp room))]
        exact ⟨.outside,rfl⟩
    · rw [countLoop,if_neg also]
      by_cases room : run.length ≤ MAX_WORD_LEN
      · have later : ∃ piece ∈ pieces isalpha 1 rest, MAX_WORD_LEN < piece.length := by
          obtain ⟨piece,inside,beyond⟩ := long
          rw [pieces_separated (by simpa using also),pieces_run held.letters,List.mem_append] at inside
          rcases inside with now | later
          · split at now
            · rw [List.mem_singleton.mp now] at beyond
              exact absurd beyond (Nat.not_lt.mpr room)
            · cases now
          · exact ⟨piece,later,beyond⟩
        split
        · have added := add_word_ok memory s.wclist (run.map tolower)
          rw [held.string room,go rfl]
          cases call : add_word malloc s.wclist (run.map tolower) with
          | mk err wclist =>
            rw [call] at added
            simp only
            rw [if_neg (by rw [show err = 0 from added]; decide)]
            exact ih (Held.start wclist) later
        · exact ih (Held.start s.wclist) later
      · have full := held.beyond (Nat.not_le.mp room)
        rw [if_pos (held.full_word full),held.string_full full]
        exact ⟨.unterminated,rfl⟩

end

theorem runs_short_of_inside (infile : Bytes)
    (inside : ∀ (malloc : Nat → Bool) (wclist : Option WordList), ∃ result, count_words malloc wclist (some infile) = .ok result) :
    ∀ run ∈ pieces isalpha 1 infile, run.length ≤ MAX_WORD_LEN := by
  intro run member
  by_contra long
  obtain ⟨result,ran⟩ := inside (fun _ => true) (some ⟨[],0⟩)
  obtain ⟨fault,failed⟩ := count_faults (fun _ => rfl) (Held.start ⟨[],0⟩) infile ⟨run,member,Nat.not_le.mp long⟩
  rw [count_words,failed] at ran
  cases ran

/-- `count_words` stays inside of its word array, and passes on strings that end in it, for exactly
the files without a run of more than 64 letters. -/
theorem count_words_inside_iff (infile : Bytes) :
    (∀ (malloc : Nat → Bool) (wclist : Option WordList), ∃ result, count_words malloc wclist (some infile) = .ok result) ↔
      ∀ run ∈ pieces isalpha 1 infile, run.length ≤ MAX_WORD_LEN := by
  constructor
  · exact runs_short_of_inside infile
  · intro short malloc wclist
    cases wclist with
    | none => exact ⟨_,rfl⟩
    | some wclist => exact ⟨_,count_spec (Held.start wclist) infile short⟩

/-- The last of 66 letters in a row is written behind the array. -/
theorem not_count_words_inside :
    ¬ ∀ (infile : Bytes) (malloc : Nat → Bool) (wclist : Option WordList),
      ∃ result, count_words malloc wclist (some infile) = .ok result := by
  intro inside
  have short := runs_short_of_inside (List.replicate 66 97) (inside _)
  have letters : ∀ c ∈ List.replicate 66 (97 : UInt8), isalpha c = true := by
    intro c member
    rw [List.eq_of_mem_replicate member]
    rfl
  rw [pieces_run letters] at short
  exact absurd (short _ (List.mem_singleton_self _)) (by decide)

end OsProj.Words
