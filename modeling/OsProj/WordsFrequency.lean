import Mathlib.Algebra.BigOperators.Group.List.Lemmas
import Mathlib.Algebra.GroupWithZero.Nat
import Mathlib.Algebra.Ring.Int.Defs
import OsProj.Words

/-! The list after any number of files: `count_words` and `num_words` agree on what a word is, and
the list has the number of occurrences of every word as far as an `int` can hold it. -/
namespace OsProj.Words

open OsProj.ByteList
open OsProj.Faulting
open OsProj.MaximalRuns
open OsProj.PWords (Counts findWord increment)

def allWords (infiles : List Bytes) : List Bytes := infiles.flatMap wordsOf

/-- The list has every word of the files once, with the number of its occurrences, and the total
that `num_words` gives. -/
structure Frequencies (infiles : List Bytes) (list : List WordCount) : Prop where
  once : (list.map WordCount.word).Nodup
  words : ∀ word, word ∈ list.map WordCount.word ↔ word ∈ allWords infiles
  counts : ∀ wc ∈ list, wc.count.toInt = (allWords infiles).count wc.word
  total : (list.map fun wc => wc.count.toInt).sum = (infiles.map fun infile => (num_words infile).toInt).sum

/-! Entries whose count is cut to an `int`. -/

/-- An entry of the list that counts without a limit. -/
def narrow (wc : PWords.WordCount) : WordCount := ⟨wc.word,Int32.ofNat wc.count⟩

theorem narrow_le (n : Nat) : (Int32.ofNat n).toInt ≤ n := by
  by_cases small : n < 2 ^ 31
  · exact Int.le_of_eq (Int32.toInt_ofNat_of_lt small)
  · have := (Int32.ofNat n).toInt_lt
    omega

theorem narrow_eq_iff (n : Nat) : (Int32.ofNat n).toInt = n ↔ n < 2 ^ 31 := by
  constructor
  · intro same
    have := (Int32.ofNat n).toInt_lt
    omega
  · exact Int32.toInt_ofNat_of_lt

theorem find_word_narrow (entries : List PWords.WordCount) (word : Bytes) :
    find_word (entries.map narrow) word = findWord entries word := by
  induction entries with
  | nil => rfl
  | cons wc entries ih =>
    rw [List.map_cons,find_word,findWord,ih]
    rfl

theorem modify_narrow (entries : List PWords.WordCount) (i : Nat) :
    (entries.map narrow).modify i (fun wc => { wc with count := wc.count + 1 }) = (entries.modify i increment).map narrow := by
  induction entries generalizing i with
  | nil => simp
  | cons wc entries ih =>
    cases i with
    | zero => simp [narrow,increment]
    | succ i =>
      rw [List.map_cons,List.modify_succ_cons,List.modify_succ_cons,List.map_cons,ih]

section
variable {malloc : Nat → Bool} {wclist : WordList} {entries : List PWords.WordCount} {words : List Bytes}

/-- A call of `add_word` counts one more word. -/
theorem add_word_counts (memory : ∀ k, malloc k = true) (counts : Counts words entries) (same : wclist.list = entries.map narrow)
    (word : Bytes) :
    ∃ entries', (add_word malloc wclist word).2.list = entries'.map narrow ∧ Counts (words ++ [word]) entries' := by
  unfold add_word
  rw [same,find_word_narrow]
  cases found : findWord entries word with
  | some i =>
    obtain ⟨before,wc,after,rfl,here,-,modified⟩ := PWords.findWord_some found
    refine ⟨_,modify_narrow _ i,?_⟩
    rw [modified]
    exact PWords.counts_snoc_found counts here
  | none =>
    simp only
    rw [if_pos (memory _),if_pos (memory _)]
    refine ⟨⟨word,1⟩ :: entries,rfl,?_⟩
    exact (PWords.counts_snoc_other counts (PWords.findWord_none.mp found)).rearranged (List.perm_append_singleton _ _)

theorem addAll_counts (memory : ∀ k, malloc k = true) (counts : Counts words entries) (same : wclist.list = entries.map narrow)
    (more : List Bytes) :
    (addAll malloc more wclist).1 = 0 ∧
      ∃ entries', (addAll malloc more wclist).2.list = entries'.map narrow ∧ Counts (words ++ more) entries' := by
  induction more generalizing wclist entries words with
  | nil =>
    rw [List.append_nil]
    exact ⟨rfl,entries,same,counts⟩
  | cons word more ih =>
    obtain ⟨entries',same',counts'⟩ := add_word_counts memory counts same word
    have added := add_word_ok memory wclist word
    rw [addAll]
    cases call : add_word malloc wclist word with
    | mk err wclist' =>
      rw [call] at same' added
      simp only
      rw [if_neg (by rw [show err = 0 from added]; decide)]
      have rest := ih counts' same'
      rwa [List.append_assoc] at rest

/-- The files one after the other add all of their words. -/
theorem countAll_counts (memory : ∀ k, malloc k = true) (counts : Counts words entries) (same : wclist.list = entries.map narrow)
    (infiles : List Bytes) (short : ∀ infile ∈ infiles, ∀ run ∈ pieces isalpha 1 infile, run.length ≤ MAX_WORD_LEN) :
    ∃ wclist' entries', countAll malloc infiles wclist = .ok (0,wclist') ∧ wclist'.list = entries'.map narrow ∧
      Counts (words ++ allWords infiles) entries' := by
  induction infiles generalizing wclist entries words with
  | nil =>
    refine ⟨wclist,entries,rfl,same,?_⟩
    rwa [allWords,List.flatMap_nil,List.append_nil]
  | cons infile infiles ih =>
    have ran : (countLoop malloc infile ⟨wclist,zeros,false,0⟩ >>= finish malloc) = _ :=
      count_spec (Held.start wclist) infile (short infile (List.mem_cons_self ..))
    rw [List.nil_append] at ran
    obtain ⟨ok,entries',same',counts'⟩ := addAll_counts memory counts same (wordsOf infile)
    obtain ⟨wclist'',entries'',rest,same'',counts''⟩ := ih counts' same' fun file inside => short file (List.mem_cons_of_mem _ inside)
    refine ⟨wclist'',entries'',?_,same'',?_⟩
    · rw [countAll,count_words,ran,ok,go rfl]
      simp only
      rw [if_neg (by decide)]
      exact rest
    · rwa [allWords,List.flatMap_cons,← List.append_assoc]

/-- All counts together are the number of words. -/
theorem counts_sum (counts : Counts words entries) : (entries.map PWords.WordCount.count).sum = words.length := by
  have canonical : Counts words (words.dedup.map fun word => ⟨word,words.count word⟩) := by
    constructor
    · rw [List.map_map]
      exact (List.map_id words.dedup).symm ▸ List.nodup_dedup words
    · intro wc
      rw [List.mem_map]
      constructor
      · rintro ⟨word,inside,rfl⟩
        exact ⟨List.mem_dedup.mp inside,rfl⟩
      · rintro ⟨known,count⟩
        exact ⟨wc.word,List.mem_dedup.mpr known,by rw [← count]⟩
  have same := (counts.perm canonical (.refl words)).map PWords.WordCount.count
  rw [same.sum_eq,List.map_map]
  convert List.sum_map_count_dedup_eq_length words
  · rfl
  · simp only [Function.comp_apply]
    congr!

theorem narrowed_sum (entries : List PWords.WordCount) (small : ∀ wc ∈ entries, wc.count < 2 ^ 31) :
    ((entries.map narrow).map fun wc => wc.count.toInt).sum = ((entries.map PWords.WordCount.count).sum : Nat) := by
  induction entries with
  | nil => rfl
  | cons wc entries ih =>
    have first := (narrow_eq_iff wc.count).mpr (small wc (List.mem_cons_self ..))
    have rest := ih fun wc inside => small wc (List.mem_cons_of_mem _ inside)
    rw [List.map_cons,List.map_cons,List.sum_cons,rest,List.map_cons,List.sum_cons,Int.natCast_add]
    exact congrArg (· + _) first

/-- The totals of `num_words` are right for files whose words an `int` can count, and too small for others. -/
theorem totals_eq_iff (infiles : List Bytes) :
    (infiles.map fun infile => (num_words infile).toInt).sum = ((allWords infiles).length : Int) ↔
      ∀ infile ∈ infiles, (wordsOf infile).length < 2 ^ 31 := by
  have most : ∀ l : List Bytes, (l.map fun infile => (num_words infile).toInt).sum ≤ ((allWords l).length : Int) := by
    intro l
    induction l with
    | nil => exact Int.le_refl _
    | cons infile l ih =>
      have first := narrow_le (wordsOf infile).length
      rw [List.map_cons,List.sum_cons,allWords,List.flatMap_cons,List.length_append,num_words_eq,Int.natCast_add]
      exact Int.add_le_add first ih
  induction infiles with
  | nil => simp [allWords]
  | cons infile infiles ih =>
    have first := narrow_le (wordsOf infile).length
    have rest := most infiles
    have whole : ((allWords (infile :: infiles)).length : Int) = (wordsOf infile).length + (allWords infiles).length := by
      rw [allWords,List.flatMap_cons,List.length_append,Int.natCast_add]
      rfl
    rw [List.map_cons,List.sum_cons,List.forall_mem_cons,← narrow_eq_iff,whole,num_words_eq]
    constructor
    · intro total
      exact ⟨by omega,ih.mp (by omega)⟩
    · rintro ⟨equal,later⟩
      rw [equal,ih.mpr later]

end

/-- The narrowed entries are the frequencies exactly when an `int` can hold all the numbers. -/
theorem frequencies_narrow_iff {infiles : List Bytes} {entries : List PWords.WordCount} (counts : Counts (allWords infiles) entries) :
    Frequencies infiles (entries.map narrow) ↔
      (∀ word, (allWords infiles).count word < 2 ^ 31) ∧ ∀ infile ∈ infiles, (wordsOf infile).length < 2 ^ 31 := by
  have words : (entries.map narrow).map WordCount.word = entries.map PWords.WordCount.word := by
    rw [List.map_map]
    rfl
  constructor
  · rintro ⟨-,-,right,total⟩
    have small : ∀ word, (allWords infiles).count word < 2 ^ 31 := by
      intro word
      by_cases known : word ∈ allWords infiles
      · have entry := (counts.entries ⟨word,(allWords infiles).count word⟩).mpr ⟨known,rfl⟩
        exact (narrow_eq_iff _).mp (right _ (List.mem_map_of_mem entry))
      · rw [List.count_eq_zero_of_not_mem known]
        decide
    have held : ∀ wc ∈ entries, wc.count < 2 ^ 31 := fun wc inside => ((counts.entries wc).mp inside).2 ▸ small wc.word
    rw [narrowed_sum entries held,counts_sum counts] at total
    exact ⟨small,(totals_eq_iff infiles).mp total.symm⟩
  · rintro ⟨small,files⟩
    have held : ∀ wc ∈ entries, wc.count < 2 ^ 31 := fun wc inside => ((counts.entries wc).mp inside).2 ▸ small wc.word
    refine ⟨?_,?_,?_,?_⟩
    · rw [words]
      exact counts.once
    · intro word
      rw [words,List.mem_map]
      constructor
      · rintro ⟨wc,inside,rfl⟩
        exact ((counts.entries wc).mp inside).1
      · intro known
        exact ⟨⟨word,(allWords infiles).count word⟩,(counts.entries _).mpr ⟨known,rfl⟩,rfl⟩
    · intro wc inside
      obtain ⟨entry,member,rfl⟩ := List.mem_map.mp inside
      rw [← show entry.count = (allWords infiles).count (narrow entry).word from ((counts.entries entry).mp member).2]
      exact (narrow_eq_iff entry.count).mpr (held entry member)
    · rw [narrowed_sum entries held,counts_sum counts]
      exact ((totals_eq_iff infiles).mpr files).symm

/-- The list after all the files holds the narrowed counts of all their words. -/
theorem countAll_narrow (infiles : List Bytes) {malloc : Nat → Bool} (memory : ∀ k, malloc k = true)
    (short : ∀ infile ∈ infiles, ∀ run ∈ pieces isalpha 1 infile, run.length ≤ MAX_WORD_LEN) :
    ∃ wclist entries, countAll malloc infiles ⟨[],0⟩ = .ok (0,wclist) ∧
      wclist.list = entries.map narrow ∧ Counts (allWords infiles) entries := by
  obtain ⟨wclist,entries,ran,same,counts⟩ := countAll_counts memory PWords.counts_nil (show (⟨[],0⟩ : WordList).list = _ from rfl) infiles short
  rw [List.nil_append] at counts
  exact ⟨wclist,entries,ran,same,counts⟩

/-- Counting the words of files whose letter runs fit the word array succeeds, and the counts are
right exactly when an `int` can hold each of them and the number of words of each file. -/
theorem word_frequencies_iff (infiles : List Bytes) (malloc : Nat → Bool) (memory : ∀ k, malloc k = true)
    (short : ∀ infile ∈ infiles, ∀ run ∈ pieces isalpha 1 infile, run.length ≤ MAX_WORD_LEN) :
    ∃ wclist, countAll malloc infiles ⟨[],0⟩ = .ok (0,wclist) ∧
      (Frequencies infiles wclist.list ↔
        (∀ word, (allWords infiles).count word < 2 ^ 31) ∧ ∀ infile ∈ infiles, (wordsOf infile).length < 2 ^ 31) := by
  obtain ⟨wclist,entries,ran,same,counts⟩ := countAll_narrow infiles memory short
  refine ⟨wclist,ran,?_⟩
  rw [same]
  exact frequencies_narrow_iff counts

theorem word_frequencies_iff_one :
    ∃ wclist, countAll (fun _ => true) [[97,97,32,98]] ⟨[],0⟩ = .ok (0,wclist) ∧
      (Frequencies [[97,97,32,98]] wclist.list ↔
        (∀ word, (allWords [[97,97,32,98]]).count word < 2 ^ 31) ∧ ∀ infile ∈ [[97,97,32,98]], (wordsOf infile).length < 2 ^ 31) :=
  word_frequencies_iff [[97,97,32,98]] (fun _ => true) (fun _ => rfl) (by decide)

def repeated : Nat → Bytes
  | 0 => []
  | n + 1 => 97 :: 97 :: 32 :: repeated n

theorem pieces_repeated (k n : Nat) (two : k ≤ 2) (some_ : 0 < k) : pieces isalpha k (repeated n) = List.replicate n [97,97] := by
  induction n with
  | zero => exact (pieces_run (by simp [repeated])).trans (if_neg (Nat.not_le.mpr some_))
  | succ n ih =>
    have letters : ∀ c ∈ [97,97], isalpha c = true := by
      rw [List.forall_mem_cons,List.forall_mem_singleton]
      decide
    have first : pieces isalpha k [97,97] = [[97,97]] := (pieces_run letters).trans (if_pos two)
    have step : pieces isalpha k ([97,97] ++ 32 :: repeated n) = _ := pieces_separated (by decide) _ _
    rw [repeated,List.replicate_succ,← ih]
    rw [first] at step
    exact step

/-- The count of a word that occurs 2^31 times is negative. -/
theorem not_word_frequencies :
    ¬ ∀ (infiles : List Bytes) (malloc : Nat → Bool), (∀ k, malloc k = true) →
      (∀ infile ∈ infiles, ∀ run ∈ pieces isalpha 1 infile, run.length ≤ MAX_WORD_LEN) →
      ∃ wclist, countAll malloc infiles ⟨[],0⟩ = .ok (0,wclist) ∧ Frequencies infiles wclist.list := by
  intro all
  obtain ⟨n,many⟩ : ∃ n, n = 2 ^ 31 := ⟨_,rfl⟩
  have short : ∀ infile ∈ [repeated n], ∀ run ∈ pieces isalpha 1 infile, run.length ≤ MAX_WORD_LEN := by
    intro infile only run inside
    rw [List.mem_singleton.mp only,pieces_repeated 1 n (by decide) (by decide)] at inside
    rw [List.eq_of_mem_replicate inside]
    decide
  obtain ⟨wclist,ran,right⟩ := all [repeated n] (fun _ => true) (fun _ => rfl) short
  obtain ⟨wclist',entries,ran',same,counts⟩ := countAll_narrow [repeated n] (fun _ => rfl) short
  obtain rfl := (Prod.mk.inj (Except.ok.inj (ran.symm.trans ran'))).2
  rw [same] at right
  have small := ((frequencies_narrow_iff counts).mp right).2 (repeated n) (List.mem_singleton_self _)
  rw [wordsOf,pieces_repeated 2 n (by decide) (by decide),List.length_map,List.length_replicate,many] at small
  exact absurd small (by decide)

end OsProj.Words
