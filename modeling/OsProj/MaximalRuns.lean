import Mathlib.Data.List.TakeWhile

/-! Maximal runs in a list: stretches of elements with a property that cannot be made longer
on either side. They are found from left to right, and cutting the list at the elements
without the property gives the same stretches. -/
namespace OsProj.MaximalRuns

/-- The stretch from `start` up to but not including `stop`. -/
structure MaximalRun (p : α → Bool) (l : List α) (start stop : Nat) : Prop where
  nonempty : start < stop
  within : stop ≤ l.length
  all : ∀ i, start ≤ i → i < stop → l[i]?.any p = true
  before : start = 0 ∨ l[start - 1]?.any p = false
  after : l[stop]?.any p = false

def close (n start i : Nat) : List (Nat × Nat) := if start + n ≤ i then [(start,i)] else []

/-- The runs of at least `n` elements from position `i` on; one that began at `start` is in progress. -/
def spansFrom (p : α → Bool) (n : Nat) : Nat → Nat → List α → List (Nat × Nat)
  | start,i,[] => close n start i
  | start,i,a :: rest => if p a then spansFrom p n start (i + 1) rest else close n start i ++ spansFrom p n (i + 1) (i + 1) rest

def spans (p : α → Bool) (n : Nat) (l : List α) : List (Nat × Nat) := spansFrom p n 0 0 l

def slice (l : List α) (span : Nat × Nat) : List α := (l.drop span.1).take (span.2 - span.1)

/-- The pieces between elements without the property that have at least `n` elements. -/
def pieces (p : α → Bool) (n : Nat) (l : List α) : List (List α) :=
  (l.splitOnP fun a => !p a).filter fun piece => n ≤ piece.length

/-- How a list begins: without a run, with a run up to its end, or with a run and what ends it. -/
inductive Begins (p : α → Bool) : List α → Prop
  | others (others : ∀ a ∈ l, p a = false) : Begins p l
  | last (others : ∀ a ∈ skipped, p a = false) (all : ∀ a ∈ run, p a = true) (some_ : run ≠ []) :
    Begins p (skipped ++ run)
  | run (others : ∀ a ∈ skipped, p a = false) (all : ∀ a ∈ run, p a = true) (some_ : run ≠ []) (other : p c = false) :
    Begins p (skipped ++ (run ++ c :: rest))

section
variable {p : α → Bool} {run rest l : List α}

theorem pieces_run (all : ∀ a ∈ run, p a = true) : pieces p n run = if n ≤ run.length then [run] else [] := by
  rw [pieces,List.splitOnP_eq_singleton (by simpa using all)]
  split
  · rename_i long
    simp [long]
  · rename_i short
    simp [short]

theorem pieces_separated (other : p a = false) (run rest : List α) :
    pieces p n (run ++ a :: rest) = pieces p n run ++ pieces p n rest := by
  rw [pieces,List.splitOnP_append_cons run rest (by simp [other]),List.filter_append]
  rfl

theorem run_snoc (all : ∀ a ∈ run, p a = true) (also : p c = true) : ∀ a ∈ run ++ [c], p a = true := by
  intro a inside
  rcases List.mem_append.mp inside with old | new
  · exact all a old
  · rwa [List.mem_singleton.mp new]

/-- A run is part of a piece of every list that it begins. -/
theorem exists_piece (all : ∀ a ∈ run, p a = true) (long : n ≤ run.length) (rest : List α) :
    ∃ piece ∈ pieces p n (run ++ rest), run.length ≤ piece.length := by
  induction rest generalizing run with
  | nil =>
    rw [List.append_nil,pieces_run all,if_pos long]
    exact ⟨run,List.mem_singleton_self run,Nat.le_refl _⟩
  | cons a rest ih =>
    by_cases also : p a = true
    · have longer : n ≤ (run ++ [a]).length := by
        rw [List.length_append]
        omega
      obtain ⟨piece,inside,more⟩ := ih (run_snoc all also) longer
      rw [List.append_assoc,List.singleton_append] at inside
      rw [List.length_append] at more
      exact ⟨piece,inside,by omega⟩
    · refine ⟨run,?_,Nat.le_refl _⟩
      rw [pieces_separated (by simpa using also),pieces_run all,if_pos long]
      exact List.mem_append_left _ (List.mem_singleton_self run)

theorem pieces_others (others : ∀ a ∈ rest, p a = false) : pieces p 1 rest = [] := by
  induction rest with
  | nil => rfl
  | cons a rest ih =>
    have split : pieces p 1 ([] ++ a :: rest) = _ := pieces_separated (others a (by simp)) [] rest
    rw [ih fun b inside => others b (by simp [inside])] at split
    exact split

/-- Elements without the property at either end do not matter. -/
theorem pieces_append_others (l : List α) (others : ∀ a ∈ rest, p a = false) : pieces p 1 (l ++ rest) = pieces p 1 l := by
  cases rest with
  | nil => rw [List.append_nil]
  | cons a rest =>
    have gone : pieces p 1 rest = [] := pieces_others fun b inside => others b (by simp [inside])
    rw [pieces_separated (others a (by simp)),gone,List.append_nil]

theorem pieces_others_append (others : ∀ a ∈ run, p a = false) (rest : List α) : pieces p 1 (run ++ rest) = pieces p 1 rest := by
  induction run with
  | nil => rfl
  | cons a run ih =>
    have split : pieces p 1 ([] ++ a :: (run ++ rest)) = _ := pieces_separated (others a (by simp)) [] (run ++ rest)
    rw [ih fun b inside => others b (by simp [inside])] at split
    exact split

/-- A longer list has no fewer pieces; `run` is the piece in progress. -/
theorem pieces_length_le (all : ∀ a ∈ run, p a = true) (l rest : List α) :
    (pieces p 1 (run ++ l)).length ≤ (pieces p 1 (run ++ (l ++ rest))).length := by
  induction l generalizing run with
  | nil =>
    rw [List.append_nil,List.nil_append,pieces_run all]
    split
    · rename_i long
      obtain ⟨piece,inside,-⟩ := exists_piece all long rest
      exact List.length_pos_of_mem inside
    · exact Nat.zero_le _
  | cons a l ih =>
    by_cases also : p a = true
    · have more := ih (run_snoc all also)
      rwa [List.append_assoc,List.append_assoc] at more
    · have other : p a = false := by simpa using also
      have more := ih (show ∀ a ∈ ([] : List α), p a = true by simp)
      rw [List.cons_append,pieces_separated other,pieces_separated other,List.length_append,List.length_append]
      exact Nat.add_le_add_left more _

theorem close_slice (all : ∀ a ∈ run, p a = true) (done rest : List α) :
    (close n done.length (done.length + run.length)).map (slice (done ++ (run ++ rest))) = pieces p n run := by
  rw [pieces_run all]
  unfold close
  by_cases long : n ≤ run.length
  · rw [if_pos (by omega),if_pos long]
    simp [slice]
  · rw [if_neg (by omega),if_neg long]
    rfl

/-- The runs that the scan finds are the pieces; `done` is behind it and `run` in progress. -/
theorem spansFrom_slices (all : ∀ a ∈ run, p a = true) (done rest : List α) :
    (spansFrom p n done.length (done.length + run.length) rest).map (slice (done ++ (run ++ rest))) = pieces p n (run ++ rest) := by
  induction rest generalizing run done with
  | nil => rw [spansFrom,close_slice all,List.append_nil]
  | cons a rest ih =>
    rw [spansFrom]
    split
    · rename_i also
      have next := ih (run_snoc all also) done
      rw [List.length_append,List.length_singleton,List.append_assoc,List.singleton_append,← Nat.add_assoc] at next
      exact next
    · rename_i other
      have next := ih (show ∀ a ∈ ([] : List α), p a = true by simp) (done ++ run ++ [a])
      have whole : done ++ run ++ [a] ++ ([] ++ rest) = done ++ (run ++ a :: rest) := by simp
      have place : (done ++ run ++ [a]).length = done.length + run.length + 1 := by
        rw [List.length_append,List.length_append,List.length_singleton]
      rw [whole,place,List.length_nil,Nat.add_zero,List.nil_append] at next
      rw [List.map_append,close_slice all,next,pieces_separated (by simpa using other)]

theorem spans_slices (p : α → Bool) (n : Nat) (l : List α) : (spans p n l).map (slice l) = pieces p n l :=
  spansFrom_slices (show ∀ a ∈ ([] : List α), p a = true by simp) [] l

theorem begins (p : α → Bool) (l : List α) : Begins p l := by
  induction l with
  | nil => exact .others (List.forall_mem_nil _)
  | cons a l ih =>
    by_cases also : p a = true
    · -- the run that `a` begins
      have whole : ([] : List α) ++ (a :: l.takeWhile p ++ l.dropWhile p) = a :: l := by
        rw [List.nil_append,List.cons_append,List.takeWhile_append_dropWhile]
      have all : ∀ b ∈ a :: l.takeWhile p, p b = true :=
        List.forall_mem_cons.mpr ⟨also,fun b inside => List.mem_takeWhile_imp inside⟩
      cases ended : l.dropWhile p with
      | nil =>
        rw [ended,List.append_nil] at whole
        exact whole ▸ .last (List.forall_mem_nil _) all (List.cons_ne_nil _ _)
      | cons c rest =>
        have other : p c = false := by
          have first := List.head?_dropWhile_not p l
          rw [ended] at first
          exact first
        rw [ended] at whole
        exact whole ▸ .run (List.forall_mem_nil _) all (List.cons_ne_nil _ _) other
    · have here : p a = false := by simpa using also
      cases ih with
      | others others => exact .others (List.forall_mem_cons.mpr ⟨here,others⟩)
      | last others all some_ => exact .last (List.forall_mem_cons.mpr ⟨here,others⟩) all some_
      | run others all some_ other => exact .run (List.forall_mem_cons.mpr ⟨here,others⟩) all some_ other

theorem spansFrom_others (positive : 0 < n) (others : ∀ a ∈ run, p a = false) (i : Nat) (rest : List α) :
    spansFrom p n i i (run ++ rest) = spansFrom p n (i + run.length) (i + run.length) rest := by
  induction run generalizing i with
  | nil => rfl
  | cons a run ih =>
    have here := others a List.mem_cons_self
    have short : close n i i = [] := if_neg (by omega)
    rw [List.cons_append,spansFrom,here,if_neg Bool.false_ne_true,short,List.nil_append,
      ih (fun b inside => others b (List.mem_cons_of_mem _ inside)),List.length_cons,Nat.add_assoc,Nat.add_comm 1]

theorem spansFrom_run (all : ∀ a ∈ run, p a = true) (start i : Nat) (rest : List α) :
    spansFrom p n start i (run ++ rest) = spansFrom p n start (i + run.length) rest := by
  induction run generalizing i with
  | nil => rfl
  | cons a run ih =>
    rw [List.cons_append,spansFrom,if_pos (all a List.mem_cons_self),
      ih (fun b inside => all b (List.mem_cons_of_mem _ inside)),List.length_cons,Nat.add_assoc,Nat.add_comm 1]

theorem close_run (some_ : run ≠ []) (start : Nat) : close 1 start (start + run.length) = [(start,start + run.length)] :=
  if_pos (Nat.add_le_add_left (List.length_pos_iff.mpr some_) start)

theorem mem_close : (a,b) ∈ close n start i ↔ a = start ∧ b = i ∧ start + n ≤ i := by
  unfold close
  split
  · rename_i long
    simp [long]
  · rename_i short
    simp [short]

/-- A run that starts no earlier than the one in progress is that one or comes later. -/
theorem MaximalRun.closed (maximal : MaximalRun p l a b) (all : ∀ j, start ≤ j → j < i → l[j]?.any p = true)
    (ended : l[i]?.any p = false) (low : start ≤ a) (early : a ≤ i) : a = start ∧ b = i := by
  have nonempty := maximal.nonempty
  have here : a ≠ i := by
    rintro rfl
    have inside := maximal.all a (Nat.le_refl _) nonempty
    rw [ended] at inside
    cases inside
  have same : a = start := by
    by_contra later
    have inside := all (a - 1) (by omega) (by omega)
    rcases maximal.before with zero | outside
    · omega
    · rw [outside] at inside
      cases inside
  have stop : b = i := by
    rcases Nat.lt_trichotomy b i with less | equal | more
    · have inside := all b (by omega) less
      rw [maximal.after] at inside
      cases inside
    · exact equal
    · have inside := maximal.all i (by omega) more
      rw [ended] at inside
      cases inside
  exact ⟨same,stop⟩

/-- The stretch in progress is a maximal run as soon as its next element lacks the property. -/
theorem mem_closed (positive : 0 < n) (bound : i ≤ l.length) (order : start ≤ i)
    (all : ∀ j, start ≤ j → j < i → l[j]?.any p = true) (before : start = 0 ∨ l[start - 1]?.any p = false)
    (ended : l[i]?.any p = false) :
    (a,b) ∈ close n start i ↔ MaximalRun p l a b ∧ a + n ≤ b ∧ start ≤ a ∧ a ≤ i := by
  rw [mem_close]
  constructor
  · rintro ⟨rfl,rfl,long⟩
    exact ⟨⟨by omega,bound,all,before,ended⟩,long,Nat.le_refl _,order⟩
  · rintro ⟨maximal,long,low,early⟩
    obtain ⟨rfl,rfl⟩ := maximal.closed all ended low early
    exact ⟨rfl,rfl,long⟩

/-- The scan finds the maximal runs that start no earlier than the one in progress. -/
theorem mem_spansFrom (positive : 0 < n) (at_ : l.drop i = rest) (bound : i ≤ l.length) (order : start ≤ i)
    (all : ∀ j, start ≤ j → j < i → l[j]?.any p = true) (before : start = 0 ∨ l[start - 1]?.any p = false) :
    (a,b) ∈ spansFrom p n start i rest ↔ MaximalRun p l a b ∧ a + n ≤ b ∧ start ≤ a := by
  induction rest generalizing start i with
  | nil =>
    have last : i = l.length := by
      have none_ := List.drop_eq_nil_iff.mp at_
      omega
    have ended : l[i]?.any p = false := by
      rw [last,List.getElem?_eq_none (Nat.le_refl _)]
      rfl
    rw [spansFrom,mem_closed positive bound order all before ended]
    apply and_congr_right
    intro maximal
    have inside := maximal.within
    have nonempty := maximal.nonempty
    omega
  | cons c rest ih =>
    have here : l[i]? = some c := by
      have first := congrArg (fun t => t[0]?) at_
      simpa using first
    have more : i < l.length := (List.getElem?_eq_some_iff.mp here).1
    have next : l.drop (i + 1) = rest := by
      rw [← List.drop_drop,at_]
      rfl
    rw [spansFrom]
    split
    · rename_i also
      refine ih next more (Nat.le_succ_of_le order) ?_ before
      intro j low high
      rcases Nat.lt_succ_iff_lt_or_eq.mp high with less | rfl
      · exact all j low less
      · rw [here]
        exact also
    · rename_i other
      have ended : l[i]?.any p = false := by
        rw [here]
        simpa using other
      have later := ih next more (Nat.le_refl (i + 1)) (fun j low high => absurd low (by omega)) (.inr ended)
      rw [List.mem_append,mem_closed positive bound order all before ended,later,← and_or_left,← and_or_left]
      apply and_congr_right
      intro _
      apply and_congr_right
      intro _
      omega

theorem spansFrom_low (member : (a,b) ∈ spansFrom p n start i rest) (order : start ≤ i) : start ≤ a := by
  induction rest generalizing start i with
  | nil => exact (mem_close.mp member).1 ▸ Nat.le_refl _
  | cons c rest ih =>
    rw [spansFrom] at member
    split at member
    · exact ih member (Nat.le_succ_of_le order)
    · rcases List.mem_append.mp member with now | later
      · exact (mem_close.mp now).1 ▸ Nat.le_refl _
      · exact Nat.le_trans (Nat.le_succ_of_le order) (ih later (Nat.le_refl _))

theorem spansFrom_ordered (order : start ≤ i) : (spansFrom p n start i rest).Pairwise fun s t => s.2 < t.1 := by
  induction rest generalizing start i with
  | nil =>
    rw [spansFrom,close]
    split
    · exact List.pairwise_singleton ..
    · exact .nil
  | cons c rest ih =>
    rw [spansFrom]
    split
    · exact ih (Nat.le_succ_of_le order)
    · refine List.pairwise_append.mpr ⟨?_,ih (Nat.le_refl _),?_⟩
      · rw [close]
        split
        · exact List.pairwise_singleton ..
        · exact .nil
      · rintro ⟨a,b⟩ now ⟨a',b'⟩ later
        have low := spansFrom_low later (Nat.le_refl _)
        obtain ⟨_,rfl,_⟩ := mem_close.mp now
        exact low

/-- The scan finds each maximal run of at least `n` elements once, from left to right. -/
theorem mem_spans (positive : 0 < n) (p : α → Bool) (l : List α) :
    (a,b) ∈ spans p n l ↔ MaximalRun p l a b ∧ a + n ≤ b := by
  have found := mem_spansFrom (a := a) (b := b) (p := p) (l := l) positive rfl (Nat.zero_le _) (Nat.le_refl 0)
    (fun j low high => absurd high (Nat.not_lt_zero _)) (.inl rfl)
  rw [List.drop_zero] at found
  rw [spans,found]
  simp

theorem spans_ordered (p : α → Bool) (n : Nat) (l : List α) : (spans p n l).Pairwise fun s t => s.2 < t.1 :=
  spansFrom_ordered (Nat.le_refl 0)

end

end OsProj.MaximalRuns
