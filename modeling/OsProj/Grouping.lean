import Mathlib.Data.List.Basic
import Mathlib.Order.Lattice

/-! Grouping by sorting. A list is cut into runs of neighbours that count as the same; once
it is sorted by a rank there is one run for each rank, holding everything of that rank.
Work that is first split over parts has one run for each part and rank. -/
namespace OsProj.Grouping

/-- The runs of a list whose first run starts with `a` and has begun as `run`. -/
def runsFrom (same : α → α → Bool) (a : α) (run : List α) : List α → List (List α)
  | [] => [run]
  | b :: rest => if same a b then runsFrom same a (run ++ [b]) rest else run :: runsFrom same b [b] rest

def runs (same : α → α → Bool) : List α → List (List α)
  | [] => []
  | a :: rest => runsFrom same a [a] rest

theorem runsFrom_congr {same same' : α → α → Bool} (agree : ∀ x ∈ a :: rest, ∀ y ∈ a :: rest, same x y = same' x y)
    (run : List α) : runsFrom same a run rest = runsFrom same' a run rest := by
  induction rest generalizing a run with
  | nil => rfl
  | cons b rest ih =>
    have here := agree a (by simp) b (by simp)
    have first : runsFrom same a (run ++ [b]) rest = runsFrom same' a (run ++ [b]) rest := by
      apply ih
      intro x inX y inY
      exact agree x (by rcases List.mem_cons.mp inX with rfl | inside <;> simp [*])
        y (by rcases List.mem_cons.mp inY with rfl | inside <;> simp [*])
    have second : runsFrom same b [b] rest = runsFrom same' b [b] rest :=
      ih (fun x inX y inY => agree x (List.mem_cons_of_mem _ inX) y (List.mem_cons_of_mem _ inY)) [b]
    rw [runsFrom,runsFrom,here,first,second]

theorem runs_congr {same same' : α → α → Bool} (agree : ∀ x ∈ l, ∀ y ∈ l, same x y = same' x y) :
    runs same l = runs same' l := by
  cases l with
  | nil => rfl
  | cons a rest => exact runsFrom_congr agree [a]

theorem runsFrom_flatten (same : α → α → Bool) (a : α) (run rest : List α) : (runsFrom same a run rest).flatten = run ++ rest := by
  induction rest generalizing a run with
  | nil => simp [runsFrom]
  | cons b rest ih =>
    rw [runsFrom]
    split
    · rw [ih,List.append_assoc,List.singleton_append]
    · rw [List.flatten_cons,ih,List.singleton_append]

theorem runs_flatten (same : α → α → Bool) (l : List α) : (runs same l).flatten = l := by
  cases l with
  | nil => rfl
  | cons a rest => exact runsFrom_flatten same a [a] rest

theorem runsFrom_nonempty (begun : run ≠ []) : ∀ g ∈ runsFrom same a run rest, g ≠ [] := by
  induction rest generalizing a run with
  | nil =>
    intro g member
    rw [List.mem_singleton.mp member]
    exact begun
  | cons b rest ih =>
    intro g member
    rw [runsFrom] at member
    split at member
    · exact ih (List.append_ne_nil_of_right_ne_nil _ (List.cons_ne_nil _ _)) g member
    · rcases List.mem_cons.mp member with rfl | later
      · exact begun
      · exact ih (List.cons_ne_nil _ _) g later

theorem runs_nonempty (same : α → α → Bool) (l : List α) : ∀ g ∈ runs same l, g ≠ [] := by
  cases l with
  | nil =>
    intro g member
    cases member
  | cons a rest => exact runsFrom_nonempty (List.cons_ne_nil _ _)

section
variable {κ : Type} [LinearOrder κ] {rank : α → κ}

/-- Groups of one rank each, in increasing order of rank. -/
structure Grouped (rank : α → κ) (l : List α) (groups : List (List α)) : Prop where
  all : groups.flatten = l
  headed : ∀ g ∈ groups, ∃ a rest, g = a :: rest ∧ ∀ b ∈ g, rank b = rank a
  ordered : groups.Pairwise fun g h => ∀ a ∈ g, ∀ b ∈ h, rank a < rank b

theorem runsFrom_grouped (started : ∃ rest', run = a :: rest') (level : ∀ b ∈ run, rank b = rank a)
    (sorted : (a :: rest).Pairwise fun x y => rank x ≤ rank y) :
    Grouped rank (run ++ rest) (runsFrom (fun x y => decide (rank x = rank y)) a run rest) := by
  -- Induction on what is still to cut; `run` is the run in progress.
  induction rest generalizing a run with
  | nil =>
    refine ⟨by simp [runsFrom],?_,List.pairwise_singleton ..⟩
    intro g member
    obtain rfl := List.mem_singleton.mp member
    obtain ⟨rest',rfl⟩ := started
    exact ⟨a,rest',rfl,level⟩
  | cons b rest ih =>
    obtain ⟨least,sortedRest⟩ := List.pairwise_cons.mp sorted
    rw [runsFrom]
    split
    · rename_i same
      have equal : rank a = rank b := of_decide_eq_true same
      have started' : ∃ rest', run ++ [b] = a :: rest' := by
        obtain ⟨rest',rfl⟩ := started
        exact ⟨_,rfl⟩
      have level' : ∀ x ∈ run ++ [b], rank x = rank a := by
        intro x inside
        rcases List.mem_append.mp inside with old | new
        · exact level x old
        · rw [List.mem_singleton.mp new,equal]
      have longer := ih started' level'
        (List.pairwise_cons.mpr ⟨fun x inside => least x (by simp [inside]),(List.pairwise_cons.mp sortedRest).2⟩)
      simpa using longer
    · rename_i different
      have greater : rank a < rank b :=
        lt_of_le_of_ne (least b (by simp)) (fun equal => different (decide_eq_true equal))
      have next : Grouped rank ([b] ++ rest) (runsFrom (fun x y => decide (rank x = rank y)) b [b] rest) :=
        ih ⟨[],rfl⟩ (by simp) sortedRest
      refine ⟨by simpa using next.all,?_,?_⟩
      · intro g member
        rcases List.mem_cons.mp member with rfl | later
        · obtain ⟨rest',rfl⟩ := started
          exact ⟨a,rest',rfl,level⟩
        · exact next.headed g later
      · refine List.pairwise_cons.mpr ⟨?_,next.ordered⟩
        intro g later x inRun y inside
        have member : y ∈ b :: rest := by
          have := List.mem_flatten.mpr ⟨g,later,inside⟩
          rw [next.all] at this
          simpa using this
        rw [level x inRun]
        rcases List.mem_cons.mp member with rfl | tail
        · exact greater
        · exact lt_of_lt_of_le greater ((List.pairwise_cons.mp sortedRest).1 y tail)

theorem runs_grouped (sorted : l.Pairwise fun x y => rank x ≤ rank y) :
    Grouped rank l (runs (fun x y => decide (rank x = rank y)) l) := by
  cases l with
  | nil => exact ⟨rfl,by simp [runs],List.Pairwise.nil⟩
  | cons a rest => exact runsFrom_grouped ⟨[],rfl⟩ (by simp) sorted

/-- A group holds everything of its rank. -/
theorem Grouped.filter (grouped : Grouped rank l groups) (member : g ∈ groups) (inside : a ∈ g) :
    g = l.filter fun x => decide (rank x = rank a) := by
  obtain ⟨all,headed,ordered⟩ := grouped
  subst all
  induction groups with
  | nil => cases member
  | cons first groups ih =>
    obtain ⟨before,ordered⟩ := List.pairwise_cons.mp ordered
    rw [List.flatten_cons,List.filter_append]
    rcases List.mem_cons.mp member with rfl | later
    · obtain ⟨c,rest,rfl,level⟩ := headed g (by simp)
      have same : ∀ x ∈ c :: rest, decide (rank x = rank a) = true := by
        intro x here
        exact decide_eq_true ((level x here).trans (level a inside).symm)
      have others : ∀ x ∈ groups.flatten, ¬decide (rank x = rank a) = true := by
        intro x there
        obtain ⟨h,inGroups,inH⟩ := List.mem_flatten.mp there
        have := before h inGroups a inside x inH
        simpa using this.ne'
      rw [List.filter_eq_self.mpr same,List.filter_eq_nil_iff.mpr others,List.append_nil]
    · have none : ∀ x ∈ first, ¬decide (rank x = rank a) = true := by
        intro x here
        have := before g later x here a inside
        simpa using this.ne
      rw [List.filter_eq_nil_iff.mpr none,List.nil_append]
      exact ih later (fun g member => headed g (by simp [member])) ordered

/-- The groups of all parts, each part sorted and cut into runs. -/
def shuffle (n : Nat) (part : α → Nat) (sort : List α → List α) (same : α → α → Bool) (l : List α) : List (List α) :=
  (List.range n).flatMap fun r => runs same (sort (l.filter fun x => part x = r))

/-- One group for each part and rank, holding everything of both. -/
structure Shuffled (part : α → Nat) (rank : α → κ) (l : List α) (groups : List (List α)) : Prop where
  headed : ∀ g ∈ groups, ∃ a rest, g = a :: rest ∧ a ∈ l ∧
    ∃ p : α → Bool, (∀ x, p x = true ↔ part x = part a ∧ rank x = rank a) ∧ g.Perm (l.filter p)
  covered : ∀ a ∈ l, ∃ g ∈ groups, a ∈ g
  apart : groups.Pairwise fun g h => ∀ a ∈ g, ∀ b ∈ h, ¬(part a = part b ∧ rank a = rank b)

theorem parts_shuffled {part : α → Nat} {lists : Nat → List α} {same : α → α → Bool} (parts : ∀ a ∈ l, part a < n)
    (perm : ∀ r < n, (lists r).Perm (l.filter fun x => part x = r))
    (sorted : ∀ r < n, (lists r).Pairwise fun x y => rank x ≤ rank y)
    (agree : ∀ x ∈ l, ∀ y ∈ l, (same x y = true ↔ rank x = rank y)) :
    Shuffled part rank l ((List.range n).flatMap fun r => runs same (lists r)) := by
  have grouped : ∀ r < n, Grouped rank (lists r)
      (runs same (lists r)) := by
    intro r small
    have members : ∀ x ∈ lists r, x ∈ l :=
      fun x inside => List.mem_of_mem_filter ((perm r small).mem_iff.mp inside)
    have decided : ∀ x ∈ lists r, ∀ y ∈ lists r,
        same x y = decide (rank x = rank y) := by
      intro x inX y inY
      rw [Bool.eq_iff_iff,agree x (members x inX) y (members y inY),decide_eq_true_iff]
    rw [runs_congr decided]
    exact runs_grouped (sorted r small)
  have placed : ∀ r < n, ∀ g ∈ runs same (lists r), ∀ a ∈ g, a ∈ l ∧ part a = r := by
    intro r small g member a inside
    have here : a ∈ lists r := (grouped r small).all ▸ List.mem_flatten.mpr ⟨g,member,inside⟩
    simpa using (perm r small).mem_iff.mp here
  refine ⟨?_,?_,?_⟩
  · intro g member
    obtain ⟨r,small,member⟩ := List.mem_flatMap.mp member
    have small := List.mem_range.mp small
    obtain ⟨a,rest,rfl,_⟩ := (grouped r small).headed g member
    obtain ⟨here,atR⟩ := placed r small _ member a (by simp)
    refine ⟨a,rest,rfl,here,fun x => decide (part x = part a ∧ rank x = rank a),fun x => decide_eq_true_iff,?_⟩
    have whole := (grouped r small).filter member (a := a) (by simp)
    have narrowed : (l.filter fun x => decide (part x = r)).filter (fun x => decide (rank x = rank a)) =
        l.filter fun x => decide (part x = part a ∧ rank x = rank a) := by
      rw [List.filter_filter]
      refine List.filter_congr fun x _ => ?_
      rw [atR,Bool.and_comm]
      simp
    rw [← narrowed,whole]
    exact (perm r small).filter _
  · intro a inside
    have here : a ∈ lists (part a) :=
      (perm _ (parts a inside)).mem_iff.mpr (by simpa using inside)
    rw [← (grouped _ (parts a inside)).all] at here
    obtain ⟨g,member,inG⟩ := List.mem_flatten.mp here
    exact ⟨g,List.mem_flatMap.mpr ⟨part a,List.mem_range.mpr (parts a inside),member⟩,inG⟩
  · refine List.pairwise_flatMap.mpr ⟨?_,?_⟩
    · intro r small
      have small := List.mem_range.mp small
      refine (grouped r small).ordered.imp ?_
      intro g h before a inA b inB both
      exact (before a inA b inB).ne both.2
    · refine List.Pairwise.imp_of_mem ?_ List.pairwise_lt_range
      intro r s smallR smallS different g inG h inH a inA b inB both
      have atR := (placed r (List.mem_range.mp smallR) g inG a inA).2
      have atS := (placed s (List.mem_range.mp smallS) h inH b inB).2
      omega

theorem shuffle_shuffled {part : α → Nat} {sort : List α → List α} {same : α → α → Bool}
    (parts : ∀ a ∈ l, part a < n)
    (perm : ∀ r < n, (sort (l.filter fun x => part x = r)).Perm (l.filter fun x => part x = r))
    (sorted : ∀ r < n, (sort (l.filter fun x => part x = r)).Pairwise fun x y => rank x ≤ rank y)
    (agree : ∀ x ∈ l, ∀ y ∈ l, (same x y = true ↔ rank x = rank y)) :
    Shuffled part rank l (shuffle n part sort same l) := parts_shuffled parts perm sorted agree

end

end OsProj.Grouping
