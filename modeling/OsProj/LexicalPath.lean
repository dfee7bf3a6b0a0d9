import Mathlib.Data.List.Count
import Mathlib.Data.List.Induction

/-! Paths as text. A relative path is normalised by dropping its empty and `.` components and every
name with the `..` behind it; what it has left of `..` is at its front, and leads out of the
directory it starts from. -/
namespace OsProj.LexicalPath

abbrev Component := List Char

def current : Component := ['.']
def parent : Component := ['.','.']

def components (path : List Char) : List Component := path.splitOn '/'

/-- The component stays where it is. -/
def idle (c : Component) : Bool := c = [] || c = current

/-- A normalised relative path: the number of `..` at its front and the names behind them, the
innermost first. -/
structure Normal where
  ups : Nat
  names : List Component
  deriving DecidableEq, Repr

def Normal.step (n : Normal) (c : Component) : Normal :=
  if idle c then n
  else if c = parent then
    match n.names with
    | [] => ⟨n.ups + 1,[]⟩
    | _ :: names => ⟨n.ups,names⟩
  else ⟨n.ups,c :: n.names⟩

def normalize (path : List Component) : Normal := path.foldl Normal.step ⟨0,[]⟩

/-- A relative path whose normal form does not lead out of the directory. -/
def Inside (path : List Char) : Prop := path.head? ≠ some '/' ∧ (normalize (components path)).ups = 0

def namesIn (path : List Component) : Nat := path.countP fun c => !(idle c || c = parent)

/-- No part at the front of the path has more `..` than names. -/
def Balanced (path : List Component) : Prop := ∀ front, front <+: path → front.count parent ≤ namesIn front

theorem normalize_concat (path : List Component) (c : Component) : normalize (path ++ [c]) = (normalize path).step c := by
  rw [normalize,List.foldl_append]
  rfl

/-! What one component does. -/

theorem step_idle (n : Normal) (still : idle c = true) : n.step c = n := by
  rw [Normal.step,if_pos still]

theorem step_parent (n : Normal) : n.step parent = if n.names = [] then ⟨n.ups + 1,[]⟩ else ⟨n.ups,n.names.tail⟩ := by
  rcases n with ⟨ups,names⟩
  cases names with
  | nil => rfl
  | cons name names => rfl

theorem step_name (n : Normal) (moves : idle c = false) (name : c ≠ parent) : n.step c = ⟨n.ups,c :: n.names⟩ := by
  rw [Normal.step,moves,if_neg Bool.false_ne_true,if_neg name]

theorem idle_ne_parent (still : idle c = true) : c ≠ parent := by
  rintro rfl
  cases still

theorem namesIn_concat (path : List Component) (c : Component) :
    namesIn (path ++ [c]) = namesIn path + if !(idle c || c = parent) then 1 else 0 := by
  rw [namesIn,List.countP_append,List.countP_singleton]
  rfl

theorem balanced_concat_iff {path : List Component} {c : Component} :
    Balanced (path ++ [c]) ↔ Balanced path ∧ (path ++ [c]).count parent ≤ namesIn (path ++ [c]) := by
  constructor
  · intro balanced
    exact ⟨fun front begins => balanced front (begins.trans (List.prefix_append path [c])),balanced _ (List.prefix_refl _)⟩
  · rintro ⟨balanced,whole⟩ front begins
    rcases List.prefix_concat_iff.mp begins with rfl | shorter
    · exact whole
    · exact balanced front shorter

/-- As long as no `..` leads out, a path is balanced, and its normal form has the names that no `..`
has taken back. -/
structure Tracks (n : Normal) (path : List Component) : Prop where
  inside : n.ups = 0 ↔ Balanced path
  names : n.ups = 0 → n.names.length + path.count parent = namesIn path

section
variable {n : Normal} {path : List Component}

theorem Tracks.idle (tracks : Tracks n path) (still : idle c = true) : Tracks n (path ++ [c]) := by
  have ups : (path ++ [c]).count parent = path.count parent := by simp [idle_ne_parent still]
  have names : namesIn (path ++ [c]) = namesIn path := by simp [namesIn_concat,still]
  refine ⟨?_,by rw [ups,names]; exact tracks.names⟩
  rw [balanced_concat_iff,ups,names,← tracks.inside]
  constructor
  · intro inside
    have count := tracks.names inside
    exact ⟨inside,by omega⟩
  · exact And.left

theorem Tracks.name (tracks : Tracks n path) (moves : LexicalPath.idle c = false) (name : c ≠ parent) :
    Tracks ⟨n.ups,c :: n.names⟩ (path ++ [c]) := by
  have ups : (path ++ [c]).count parent = path.count parent := by simp [name]
  have names : namesIn (path ++ [c]) = namesIn path + 1 := by simp [namesIn_concat,moves,name]
  constructor
  · rw [balanced_concat_iff,ups,names,← tracks.inside]
    constructor
    · intro inside
      have count := tracks.names inside
      exact ⟨inside,by omega⟩
    · exact And.left
  · intro inside
    have count := tracks.names inside
    rw [ups,names,List.length_cons]
    omega

theorem Tracks.up (tracks : Tracks n path) : Tracks (n.step parent) (path ++ [parent]) := by
  have ups : (path ++ [parent]).count parent = path.count parent + 1 := by simp
  have names : namesIn (path ++ [parent]) = namesIn path := by simp [namesIn_concat]
  rw [step_parent]
  cases here : n.names with
  | nil =>
    -- there is no name that the component could take back
    have few : n.ups = 0 → path.count parent = namesIn path := by
      intro inside
      have count := tracks.names inside
      rwa [here,List.length_nil,Nat.zero_add] at count
    refine ⟨?_,fun inside => absurd inside (Nat.succ_ne_zero _)⟩
    rw [balanced_concat_iff,ups,names,← tracks.inside]
    constructor
    · intro inside
      exact absurd inside (Nat.succ_ne_zero _)
    · rintro ⟨inside,more⟩
      have count := few inside
      omega
  | cons name rest =>
    have count : n.ups = 0 → rest.length + 1 + path.count parent = namesIn path := by
      intro inside
      have whole := tracks.names inside
      rwa [here,List.length_cons] at whole
    constructor
    · rw [balanced_concat_iff,ups,names,← tracks.inside]
      constructor
      · intro inside
        have count := count inside
        exact ⟨inside,by omega⟩
      · exact And.left
    · intro inside
      have count := count inside
      rw [ups,names]
      change rest.length + _ = _
      omega

end

theorem normalize_tracks (path : List Component) : Tracks (normalize path) path := by
  induction path using List.reverseRecOn with
  | nil =>
    refine ⟨⟨?_,fun _ => rfl⟩,fun _ => rfl⟩
    intro _ front begins
    rw [List.prefix_nil.mp begins]
    exact Nat.le_refl 0
  | append_singleton path c ih =>
    rw [normalize_concat]
    by_cases still : idle c = true
    · rw [step_idle _ still]
      exact ih.idle still
    · have moves : idle c = false := by simpa using still
      by_cases up : c = parent
      · subst up
        exact ih.up
      · rw [step_name _ moves up]
        exact ih.name moves up

theorem normalize_inside_iff (path : List Component) : (normalize path).ups = 0 ↔ Balanced path := (normalize_tracks path).inside

theorem components_append (left right : List Char) : components (left ++ '/' :: right) = components left ++ components right :=
  List.splitOn_append_cons_self left right

end OsProj.LexicalPath
