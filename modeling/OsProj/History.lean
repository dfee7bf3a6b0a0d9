import Mathlib.Logic.Basic

/-! Runs of a labelled transition system that remember their events. Histories are
newest first, so the events before an event are the tail behind it, and a step may
depend on everything that happened before it. -/
namespace OsProj.History

/-- The system moves from `origin`, reached after `past`, through zero or more steps. -/
inductive Path (step : List E → S → E → S → Prop) (past : List E) (origin : S) :
    List E → S → Prop where
  | refl : Path step past origin past origin
  | snoc : Path step past origin h s → step h s e s' → Path step past origin (e :: h) s'

/-- Steps that additionally meet a condition on the state before them. -/
def Guarded (step : List E → S → E → S → Prop) (condition : List E → S → E → Prop) :
    List E → S → E → S → Prop :=
  fun h s e s' => step h s e s' ∧ condition h s e

/-- Every event of the history has the property relative to the events before it. -/
def Always (property : List E → E → Prop) : List E → Prop
  | [] => True
  | e :: h => property h e ∧ Always property h

@[simp] theorem always_nil {property : List E → E → Prop} : Always property [] := trivial

@[simp] theorem always_cons {property : List E → E → Prop} :
    Always property (e :: h) ↔ property h e ∧ Always property h := Iff.rfl

instance decidableAlways {property : List E → E → Prop} [every : ∀ h e, Decidable (property h e)] :
    (h : List E) → Decidable (Always property h)
  | [] => .isTrue trivial
  | e :: h => @instDecidableAnd _ _ (every h e) (decidableAlways h)

/-- Positional reading: an event splits its history into what follows and what precedes it. -/
theorem always_iff {property : List E → E → Prop} {h : List E} :
    Always property h ↔ ∀ later e earlier, h = later ++ e :: earlier → property earlier e := by
  induction h with
  | nil => simp
  | cons e h ih =>
    rw [always_cons,ih]
    constructor
    · rintro ⟨head,tail⟩ later e' earlier equal
      cases later with
      | nil =>
        obtain ⟨rfl,rfl⟩ := List.cons.inj equal
        exact head
      | cons first later => exact tail later e' earlier (List.cons.inj equal).2
    · intro every
      refine ⟨every [] e h rfl,?_⟩
      intro later e' earlier equal
      exact every (e :: later) e' earlier (by rw [equal]; rfl)

section
variable {step : List E → S → E → S → Prop} {past : List E} {origin : S}

theorem Path.trans (first : Path step past origin h s) (second : Path step h s h' s') :
    Path step past origin h' s' := by
  induction second with
  | refl => exact first
  | snoc _ last ih => exact .snoc ih last

theorem Path.mono {weaker : List E → S → E → S → Prop}
    (weaken : ∀ h s e s', step h s e s' → weaker h s e s')
    (path : Path step past origin h s) : Path weaker past origin h s := by
  induction path with
  | refl => exact .refl
  | snoc _ last ih => exact .snoc ih (weaken _ _ _ _ last)

theorem Path.unguarded {condition : List E → S → E → Prop}
    (path : Path (Guarded step condition) past origin h s) : Path step past origin h s :=
  path.mono (fun _ _ _ _ guarded => guarded.1)

/-- The invariant rule: what every step preserves holds wherever the path leads. -/
theorem Path.invariant (property : List E → S → Prop)
    (preserved : ∀ h s e s', property h s → step h s e s' → property (e :: h) s')
    (path : Path step past origin h s) (initial : property past origin) : property h s := by
  induction path with
  | refl => exact initial
  | snoc _ last ih => exact preserved _ _ _ _ ih last

/-- What every step of a run establishes about its event holds of every event. -/
theorem Path.always {property : List E → E → Prop}
    (holds : ∀ h s e s', Path step [] origin h s → step h s e s' → property h e)
    (path : Path step [] origin h s) : Always property h := by
  induction path with
  | refl => trivial
  | snoc front last ih => exact ⟨holds _ _ _ _ front last,ih⟩

/-- The last step of a path that is not empty. -/
theorem Path.unsnoc {later : List E} (path : Path step past origin (e :: later ++ past) s) :
    ∃ middle, Path step past origin (later ++ past) middle ∧ step (later ++ past) middle e s := by
  generalize equal : e :: later ++ past = h at path
  cases path with
  | refl =>
    have longer := congrArg List.length equal
    simp only [List.length_append,List.length_cons] at longer
    omega
  | snoc front last =>
    obtain ⟨rfl,rfl⟩ := List.cons.inj equal
    exact ⟨_,front,last⟩

/-- Where an event fixes its successor state, a history fixes the state it leads to. -/
theorem Path.deterministic
    (functional : ∀ h s e s₁ s₂, step h s e s₁ → step h s e s₂ → s₁ = s₂)
    (first : Path step [] origin h s) (second : Path step [] origin h s') : s = s' := by
  induction h generalizing s s' with
  | nil => cases first; cases second; rfl
  | cons e h ih =>
    cases first with
    | snoc front last =>
      cases second with
      | snoc front' last' =>
        obtain rfl := ih front front'
        exact functional _ _ _ _ _ last last'

end

section
variable {execute : Q → S → Option (E × S)} {allow : List E → S → E → Prop}
  [∀ h s e, Decidable (allow h s e)]

/-- Executes the requests in order; stops where one has no outcome or is not admitted. -/
def replay (execute : Q → S → Option (E × S)) (allow : List E → S → E → Prop)
    [∀ h s e, Decidable (allow h s e)] : List Q → List E × S → Option (List E × S)
  | [], reached => some reached
  | q :: rest, (h,s) =>
    match execute q s with
    | none => none
    | some (e,s') => if allow h s e then replay execute allow rest (e :: h,s') else none

theorem replay_path {step : List E → S → E → S → Prop} {requests : List Q}
    (sound : ∀ h s q e s', execute q s = some (e,s') → allow h s e → step h s e s')
    (replayed : replay execute allow requests (h,s) = some (h',s')) : Path step h s h' s' := by
  induction requests generalizing h s with
  | nil =>
    obtain ⟨rfl,rfl⟩ := Prod.mk.inj (Option.some.inj replayed)
    exact .refl
  | cons q rest ih =>
    simp only [replay] at replayed
    split at replayed
    · contradiction
    rename_i e next executed
    split at replayed
    · rename_i admitted
      have first : Path step h s (e :: h) next := .snoc .refl (sound h s q e next executed admitted)
      exact first.trans (ih replayed)
    · contradiction

/-- Admitting more does not change where a replay that goes through leads. -/
theorem replay_mono {weaker : List E → S → E → Prop} [∀ h s e, Decidable (weaker h s e)]
    {requests : List Q} {start reached : List E × S} (weaken : ∀ h s e, allow h s e → weaker h s e)
    (replayed : replay execute allow requests start = some reached) :
    replay execute weaker requests start = some reached := by
  induction requests generalizing start with
  | nil => exact replayed
  | cons q rest ih =>
    obtain ⟨h,s⟩ := start
    simp only [replay] at replayed ⊢
    split at replayed
    · contradiction
    rename_i e next executed
    split at replayed
    · rename_i admitted
      simp only [weaken h s e admitted,↓reduceIte]
      exact ih replayed
    · contradiction

/-- The history and state to which the requests lead from `origin`, if they go through. -/
def arrive (execute : Q → S → Option (E × S)) (allow : List E → S → E → Prop)
    [∀ h s e, Decidable (allow h s e)] (origin : S) (requests : List Q) : List E × S :=
  (replay execute allow requests ([],origin)).getD ([],origin)

theorem arrive_path {step : List E → S → E → S → Prop} {origin : S} {requests : List Q}
    (sound : ∀ h s q e s', execute q s = some (e,s') → allow h s e → step h s e s')
    (handled : (replay execute allow requests ([],origin)).isSome = true) :
    Path step [] origin (arrive execute allow origin requests).1
      (arrive execute allow origin requests).2 := by
  obtain ⟨⟨h,s⟩,replayed⟩ := Option.isSome_iff_exists.mp handled
  simp only [arrive,replayed,Option.getD_some]
  exact replay_path sound replayed

theorem arrive_guarded {step : List E → S → E → S → Prop} {condition : List E → S → E → Prop}
    [∀ h s e, Decidable (condition h s e)] {origin : S} {requests : List Q}
    (sound : ∀ h s q e s', execute q s = some (e,s') → allow h s e → step h s e s')
    (handled : (replay execute (fun h s e => allow h s e ∧ condition h s e) requests
      ([],origin)).isSome = true) :
    Path (Guarded step condition) [] origin (arrive execute allow origin requests).1
      (arrive execute allow origin requests).2 := by
  obtain ⟨⟨h,s⟩,replayed⟩ := Option.isSome_iff_exists.mp handled
  have reached := replay_mono (fun _ _ _ both => both.1) replayed
  simp only [arrive,reached,Option.getD_some]
  refine replay_path ?_ replayed
  intro h s q e s' executed admitted
  exact ⟨sound h s q e s' executed admitted.1,admitted.2⟩

end

end OsProj.History
