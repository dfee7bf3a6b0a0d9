import Mathlib.Control.Basic

/-! Operations on a state that may fault. An operation that returned is taken apart into
the operations before and after it. -/
namespace OsProj.Faulting

section
variable {s : σ} {f : α → StateT σ (Except ε) β} {r : β × σ}

theorem bind_ok {x : StateT σ (Except ε) α} :
    (x >>= f) s = .ok r ↔ ∃ a s', x s = .ok (a,s') ∧ f a s' = .ok r := by
  change (x s >>= fun p => f p.1 p.2) = .ok r ↔ _
  cases x s with
  | error fault => simp [bind,Except.bind]
  | ok p =>
    constructor
    · intro next
      exact ⟨p.1,p.2,rfl,next⟩
    · rintro ⟨a,s',same,next⟩
      obtain rfl := Except.ok.inj same
      exact next

theorem bind_go {x : StateT σ (Except ε) α} (went : x s = .ok (a,s')) : (x >>= f) s = f a s' := by
  change (x s >>= fun p => f p.1 p.2) = _
  rw [went]
  rfl

theorem bind_error {x : StateT σ (Except ε) α} {fault : ε} :
    (x >>= f) s = .error fault ↔ x s = .error fault ∨ ∃ a s', x s = .ok (a,s') ∧ f a s' = .error fault := by
  change (x s >>= fun p => f p.1 p.2) = _ ↔ _
  cases x s with
  | error fault' => simp [bind,Except.bind]
  | ok p =>
    constructor
    · exact fun next => .inr ⟨p.1,p.2,rfl,next⟩
    · rintro (failed | ⟨a,s',same,next⟩)
      · cases failed
      · obtain rfl := Except.ok.inj same
        exact next

theorem pure_ok {a : α} {out : α × σ} : (pure a : StateT σ (Except ε) α) s = .ok out ↔ out = (a,s) := by
  change Except.ok (a,s) = .ok out ↔ _
  simp [eq_comm]

theorem get_bind {f : σ → StateT σ (Except ε) β} : (get >>= f) s = .ok r ↔ f s s = .ok r := Iff.rfl

theorem modify_bind {f : PUnit → StateT σ (Except ε) β} {g : σ → σ} :
    (modify g >>= f) s = .ok r ↔ f .unit (g s) = .ok r := Iff.rfl

/-- An operation that either faults or continues with one value and one state. -/
theorem checked_bind {x : StateT σ (Except ε) α}
    (checked : x s = if c = true then .ok (a,t) else .error fault) :
    (x >>= f) s = .ok r ↔ c = true ∧ f a t = .ok r := by
  rw [bind_ok,checked]
  split
  · rename_i passed
    rw [and_iff_right passed]
    constructor
    · rintro ⟨a',t',same,next⟩
      obtain ⟨rfl,rfl⟩ := Prod.mk.inj (Except.ok.inj same)
      exact next
    · intro next
      exact ⟨a,t,rfl,next⟩
  · rename_i failed
    simp [failed]

end

/-! Operations without a state. -/

theorem go {x : Except ε α} {f : α → Except ε β} (went : x = .ok a) : (x >>= f) = f a := by
  rw [went]
  rfl

theorem bind_done {x : Except ε α} {f : α → Except ε β} : (x >>= f) = .ok b ↔ ∃ a, x = .ok a ∧ f a = .ok b := by
  cases x with
  | error fault => simp [bind,Except.bind]
  | ok a =>
    constructor
    · exact fun done => ⟨a,rfl,done⟩
    · rintro ⟨a',same,done⟩
      obtain rfl := Except.ok.inj same
      exact done

theorem exists_ok_iff {x : Except ε α} {P : α → Prop} (went : x = .ok a) : (∃ b, x = .ok b ∧ P b) ↔ P a := by
  rw [went]
  constructor
  · rintro ⟨b,same,holds⟩
    obtain rfl := Except.ok.inj same
    exact holds
  · intro holds
    exact ⟨a,rfl,holds⟩

theorem lift_ok {x : Except ε α} {s : σ} (went : x = .ok a) : (liftM x : StateT σ (Except ε) α) s = .ok (a,s) := by
  rw [went]
  rfl

/-- A loop over lists of lists, one after the other. -/
theorem foldlM_flatMap (f : ι → List α) (g : β → α → Except ε β) (l : List ι) (init : β) :
    (l.flatMap f).foldlM g init = l.foldlM (fun acc i => (f i).foldlM g acc) init := by
  induction l generalizing init with
  | nil => rfl
  | cons i l ih =>
    rw [List.flatMap_cons,List.foldlM_append,List.foldlM_cons]
    exact congrArg _ (funext ih)

/-- A loop none of whose steps has an effect. -/
theorem mapM_pure_of {l : List α} {μ : Type → Type} [Monad μ] [LawfulMonad μ] {f : α → μ β} {g : α → β}
    (same : ∀ x ∈ l, f x = pure (g x)) : l.mapM f = pure (l.map g) := by
  induction l with
  | nil => rfl
  | cons x l ih =>
    rw [List.mapM_cons,same x (by simp),pure_bind,ih (fun y inside => same y (by simp [inside])),pure_bind,List.map_cons]

/-- A loop one of whose steps fails. -/
theorem mapM_error {l : List α} {f : α → Except ε β} (inside : x ∈ l) (failed : f x = .error fault) :
    ∃ fault', l.mapM f = .error fault' := by
  induction l with
  | nil => cases inside
  | cons y l ih =>
    rw [List.mapM_cons]
    cases here : f y with
    | error fault' => exact ⟨fault',rfl⟩
    | ok b =>
      have later : x ∈ l := by
        rcases List.mem_cons.mp inside with rfl | later
        · cases here.symm.trans failed
        · exact later
      obtain ⟨fault',stopped⟩ := ih later
      exact ⟨fault',by rw [stopped]; rfl⟩

/-- A state property that an operation keeps where it does not fault. -/
def Keeps (P : σ → Prop) (x : StateT σ (Except ε) α) : Prop := ∀ s a s', P s → x s = .ok (a,s') → P s'

section
variable {P : σ → Prop} {x : StateT σ (Except ε) α} {f : α → StateT σ (Except ε) β}

theorem keeps_pure (a : α) : Keeps P (pure a : StateT σ (Except ε) α) := by
  intro s b s' kept done
  cases pure_ok.mp done
  exact kept

theorem keeps_throw (e : ε) : Keeps P (throw e : StateT σ (Except ε) α) := by
  intro s b s' kept done
  cases done

theorem keeps_modify {g : σ → σ} (kept : ∀ s, P s → P (g s)) : Keeps P (modify g : StateT σ (Except ε) PUnit) := by
  intro s b s' before done
  cases done
  exact kept s before

theorem Keeps.bind (first : Keeps P x) (second : ∀ a, Keeps P (f a)) : Keeps P (x >>= f) := by
  intro s b s' kept done
  obtain ⟨a,mid,before,after⟩ := bind_ok.mp done
  exact second a mid b s' (first s a mid kept before) after

theorem keeps_get_bind {f : σ → StateT σ (Except ε) β} (next : ∀ s, P s → Keeps P (f s)) : Keeps P (get >>= f) := by
  intro s b s' kept done
  exact next s kept s b s' kept (get_bind.mp done)

theorem Keeps.ite {y : StateT σ (Except ε) α} [Decidable c] (first : Keeps P x) (second : Keeps P y) :
    Keeps P (if c then x else y) := by
  split
  · exact first
  · exact second

/-- The state is only read. -/
theorem keeps_of_same (same : ∀ s a s', x s = .ok (a,s') → s' = s) : Keeps P x := by
  intro s a s' kept done
  rw [same s a s' done]
  exact kept

end

end OsProj.Faulting
