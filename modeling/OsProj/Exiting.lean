import Mathlib.Logic.Basic

/-! Operations that may stop with an error and leave the state as it is at that point. -/
namespace OsProj.Exiting

section
variable {x : ExceptT ε (StateM σ) α} {f : α → ExceptT ε (StateM σ) β} {s t u : σ}

theorem bind_go (went : x s = (Except.ok a,t)) : (x >>= f) s = f a t := by
  change ExceptT.bindCont f (x s).1 (x s).2 = _
  rw [went]
  rfl

theorem bind_stop (stopped : x s = (Except.error e,t)) : (x >>= f) s = (Except.error e,t) := by
  change ExceptT.bindCont f (x s).1 (x s).2 = _
  rw [stopped]
  rfl

theorem bind_ok : (x >>= f) s = (Except.ok b,u) ↔ ∃ a t,x s = (Except.ok a,t) ∧ f a t = (Except.ok b,u) := by
  rcases here : x s with ⟨result,t⟩
  constructor
  · intro done
    cases result with
    | ok a =>
      rw [bind_go here] at done
      exact ⟨a,t,rfl,done⟩
    | error e =>
      rw [bind_stop here] at done
      cases done
  · rintro ⟨a,t',same,next⟩
    rw [bind_go (here.trans same)]
    exact next

/-- A state property that an operation keeps, also where it stops. -/
def Keeps (P : σ → Prop) (x : ExceptT ε (StateM σ) α) : Prop := ∀ s, P s → P (x s).2

variable {P : σ → Prop}

theorem keeps_pure (a : α) : Keeps P (pure a : ExceptT ε (StateM σ) α) := fun _ kept => kept

theorem keeps_throw (e : ε) : Keeps P (throw e : ExceptT ε (StateM σ) α) := fun _ kept => kept

theorem Keeps.bind (first : Keeps P x) (second : ∀ a, Keeps P (f a)) : Keeps P (x >>= f) := by
  intro s kept
  have after := first s kept
  rcases here : x s with ⟨result,t⟩
  rw [here] at after
  cases result with
  | ok a =>
    rw [bind_go here]
    exact second a t after
  | error e =>
    rw [bind_stop here]
    exact after

end

end OsProj.Exiting
