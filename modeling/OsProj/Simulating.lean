import OsProj.Faulting

/-! Operations on two kinds of states: what the one returns, the other one returns too. Operations on
a part of a state, and operations that do not see a part of theirs. -/
namespace OsProj.Simulating

open OsProj.Faulting

/-- From related states, `x` does what `y` does, where `y` does not fault. -/
def Simulates (before : σ → τ → Prop) (x : StateT σ (Except ε) α) (y : StateT τ (Except δ) α) (after : σ → τ → Prop) : Prop :=
  ∀ s t a t', before s t → y t = .ok (a,t') → ∃ s', x s = .ok (a,s') ∧ after s' t'

section
variable {before after then_ : σ → τ → Prop} {x x' : StateT σ (Except ε) α} {y y' : StateT τ (Except δ) α}

theorem simulates_pure (a : α) : Simulates before (pure a : StateT σ (Except ε) α) (pure a : StateT τ (Except δ) α) before := by
  intro s t b t' related done
  cases pure_ok.mp done
  exact ⟨s,rfl,related⟩

theorem Simulates.bind {f : α → StateT σ (Except ε) β} {g : α → StateT τ (Except δ) β} (first : Simulates before x y after)
    (second : ∀ a, Simulates after (f a) (g a) then_) : Simulates before (x >>= f) (y >>= g) then_ := by
  intro s t b t'' related done
  obtain ⟨a,t',began,ended⟩ := bind_ok.mp done
  obtain ⟨s',ran,between⟩ := first s t a t' related began
  obtain ⟨s'',ran',now⟩ := second a s' t' b t'' between ended
  exact ⟨s'',(bind_go ran).trans ran',now⟩

theorem simulates_get {f : σ → StateT σ (Except ε) α} {g : τ → StateT τ (Except δ) α}
    (next : ∀ s t, before s t → Simulates before (f s) (g t) after) : Simulates before (get >>= f) (get >>= g) after :=
  fun s t a t' related done => next s t related s t a t' related done

theorem Simulates.ite [Decidable c] (yes : Simulates before x y after) (no : Simulates before x' y' after) :
    Simulates before (if c then x else x') (if c then y else y') after := by
  split
  · exact yes
  · exact no

theorem Simulates.weaken {before' after' : σ → τ → Prop} (simulates : Simulates before x y after)
    (start : ∀ s t, before' s t → before s t) (finish : ∀ s t, after s t → after' s t) : Simulates before' x y after' := by
  intro s t a t' related done
  obtain ⟨s',ran,now⟩ := simulates s t a t' (start s t related) done
  exact ⟨s',ran,finish s' t' now⟩

end

def onPart (part : σ → τ) (put : τ → σ → σ) (wrap : δ → ε) (x : StateT τ (Except δ) α) : StateT σ (Except ε) α := fun s =>
  match x (part s) with
  | .ok (a,t) => .ok (a,put t s)
  | .error fault => .error (wrap fault)

theorem onPart_ok {part : σ → τ} {put : τ → σ → σ} {wrap : δ → ε} {x : StateT τ (Except δ) α} (ran : x (part s) = .ok (a,t)) :
    onPart part put wrap x s = .ok (a,put t s) := by
  rw [onPart,ran]

/-- What `put` sets makes no difference to the operation, which leaves it alone. -/
def Blind (put : π → σ → σ) (x : StateT σ (Except ε) α) : Prop := ∀ v s, x (put v s) = (x s).map fun r => (r.1,put v r.2)

section
variable {put : π → σ → σ} {x y : StateT σ (Except ε) α}

theorem Blind.ok_inv (blind : Blind put x) (ran : x (put v s) = .ok (a,t)) : ∃ t', x s = .ok (a,t') ∧ t = put v t' := by
  rw [blind] at ran
  cases here : x s with
  | error fault =>
    rw [here] at ran
    cases ran
  | ok r =>
    rw [here] at ran
    cases ran
    exact ⟨r.2,rfl,rfl⟩

theorem blind_pure (a : α) : Blind put (pure a : StateT σ (Except ε) α) := fun _ _ => rfl

theorem blind_throw (e : ε) : Blind put (throw e : StateT σ (Except ε) α) := fun _ _ => rfl

theorem blind_modify {f : σ → σ} (commutes : ∀ v s, f (put v s) = put v (f s)) :
    Blind put (modify f : StateT σ (Except ε) PUnit) := by
  intro v s
  change Except.ok (PUnit.unit,f (put v s)) = .ok (PUnit.unit,put v (f s))
  rw [commutes]

theorem Blind.bind {f : α → StateT σ (Except ε) β} (first : Blind put x) (second : ∀ a, Blind put (f a)) : Blind put (x >>= f) := by
  intro v s
  change (x (put v s) >>= fun r => f r.1 r.2) = (x s >>= fun r => f r.1 r.2).map _
  rw [first v s]
  cases x s with
  | error fault => rfl
  | ok r => exact second r.1 v r.2

theorem Blind.ite [Decidable c] (yes : Blind put x) (no : Blind put y) : Blind put (if c then x else y) := by
  split
  · exact yes
  · exact no

end

end OsProj.Simulating
