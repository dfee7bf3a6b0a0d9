import Mathlib.Control.Basic

/-! Operations on a state that may stop for good. Unlike a fault, a stop keeps the state in
which it happened. -/
namespace OsProj.Stopping

def Run (ε σ α : Type) : Type := σ → Except ε α × σ

def andThen (x : Run ε σ α) (f : α → Run ε σ β) : Run ε σ β := fun s =>
  match x s with
  | (.ok a,s') => f a s'
  | (.error e,s') => (.error e,s')

instance : Monad (Run ε σ) where
  pure a := fun s => (.ok a,s)
  bind := andThen

def stop (e : ε) : Run ε σ α := fun s => (.error e,s)

def get : Run ε σ σ := fun s => (.ok s,s)

def modify (f : σ → σ) : Run ε σ Unit := fun s => (.ok (),f s)

section
variable {ε σ α β : Type} {s s' : σ} {P Q : σ → Prop} {x : Run ε σ α} {f : α → Run ε σ β}

theorem bind_go (went : x s = (.ok a,s')) : (x >>= f) s = f a s' := by
  change andThen x f s = _
  rw [andThen,went]

theorem bind_stop (stopped : x s = (.error e,s')) : (x >>= f) s = (.error e,s') := by
  change andThen x f s = _
  rw [andThen,stopped]

theorem get_bind {f : σ → Run ε σ β} : (get >>= f) s = f s s := rfl

/-- A state property that an operation keeps, also where it stops. -/
def Keeps (P : σ → Prop) (x : Run ε σ α) : Prop := ∀ s, P s → P (x s).2

theorem keeps_pure (a : α) : Keeps P (pure a : Run ε σ α) := fun _ kept => kept

theorem keeps_stop (e : ε) : Keeps P (stop e : Run ε σ α) := fun _ kept => kept

theorem keeps_get : Keeps P (get : Run ε σ σ) := fun _ kept => kept

theorem keeps_modify (kept : ∀ s, P s → P (g s)) : Keeps P (modify g : Run ε σ Unit) := kept

/-- The last operation of a sequence may need what the ones before it kept and returned. -/
theorem Keeps.before (first : Keeps P x) (weaker : ∀ s, P s → Q s)
    (second : ∀ s a s', P s → x s = (.ok a,s') → P s' → Q (f a s').2) (s : σ) (kept : P s) :
    Q ((x >>= f) s).2 := by
  have next := first s kept
  rcases ran : x s with ⟨_ | a,s'⟩
  · rw [bind_stop ran]
    rw [ran] at next
    exact weaker s' next
  · rw [bind_go ran]
    rw [ran] at next
    exact second s a s' kept ran next

theorem Keeps.bind (first : Keeps P x) (second : ∀ s a s', P s → x s = (.ok a,s') → Keeps P (f a)) :
    Keeps P (x >>= f) :=
  first.before (fun _ kept => kept) fun s a s' kept ran next => second s a s' kept ran s' next

theorem Keeps.after (first : P (x s).2) (second : ∀ a, Keeps P (f a)) : P ((x >>= f) s).2 := by
  rcases ran : x s with ⟨_ | a,s'⟩
  · rw [bind_stop ran]
    rwa [ran] at first
  · rw [bind_go ran]
    rw [ran] at first
    exact second a s' first

/-- An operation that never returns. -/
def Stops (x : Run ε σ α) : Prop := ∀ s, ∃ e s', x s = (.error e,s')

theorem stops_stop (e : ε) : Stops (stop e : Run ε σ α) := fun s => ⟨e,s,rfl⟩

theorem stops_bind (second : ∀ a, Stops (f a)) : Stops (x >>= f) := by
  intro s
  rcases ran : x s with ⟨_ | a,s'⟩
  · exact ⟨_,_,bind_stop ran⟩
  · obtain ⟨e,s'',stopped⟩ := second a s'
    exact ⟨e,s'',(bind_go ran).trans stopped⟩

theorem Stops.not_ok (stopping : Stops x) (went : x s = (.ok a,s')) : False := by
  obtain ⟨e,s'',stopped⟩ := stopping s
  rw [went] at stopped
  exact absurd (congrArg Prod.fst stopped) (by simp)

/-- An operation that returned is taken apart into the operations before and after it. -/
theorem bind_ok : (x >>= f) s = (.ok b,t) ↔ ∃ a s', x s = (.ok a,s') ∧ f a s' = (.ok b,t) := by
  constructor
  · intro ran
    rcases first : x s with ⟨_ | a,s'⟩
    · rw [bind_stop first] at ran
      exact absurd (congrArg Prod.fst ran) (by simp)
    · rw [bind_go first] at ran
      exact ⟨a,s',rfl,ran⟩
  · rintro ⟨a,s',first,second⟩
    exact (bind_go first).trans second

/-- A sequence that stopped although its second operation always returns. -/
theorem stop_first (returns : ∀ a s, ∃ b s', f a s = (.ok b,s')) (stopped : (x >>= f) s = (.error e,t)) :
    x s = (.error e,t) := by
  rcases first : x s with ⟨e' | a,s'⟩
  · rw [bind_stop first] at stopped
    obtain ⟨same,rfl⟩ := Prod.mk.inj stopped
    rw [Except.error.inj same]
  · obtain ⟨b,s'',ran⟩ := returns a s'
    rw [bind_go first,ran] at stopped
    exact absurd (congrArg Prod.fst stopped) (by simp)

end

end OsProj.Stopping
