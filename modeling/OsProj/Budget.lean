import OsProj.Faulting

/-! Operations that stop when a budget is spent, over operations that know nothing of it. The
budget is the number of steps of one kind that can still be made. -/
namespace OsProj.Budget

open OsProj.Faulting

/-- An operation faults, or its budget is spent and leaves something behind. -/
inductive Stop (ε δ : Type) where
  | fault (fault : ε)
  | spent (left : δ)

abbrev Limited (σ ε δ : Type) := StateT (Nat × σ) (Except (Stop ε δ))

def free (m : StateT σ (Except ε) α) : Limited σ ε δ α := fun state =>
  match m state.2 with
  | .ok (a,s) => .ok (a,state.1,s)
  | .error fault => .error (.fault fault)

def spend (left : σ → δ) : Limited σ ε δ Unit := fun state =>
  match state.1 with
  | 0 => .error (.spent (left state.2))
  | n + 1 => .ok ((),n,state.2)

/-- From each state the one operation costs so much; with less it stops, and otherwise it does what
the other one does. -/
def Counts (p : Limited σ ε δ α) (m : StateT σ (Except ε) α) : Prop :=
  ∀ s, ∃ cost, (∀ n, p (cost + n,s) = free m (n,s)) ∧ ∀ n < cost, ∃ left, p (n,s) = .error (.spent left)

def Cut (p : Limited σ ε δ α) (s : σ) (left : δ) : Prop := ∃ n, p (n,s) = .error (.spent left)

section
variable {σ ε δ α β : Type} {s s' : σ} {left : δ}
  {m : StateT σ (Except ε) α} {g : α → StateT σ (Except ε) β} {p : Limited σ ε δ α} {f : α → Limited σ ε δ β}

theorem free_ok (done : m s = .ok (a,s')) : (free m : Limited σ ε δ α) (n,s) = .ok (a,n,s') := by
  simp only [free,done]

theorem free_error (failed : m s = .error fault) : (free m : Limited σ ε δ α) (n,s) = .error (.fault fault) := by
  simp only [free,failed]

/-! Costs. -/

theorem counts_free : Counts (free m : Limited σ ε δ α) m := by
  refine fun s => ⟨0,fun n => ?_,fun n below => absurd below (Nat.not_lt_zero n)⟩
  rw [Nat.zero_add]

theorem counts_pure (a : α) : Counts (pure a : Limited σ ε δ α) (pure a : StateT σ (Except ε) α) :=
  counts_free (m := pure a)

theorem counts_spend {left : σ → δ} : Counts (spend left : Limited σ ε δ Unit) (pure ()) := by
  refine fun s => ⟨1,fun n => ?_,fun n below => ⟨left s,?_⟩⟩
  · rw [Nat.add_comm]
    rfl
  · obtain rfl := Nat.lt_one_iff.mp below
    rfl

theorem Counts.bind (first : Counts p m) (second : ∀ a, Counts (f a) (g a)) : Counts (p >>= f) (m >>= g) := by
  intro s
  obtain ⟨cost,enough,less⟩ := first s
  have stops n (below : n < cost) : ∃ left, (p >>= f) (n,s) = .error (.spent left) := by
    obtain ⟨left,stopped⟩ := less n below
    exact ⟨left,bind_error.mpr (.inl stopped)⟩
  cases done : m s with
  | error fault =>
    refine ⟨cost,fun n => ?_,stops⟩
    have failed : (m >>= g) s = .error fault := bind_error.mpr (.inl done)
    rw [free_error failed]
    exact bind_error.mpr (.inl ((enough n).trans (free_error done)))
  | ok r =>
    obtain ⟨a,s'⟩ := r
    obtain ⟨cost',enough',less'⟩ := second a s'
    refine ⟨cost + cost',fun n => ?_,fun n below => ?_⟩
    · have next : (p >>= f) (cost + (cost' + n),s) = f a (cost' + n,s') :=
        bind_go ((enough (cost' + n)).trans (free_ok done))
      have same : (free (m >>= g) : Limited σ ε δ β) (n,s) = free (g a) (n,s') := by
        simp only [free]
        rw [bind_go done]
      rw [Nat.add_assoc,next,enough' n,same]
    · by_cases early : n < cost
      · exact stops n early
      · obtain ⟨rest,rfl⟩ := Nat.exists_eq_add_of_le (Nat.le_of_not_lt early)
        obtain ⟨left,stopped⟩ := less' rest (by omega)
        exact ⟨left,(bind_go ((enough rest).trans (free_ok done))).trans stopped⟩

theorem Counts.ite {c : Prop} [Decidable c] {p' : Limited σ ε δ α} {m' : StateT σ (Except ε) α}
    (first : Counts p m) (second : Counts p' m') : Counts (if c then p else p') (if c then m else m') := by
  split
  · exact first
  · exact second

/-- An operation that returns with some budget returns without one. -/
theorem Counts.returned (counts : Counts p m) (done : p (n,s) = .ok (a,n',s')) : m s = .ok (a,s') := by
  obtain ⟨cost,enough,less⟩ := counts s
  by_cases early : n < cost
  · obtain ⟨left,stopped⟩ := less n early
    exact nomatch stopped.symm.trans done
  · obtain ⟨rest,rfl⟩ := Nat.exists_eq_add_of_le (Nat.le_of_not_lt early)
    have same := (enough rest).symm.trans done
    cases result : m s with
    | error fault => exact nomatch (free_error result).symm.trans same
    | ok r =>
      obtain ⟨a',s''⟩ := r
      cases (free_ok result).symm.trans same
      rfl

/-! Where the budget may end. -/

theorem cut_free : ¬ Cut (free m) s left := by
  rintro ⟨n,stopped⟩
  cases done : m s with
  | error fault => exact nomatch (free_error done).symm.trans stopped
  | ok r => exact nomatch (free_ok done).symm.trans stopped

theorem cut_pure : ¬ Cut (pure a : Limited σ ε δ α) s left := cut_free (m := pure a)

theorem cut_spend {behind : σ → δ} : Cut (spend behind : Limited σ ε δ Unit) s left ↔ left = behind s := by
  constructor
  · rintro ⟨n,stopped⟩
    cases n with
    | zero => cases stopped; rfl
    | succ n => cases stopped
  · rintro rfl
    exact ⟨0,rfl⟩

/-- The budget ends in the first operation or, that one having returned, in the second. -/
theorem Cut.bind (counts : Counts p m) (cut : Cut (p >>= f) s left) :
    Cut p s left ∨ ∃ a s', m s = .ok (a,s') ∧ Cut (f a) s' left := by
  obtain ⟨n,stopped⟩ := cut
  rcases bind_error.mp stopped with first | ⟨a,⟨n',s'⟩,done,second⟩
  · exact .inl ⟨n,first⟩
  · exact .inr ⟨a,s',counts.returned done,n',second⟩

theorem Cut.free_bind (cut : Cut (free m >>= f) s left) : ∃ a s', m s = .ok (a,s') ∧ Cut (f a) s' left :=
  (cut.bind counts_free).resolve_left cut_free

/-- The same where it is known what the first operation returns. -/
theorem Cut.free_go (cut : Cut (free m >>= f) s left) (done : m s = .ok (a,s')) : Cut (f a) s' left := by
  obtain ⟨a',s'',same,next⟩ := cut.free_bind
  obtain ⟨rfl,rfl⟩ := Prod.mk.inj (Except.ok.inj (done.symm.trans same))
  exact next

theorem Cut.go (counts : Counts p m) (cut : Cut (p >>= f) s left) (done : m s = .ok (a,s')) :
    Cut p s left ∨ Cut (f a) s' left := by
  refine (cut.bind counts).imp_right ?_
  rintro ⟨a',s'',same,next⟩
  obtain ⟨rfl,rfl⟩ := Prod.mk.inj (Except.ok.inj (done.symm.trans same))
  exact next

end

end OsProj.Budget
