import OsProj.IntQueueFifo

/-! What one event of the interrupt queue does to its bytes, whichever threads call. -/
namespace OsProj.IntQueue

open OsProj.Synch

def Only {Tid : Type} (allowed : Call → Prop) (s : State Tid) : Prop :=
  ∀ t call, s.pc t = .locking call ∨ s.pc t = .waiting call → allowed call

def Event.Only {Tid : Type} (allowed : Call → Prop) : Event Tid → Prop
  | .call _ made => allowed made
  | _ => True

/-- The byte of a call that returns passes the queue; otherwise the queue is as it was. -/
structure Passes {Tid : Type} (s : State Tid) (r : Result) (s' : State Tid) : Prop where
  passed : contents s ++ putBytes r = gotBytes r ++ contents s'
  idle : r = none → SameQueue s s'

section
variable {Tid : Type} {s s' s'' : State Tid} {call call' : Call}

theorem SameQueue.trans (first : SameQueue s s') (second : SameQueue s' s'') : SameQueue s s'' :=
  ⟨second.buf.trans first.buf,second.head.trans first.head,second.tail.trans first.tail⟩

theorem SameQueue.passes (same : SameQueue s s') : Passes s none s' :=
  ⟨by rw [same.contents]; exact List.append_nil _,fun _ => same⟩

theorem SameQueue.before (same : SameQueue s s') (passes : Passes s' r s'') : Passes s r s'' :=
  ⟨same.contents ▸ passes.passed,fun none_ => same.trans (passes.idle none_)⟩

variable [DecidableEq Tid]

theorem finish_passes (bounds : s.head < intqBufsize ∧ s.tail < intqBufsize) (met : Met s call.waiter)
    (done : finish call s = some (byte,s')) : Passes s (some (call,byte)) s' ∧ s'.pc = s.pc := by
  obtain ⟨_,signalled,equal⟩ := Option.map_eq_some_iff.mp done
  cases equal
  obtain ⟨same,pc,_⟩ := signal_kept signalled
  refine ⟨⟨?_,nofun⟩,pc.trans (by cases call <;> rfl)⟩
  rw [same.contents]
  exact transfer_contents bounds met

theorem lockAcquire_kept (ran : lockAcquire t call s = some s') :
    SameQueue s s' ∧ ∃ pc, (pc = .locking call ∨ pc = .waiting call) ∧ s'.pc = Function.update s.pc t pc := by
  unfold lockAcquire at ran
  split at ran
  · unfold wait at ran
    split at ran
    · cases ran
    · cases ran
      exact ⟨⟨rfl,rfl,rfl⟩,_,.inr rfl,rfl⟩
  · cases ran
    exact ⟨⟨rfl,rfl,rfl⟩,_,.inl rfl,rfl⟩

/-- A thread at the test of its loop: its byte passes and it is outside, or it is in the call and nothing passed. -/
theorem attempt_passes (bounds : s.head < intqBufsize ∧ s.tail < intqBufsize) (ran : attempt t call s = some s') :
    Passes s (completes call s) s' ∧ ∃ pc, (pc = .outside ∨ pc = .locking call ∨ pc = .waiting call) ∧
      s'.pc = Function.update s.pc t pc := by
  unfold attempt at ran
  unfold completes
  split at ran
  · rename_i met
    obtain ⟨⟨byte,s₁⟩,done,rfl⟩ := Option.map_eq_some_iff.mp ran
    obtain ⟨passes,pc⟩ := finish_passes bounds met done
    rw [if_pos met,done]
    refine ⟨⟨passes.passed,nofun⟩,_,.inl rfl,?_⟩
    change Function.update s₁.pc t .outside = _
    rw [pc]
  · rename_i unmet
    rw [if_neg unmet]
    split at ran
    · cases ran
    · obtain ⟨same,pc,inside,moved⟩ := lockAcquire_kept ran
      exact ⟨same.passes,pc,.inr inside,moved⟩

theorem perform_passes (inv : Inv s) (ran : perform e s = some s') : Passes s (returned e s) s' := by
  cases e with
  | call t call => exact (attempt_passes inv.bounds ran).1
  | run t =>
    simp only [perform,proceed] at ran
    simp only [returned]
    cases here : s.pc t with
    | outside =>
      rw [here] at ran
      cases ran
    | locking call =>
      rw [here] at ran
      exact (lockAcquire_kept ran).1.passes
    | waiting call =>
      rw [here] at ran
      obtain ⟨s₁,released,ran⟩ := Option.bind_eq_some_iff.mp ran
      have same := (lockRelease_kept released).1
      have moved : SameQueue s (s₁.goto t .outside) := ⟨same.buf,same.head,same.tail⟩
      have bounds : (s₁.goto t .outside).head < intqBufsize ∧ (s₁.goto t .outside).tail < intqBufsize := by
        rw [moved.head,moved.tail]
        exact inv.bounds
      simp only [released,Option.bind_some]
      exact moved.before (attempt_passes bounds ran).1
  | interrupt call =>
    simp only [perform,handle] at ran
    simp only [returned,completes]
    split at ran
    · rename_i met
      obtain ⟨⟨byte,s₁⟩,done,rfl⟩ := Option.map_eq_some_iff.mp ran
      rw [if_pos met,done]
      exact (finish_passes inv.bounds met done).1
    · cases ran

theorem Only.moved {allowed : Call → Prop} {pc : Pc} (only : Only allowed s) (one : allowed call)
    (inside : pc = .outside ∨ pc = .locking call ∨ pc = .waiting call) (moved : s'.pc = Function.update s.pc t pc) :
    Only allowed s' := by
  intro u call' here
  rw [moved] at here
  by_cases same : u = t
  · subst same
    rw [Function.update_self] at here
    rcases inside with rfl | rfl | rfl
    · rcases here with here | here <;> cases here
    · rcases here with here | here <;> cases here
      exact one
    · rcases here with here | here <;> cases here
      exact one
  · rw [Function.update_of_ne same] at here
    exact only u call' here

theorem Only.perform {allowed : Call → Prop} (only : Only allowed s) (inv : Inv s) (calls : e.Only allowed)
    (ran : perform e s = some s') : Only allowed s' := by
  cases e with
  | call t call =>
    obtain ⟨-,pc,inside,moved⟩ := attempt_passes inv.bounds ran
    exact only.moved calls inside moved
  | run t =>
    simp only [IntQueue.perform,proceed] at ran
    cases here : s.pc t with
    | outside =>
      rw [here] at ran
      cases ran
    | locking call =>
      rw [here] at ran
      obtain ⟨-,pc,inside,moved⟩ := lockAcquire_kept ran
      exact only.moved (only t call (.inl here)) (.inr inside) moved
    | waiting call =>
      rw [here] at ran
      obtain ⟨s₁,released,ran⟩ := Option.bind_eq_some_iff.mp ran
      obtain ⟨same,kept,-⟩ := lockRelease_kept released
      have one := only t call (.inr here)
      have back : Only allowed (s₁.goto t .outside) := only.moved one (.inl rfl) (by rw [← kept]; rfl)
      have bounds : (s₁.goto t .outside).head < intqBufsize ∧ (s₁.goto t .outside).tail < intqBufsize := by
        change s₁.head < intqBufsize ∧ s₁.tail < intqBufsize
        rw [same.head,same.tail]
        exact inv.bounds
      obtain ⟨-,pc,inside,moved⟩ := attempt_passes bounds ran
      exact back.moved one inside moved
  | interrupt call =>
    simp only [IntQueue.perform,handle] at ran
    split at ran
    · rename_i met
      obtain ⟨⟨byte,s₁⟩,done,rfl⟩ := Option.map_eq_some_iff.mp ran
      intro u call' here
      rw [(finish_passes inv.bounds met done).2] at here
      exact only u call' here
    · cases ran

/-- The call that returns is the one that the event or its thread is in. -/
theorem Only.returned {allowed : Call → Prop} (only : Only allowed s) (calls : e.Only allowed)
    (gone : returned e s = some (call,byte)) (thread : ∀ call, e ≠ .interrupt call) : allowed call := by
  have completed {call' : Call} {q : State Tid} (done : completes call' q = some (call,byte)) : call' = call := by
    unfold completes at done
    split at done
    · obtain ⟨out,-,equal⟩ := Option.map_eq_some_iff.mp done
      exact (Prod.mk.inj equal).1
    · cases done
  cases e with
  | call t call' =>
    obtain rfl := completed gone
    exact calls
  | run t =>
    simp only [IntQueue.returned] at gone
    split at gone
    · rename_i call' here
      obtain ⟨q,-,done⟩ := Option.bind_eq_some_iff.mp gone
      obtain rfl := completed done
      exact only t _ (.inr here)
    · cases gone
  | interrupt call' => exact absurd rfl (thread call')

end

end OsProj.IntQueue
