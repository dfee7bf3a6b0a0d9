import Mathlib.Algebra.BigOperators.Group.Finset.Basic
import Mathlib.Data.Fintype.BigOperators
import OsProj.IdeRuns

/-! The calls of the disk driver return. -/
namespace OsProj.Ide

open OsProj.Channel
open OsProj.History

/-- Steps that a call still has before it, three for each of its own, since a step may set a disk to work. -/
def Pc.rank {Data : Type} : Pc Data → Nat
  | .idle => 0
  | .releasing _ _ => 3
  | .inCall _ .acquire => 30
  | .inCall _ .waitUntilIdle => 27
  | .inCall _ .selectDevice => 24
  | .inCall _ .waitUntilIdleAgain => 21
  | .inCall _ .selectSector => 18
  | .inCall _ .issueCommand => 15
  | .inCall (.read _ _) .down | .inCall (.write _ _ _) .waitWhileBusy => 12
  | .inCall (.read _ _) .waitWhileBusy | .inCall (.write _ _ _) .transfer => 9
  | .inCall (.read _ _) .transfer | .inCall (.write _ _ _) .down => 6

def Phase.rank {Data : Type} : Phase Data → Nat
  | .reading _ | .accepting _ | .writing _ _ => 2
  | _ => 0

def Controller.rank {Data : Type} (c : Controller Data) : Nat := (c.phase false).rank + (c.phase true).rank + c.intrq.toNat

/-- A step other than a new call, a stray interrupt and a look at a disk that is not ready. -/
def Event.works {Tid Data : Type} : Event Tid Data → Bool
  | .called _ _ | .polled _ | .stray => false
  | _ => true

def Event.starts {Tid Data : Type} : Event Tid Data → Bool
  | .called _ _ => true
  | _ => false

/-- Only a command makes a disk interrupt. -/
def Expecting {Tid Data : Type} (s : State Tid Data) : Prop :=
  s.expectingInterrupt = true ∨ Calm s.controller ∧ s.controller.intrq = false

section
variable {Data : Type} {c c' : Controller Data} {d : Bool} {p : Phase Data}

theorem rank_at (c : Controller Data) (d : Bool) : c.rank = (c.phase d).rank + (c.phase (!d)).rank + c.intrq.toNat := by
  unfold Controller.rank
  cases d with
  | false => rfl
  | true => rw [Bool.not_true,Nat.add_comm (c.phase true).rank]

theorem rank_moved (phase : c'.phase = (c.setPhase d p).phase) :
    c'.rank + (c.phase d).rank + c.intrq.toNat = c.rank + p.rank + c'.intrq.toNat := by
  rw [rank_at c' d,rank_at c d,phase,setPhase_same,setPhase_other]
  omega

theorem rank_same (phase : c'.phase = c.phase) : c'.rank + c.intrq.toNat = c.rank + c'.intrq.toNat := by
  unfold Controller.rank
  rw [phase]
  omega

theorem toNat_quiet {b b' : Bool} (quiet : b' = false ∨ b' = b) : b'.toNat ≤ b.toNat := by
  rcases quiet with rfl | rfl
  · exact Nat.zero_le _
  · exact le_rfl

theorem rank_quiet (phase : c'.phase = c.phase) (quiet : c'.intrq = false ∨ c'.intrq = c.intrq) : c'.rank ≤ c.rank := by
  have fewer := toNat_quiet quiet
  have same := rank_same phase
  omega

/-- A step of a thread may set a disk to work, but it does not interrupt. -/
theorem rank_le (phase : c'.phase = c.phase ∨ ∃ d p, c'.phase = (c.setPhase d p).phase) (quiet : c'.intrq = false ∨ c'.intrq = c.intrq) :
    c'.rank ≤ c.rank + 2 := by
  have fewer := toNat_quiet quiet
  rcases phase with phase | ⟨d,p,phase⟩
  · exact (rank_quiet phase quiet).trans (Nat.le_add_right ..)
  · have moved := rank_moved phase
    have small : p.rank ≤ 2 := by cases p <;> simp [Phase.rank]
    omega

theorem work_rank (ran : work d c = some c') : c'.rank < c.rank := by
  rcases work_cases ran with ⟨lba,phase,same⟩ | ⟨lba,phase,same⟩ | ⟨lba,data,phase,same⟩
  · have moved := rank_moved (show c'.phase = (c.setPhase d (.offering (c.sectors d lba))).phase by rw [same])
    rw [phase,show c'.intrq = true by rw [same]] at moved
    simp only [Phase.rank,Bool.toNat_true] at moved
    omega
  · have moved := rank_moved (show c'.phase = (c.setPhase d (.wanting lba)).phase by rw [same])
    rw [phase,show c'.intrq = c.intrq by rw [same]; rfl] at moved
    simp only [Phase.rank] at moved
    omega
  · have moved := rank_moved (show c'.phase = (c.setPhase d .idle).phase by rw [same])
    rw [phase,show c'.intrq = true by rw [same]] at moved
    simp only [Phase.rank,Bool.toNat_true] at moved
    omega

theorem fail_rank (ran : fail d c = some c') : c'.rank < c.rank := by
  obtain ⟨busy,same⟩ := fail_cases ran
  have moved := rank_moved (show c'.phase = (c.setPhase d .idle).phase by rw [same])
  have two : (c.phase d).rank = 2 := by
    rcases busy with ⟨lba,phase⟩ | ⟨lba,phase⟩
    · rw [phase]
      rfl
    · rw [phase]
      rfl
  rw [two,show c'.intrq = true by rw [same]] at moved
  simp only [Phase.rank,Bool.toNat_true] at moved
  omega

end

section
variable {Tid Data : Type} {s : State Tid Data}

theorem Expecting.interrupt (expecting : Expecting s) : Expecting (interruptHandler s) := by
  cases enabled : s.expectingInterrupt with
  | true =>
    rw [interruptHandler_expecting enabled]
    exact .inl enabled
  | false => rwa [interruptHandler_unexpected enabled]

variable [Fintype Tid]

def State.rank (s : State Tid Data) : Nat := ∑ t, (s.pc t).rank + s.controller.rank

theorem interruptHandler_rank (s : State Tid Data) : (interruptHandler s).rank ≤ s.rank := by
  have quiet : (interruptHandler s).controller.rank ≤ s.controller.rank := by
    refine rank_quiet ?_ ?_
    · unfold interruptHandler
      split <;> rfl
    · unfold interruptHandler
      split
      · exact .inl rfl
      · exact .inr rfl
  unfold State.rank
  rw [interruptHandler_pc]
  omega

end

section
variable {Tid Data : Type} [DecidableEq Tid] {s s' : State Tid Data} {e : Event Tid Data} {k : Pc Data} {failed : Prop}
  {disks : Bool → Nat → Data}

/-- What a step of a thread costs: a look at a disk that is not ready costs nothing. -/
def Paid (t : Tid) (s : State Tid Data) (e : Event Tid Data) (s' : State Tid Data) : Prop :=
  e.works = false ∧ s'.pc = s.pc ∧ s'.controller.rank ≤ s.controller.rank ∨
    ∃ k, s'.pc = Function.update s.pc t k ∧ k.rank + 3 ≤ (s.pc t).rank ∧ s'.controller.rank ≤ s.controller.rank + 2

theorem Turn.pays (turn : Turn disks t s e s') : e.starts = false ∧ Paid t s e s' := by
  cases turn with
  | polled here busy =>
    refine ⟨rfl,.inl ⟨rfl,rfl,?_⟩⟩
    exact rank_quiet rfl (.inl rfl)
  | busy here busy => exact ⟨rfl,.inl ⟨rfl,rfl,le_rfl⟩⟩
  | @acquired call here _ | @selected call here _ _ | @woken call here _ | @asked call here _ =>
    refine ⟨rfl,.inr ⟨_,rfl,?_,rank_le (.inl rfl) (.inr rfl)⟩⟩
    rw [here]
    cases call <;> exact le_rfl
  | @waited call here _ | @waitedAgain call here _ =>
    refine ⟨rfl,.inr ⟨_,rfl,?_,rank_le (.inl rfl) (.inl rfl)⟩⟩
    rw [here]
    cases call <;> exact le_rfl
  | @sectorSelected call here c before calm selected lba sectors intrq =>
    refine ⟨rfl,.inr ⟨_,rfl,?_,rank_le (.inl (funext fun d => (calm d).trans (before d).symm)) (.inr intrq)⟩⟩
    rw [here]
    cases call <;> exact le_rfl
  | readIssued here calm selected | writeIssued here calm selected =>
    refine ⟨rfl,.inr ⟨_,rfl,?_,rank_le (.inr ⟨_,_,rfl⟩) (.inl rfl)⟩⟩
    rw [here]
    exact le_rfl
  | fetched here offered | put here wanted =>
    refine ⟨rfl,.inr ⟨_,rfl,?_,rank_le (.inr ⟨_,_,rfl⟩) (.inr rfl)⟩⟩
    rw [here]
    exact le_rfl
  | released here =>
    refine ⟨rfl,.inr ⟨_,rfl,?_,rank_le (.inl rfl) (.inr rfl)⟩⟩
    rw [here]
    exact le_rfl

/-! Only a command makes a disk interrupt. -/

theorem Turn.expecting (turn : Turn disks t s e s') (expecting : Expecting s) : Expecting s' := by
  cases turn with
  | polled _ _ | waited _ _ | waitedAgain _ _ => exact expecting.imp id fun quiet => ⟨quiet.1,rfl⟩
  | acquired _ _ | selected _ _ _ | woken _ _ | busy _ _ | asked _ _ | released _ => exact expecting
  | sectorSelected _ _ calm _ _ _ intrq => exact expecting.imp id fun quiet => ⟨calm,intrq.trans quiet.2⟩
  | readIssued _ _ _ | writeIssued _ _ _ => exact .inl rfl
  | @fetched dev secNo _ offered =>
    refine expecting.imp id fun quiet => ?_
    cases offered.here.symm.trans (quiet.1 dev)
  | @put dev secNo buffer _ wanted =>
    refine expecting.imp id fun quiet => ?_
    cases wanted.here.symm.trans (quiet.1 dev)

theorem Expecting.step (expecting : Expecting s) (inv : Inv failed disks s) (step : Step s e s') : Expecting s' := by
  rcases step_cases step with ⟨t,call,rfl,here,small,rfl⟩ | ⟨t,moves⟩ | ⟨d,c,rfl,ran,rfl⟩ | ⟨d,c,rfl,ran,rfl⟩ | ⟨event,rfl⟩
  · exact expecting
  · exact Turn.expecting (inv.turn moves) expecting
  · refine expecting.imp id fun quiet => ?_
    cases ran.symm.trans quiet.1.work
  · refine expecting.imp id fun quiet => ?_
    cases ran.symm.trans quiet.1.fail
  · exact expecting.interrupt

/-! The cost of a run. -/

variable [Fintype Tid]

theorem rank_update (pc : Tid → Pc Data) (t : Tid) (k : Pc Data) :
    ∑ u, (Function.update pc t k u).rank + (pc t).rank = ∑ u, (pc u).rank + k.rank := by
  have elsewhere : ∑ u ∈ Finset.univ.erase t, (Function.update pc t k u).rank = ∑ u ∈ Finset.univ.erase t, (pc u).rank :=
    Finset.sum_congr rfl fun u mem => by rw [Function.update_of_ne (Finset.ne_of_mem_erase mem)]
  have before := Finset.add_sum_erase Finset.univ (fun u => (pc u).rank) (Finset.mem_univ t)
  have after := Finset.add_sum_erase Finset.univ (fun u => (Function.update pc t k u).rank) (Finset.mem_univ t)
  rw [elsewhere,Function.update_self] at after
  omega

/-- A call brings its cost with it, and every step that is not a look or a stray interrupt uses some of it up. -/
theorem rank_step (inv : Inv failed disks s) (expecting : Expecting s) (step : Step s e s') :
    s'.rank + e.works.toNat ≤ s.rank + 30 * e.starts.toNat := by
  rcases step_cases step with ⟨t,call,rfl,here,small,rfl⟩ | ⟨t,moves⟩ | ⟨d,c,rfl,ran,rfl⟩ | ⟨d,c,rfl,ran,rfl⟩ | ⟨event,rfl⟩
  · have entered := rank_update s.pc t (.inCall call .acquire)
    rw [here] at entered
    change ∑ u, (Function.update s.pc t (.inCall call .acquire) u).rank + s.controller.rank + 0 ≤ ∑ u, (s.pc u).rank + s.controller.rank + 30
    have cost : (Pc.inCall call .acquire).rank = 30 := by cases call <;> rfl
    have free : (Pc.idle : Pc Data).rank = 0 := rfl
    omega
  · obtain ⟨starts,looked | ⟨k,pc,less,more⟩⟩ := Turn.pays (inv.turn moves)
    · obtain ⟨works,pc,quiet⟩ := looked
      rw [starts,works]
      unfold State.rank
      rw [pc]
      exact Nat.add_le_add_left quiet _
    · have moved := rank_update s.pc t k
      have one := Bool.toNat_le e.works
      unfold State.rank
      rw [starts,pc]
      omega
  · have less := work_rank ran
    change ∑ u, (s.pc u).rank + c.rank + 1 ≤ ∑ u, (s.pc u).rank + s.controller.rank + 0
    omega
  · have less := fail_rank ran
    change ∑ u, (s.pc u).rank + c.rank + 1 ≤ ∑ u, (s.pc u).rank + s.controller.rank + 0
    omega
  · rcases event with ⟨rfl,pending⟩ | rfl
    · rcases expecting with enabled | ⟨-,quiet⟩
      · rw [interruptHandler_expecting enabled]
        have same := rank_same (show ({ s.controller with intrq := false } : Controller Data).phase = s.controller.phase from rfl)
        rw [pending] at same
        change _ + 1 = _ + 0 at same
        change ∑ u, (s.pc u).rank + Controller.rank _ + 1 ≤ ∑ u, (s.pc u).rank + s.controller.rank + 0
        exact (Nat.add_assoc ..).le.trans (Nat.add_le_add_left same.le _)
      · cases pending.symm.trans quiet
    · exact interruptHandler_rank s

end

/-! Where nothing goes on. -/

section
variable {Data : Type} {c : Controller Data} {d : Bool}

theorem busy_works (busy : (c.phase d).status &&& staBsy ≠ 0) : work d c ≠ none := by
  have idle : staDrdy &&& staBsy = 0 := by decide
  have asking : (staDrdy ||| staDrq) &&& staBsy = 0 := by decide
  unfold work
  cases phase : c.phase d with
  | reading lba | accepting lba => exact nofun
  | writing lba data => exact nofun
  | idle =>
    rw [phase] at busy
    exact absurd idle busy
  | offering data =>
    rw [phase] at busy
    exact absurd asking busy
  | wanting lba =>
    rw [phase] at busy
    exact absurd asking busy

theorem Settling.works (settling : Settling c) (busy : ¬Calm c) : ∃ d, Ide.work d c ≠ none := by
  obtain ⟨dev,here⟩ := settling
  refine ⟨dev,?_⟩
  have settles := here.here
  unfold Ide.work
  cases phase : c.phase dev with
  | idle => exact absurd (At.calm ⟨here.selected,here.other,phase⟩) busy
  | writing lba data => exact nofun
  | reading lba | accepting lba | wanting lba =>
    rw [phase] at settles
    exact settles.elim
  | offering data =>
    rw [phase] at settles
    exact settles.elim

end

section
variable {Tid Data : Type} [DecidableEq Tid] {s : State Tid Data} {failed : Prop} {disks : Bool → Nat → Data}

theorem advance_none (blocks : advance t s = none) :
    s.pc t = .idle ∨ (∃ call, s.pc t = .inCall call .acquire ∧ s.lock ≠ none) ∨ ∃ call, s.pc t = .inCall call .down ∧ s.completionWait = 0 := by
  unfold advance at blocks
  cases here : s.pc t with
  | idle => exact .inl rfl
  | releasing call data =>
    rw [here] at blocks
    cases blocks
  | inCall call place =>
    rw [here] at blocks
    cases place with
    | acquire =>
      refine .inr (.inl ⟨call,rfl,fun free => ?_⟩)
      dsimp only at blocks
      rw [if_pos free] at blocks
      cases blocks
    | down =>
      refine .inr (.inr ⟨call,rfl,?_⟩)
      by_contra up
      dsimp only at blocks
      rw [if_pos (Nat.pos_of_ne_zero up)] at blocks
      cases blocks
    | waitUntilIdle | selectDevice | waitUntilIdleAgain | issueCommand => cases blocks
    | selectSector =>
      dsimp only at blocks
      split at blocks
      · cases blocks
      · cases blocks
    | waitWhileBusy =>
      dsimp only at blocks
      split at blocks
      · split at blocks
        · cases blocks
        · cases blocks
      · cases blocks
    | transfer =>
      cases call with
      | read dev secNo =>
        dsimp only at blocks
        split at blocks
        · cases blocks
        · cases blocks
      | write dev secNo buffer =>
        dsimp only at blocks
        split at blocks
        · cases blocks
        · cases blocks

/-- No disk, no interrupt and no thread can go on, except for looks at a disk that is not ready. -/
def Halted (s : State Tid Data) : Prop := ∀ e s', Step s e s' → e.works = false

theorem Halted.rests (halted : Halted s) (d : Bool) : work d s.controller = none := by
  cases ran : work d s.controller with
  | none => rfl
  | some c => exact nomatch halted _ _ ⟨.work d,congrArg (Option.map _) ran⟩

theorem Halted.interrupt (halted : Halted s) : s.controller.intrq = false := by
  cases pending : s.controller.intrq with
  | false => rfl
  | true => exact nomatch halted _ _ ⟨.interrupt,if_pos pending⟩

theorem Halted.blocked (halted : Halted s) (inv : Inv failed disks s) (moves : advance t s = some outcome) : outcome = .error .diskFailed := by
  have turn := inv.turn moves
  cases outcome with
  | error panic => rw [turn.1]
  | ok out =>
    obtain ⟨e,s'⟩ := out
    have works := halted e s' ⟨.advance t,by rw [perform,moves]⟩
    have turn : Turn disks t s e s' := turn
    cases turn with
    | polled here busy =>
      have settling := inv.ready t
      rw [here] at settling
      obtain ⟨d,going⟩ := Settling.works settling busy
      exact absurd (halted.rests d) going
    | busy here busy => exact absurd (halted.rests _) (busy_works busy)
    | _ => cases works

theorem Halted.down (halted : Halted s) (woken : Woken s) : s.completionWait ≠ 0 := by
  rcases woken with up | pending | ⟨d,lba,reading⟩ | ⟨d,lba,data,writing⟩
  · exact Nat.pos_iff_ne_zero.mp up
  · cases halted.interrupt.symm.trans pending
  · have still := halted.rests d
    rw [work,reading] at still
    cases still
  · have still := halted.rests d
    rw [work,writing] at still
    cases still

/-- The thread that is next finds a disk that gave up. -/
theorem Halted.next (halted : Halted s) (inv : Inv failed disks s) (active : s.pc t ≠ .idle) (mine : s.lock = none ∨ s.lock = some t) :
    advance t s = some (.error .diskFailed) := by
  cases moves : advance t s with
  | some outcome => rw [halted.blocked inv moves]
  | none =>
    rcases advance_none moves with idle | ⟨call,here,locked⟩ | ⟨call,here,zero⟩
    · exact absurd idle active
    · have waits : (s.pc t).holds = false := by
        rw [here]
        rfl
      have theirs := (inv.owner t).not.mp (by rw [waits]; decide)
      exact (mine.elim locked theirs).elim
    · have ready := inv.ready t
      rw [here] at ready
      refine absurd zero (halted.down ?_)
      cases call with
      | read dev secNo => exact ready.2.2
      | write dev secNo buffer => exact ready.2.2

theorem Halted.returned (halted : Halted s) (inv : Inv failed disks s) :
    (∀ t, s.pc t = .idle) ∨ ∃ t, advance t s = some (.error .diskFailed) := by
  by_cases all : ∀ t, s.pc t = .idle
  · exact .inl all
  · obtain ⟨t,active⟩ := not_forall.mp all
    cases lock : s.lock with
    | none => exact .inr ⟨t,halted.next inv active (.inl lock)⟩
    | some u =>
      have holds := (inv.owner u).mpr lock
      refine .inr ⟨u,halted.next inv (fun idle => ?_) (.inr lock)⟩
      rw [idle] at holds
      cases holds

theorem Reaches.expecting {expecting : Bool} {c : Controller Data} {h : List (Event Tid Data)} (reached : Reaches expecting c h s) :
    Expecting s := by
  induction reached with
  | refl => exact .inr ⟨fun _ => rfl,rfl⟩
  | snoc front last ih => exact ih.step (Reaches.inv front) last

variable [Fintype Tid]

theorem Reaches.rank {expecting : Bool} {c : Controller Data} {h : List (Event Tid Data)} (reached : Reaches expecting c h s) :
    s.rank + h.countP Event.works ≤ 30 * h.countP Event.starts := by
  induction reached with
  | refl => exact (Finset.sum_eq_zero fun _ _ => rfl).le
  | @snoc h s e s' front last ih =>
    have paid := rank_step (Reaches.inv front) (Reaches.expecting front) last
    rw [List.countP_cons,List.countP_cons]
    cases works : e.works <;> cases starts : e.starts <;> simp [works,starts] at paid ⊢ <;> omega

/-- Every call returns: the steps of a run, but for looks at a disk that is not ready and stray interrupts, are
at most thirty for each call, and where there is no further one all calls have returned or a call has found that
a disk has given up. No interrupt is lost and no thread waits for one that does not come. -/
theorem calls_return {expecting : Bool} {c : Controller Data} {h : List (Event Tid Data)} (reached : Reaches expecting c h s) :
    h.countP Event.works ≤ 30 * h.countP Event.starts ∧
    (Halted s → (∀ t, s.pc t = .idle) ∨ ∃ t, advance t s = some (.error .diskFailed)) := by
  refine ⟨(Nat.le_add_left ..).trans reached.rank,fun halted => halted.returned (Reaches.inv reached)⟩

end

theorem calls_return_readBack : afterReadBack.1.countP Event.works ≤ 30 * afterReadBack.1.countP Event.starts ∧
    (Halted afterReadBack.2 → (∀ t, afterReadBack.2.pc t = .idle) ∨ ∃ t, advance t afterReadBack.2 = some (.error .diskFailed)) :=
  calls_return afterReadBack_path

end OsProj.Ide
