import OsProj.IdeRuns

/-! Interrupts of the disk driver where all of them come from the disks: each command has one, and the
thread that waits for it takes it. -/
namespace OsProj.Ide

open OsProj.Channel
open OsProj.History

/-- The disk interrupts without further data from the driver. -/
def Phase.owes {Data : Type} : Phase Data → Bool
  | .reading _ | .writing _ _ => true
  | _ => false

def State.wakes {Tid Data : Type} (s : State Tid Data) : Nat := s.completionWait + s.controller.intrq.toNat

/-- The interrupts of the command of a thread that is at this place of its call. -/
def Exact {Tid Data : Type} (s : State Tid Data) : Pc Data → Prop
  | .idle | .inCall _ .acquire => True
  | .inCall call .down => s.wakes + (s.controller.phase call.dev).owes.toNat = 1
  | .inCall (.read dev _) .waitWhileBusy | .inCall (.read dev _) .transfer => s.wakes = 0 ∧ (s.controller.phase dev).owes = false
  | .inCall (.write dev _ _) .waitWhileBusy | .inCall (.write dev _ _) .transfer => s.controller.phase dev ≠ .idle → s.wakes = 0
  | _ => Calm s.controller ∧ s.wakes = 0

structure Undisturbed {Tid Data : Type} (s : State Tid Data) : Prop where
  free : s.lock = none → Calm s.controller ∧ s.wakes = 0
  exact : ∀ t, Exact s (s.pc t)

section
variable {Tid Data : Type} {failed : Prop} {disks : Bool → Nat → Data} {s s' : State Tid Data} {c : Controller Data} {k : Pc Data}

theorem exact_of_not_holds (waits : k.holds = false) : Exact s k := by
  cases k with
  | idle => trivial
  | inCall call place =>
    cases place with
    | acquire => trivial
    | _ => cases waits
  | releasing call data => cases waits

theorem Exact.same (exact : Exact s k) (phase : s'.controller.phase = s.controller.phase) (wakes : s'.wakes = s.wakes) : Exact s' k := by
  have calm (before : Calm s.controller ∧ s.wakes = 0) : Calm s'.controller ∧ s'.wakes = 0 :=
    ⟨fun d => (congrFun phase d).trans (before.1 d),wakes.trans before.2⟩
  cases k with
  | idle => trivial
  | releasing call data => exact calm exact
  | inCall call place =>
    cases place with
    | acquire => trivial
    | waitUntilIdle | selectDevice | waitUntilIdleAgain | selectSector | issueCommand => exact calm exact
    | down =>
      unfold Exact at exact ⊢
      rwa [phase,wakes]
    | waitWhileBusy | transfer =>
      cases call with
      | read dev secNo | write dev secNo buffer =>
        unfold Exact at exact ⊢
        rwa [phase,wakes]

/-- An interrupt that a disk still has to send is sent. -/
theorem work_owes (ran : work d c = some c') (due : (c.phase d).owes = true → c.intrq = false) :
    c'.intrq.toNat + (c'.phase d).owes.toNat = c.intrq.toNat + (c.phase d).owes.toNat := by
  rcases work_cases ran with ⟨lba,phase,rfl⟩ | ⟨lba,phase,rfl⟩ | ⟨lba,data,phase,rfl⟩
  · rw [due (by rw [phase]; rfl),show Controller.phase _ d = _ from setPhase_same c d _,phase]
    rfl
  · rw [setPhase_same,phase]
    rfl
  · rw [due (by rw [phase]; rfl),show Controller.phase _ d = _ from setPhase_same c d .idle,phase]
    rfl

theorem owes_of_work (ran : work d c = some c') : (c.phase d).owes = true ∨ ∃ lba, c.phase d = .accepting lba := by
  rcases work_cases ran with ⟨lba,phase,-⟩ | ⟨lba,phase,-⟩ | ⟨lba,data,phase,-⟩
  · exact .inl (by rw [phase]; rfl)
  · exact .inr ⟨lba,phase⟩
  · exact .inl (by rw [phase]; rfl)

theorem At.worked {P : Phase Data → Prop} (here : At P dev c) (ran : Ide.work d c = some c') : d = dev := by
  refine here.only fun idle => ?_
  rcases owes_of_work ran with owes | ⟨lba,accepting⟩
  · rw [idle] at owes
    cases owes
  · cases idle.symm.trans accepting

theorem At.gaveUp {P : Phase Data → Prop} (here : At P dev c) (ran : Ide.fail d c = some c') : d = dev := by
  refine here.only fun idle => ?_
  rcases (fail_cases ran).1 with ⟨lba,reading⟩ | ⟨lba,accepting⟩
  · cases idle.symm.trans reading
  · cases idle.symm.trans accepting

/-- A sector that was fetched, or a command that was given up. -/
theorem At.fetched (here : At (Phase.Fetches failed secNo data) dev c) (owes : (c.phase dev).owes = false) :
    At (fun p => p.Fetches failed secNo data ∧ p.owes = false) dev c := ⟨here.selected,here.other,here.here,owes⟩

theorem Exact.down_work {call : Call Data} {P : Phase Data → Prop} (exact : s.wakes + (s.controller.phase call.dev).owes.toNat = 1)
    (here : At P call.dev s.controller) (ran : work d s.controller = some c) :
    (s.setController c).wakes + (c.phase call.dev).owes.toNat = 1 := by
  obtain rfl := here.worked ran
  unfold State.wakes at exact ⊢
  have owed := work_owes ran fun owes => by
    rw [owes] at exact
    cases intrq : s.controller.intrq with
    | false => rfl
    | true =>
      rw [intrq,Bool.toNat_true] at exact
      omega
  change s.completionWait + c.intrq.toNat + (c.phase call.dev).owes.toNat = 1
  omega

theorem Exact.work (exact : Exact s k) (ready : Ready failed disks s k) (ran : work d s.controller = some c) :
    Exact (s.setController c) k := by
  cases k with
  | idle => trivial
  | releasing call data => exact absurd ran (by rw [Calm.work exact.1]; exact nofun)
  | inCall call place =>
    cases place with
    | acquire => trivial
    | waitUntilIdle | selectDevice | waitUntilIdleAgain | selectSector | issueCommand =>
      exact absurd ran (by rw [Calm.work exact.1]; exact nofun)
    | down =>
      cases call with
      | read dev secNo | write dev secNo buffer => exact Exact.down_work exact ready.1 ran
    | waitWhileBusy =>
      cases call with
      | read dev secNo =>
        have here := At.fetched ready exact.2
        exact absurd ran (by rw [here.work_none (fun _ => nofun) (fun _ => And.left) fun _ _ => And.left]; exact nofun)
      | write dev secNo buffer =>
        obtain rfl := ready.1.worked ran
        have prepares := ready.1.here
        rcases work_cases ran with ⟨lba,phase,rfl⟩ | ⟨lba,phase,rfl⟩ | ⟨lba,data,phase,rfl⟩
        · rw [phase] at prepares
          exact prepares.elim
        · exact fun _ => exact (by rw [phase]; exact nofun)
        · rw [phase] at prepares
          exact prepares.elim
    | transfer =>
      cases call with
      | read dev secNo => exact absurd ran (by rw [At.work_none ready nofun nofun nofun]; exact nofun)
      | write dev secNo buffer => exact absurd ran (by rw [ready.1.work_none nofun nofun nofun]; exact nofun)

theorem Exact.fail (exact : Exact s k) (ready : Ready failed disks s k) (ran : fail d s.controller = some c) :
    Exact (s.setController c) k := by
  obtain ⟨busy,gone⟩ := fail_cases ran
  cases k with
  | idle => trivial
  | releasing call data => exact absurd ran (by rw [Calm.fail exact.1]; exact nofun)
  | inCall call place =>
    cases place with
    | acquire => trivial
    | waitUntilIdle | selectDevice | waitUntilIdleAgain | selectSector | issueCommand =>
      exact absurd ran (by rw [Calm.fail exact.1]; exact nofun)
    | down =>
      cases call with
      | read dev secNo =>
        obtain rfl := ready.1.gaveUp ran
        rcases busy with ⟨lba,reading⟩ | ⟨lba,accepting⟩
        · have exact : s.wakes + (s.controller.phase d).owes.toNat = 1 := exact
          rw [reading] at exact
          have silent : s.completionWait = 0 := by
            unfold State.wakes at exact
            simp [Phase.owes] at exact
            omega
          rw [gone]
          change s.completionWait + 1 + ((s.controller.setPhase d .idle).phase d).owes.toNat = 1
          rw [setPhase_same,silent]
          rfl
        · have fetches := ready.1.here
          rw [accepting] at fetches
          exact fetches.elim
      | write dev secNo buffer => exact absurd ran (by rw [ready.1.fail_none (fun _ => id) fun _ => id]; exact nofun)
    | waitWhileBusy =>
      cases call with
      | read dev secNo =>
        have here := At.fetched ready exact.2
        exact absurd ran (by rw [here.fail_none (fun _ => nofun) fun _ => And.left]; exact nofun)
      | write dev secNo buffer =>
        obtain rfl := ready.1.gaveUp ran
        rw [gone]
        exact fun moving => absurd (setPhase_same ..) moving
    | transfer =>
      cases call with
      | read dev secNo => exact absurd ran (by rw [At.fail_none ready nofun nofun]; exact nofun)
      | write dev secNo buffer => exact absurd ran (by rw [ready.1.fail_none nofun nofun]; exact nofun)

/-- The handler turns the interrupt of a disk into a wake-up. -/
theorem interruptHandler_wakes (pending : s.controller.intrq = true) : (interruptHandler s).wakes = s.wakes := by
  unfold interruptHandler
  split
  · change s.completionWait + 1 + 0 = s.completionWait + s.controller.intrq.toNat
    rw [pending]
    rfl
  · rfl

theorem interruptHandler_phase (s : State Tid Data) : (interruptHandler s).controller.phase = s.controller.phase := by
  unfold interruptHandler
  split <;> rfl

theorem Phase.Puts.idle {p : Phase Data} (puts : p.Puts secNo buffer) (owes : p.owes = false) : p = .idle := by
  cases p with
  | idle => rfl
  | writing lba data => cases owes
  | reading lba | accepting lba | wanting lba => exact puts.elim
  | offering data => exact puts.elim

theorem wakes_zero (none : s.wakes = 0) : s.completionWait = 0 ∧ s.controller.intrq = false := by
  unfold State.wakes at none
  cases intrq : s.controller.intrq with
  | false => exact ⟨by omega,rfl⟩
  | true =>
    rw [intrq,Bool.toNat_true] at none
    omega

/-- The thread that is woken takes the one wake-up, and the disk owes no other. -/
theorem wakes_one {d : Bool} (exact : s.wakes + (s.controller.phase d).owes.toNat = 1) (up : 0 < s.completionWait) :
    s.completionWait = 1 ∧ s.controller.intrq = false ∧ (s.controller.phase d).owes = false := by
  unfold State.wakes at exact
  cases intrq : s.controller.intrq <;> cases owes : (s.controller.phase d).owes <;> simp [intrq,owes] at exact ⊢ <;> omega

end

section
variable {Tid Data : Type} [DecidableEq Tid] {failed : Prop} {disks : Bool → Nat → Data} {s s' s₁ : State Tid Data} {e : Event Tid Data}
  {k : Pc Data}

theorem Inv.disturbs_nobody (inv : Inv failed disks s) (mine : s.lock = none ∨ s.lock = some t) (pc : s₁.pc = s.pc)
    (free : s₁.lock = none → Calm s₁.controller ∧ s₁.wakes = 0) (exact : Exact (s₁.goto t k) k) : Undisturbed (s₁.goto t k) := by
  refine ⟨free,fun u => ?_⟩
  by_cases same : u = t
  · rwa [same,goto_self]
  · rw [goto_other s₁ k same,pc]
    exact exact_of_not_holds (inv.alone mine same)

theorem Turn.undisturbed (turn : Turn disks t s e s') (inv : Inv failed disks s) (before : Undisturbed s) : Undisturbed s' := by
  have ready := inv.ready t
  have exact := before.exact t
  have locked {k : Pc Data} (here : s.pc t = k) (holds : k.holds = true) {P : Prop} (free : s.lock = none) : P := by
    cases free.symm.trans (inv.mine here holds)
  cases turn with
  | acquired here free => exact inv.disturbs_nobody (.inl free) rfl nofun (before.free free)
  | polled here busy =>
    rw [here] at exact
    exact absurd exact.1 busy
  | waited here calm | waitedAgain here calm =>
    refine inv.disturbs_nobody (.inr (inv.mine here rfl)) rfl (fun free => locked here rfl free) ⟨calm,?_⟩
    rw [here] at exact
    exact (wakes_zero exact.2).1
  | selected here calm byte =>
    refine inv.disturbs_nobody (.inr (inv.mine here rfl)) rfl (fun free => locked here rfl free) ⟨calm,?_⟩
    rw [here] at exact
    exact exact.2
  | sectorSelected here _ calm selected lba sectors intrq =>
    refine inv.disturbs_nobody (.inr (inv.mine here rfl)) rfl (fun free => locked here rfl free) ⟨calm,?_⟩
    rw [here] at exact
    exact (congrArg (fun b => s.completionWait + Bool.toNat b) intrq).trans exact.2
  | @readIssued dev secNo here calm selected =>
    refine inv.disturbs_nobody (.inr (inv.mine here rfl)) rfl (fun free => locked here rfl free) ?_
    rw [here] at exact
    change s.completionWait + 0 + ((s.controller.setPhase dev (.reading secNo)).phase dev).owes.toNat = 1
    rw [(wakes_zero exact.2).1,setPhase_same]
    rfl
  | writeIssued here calm selected =>
    refine inv.disturbs_nobody (.inr (inv.mine here rfl)) rfl (fun free => locked here rfl free) fun _ => ?_
    rw [here] at exact
    exact (wakes_zero exact.2).1
  | @woken call here up =>
    rw [here] at exact ready
    obtain ⟨one,intrq,owes⟩ := wakes_one exact up
    have none : ({ s with completionWait := s.completionWait - 1 } : State Tid Data).wakes = 0 := by
      unfold State.wakes
      rw [one,intrq]
      rfl
    cases call with
    | read dev secNo => exact inv.disturbs_nobody (.inr (inv.mine here rfl)) rfl (fun free => locked here rfl free) ⟨none,owes⟩
    | write dev secNo buffer =>
      refine inv.disturbs_nobody (.inr (inv.mine here rfl)) rfl (fun free => locked here rfl free) ⟨?_,none⟩
      exact At.calm ⟨ready.1.selected,ready.1.other,ready.1.here.idle owes⟩
  | busy here busy => exact before
  | @asked call here asks =>
    rw [here] at exact
    cases call with
    | read dev secNo => exact inv.disturbs_nobody (.inr (inv.mine here rfl)) rfl (fun free => locked here rfl free) exact
    | write dev secNo buffer => exact inv.disturbs_nobody (.inr (inv.mine here rfl)) rfl (fun free => locked here rfl free) exact
  | @fetched dev secNo here offered =>
    rw [here] at exact
    refine inv.disturbs_nobody (.inr (inv.mine here rfl)) rfl (fun free => locked here rfl free) ⟨?_,exact.1⟩
    exact At.calm (c := s.controller.setPhase dev .idle) ⟨offered.selected,(setPhase_other ..).trans offered.other,setPhase_same ..⟩
  | @put dev secNo buffer here wanted =>
    rw [here] at exact
    refine inv.disturbs_nobody (.inr (inv.mine here rfl)) rfl (fun free => locked here rfl free) ?_
    have none : s.wakes = 0 := exact (by rw [wanted.here]; exact nofun)
    change s.wakes + ((s.controller.setPhase dev _).phase dev).owes.toNat = 1
    rw [none,setPhase_same]
    rfl
  | @released call data here =>
    rw [here] at exact
    exact inv.disturbs_nobody (.inr (inv.mine here rfl)) rfl (fun _ => exact) trivial

theorem Undisturbed.step {h : List (Event Tid Data)} (undisturbed : Undisturbed s) (inv : Inv (Failed h) disks s) (step : Step s e s')
    (expected : e ≠ .stray) : Undisturbed s' := by
  rcases step_cases step with ⟨t,call,rfl,here,small,rfl⟩ | ⟨t,moves⟩ | ⟨d,c,rfl,ran,rfl⟩ | ⟨d,c,rfl,ran,rfl⟩ | ⟨⟨rfl,pending⟩ | rfl,rfl⟩
  · refine ⟨undisturbed.free,fun u => ?_⟩
    by_cases same : u = t
    · rw [same,goto_self]
      trivial
    · rw [goto_other s _ same]
      exact undisturbed.exact u
  · exact Turn.undisturbed (inv.turn moves) inv undisturbed
  · refine ⟨fun free => ?_,fun t => (undisturbed.exact t).work (inv.ready t) ran⟩
    cases ran.symm.trans (undisturbed.free free).1.work
  · refine ⟨fun free => ?_,fun t => (undisturbed.exact t).fail (inv.ready t) ran⟩
    cases ran.symm.trans (undisturbed.free free).1.fail
  · refine ⟨fun free => ?_,fun t => ?_⟩
    · rw [interruptHandler_lock] at free
      obtain ⟨calm,none⟩ := undisturbed.free free
      refine ⟨fun d => ?_,(interruptHandler_wakes pending).trans none⟩
      rw [interruptHandler_phase]
      exact calm d
    · rw [interruptHandler_pc]
      exact (undisturbed.exact t).same (interruptHandler_phase s) (interruptHandler_wakes pending)
  · exact absurd rfl expected

theorem Reaches.undisturbed {expecting : Bool} {c : Controller Data} {h : List (Event Tid Data)} (reached : Reaches expecting c h s)
    (expected : .stray ∉ h) : Undisturbed s := by
  induction reached with
  | refl => exact ⟨fun _ => ⟨fun _ => rfl,rfl⟩,fun _ => trivial⟩
  | snoc front last ih =>
    have before := ih fun mem => expected (List.mem_cons_of_mem _ mem)
    exact before.step (Reaches.inv front) last fun same => expected (same ▸ List.mem_cons_self ..)

/-- Without stray interrupts a call leaves the channel as it found it: nobody's interrupt, no wake-up and no disk
at work. A write returns when its sector is in its place, and the wait for an idle disk never has to wait. -/
theorem calls_settle_disks {expecting : Bool} {c : Controller Data} {h : List (Event Tid Data)} (reached : Reaches expecting c h s)
    (expected : .stray ∉ h) :
    (s.lock = none ∨ (∃ t call data, s.pc t = .releasing call data) →
      s.completionWait = 0 ∧ s.controller.intrq = false ∧ ∀ d, s.controller.phase d = .idle ∧ s.controller.sectors d = stored c.sectors h d) ∧
    ∀ t call, s.pc t = .inCall call .waitUntilIdle ∨ s.pc t = .inCall call .waitUntilIdleAgain →
      ∀ e s', advance t s = some (.ok (e,s')) → e = .silent t := by
  have inv := Reaches.inv reached
  have undisturbed := reached.undisturbed expected
  have settled (rest : Calm s.controller ∧ s.wakes = 0) : s.completionWait = 0 ∧ s.controller.intrq = false ∧
      ∀ d, s.controller.phase d = .idle ∧ s.controller.sectors d = stored c.sectors h d := by
    refine ⟨(wakes_zero rest.2).1,(wakes_zero rest.2).2,fun d => ⟨rest.1 d,?_⟩⟩
    rw [← inv.view,view_settled (by rw [rest.1 d]; exact id)]
  refine ⟨?_,fun t call here e s' moves => ?_⟩
  · rintro (free | ⟨t,call,data,here⟩)
    · exact settled (undisturbed.free free)
    · have exact := undisturbed.exact t
      rw [here] at exact
      exact settled exact
  · have exact := undisturbed.exact t
    have turn : Turn _ t s e s' := inv.turn moves
    rcases here with here | here
    · rw [here] at exact
      cases turn with
      | polled _ busy => exact absurd exact.1 busy
      | busy there _ => cases here.symm.trans there
      | fetched there _ | put there _ => cases here.symm.trans there
      | released there => cases here.symm.trans there
      | _ => rfl
    · cases turn with
      | polled there _ | busy there _ => cases here.symm.trans there
      | fetched there _ | put there _ => cases here.symm.trans there
      | released there => cases here.symm.trans there
      | _ => rfl

end

def writeThrough : List (Request Bool Nat) :=
  [.call false (.write true 5 77),.advance false,.advance false,.advance false,.advance false,.advance false,.advance false,
   .work true,.call true (.read true 5),.advance false,.advance false,.work true,.interrupt,.advance false]

def afterWrite : List (Event Bool Nat) × State Bool Nat := arrive perform (fun _ _ _ => True) (start false blank) writeThrough

theorem afterWrite_path : Reaches false blank afterWrite.1 afterWrite.2 :=
  arrive_path (fun _ _ request _ _ ran _ => ⟨request,ran⟩) (by decide +kernel)

theorem calls_settle_disks_write : afterWrite.2.completionWait = 0 ∧ afterWrite.2.controller.intrq = false ∧
    ∀ d, afterWrite.2.controller.phase d = .idle ∧ afterWrite.2.controller.sectors d = stored blank.sectors afterWrite.1 d :=
  (calls_settle_disks afterWrite_path (by decide +kernel)).1 (.inr ⟨false,.write true 5 77,77,by decide +kernel⟩)

end OsProj.Ide
