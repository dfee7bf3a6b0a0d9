import OsProj.Channel
import OsProj.IdeController

/-! Sectors through the disk driver, whichever threads call it and whenever the disks and the interrupts
come. -/
namespace OsProj.Ide

open OsProj.Channel
open OsProj.History

/-! What holds between any two steps. -/

/-- A thread that waits for the interrupt of its command has it, or the controller will still send it. -/
def Woken {Tid Data : Type} (s : State Tid Data) : Prop :=
  0 < s.completionWait ∨ s.controller.intrq = true ∨ (∃ d lba, s.controller.phase d = .reading lba) ∨
    ∃ d lba data, s.controller.phase d = .writing lba data

def Pc.holds {Data : Type} : Pc Data → Bool
  | .idle | .inCall _ .acquire => false
  | _ => true

def Pc.Small {Data : Type} : Pc Data → Prop
  | .inCall call _ => call.secNo < 2 ^ 28
  | _ => True

/-- What the controller is at where a thread is in its call; `disks` is what the disks are to hold. -/
def Ready {Tid Data : Type} (failed : Prop) (disks : Bool → Nat → Data) (s : State Tid Data) : Pc Data → Prop
  | .idle | .inCall _ .acquire => True
  | .inCall _ .waitUntilIdle | .releasing (.write _ _ _) _ => Settling s.controller
  | .inCall _ .selectDevice | .inCall _ .waitUntilIdleAgain | .inCall _ .selectSector | .releasing (.read _ _) _ => Calm s.controller
  | .inCall call .issueCommand => Calm s.controller ∧ s.controller.selected = call.dev ∧ s.controller.lba = call.secNo
  | .inCall (.read dev secNo) .down =>
    At (Phase.Fetches failed secNo (disks dev secNo)) dev s.controller ∧
      s.expectingInterrupt = true ∧ Woken s
  | .inCall (.read dev secNo) .waitWhileBusy =>
    At (Phase.Fetches failed secNo (disks dev secNo)) dev s.controller
  | .inCall (.read dev secNo) .transfer => At (· = .offering (disks dev secNo)) dev s.controller
  | .inCall (.write dev secNo _) .waitWhileBusy =>
    At (Phase.Prepares failed secNo) dev s.controller ∧ s.expectingInterrupt = true
  | .inCall (.write dev secNo _) .transfer => At (· = .wanting secNo) dev s.controller ∧ s.expectingInterrupt = true
  | .inCall (.write dev secNo buffer) .down =>
    At (Phase.Puts secNo buffer) dev s.controller ∧ s.expectingInterrupt = true ∧ Woken s

structure Inv {Tid Data : Type} (failed : Prop) (disks : Bool → Nat → Data) (s : State Tid Data) : Prop where
  view : s.controller.view = disks
  owner : ∀ t, (s.pc t).holds = true ↔ s.lock = some t
  free : s.lock = none → Settling s.controller
  ready : ∀ t, Ready failed disks s (s.pc t)
  small : ∀ t, (s.pc t).Small

section
variable {Tid Data : Type} {failed failed' : Prop} {disks disks' : Bool → Nat → Data} {s s' : State Tid Data} {c : Controller Data}
  {k : Pc Data}

theorem ready_of_not_holds (waits : k.holds = false) : Ready failed disks s k := by
  cases k with
  | idle => trivial
  | inCall call place =>
    cases place with
    | acquire => trivial
    | _ => cases waits
  | releasing call data => cases waits

theorem Woken.work (woken : Woken s) (ran : work d s.controller = some c) : Woken (s.setController c) := by
  rcases work_cases ran with ⟨lba,phase,rfl⟩ | ⟨lba,phase,rfl⟩ | ⟨lba,data,phase,rfl⟩
  · exact .inr (.inl rfl)
  · rcases woken with up | pending | ⟨e,sector,reading⟩ | ⟨e,sector,data,writing⟩
    · exact .inl up
    · exact .inr (.inl pending)
    · have other : e ≠ d := by
        rintro rfl
        cases phase.symm.trans reading
      exact .inr (.inr (.inl ⟨e,sector,(Function.update_of_ne other ..).trans reading⟩))
    · have other : e ≠ d := by
        rintro rfl
        cases phase.symm.trans writing
      exact .inr (.inr (.inr ⟨e,sector,data,(Function.update_of_ne other ..).trans writing⟩))
  · exact .inr (.inl rfl)

theorem Ready.work (ready : Ready failed disks s k) (view : s.controller.view = disks) (ran : work d s.controller = some c) :
    Ready failed disks (s.setController c) k := by
  have fetching {dev : Bool} {secNo : Nat} (here : At (Phase.Fetches failed secNo (disks dev secNo)) dev s.controller) :
      At (Phase.Fetches failed secNo (disks dev secNo)) dev c := by
    refine here.work ran (fun lba reading => ?_) (fun _ => False.elim) fun _ _ => False.elim
    exact congrFun (congrFun view dev) lba |>.trans (congrArg (disks dev) reading)
  cases k with
  | idle => trivial
  | releasing call data =>
    cases call with
    | read dev secNo => exact absurd ran (by rw [Calm.work ready]; exact nofun)
    | write dev secNo buffer => exact Settling.work ready ran
  | inCall call place =>
    cases place with
    | acquire => trivial
    | waitUntilIdle => exact Settling.work ready ran
    | selectDevice | waitUntilIdleAgain | selectSector => exact absurd ran (by rw [Calm.work ready]; exact nofun)
    | issueCommand => exact absurd ran (by rw [Calm.work ready.1]; exact nofun)
    | down =>
      cases call with
      | read dev secNo => exact ⟨fetching ready.1,ready.2.1,ready.2.2.work ran⟩
      | write dev secNo buffer =>
        exact ⟨ready.1.work ran (fun _ => False.elim) (fun _ => False.elim) fun _ _ _ => trivial,ready.2.1,ready.2.2.work ran⟩
    | waitWhileBusy =>
      cases call with
      | read dev secNo => exact fetching ready
      | write dev secNo buffer =>
        exact ⟨ready.1.work ran (fun _ => False.elim) (fun _ => id) fun _ _ => False.elim,ready.2⟩
    | transfer =>
      cases call with
      | read dev secNo => exact At.work ready ran nofun nofun nofun
      | write dev secNo buffer => exact ⟨ready.1.work ran nofun nofun nofun,ready.2⟩

theorem At.same {P : Phase Data → Prop} {c c' : Controller Data} (here : At P dev c) (selected : c'.selected = c.selected)
    (phase : c'.phase = c.phase) : At P dev c' := by
  refine ⟨selected.trans here.selected,?_,?_⟩
  · rw [phase]
    exact here.other
  · rw [phase]
    exact here.here

theorem Settling.same {c c' : Controller Data} (settling : Settling c) (selected : c'.selected = c.selected)
    (phase : c'.phase = c.phase) : Settling c' := by
  obtain ⟨dev,here⟩ := settling
  exact ⟨dev,here.same selected phase⟩

theorem Ready.fail (ready : Ready failed disks s k) (ran : fail d s.controller = some c) (known : failed) :
    Ready failed disks (s.setController c) k := by
  have woken : Woken (s.setController c) := by
    obtain ⟨-,rfl⟩ := fail_cases ran
    exact .inr (.inl rfl)
  cases k with
  | idle => trivial
  | releasing call data =>
    cases call with
    | read dev secNo => exact absurd ran (by rw [Calm.fail ready]; exact nofun)
    | write dev secNo buffer => exact absurd ran (by rw [Settling.fail ready]; exact nofun)
  | inCall call place =>
    cases place with
    | acquire => trivial
    | waitUntilIdle => exact absurd ran (by rw [Settling.fail ready]; exact nofun)
    | selectDevice | waitUntilIdleAgain | selectSector => exact absurd ran (by rw [Calm.fail ready]; exact nofun)
    | issueCommand => exact absurd ran (by rw [Calm.fail ready.1]; exact nofun)
    | down =>
      cases call with
      | read dev secNo => exact ⟨ready.1.fail ran (fun _ _ => known) fun _ => False.elim,ready.2.1,woken⟩
      | write dev secNo buffer => exact ⟨ready.1.fail ran (fun _ => False.elim) fun _ => False.elim,ready.2.1,woken⟩
    | waitWhileBusy =>
      cases call with
      | read dev secNo => exact At.fail ready ran (fun _ _ => known) fun _ => False.elim
      | write dev secNo buffer => exact ⟨ready.1.fail ran (fun _ => False.elim) fun _ _ => known,ready.2⟩
    | transfer =>
      cases call with
      | read dev secNo => exact At.fail ready ran nofun nofun
      | write dev secNo buffer => exact ⟨ready.1.fail ran nofun nofun,ready.2⟩

/-- The handler counts an interrupt and takes it back. -/
theorem interruptHandler_expecting (expecting : s.expectingInterrupt = true) :
    interruptHandler s = { s.setController { s.controller with intrq := false } with completionWait := s.completionWait + 1 } := if_pos expecting

theorem interruptHandler_unexpected (unexpected : s.expectingInterrupt = false) : interruptHandler s = s :=
  if_neg (by rw [unexpected]; decide)

theorem Ready.interrupt (ready : Ready failed disks s k) : Ready failed disks (interruptHandler s) k := by
  cases expecting : s.expectingInterrupt with
  | false => rwa [interruptHandler_unexpected expecting]
  | true =>
    rw [interruptHandler_expecting expecting]
    have woken : Woken { s.setController { s.controller with intrq := false } with completionWait := s.completionWait + 1 } :=
      .inl s.completionWait.succ_pos
    cases k with
    | idle => trivial
    | releasing call data =>
      cases call with
      | read dev secNo => exact ready
      | write dev secNo buffer => exact Settling.same ready rfl rfl
    | inCall call place =>
      cases place with
      | acquire => trivial
      | waitUntilIdle => exact Settling.same ready rfl rfl
      | selectDevice | waitUntilIdleAgain | selectSector | issueCommand => exact ready
      | down =>
        cases call with
        | read dev secNo | write dev secNo buffer => exact ⟨ready.1.same rfl rfl,ready.2.1,woken⟩
      | waitWhileBusy =>
        cases call with
        | read dev secNo => exact At.same ready rfl rfl
        | write dev secNo buffer => exact ⟨ready.1.same rfl rfl,ready.2⟩
      | transfer =>
        cases call with
        | read dev secNo => exact At.same ready rfl rfl
        | write dev secNo buffer => exact ⟨ready.1.same rfl rfl,ready.2⟩

theorem Phase.Fetches.mono {p : Phase Data} (fetches : p.Fetches failed secNo data) (known : failed → failed') :
    p.Fetches failed' secNo data := by
  cases p with
  | idle => exact known fetches
  | reading lba | offering data => exact fetches
  | accepting lba | wanting lba | writing lba data => exact fetches.elim

theorem Phase.Prepares.mono {p : Phase Data} (prepares : p.Prepares failed secNo) (known : failed → failed') :
    p.Prepares failed' secNo := by
  cases p with
  | idle => exact known prepares
  | accepting lba | wanting lba => exact prepares
  | reading lba | offering data | writing lba data => exact prepares.elim

theorem Ready.mono (ready : Ready failed disks s k) (known : failed → failed') : Ready failed' disks s k := by
  cases k with
  | idle => trivial
  | releasing call data => cases call <;> exact ready
  | inCall call place =>
    cases place with
    | acquire => trivial
    | waitUntilIdle | selectDevice | waitUntilIdleAgain | selectSector | issueCommand => exact ready
    | down =>
      cases call with
      | read dev secNo => exact ⟨ready.1.mono fun _ fetches => fetches.mono known,ready.2⟩
      | write dev secNo buffer => exact ready
    | waitWhileBusy =>
      cases call with
      | read dev secNo => exact At.mono ready fun _ fetches => fetches.mono known
      | write dev secNo buffer => exact ⟨ready.1.mono fun _ prepares => prepares.mono known,ready.2⟩
    | transfer => cases call <;> exact ready

theorem Inv.mono (inv : Inv failed disks s) (known : failed → failed') : Inv failed' disks s :=
  ⟨inv.view,inv.owner,inv.free,fun t => (inv.ready t).mono known,inv.small⟩

theorem Inv.work (inv : Inv failed disks s) (ran : work d s.controller = some c) : Inv failed disks (s.setController c) :=
  ⟨(work_view ran).trans inv.view,inv.owner,fun free => (inv.free free).work ran,fun t => (inv.ready t).work inv.view ran,inv.small⟩

theorem Inv.fail (inv : Inv failed disks s) (ran : fail d s.controller = some c) (known : failed) : Inv failed disks (s.setController c) := by
  refine ⟨(fail_view ran).trans inv.view,inv.owner,fun free => ?_,fun t => (inv.ready t).fail ran known,inv.small⟩
  cases ran.symm.trans (inv.free free).fail

theorem interruptHandler_pc (s : State Tid Data) : (interruptHandler s).pc = s.pc := by
  unfold interruptHandler
  split <;> rfl

theorem interruptHandler_lock (s : State Tid Data) : (interruptHandler s).lock = s.lock := by
  unfold interruptHandler
  split <;> rfl

theorem interruptHandler_view (s : State Tid Data) : (interruptHandler s).controller.view = s.controller.view := by
  unfold interruptHandler
  split <;> rfl

theorem Inv.interrupt (inv : Inv failed disks s) : Inv failed disks (interruptHandler s) := by
  refine ⟨(interruptHandler_view s).trans inv.view,?_,fun free => ?_,fun t => ?_,?_⟩
  · rw [interruptHandler_pc,interruptHandler_lock]
    exact inv.owner
  · rw [interruptHandler_lock] at free
    unfold interruptHandler
    split
    · exact (inv.free free).same rfl rfl
    · exact inv.free free
  · rw [interruptHandler_pc]
    exact (inv.ready t).interrupt
  · rw [interruptHandler_pc]
    exact inv.small

/-- Where a thread has the lock or nobody does, no other thread has it. -/
theorem Inv.alone (inv : Inv failed disks s) (mine : s.lock = none ∨ s.lock = some t) (other : u ≠ t) : (s.pc u).holds = false := by
  refine Bool.eq_false_iff.mpr fun holds => ?_
  have theirs := (inv.owner u).mp holds
  rcases mine with free | mine
  · cases free.symm.trans theirs
  · exact other (Option.some.inj (theirs.symm.trans mine))

/-- Where a wait ends without a request for data, the disk gave the command up. -/
theorem Inv.waited (inv : Inv failed disks s) (here : s.pc t = .inCall call .waitWhileBusy)
    (idle : s.controller.phase s.controller.selected = .idle) : failed := by
  have ready := inv.ready t
  rw [here] at ready
  cases call with
  | read dev secNo =>
    have fetches := At.here ready
    rwa [← At.selected ready,idle] at fetches
  | write dev secNo buffer =>
    have prepares := ready.1.here
    rwa [← ready.1.selected,idle] at prepares

theorem Inv.waiting (inv : Inv failed disks s) (here : s.pc t = .inCall call .waitWhileBusy) :
    s.controller.selected = call.dev ∧ s.controller.phase (!call.dev) = .idle := by
  have ready := inv.ready t
  rw [here] at ready
  cases call with
  | read dev secNo => exact ⟨At.selected ready,At.other ready⟩
  | write dev secNo buffer => exact ⟨ready.1.selected,ready.1.other⟩

/-- The thread has the lock while it is at `k`. -/
theorem Inv.mine (inv : Inv failed disks s) (here : s.pc t = k) (holds : k.holds = true) : s.lock = some t :=
  (inv.owner t).mp (by rwa [here])

def Failed (h : List (Event Tid Data)) : Prop := ∃ d, .failed d ∈ h

theorem Failed.cons {h : List (Event Tid Data)} {e : Event Tid Data} (failed : Failed h) : Failed (e :: h) := by
  obtain ⟨d,mem⟩ := failed
  exact ⟨d,List.mem_cons_of_mem _ mem⟩

theorem inv_start (expecting : Bool) (c : Controller Data) : Inv False c.sectors (start expecting c : State Tid Data) where
  view := rfl
  owner _ := iff_of_false nofun nofun
  free _ := Calm.settling fun _ => rfl
  ready _ := trivial
  small _ := trivial

end

section
variable {Tid Data : Type} [DecidableEq Tid] {failed failed' : Prop} {disks disks' : Bool → Nat → Data} {s s' s₁ : State Tid Data}
  {c : Controller Data} {k : Pc Data}

@[simp] theorem goto_self (s : State Tid Data) (t : Tid) (k : Pc Data) : (s.goto t k).pc t = k := Function.update_self ..

@[simp] theorem goto_other (s : State Tid Data) (k : Pc Data) (other : u ≠ t) : (s.goto t k).pc u = s.pc u :=
  Function.update_of_ne other ..

/-- The thread that has the lock, or takes it, goes to `k`. -/
theorem Inv.go (inv : Inv failed disks s) (mine : s.lock = none ∨ s.lock = some t) (pc : s₁.pc = s.pc)
    (lock : s₁.lock = if k.holds then some t else none) (view : s₁.controller.view = disks') (small : k.Small)
    (free : k.holds = false → Settling s₁.controller) (ready : Ready failed disks' (s₁.goto t k) k) : Inv failed disks' (s₁.goto t k) := by
  have moved := goto_self s₁ t k
  have others {u : Tid} (other : u ≠ t) : (s₁.goto t k).pc u = s.pc u := by
    rw [← pc]
    exact goto_other s₁ k other
  refine ⟨view,fun u => ?_,fun unlocked => free ?_,fun u => ?_,fun u => ?_⟩
  · by_cases same : u = t
    · rw [same,moved,show (s₁.goto t k).lock = _ from lock]
      cases k.holds <;> simp
    · rw [others same,inv.alone mine same,show (s₁.goto t k).lock = _ from lock]
      cases k.holds <;> simp [Ne.symm same]
  · have unlocked : s₁.lock = none := unlocked
    rw [lock] at unlocked
    cases holds : k.holds with
    | false => rfl
    | true =>
      rw [holds] at unlocked
      cases unlocked
  · by_cases same : u = t
    · rwa [same,moved]
    · rw [others same]
      exact ready_of_not_holds (inv.alone mine same)
  · by_cases same : u = t
    · rwa [same,moved]
    · rw [others same]
      exact inv.small u

def Event.apply (disks : Bool → Nat → Data) : Event Tid Data → Bool → Nat → Data
  | .moved _ (.write dev secNo buffer) _ => Function.update disks dev (Function.update (disks dev) secNo buffer)
  | _ => disks

end

section
variable {Tid Data : Type} [DecidableEq Tid]

inductive Turn (disks : Bool → Nat → Data) (t : Tid) (s : State Tid Data) : Event Tid Data → State Tid Data → Prop where
  | acquired (here : s.pc t = .inCall call .acquire) (free : s.lock = none) :
      Turn disks t s (.silent t) ({ s with lock := some t }.goto t (.inCall call .waitUntilIdle))
  | polled (here : s.pc t = .inCall call .waitUntilIdle) (busy : ¬Calm s.controller) :
      Turn disks t s (.polled t) (s.setController { s.controller with intrq := false })
  | waited (here : s.pc t = .inCall call .waitUntilIdle) (calm : Calm s.controller) :
      Turn disks t s (.silent t) ((s.setController { s.controller with intrq := false }).goto t (.inCall call .selectDevice))
  | selected (here : s.pc t = .inCall call .selectDevice) (calm : Calm s.controller) (byte : UInt8) :
      Turn disks t s (.silent t) ((s.setController { s.controller with device := byte }).goto t (.inCall call .waitUntilIdleAgain))
  | waitedAgain (here : s.pc t = .inCall call .waitUntilIdleAgain) (calm : Calm s.controller) :
      Turn disks t s (.silent t) ((s.setController { s.controller with intrq := false }).goto t (.inCall call .selectSector))
  | sectorSelected (here : s.pc t = .inCall call .selectSector) {c : Controller Data} (before : Calm s.controller) (calm : Calm c) (selected : c.selected = call.dev)
      (lba : c.lba = call.secNo) (sectors : c.sectors = s.controller.sectors) (intrq : c.intrq = s.controller.intrq) :
      Turn disks t s (.silent t) ((s.setController c).goto t (.inCall call .issueCommand))
  | readIssued (here : s.pc t = .inCall (.read dev secNo) .issueCommand) (calm : Calm s.controller) (selected : s.controller.selected = dev) :
      Turn disks t s (.silent t) (({ s with expectingInterrupt := true }.setController
        { s.controller.setPhase dev (.reading secNo) with intrq := false }).goto t (.inCall (.read dev secNo) .down))
  | writeIssued (here : s.pc t = .inCall (.write dev secNo buffer) .issueCommand) (calm : Calm s.controller)
      (selected : s.controller.selected = dev) :
      Turn disks t s (.silent t) (({ s with expectingInterrupt := true }.setController
        { s.controller.setPhase dev (.accepting secNo) with intrq := false }).goto t (.inCall (.write dev secNo buffer) .waitWhileBusy))
  | woken (here : s.pc t = .inCall call .down) (up : 0 < s.completionWait) :
      Turn disks t s (.silent t) ({ s with completionWait := s.completionWait - 1 }.goto t (call.next .down))
  | busy (here : s.pc t = .inCall call .waitWhileBusy) (busy : (s.controller.phase s.controller.selected).status &&& staBsy ≠ 0) :
      Turn disks t s (.polled t) s
  | asked (here : s.pc t = .inCall call .waitWhileBusy)
      (asks : At (fun p => (∃ data, p = .offering data) ∨ ∃ lba, p = .wanting lba) call.dev s.controller) :
      Turn disks t s (.silent t) (s.goto t (.inCall call .transfer))
  | fetched (here : s.pc t = .inCall (.read dev secNo) .transfer) (offered : At (· = .offering (disks dev secNo)) dev s.controller) :
      Turn disks t s (.moved t (.read dev secNo) (disks dev secNo))
        ((s.setController (s.controller.setPhase dev .idle)).goto t (.releasing (.read dev secNo) (disks dev secNo)))
  | put (here : s.pc t = .inCall (.write dev secNo buffer) .transfer) (wanted : At (· = .wanting secNo) dev s.controller) :
      Turn disks t s (.moved t (.write dev secNo buffer) buffer)
        ((s.setController (s.controller.setPhase dev (.writing secNo buffer))).goto t (.inCall (.write dev secNo buffer) .down))
  | released (here : s.pc t = .releasing call data) :
      Turn disks t s (.returned t call data) ({ s with lock := none }.goto t .idle)

/-- A disk that failed is the only thing that goes wrong. -/
def Outcome (failed : Prop) (disks : Bool → Nat → Data) (t : Tid) (s : State Tid Data) : Except Panic (Event Tid Data × State Tid Data) → Prop
  | .ok (e,s') => Turn disks t s e s'
  | .error panic => panic = .diskFailed ∧ failed

end

section
variable {Tid Data : Type} [DecidableEq Tid] {failed : Prop} {disks : Bool → Nat → Data} {s s' : State Tid Data}
  {k : Pc Data}

theorem pollIdle_calm (calm : Calm s.controller) (t : Tid) (k : Pc Data) :
    pollIdle t k s = (.silent t,(s.setController { s.controller with intrq := false }).goto t k) := by
  have free : (s.controller.phase s.controller.selected).status &&& (staBsy ||| staDrq) = 0 := by
    rw [calm]
    exact (by decide : staDrdy &&& (staBsy ||| staDrq) = 0)
  exact if_pos free

theorem pollIdle_busy (settling : Settling s.controller) (busy : ¬Calm s.controller) (t : Tid) (k : Pc Data) :
    pollIdle t k s = (.polled t,s.setController { s.controller with intrq := false }) := by
  refine if_neg fun free => busy ?_
  obtain ⟨dev,here⟩ := settling
  exact At.calm ⟨rfl,here.selected ▸ here.other,idle_of_status free⟩

theorem command_read (c : Controller Data) :
    command cmdReadSectorRetry c = some { c.setPhase c.selected (.reading c.lba) with intrq := false } := if_pos rfl

theorem command_write (c : Controller Data) :
    command cmdWriteSectorRetry c = some { c.setPhase c.selected (.accepting c.lba) with intrq := false } :=
  (if_neg (by decide)).trans (if_pos rfl)

theorem Inv.turn (inv : Inv failed disks s) (moves : advance t s = some outcome) : Outcome failed disks t s outcome := by
  have ready := inv.ready t
  have small := inv.small t
  unfold advance at moves
  cases here : s.pc t with
  | idle =>
    rw [here] at moves
    cases moves
  | releasing call data =>
    rw [here] at moves
    obtain rfl := Option.some.inj moves
    exact Turn.released here
  | inCall call place =>
    rw [here] at moves ready small
    cases place with
    | acquire =>
      obtain ⟨free,moves⟩ := Option.ite_none_right_eq_some.mp moves
      obtain rfl := Option.some.inj moves
      exact Turn.acquired here free
    | waitUntilIdle =>
      obtain rfl := Option.some.inj moves
      by_cases calm : Calm s.controller
      · rw [pollIdle_calm calm]
        exact Turn.waited here calm
      · rw [pollIdle_busy ready calm]
        exact Turn.polled here calm
    | selectDevice =>
      obtain rfl := Option.some.inj moves
      rw [selectDevice,(Calm.outb ready _).2.2.2.2.1]
      exact Turn.selected here ready _
    | waitUntilIdleAgain =>
      obtain rfl := Option.some.inj moves
      rw [pollIdle_calm ready]
      exact Turn.waitedAgain here ready
    | selectSector =>
      have small : call.secNo < 2 ^ 28 := small
      dsimp only at moves
      rw [if_pos small] at moves
      obtain rfl := Option.some.inj moves
      obtain ⟨c,wrote,calm,selected,lba,sectors,intrq⟩ := Calm.selectSector ready call.dev small
      rw [wrote]
      exact Turn.sectorSelected here ready calm selected lba sectors intrq
    | issueCommand =>
      obtain rfl := Option.some.inj moves
      obtain ⟨calm,selected,lba⟩ := ready
      rw [(calm.outb _).2.2.2.2.2]
      cases call with
      | read dev secNo =>
        rw [show Call.command (.read dev secNo : Call Data) = cmdReadSectorRetry from rfl,command_read,selected,lba]
        exact Turn.readIssued here calm selected
      | write dev secNo buffer =>
        rw [show Call.command (.write dev secNo buffer) = cmdWriteSectorRetry from rfl,command_write,selected,lba]
        exact Turn.writeIssued here calm selected
    | down =>
      obtain ⟨up,moves⟩ := Option.ite_none_right_eq_some.mp moves
      obtain rfl := Option.some.inj moves
      exact Turn.woken here up
    | waitWhileBusy =>
      by_cases waited : inbAltStatus s.controller &&& staBsy = 0
      · have asks := asks_of_waited waited
        dsimp only at moves
        rw [if_pos waited] at moves
        split at moves
        · rename_i drq
          obtain rfl := Option.some.inj moves
          refine ⟨rfl,inv.waited here ?_⟩
          exact asks.resolve_right fun asks => asks.1 drq
        · rename_i drq
          obtain rfl := Option.some.inj moves
          obtain ⟨selected,other⟩ := inv.waiting here
          refine Turn.asked here ⟨selected,other,?_⟩
          rcases asks with idle | ⟨-,asks⟩
          · rw [inbAltStatus,idle] at drq
            exact absurd (by decide : staDrdy &&& staDrq = 0) drq
          · rwa [← selected]
      · dsimp only at moves
        rw [if_neg waited] at moves
        obtain rfl := Option.some.inj moves
        exact Turn.busy here waited
    | transfer =>
      cases call with
      | read dev secNo =>
        have offered : At (· = .offering (disks dev secNo)) dev s.controller := ready
        have taken : insw s.controller = some (disks dev secNo,s.controller.setPhase dev .idle) := by
          rw [insw,offered.selected,offered.here]
        dsimp only at moves
        rw [taken] at moves
        obtain rfl := Option.some.inj moves
        exact Turn.fetched here offered
      | write dev secNo buffer =>
        have wanted : At (· = .wanting secNo) dev s.controller := ready.1
        have given : outsw buffer s.controller = some (s.controller.setPhase dev (.writing secNo buffer)) := by
          rw [outsw,wanted.selected,wanted.here]
        dsimp only at moves
        rw [given] at moves
        obtain rfl := Option.some.inj moves
        exact Turn.put here wanted

theorem goto_stays (here : s.pc t = k) : s.goto t k = s := by
  rw [← here]
  unfold State.goto
  rw [Function.update_eq_self]

theorem Turn.keeps (turn : Turn disks t s e s') (inv : Inv failed disks s) : Inv failed (e.apply disks) s' := by
  have ready := inv.ready t
  have small := inv.small t
  cases turn with
  | acquired here free =>
    rw [here] at small
    exact inv.go (.inl free) rfl rfl inv.view small nofun (inv.free free)
  | polled here busy =>
    have mine := inv.mine here rfl
    rw [here] at ready small
    have stays := goto_stays (s := s.setController { s.controller with intrq := false }) here
    rw [← stays]
    exact inv.go (.inr mine) rfl mine inv.view small nofun (Settling.same ready rfl rfl)
  | waited here calm =>
    rw [here] at small
    exact inv.go (.inr (inv.mine here rfl)) rfl (inv.mine here rfl) inv.view small nofun calm
  | selected here calm byte =>
    rw [here] at small
    exact inv.go (.inr (inv.mine here rfl)) rfl (inv.mine here rfl) inv.view small nofun calm
  | waitedAgain here calm =>
    rw [here] at small
    exact inv.go (.inr (inv.mine here rfl)) rfl (inv.mine here rfl) inv.view small nofun calm
  | sectorSelected here before calm selected lba sectors intrq =>
    rw [here] at small
    have phase := funext fun d => (calm d).trans (before d).symm
    exact inv.go (.inr (inv.mine here rfl)) rfl (inv.mine here rfl) ((view_congr phase sectors).trans inv.view) small nofun
      ⟨calm,selected,lba⟩
  | readIssued here calm selected =>
    rw [here] at small
    refine inv.go (.inr (inv.mine here rfl)) rfl (inv.mine here rfl) ?_ small nofun ⟨⟨selected,?_,?_⟩,rfl,?_⟩
    · exact ((view_congr rfl rfl).trans (view_setPhase (by rw [calm]; exact id) id)).trans inv.view
    · exact (setPhase_other ..).trans (calm _)
    · exact (setPhase_same ..).symm ▸ rfl
    · exact .inr (.inr (.inl ⟨_,_,setPhase_same ..⟩))
  | writeIssued here calm selected =>
    rw [here] at small
    refine inv.go (.inr (inv.mine here rfl)) rfl (inv.mine here rfl) ?_ small nofun ⟨⟨selected,?_,?_⟩,rfl⟩
    · exact ((view_congr rfl rfl).trans (view_setPhase (by rw [calm]; exact id) id)).trans inv.view
    · exact (setPhase_other ..).trans (calm _)
    · exact (setPhase_same ..).symm ▸ rfl
  | @woken call here up =>
    have mine := inv.mine here rfl
    rw [here] at ready small
    cases call with
    | read dev secNo => exact inv.go (.inr mine) rfl mine inv.view small nofun ready.1
    | write dev secNo buffer =>
      refine inv.go (.inr mine) rfl mine inv.view trivial nofun ⟨dev,ready.1.mono fun _ => Phase.Puts.settles⟩
  | busy here busy => exact inv
  | @asked call here asks =>
    have mine := inv.mine here rfl
    rw [here] at ready small
    cases call with
    | read dev secNo =>
      have asks : At (fun p => (∃ data, p = .offering data) ∨ ∃ lba, p = .wanting lba) dev s.controller := asks
      refine inv.go (.inr mine) rfl mine inv.view small nofun ⟨asks.selected,asks.other,?_⟩
      have fetches := At.here ready
      rcases asks.here with ⟨data,offering⟩ | ⟨lba,wanting⟩
      · rw [offering] at fetches
        exact offering.trans (congrArg _ fetches)
      · rw [wanting] at fetches
        exact fetches.elim
    | write dev secNo buffer =>
      have asks : At (fun p => (∃ data, p = .offering data) ∨ ∃ lba, p = .wanting lba) dev s.controller := asks
      refine inv.go (.inr mine) rfl mine inv.view small nofun ⟨⟨asks.selected,asks.other,?_⟩,ready.2⟩
      have prepares := ready.1.here
      rcases asks.here with ⟨data,offering⟩ | ⟨lba,wanting⟩
      · rw [offering] at prepares
        exact prepares.elim
      · rw [wanting] at prepares
        exact wanting.trans (congrArg _ prepares)
  | @fetched dev secNo here offered =>
    have mine := inv.mine here rfl
    refine inv.go (.inr mine) rfl mine ?_ trivial nofun ?_
    · exact (view_setPhase (by rw [offered.here]; exact id) id).trans inv.view
    · exact At.calm (c := s.controller.setPhase dev .idle) ⟨offered.selected,(setPhase_other ..).trans offered.other,setPhase_same ..⟩
  | @put dev secNo buffer here wanted =>
    have mine := inv.mine here rfl
    rw [here] at ready small
    refine inv.go (.inr mine) rfl mine ?_ small nofun ⟨⟨wanted.selected,(setPhase_other ..).trans wanted.other,?_⟩,ready.2,?_⟩
    · rw [← inv.view]
      exact view_put (by rw [wanted.here]; exact id)
    · exact (setPhase_same ..).symm ▸ ⟨rfl,rfl⟩
    · exact .inr (.inr (.inr ⟨_,_,_,setPhase_same ..⟩))
  | @released call data here =>
    have mine := inv.mine here rfl
    rw [here] at ready
    refine inv.go (.inr mine) rfl rfl inv.view trivial (fun _ => ?_) trivial
    cases call with
    | read dev secNo => exact Calm.settling ready
    | write dev secNo buffer => exact ready

theorem Inv.called (inv : Inv failed disks s) (here : s.pc t = .idle) (small : call.secNo < 2 ^ 28) :
    Inv failed disks (s.goto t (.inCall call .acquire)) := by
  have moved := goto_self s t (.inCall call .acquire)
  have others {u : Tid} (other : u ≠ t) := goto_other s (.inCall call .acquire) other
  refine ⟨inv.view,fun u => ?_,inv.free,fun u => ?_,fun u => ?_⟩
  · by_cases same : u = t
    · rw [same,moved,show (s.goto t (.inCall call .acquire)).lock = s.lock from rfl,← inv.owner t,here]
      rfl
    · rw [others same]
      exact inv.owner u
  · by_cases same : u = t
    · rw [same,moved]
      trivial
    · rw [others same]
      exact inv.ready u
  · by_cases same : u = t
    · rw [same,moved]
      exact small
    · rw [others same]
      exact inv.small u

end

section
variable {Tid Data : Type} [DecidableEq Tid] {s s' : State Tid Data} {e : Event Tid Data}

theorem step_cases (step : Step s e s') :
    (∃ t call, e = .called t call ∧ s.pc t = .idle ∧ call.secNo < 2 ^ 28 ∧ s' = s.goto t (.inCall call .acquire)) ∨
    (∃ t, advance t s = some (.ok (e,s'))) ∨ (∃ d c, e = .worked d ∧ work d s.controller = some c ∧ s' = s.setController c) ∨
    (∃ d c, e = .failed d ∧ fail d s.controller = some c ∧ s' = s.setController c) ∨
    (e = .interrupted ∧ s.controller.intrq = true ∨ e = .stray) ∧ s' = interruptHandler s := by
  obtain ⟨request,ran⟩ := step
  cases request with
  | call t call =>
    cases here : s.pc t with
    | idle =>
      simp only [perform,here,Option.ite_none_right_eq_some,Option.some.injEq,Prod.mk.injEq] at ran
      exact .inl ⟨t,call,ran.2.1.symm,here,ran.1,ran.2.2.symm⟩
    | inCall call place => simp [perform,here] at ran
    | releasing call data => simp [perform,here] at ran
  | advance t =>
    simp only [perform] at ran
    split at ran
    · rename_i out moves
      obtain rfl := Option.some.inj ran
      exact .inr (.inl ⟨t,moves⟩)
    · cases ran
  | work d =>
    obtain ⟨c,worked,same⟩ := Option.map_eq_some_iff.mp ran
    obtain ⟨rfl,rfl⟩ := Prod.mk.inj same
    exact .inr (.inr (.inl ⟨d,c,rfl,worked,rfl⟩))
  | fail d =>
    obtain ⟨c,failed,same⟩ := Option.map_eq_some_iff.mp ran
    obtain ⟨rfl,rfl⟩ := Prod.mk.inj same
    exact .inr (.inr (.inr (.inl ⟨d,c,rfl,failed,rfl⟩)))
  | interrupt =>
    obtain ⟨pending,same⟩ := Option.ite_none_right_eq_some.mp ran
    obtain ⟨rfl,rfl⟩ := Prod.mk.inj (Option.some.inj same)
    exact .inr (.inr (.inr (.inr ⟨.inl ⟨rfl,pending⟩,rfl⟩)))
  | stray =>
    obtain ⟨rfl,rfl⟩ := Prod.mk.inj (Option.some.inj ran)
    exact .inr (.inr (.inr (.inr ⟨.inr rfl,rfl⟩)))

/-! Whole runs. -/

def stored (disks : Bool → Nat → Data) : List (Event Tid Data) → Bool → Nat → Data
  | [] => disks
  | e :: h => e.apply (stored disks h)

theorem Inv.step {h : List (Event Tid Data)} {disks : Bool → Nat → Data} (inv : Inv (Failed h) (stored disks h) s) (step : Step s e s') :
    Inv (Failed (e :: h)) (stored disks (e :: h)) s' := by
  rcases step_cases step with ⟨t,call,rfl,here,small,rfl⟩ | ⟨t,moves⟩ | ⟨d,c,rfl,ran,rfl⟩ | ⟨d,c,rfl,ran,rfl⟩ | ⟨event,rfl⟩
  · exact (inv.called here small).mono Failed.cons
  · exact (Turn.keeps (inv.turn moves) inv).mono Failed.cons
  · exact (inv.work ran).mono Failed.cons
  · exact (inv.mono Failed.cons).fail ran ⟨d,List.mem_cons_self ..⟩
  · rcases event with ⟨rfl,-⟩ | rfl
    · exact inv.interrupt.mono Failed.cons
    · exact inv.interrupt.mono Failed.cons

abbrev Reaches (expecting : Bool) (c : Controller Data) (h : List (Event Tid Data)) (s : State Tid Data) : Prop :=
  Path (fun _ s e s' => Step s e s') [] (start expecting c) h s

theorem Reaches.inv {expecting : Bool} {c : Controller Data} {h : List (Event Tid Data)} (reached : Reaches expecting c h s) :
    Inv (Failed h) (stored c.sectors h) s :=
  reached.invariant (fun h s => Inv (Failed h) (stored c.sectors h) s) (fun _ _ _ _ inv step => inv.step step)
    ((inv_start expecting c).mono False.elim)

/-! What the calls of a thread have done. -/

/-- What a call moves is what the disk holds there, or is to hold. -/
def Event.Sees (disks : Bool → Nat → Data) : Event Tid Data → Prop
  | .moved _ (.read dev secNo) data => data = disks dev secNo
  | .moved _ (.write _ _ buffer) data => data = buffer
  | _ => True

def Event.calls (t : Tid) : Event Tid Data → List (Call Data)
  | .called u call => if u = t then [call] else []
  | _ => []

def Event.moves (t : Tid) : Event Tid Data → List (Call Data × Data)
  | .moved u call data => if u = t then [(call,data)] else []
  | _ => []

def Event.returns (t : Tid) : Event Tid Data → List (Call Data × Data)
  | .returned u call data => if u = t then [(call,data)] else []
  | _ => []

def Pc.pending : Pc Data → List (Call Data)
  | .inCall (.write _ _ _) .down => []
  | .inCall call _ => [call]
  | _ => []

def Pc.held : Pc Data → List (Call Data × Data)
  | .inCall (.write dev secNo buffer) .down => [(.write dev secNo buffer,buffer)]
  | .releasing call data => [(call,data)]
  | _ => []

theorem Turn.sees {disks : Bool → Nat → Data} (turn : Turn disks t s e s') : e.Sees disks := by
  cases turn with
  | fetched _ _ => rfl
  | put _ _ => rfl
  | _ => trivial

/-- The balance of one thread. -/
structure Event.Kept (t : Tid) (before : Pc Data) (e : Event Tid Data) (after : Pc Data) : Prop where
  pending : Conserved before.pending (e.calls t) ((e.moves t).map Prod.fst) after.pending
  held : Conserved before.held (e.moves t) (e.returns t) after.held

theorem Turn.kept_other {disks : Bool → Nat → Data} (turn : Turn disks t s e s') (other : u ≠ t) : e.Kept u (s.pc u) (s'.pc u) := by
  have same : s'.pc u = s.pc u := by
    cases turn with
    | polled _ _ | busy _ _ => rfl
    | _ => exact goto_other _ _ other
  have calls : e.calls u = [] := by cases turn <;> rfl
  have moves : e.moves u = [] := by
    cases turn with
    | fetched _ _ | put _ _ => exact if_neg (Ne.symm other)
    | _ => rfl
  have returns : e.returns u = [] := by
    cases turn with
    | released _ => exact if_neg (Ne.symm other)
    | _ => rfl
  rw [same]
  constructor
  · rw [calls,moves]
    exact conserved_idle _
  · rw [moves,returns]
    exact conserved_idle _

theorem calls_self (t : Tid) (call : Call Data) : Event.calls t (.called t call) = [call] := if_pos rfl

theorem moves_self (t : Tid) (call : Call Data) (data : Data) : Event.moves t (.moved t call data) = [(call,data)] := if_pos rfl

theorem returns_self (t : Tid) (call : Call Data) (data : Data) : Event.returns t (.returned t call data) = [(call,data)] := if_pos rfl

theorem Turn.kept_self {disks : Bool → Nat → Data} (turn : Turn disks t s e s') : e.Kept t (s.pc t) (s'.pc t) := by
  cases turn with
  | polled here _ | busy here _ => exact ⟨conserved_idle _,conserved_idle _⟩
  | @acquired call here _ | @waited call here _ | @selected call here _ _ | @waitedAgain call here _
  | @sectorSelected call here _ _ _ _ _ _ _ =>
    rw [here,goto_self]
    cases call <;> exact ⟨conserved_idle _,conserved_idle _⟩
  | readIssued here _ _ | writeIssued here _ _ =>
    rw [here,goto_self]
    exact ⟨conserved_idle _,conserved_idle _⟩
  | @woken call here _ | @asked call here _ =>
    rw [here,goto_self]
    cases call <;> exact ⟨conserved_idle _,conserved_idle _⟩
  | fetched here _ | put here _ =>
    rw [here,goto_self]
    constructor
    · rw [moves_self]
      exact conserved_leave [_] []
    · rw [moves_self]
      exact conserved_enter [] [_]
  | released here =>
    rw [here,goto_self]
    refine ⟨conserved_idle _,?_⟩
    rw [returns_self]
    exact conserved_leave [_] []

theorem kept_step {h : List (Event Tid Data)} {disks : Bool → Nat → Data} (inv : Inv (Failed h) (stored disks h) s) (step : Step s e s')
    (t : Tid) : e.Kept t (s.pc t) (s'.pc t) := by
  rcases step_cases step with ⟨u,call,rfl,here,small,rfl⟩ | ⟨u,moves⟩ | ⟨d,c,rfl,ran,rfl⟩ | ⟨d,c,rfl,ran,rfl⟩ | ⟨event,rfl⟩
  · by_cases same : t = u
    · subst same
      rw [here,goto_self]
      refine ⟨?_,?_⟩
      · rw [calls_self]
        cases call <;> exact conserved_enter [] [_]
      · cases call <;> exact conserved_idle _
    · rw [goto_other s _ same]
      refine ⟨?_,conserved_idle _⟩
      rw [show Event.calls t (.called u call) = [] from if_neg (Ne.symm same)]
      exact conserved_idle _
  · have turn := inv.turn moves
    by_cases same : t = u
    · subst same
      exact Turn.kept_self turn
    · exact Turn.kept_other turn same
  · exact ⟨conserved_idle _,conserved_idle _⟩
  · exact ⟨conserved_idle _,conserved_idle _⟩
  · rw [interruptHandler_pc]
    rcases event with ⟨rfl,-⟩ | rfl
    · exact ⟨conserved_idle _,conserved_idle _⟩
    · exact ⟨conserved_idle _,conserved_idle _⟩

theorem sees_step {h : List (Event Tid Data)} {disks : Bool → Nat → Data} (inv : Inv (Failed h) (stored disks h) s) (step : Step s e s') :
    e.Sees (stored disks h) := by
  rcases step_cases step with ⟨t,call,rfl,_⟩ | ⟨t,moves⟩ | ⟨d,c,rfl,_⟩ | ⟨d,c,rfl,_⟩ | ⟨⟨rfl,-⟩ | rfl,_⟩
  · trivial
  · exact Turn.sees (inv.turn moves)
  · trivial
  · trivial
  · trivial
  · trivial

/-- The calls of all threads read and write the two disks one after the other. A call moves its sector once,
between its start and its return; a read returns what was last written there. The driver never touches
a controller that is at work, and panics only when a disk has given up. -/
theorem reads_see_writes {expecting : Bool} {c : Controller Data} {h : List (Event Tid Data)} (reached : Reaches expecting c h s) :
    Always (fun h e => e.Sees (stored c.sectors h)) h ∧
    (∀ t, values (Event.calls t) h = values (fun e => (e.moves t).map Prod.fst) h ++ (s.pc t).pending ∧
      values (Event.moves t) h = values (Event.returns t) h ++ (s.pc t).held) ∧
    (∀ t panic, advance t s = some (.error panic) → panic = .diskFailed ∧ Failed h) ∧
    ∀ d, s.controller.phase d = .idle → s.controller.sectors d = stored c.sectors h d := by
  have inv := Reaches.inv reached
  refine ⟨reached.always fun h s e s' front last => ?_,fun t => ⟨?_,?_⟩,fun t panic moves => inv.turn moves,fun d idle => ?_⟩
  · exact sees_step (Reaches.inv front) last
  · exact conserved (Event.calls t) (fun e => (e.moves t).map Prod.fst) (fun s => (s.pc t).pending)
      (fun h s e s' front last => (kept_step (Reaches.inv front) last t).pending) reached
  · exact conserved (Event.moves t) (Event.returns t) (fun s => (s.pc t).held)
      (fun h s e s' front last => (kept_step (Reaches.inv front) last t).held) reached
  · rw [← inv.view,view_settled (by rw [idle]; exact id)]

end

def blank : Controller Nat := ⟨0,0,0,0,0,fun _ => .idle,fun _ _ => 0,false⟩

/-- A stray interrupt lets a write return early. The read behind it waits for the sector to be in its place. -/
def readBack : List (Request Bool Nat) :=
  [.call false (.write true 5 77),.advance false,.advance false,.advance false,.advance false,.advance false,.advance false,
   .work true,.call true (.read true 5),.advance false,.advance false,.stray,.advance false,.advance false,
   .advance true,.advance true,.work true,.advance true,.advance true,.advance true,.advance true,.advance true,
   .work true,.interrupt,.advance true,.advance true,.advance true,.advance true]

def afterReadBack : List (Event Bool Nat) × State Bool Nat := arrive perform (fun _ _ _ => True) (start false blank) readBack

theorem afterReadBack_path : Reaches false blank afterReadBack.1 afterReadBack.2 :=
  arrive_path (fun _ _ request _ _ ran _ => ⟨request,ran⟩) (by decide +kernel)

theorem reads_see_writes_readBack : Always (fun h e => e.Sees (stored blank.sectors h)) afterReadBack.1 ∧
    values (Event.returns true) afterReadBack.1 = [(.read true 5,77)] :=
  ⟨(reads_see_writes afterReadBack_path).1,by decide +kernel⟩

end OsProj.Ide
