import OsProj.Ide

/-! What the controller of the disks does, and what the driver finds in its registers. -/
namespace OsProj.Ide

section
variable {Data : Type} {c c' : Controller Data} {d dev : Bool} {p : Phase Data}

@[simp] theorem setPhase_same (c : Controller Data) (d : Bool) (p : Phase Data) : (c.setPhase d p).phase d = p := Function.update_self ..

@[simp] theorem setPhase_other (c : Controller Data) (d : Bool) (p : Phase Data) : (c.setPhase d p).phase (!d) = c.phase (!d) :=
  Function.update_of_ne (by cases d <;> decide) ..

@[simp] theorem setPhase_sectors (c : Controller Data) (d : Bool) (p : Phase Data) : (c.setPhase d p).sectors = c.sectors := rfl

structure At (P : Phase Data → Prop) (dev : Bool) (c : Controller Data) : Prop where
  selected : c.selected = dev
  other : c.phase (!dev) = .idle
  here : P (c.phase dev)

def Calm (c : Controller Data) : Prop := ∀ d, c.phase d = .idle

def Phase.Settles : Phase Data → Prop
  | .idle | .writing _ _ => True
  | _ => False

def Phase.Fetches (failed : Prop) (secNo : Nat) (data : Data) : Phase Data → Prop
  | .reading lba => lba = secNo
  | .offering data' => data' = data
  | .idle => failed
  | _ => False

def Phase.Prepares (failed : Prop) (secNo : Nat) : Phase Data → Prop
  | .accepting lba | .wanting lba => lba = secNo
  | .idle => failed
  | _ => False

def Phase.Puts (secNo : Nat) (buffer : Data) : Phase Data → Prop
  | .writing lba data => lba = secNo ∧ data = buffer
  | .idle => True
  | _ => False

theorem Phase.Puts.settles {secNo : Nat} {buffer : Data} {p : Phase Data} (puts : p.Puts secNo buffer) : p.Settles := by
  cases p with
  | idle | writing lba data => trivial
  | reading lba | accepting lba | wanting lba => exact puts.elim
  | offering data => exact puts.elim

/-- Nothing goes on but that a sector may still be on its way to its place. -/
def Settling (c : Controller Data) : Prop := ∃ dev, At Phase.Settles dev c

/-- What the disks are to hold when they are done. -/
def Controller.view (c : Controller Data) (d : Bool) : Nat → Data :=
  match c.phase d with
  | .writing lba data => Function.update (c.sectors d) lba data
  | _ => c.sectors d

theorem Calm.settling (calm : Calm c) : Settling c := ⟨c.selected,rfl,calm _,by rw [calm]; trivial⟩

theorem At.calm (here : At (· = .idle) dev c) : Calm c := by
  intro d
  by_cases same : d = dev
  · rw [same]
    exact here.here
  · rw [Bool.eq_not_of_ne same]
    exact here.other

theorem At.mono {P Q : Phase Data → Prop} (here : At P dev c) (weaken : ∀ p, P p → Q p) : At Q dev c :=
  ⟨here.selected,here.other,weaken _ here.here⟩

/-! What the controller does. -/

theorem work_cases (ran : work d c = some c') :
    (∃ lba, c.phase d = .reading lba ∧ c' = { c.setPhase d (.offering (c.sectors d lba)) with intrq := true }) ∨
    (∃ lba, c.phase d = .accepting lba ∧ c' = c.setPhase d (.wanting lba)) ∨
    ∃ lba data, c.phase d = .writing lba data ∧ c' = { c.setPhase d .idle with
      sectors := Function.update c.sectors d (Function.update (c.sectors d) lba data), intrq := true } := by
  unfold work at ran
  cases here : c.phase d with
  | reading lba => rw [here] at ran; exact .inl ⟨lba,rfl,(Option.some.inj ran).symm⟩
  | accepting lba => rw [here] at ran; exact .inr (.inl ⟨lba,rfl,(Option.some.inj ran).symm⟩)
  | writing lba data => rw [here] at ran; exact .inr (.inr ⟨lba,data,rfl,(Option.some.inj ran).symm⟩)
  | idle => rw [here] at ran; cases ran
  | offering data => rw [here] at ran; cases ran
  | wanting lba => rw [here] at ran; cases ran

theorem fail_cases (ran : fail d c = some c') :
    ((∃ lba, c.phase d = .reading lba) ∨ ∃ lba, c.phase d = .accepting lba) ∧ c' = { c.setPhase d .idle with intrq := true } := by
  unfold fail at ran
  cases here : c.phase d with
  | reading lba => rw [here] at ran; exact ⟨.inl ⟨lba,rfl⟩,(Option.some.inj ran).symm⟩
  | accepting lba => rw [here] at ran; exact ⟨.inr ⟨lba,rfl⟩,(Option.some.inj ran).symm⟩
  | idle => rw [here] at ran; cases ran
  | offering data => rw [here] at ran; cases ran
  | wanting lba => rw [here] at ran; cases ran
  | writing lba data => rw [here] at ran; cases ran

/-- Only the selected disk is at something. -/
theorem At.only {P : Phase Data → Prop} (here : At P dev c) (busy : c.phase d ≠ .idle) : d = dev := by
  by_contra other
  rw [Bool.eq_not_of_ne other] at busy
  exact busy here.other

/-! What the disks are to hold. -/

theorem view_at (phase : c'.phase e = c.phase e) (sectors : c'.sectors e = c.sectors e) : c'.view e = c.view e := by
  unfold Controller.view
  rw [phase,sectors]

theorem view_congr (phase : c'.phase = c.phase) (sectors : c'.sectors = c.sectors) : c'.view = c.view :=
  funext fun _ => view_at (congrFun phase _) (congrFun sectors _)

theorem view_other (c : Controller Data) (p : Phase Data) (other : e ≠ d) : (c.setPhase d p).view e = c.view e :=
  view_at (Function.update_of_ne other ..) rfl

theorem view_writing (here : c.phase d = .writing lba data) : c.view d = Function.update (c.sectors d) lba data := by
  unfold Controller.view
  rw [here]

def Phase.Writes : Phase Data → Prop
  | .writing _ _ => True
  | _ => False

theorem view_settled (still : ¬(c.phase d).Writes) : c.view d = c.sectors d := by
  unfold Controller.view
  cases here : c.phase d with
  | writing lba data =>
    rw [here] at still
    exact absurd trivial still
  | idle => rfl
  | reading lba => rfl
  | offering data => rfl
  | accepting lba => rfl
  | wanting lba => rfl

theorem view_setPhase (still : ¬(c.phase d).Writes) (still' : ¬p.Writes) : (c.setPhase d p).view = c.view := by
  funext e
  by_cases same : e = d
  · rw [same,view_settled still,view_settled (by rwa [setPhase_same]),setPhase_sectors]
  · exact view_other c p same

/-- A sector that the disk has got is what it is to hold. -/
theorem view_put (still : ¬(c.phase d).Writes) :
    (c.setPhase d (.writing lba data)).view = Function.update c.view d (Function.update (c.view d) lba data) := by
  funext e
  by_cases same : e = d
  · rw [same,view_writing (setPhase_same ..),Function.update_self,view_settled still,setPhase_sectors]
  · rw [view_other c _ same,Function.update_of_ne same]

theorem work_view (ran : work d c = some c') : c'.view = c.view := by
  rcases work_cases ran with ⟨lba,phase,rfl⟩ | ⟨lba,phase,rfl⟩ | ⟨lba,data,phase,rfl⟩
  · exact (view_congr rfl rfl).trans (view_setPhase (by rw [phase]; exact id) id)
  · exact view_setPhase (by rw [phase]; exact id) id
  · funext e
    by_cases same : e = d
    · rw [same,view_writing phase,view_settled (by rw [show Controller.phase _ d = _ from setPhase_same c d .idle]; exact id)]
      exact Function.update_self ..
    · exact view_at (Function.update_of_ne same ..) (Function.update_of_ne same ..)

theorem fail_view (ran : fail d c = some c') : c'.view = c.view := by
  obtain ⟨busy,rfl⟩ := fail_cases ran
  refine (view_congr rfl rfl).trans (view_setPhase ?_ id)
  rcases busy with ⟨lba,phase⟩ | ⟨lba,phase⟩
  · rw [phase]
    exact id
  · rw [phase]
    exact id

/-! Where a disk is at something. -/

/-- The disk that was at something is at what comes after it, and the other one is still at rest. -/
theorem At.moves {P Q : Phase Data → Prop} (here : At P dev c) (phase : c.phase d = p) (busy : p ≠ .idle) (selected : c'.selected = c.selected)
    (moved : c'.phase = (c.setPhase d q).phase) (after : d = dev → P p → Q q) : At Q dev c' := by
  obtain rfl := here.only (by rwa [phase])
  have before := here.here
  rw [phase] at before
  refine ⟨selected.trans here.selected,?_,?_⟩
  · rw [moved,setPhase_other]
    exact here.other
  · rw [moved,setPhase_same]
    exact after rfl before

/-- The disks go on, and a disk that was at something is at what comes after it. -/
theorem At.work {P Q : Phase Data → Prop} (here : At P dev c) (ran : work d c = some c')
    (fetched : ∀ lba, P (.reading lba) → Q (.offering (c.view dev lba))) (ready : ∀ lba, P (.accepting lba) → Q (.wanting lba))
    (stored : ∀ lba data, P (.writing lba data) → Q .idle) : At Q dev c' := by
  rcases work_cases ran with ⟨lba,phase,rfl⟩ | ⟨lba,phase,rfl⟩ | ⟨lba,data,phase,rfl⟩
  · refine here.moves phase nofun rfl rfl fun same reading => ?_
    rw [← view_settled (by rw [phase]; exact id),same]
    exact fetched lba reading
  · exact here.moves phase nofun rfl rfl fun _ => ready lba
  · exact here.moves phase nofun rfl rfl fun _ => stored lba data

theorem At.fail {P Q : Phase Data → Prop} (here : At P dev c) (ran : fail d c = some c')
    (reading : ∀ lba, P (.reading lba) → Q .idle) (accepting : ∀ lba, P (.accepting lba) → Q .idle) : At Q dev c' := by
  obtain ⟨⟨lba,phase⟩ | ⟨lba,phase⟩,rfl⟩ := fail_cases ran
  · exact here.moves phase nofun rfl rfl fun _ => reading lba
  · exact here.moves phase nofun rfl rfl fun _ => accepting lba

theorem At.work_none {P : Phase Data → Prop} (here : At P dev c) (reading : ∀ lba, ¬P (.reading lba)) (accepting : ∀ lba, ¬P (.accepting lba))
    (writing : ∀ lba data, ¬P (.writing lba data)) : Ide.work d c = none :=
  Option.eq_none_iff_forall_ne_some.mpr fun _ ran =>
    (here.work (Q := fun _ => False) ran reading accepting writing).here

theorem At.fail_none {P : Phase Data → Prop} (here : At P dev c) (reading : ∀ lba, ¬P (.reading lba))
    (accepting : ∀ lba, ¬P (.accepting lba)) : Ide.fail d c = none :=
  Option.eq_none_iff_forall_ne_some.mpr fun _ ran => (here.fail (Q := fun _ => False) ran reading accepting).here

/-- Registers are written while nothing goes on. -/
theorem Calm.outb (calm : Calm c) (byte : UInt8) :
    outb regNsect byte c = some { c with nsect := byte } ∧ outb regLbal byte c = some { c with lbal := byte } ∧
    outb regLbam byte c = some { c with lbam := byte } ∧ outb regLbah byte c = some { c with lbah := byte } ∧
    outb regDevice byte c = some { c with device := byte } ∧ outb regCommand byte c = command byte c := by
  unfold Ide.outb
  rw [calm]
  exact ⟨rfl,rfl,rfl,rfl,rfl,rfl⟩

theorem deviceByte (dev : Bool) (high : UInt8) (small : high.toNat < 16) :
    ((devMbs ||| devLba ||| (if dev then devDev else 0) ||| high) &&& devDev ≠ 0 ↔ dev = true) ∧
    ((devMbs ||| devLba ||| (if dev then devDev else 0) ||| high) &&& 0x0f).toNat = high.toNat := by
  obtain ⟨n,rfl⟩ : ∃ n : Fin 16, high = n.val.toUInt8 :=
    ⟨⟨high.toNat,small⟩,(UInt8.ofNat_toNat ..).symm⟩
  revert n
  cases dev <;> decide

/-- The controller finds the disk and the sector that the driver writes to its registers. -/
theorem Calm.selectSector (calm : Calm c) (dev : Bool) (small : secNo < 2 ^ 28) :
    ∃ c', selectSector dev secNo c = some c' ∧ Calm c' ∧ c'.selected = dev ∧ c'.lba = secNo ∧ c'.sectors = c.sectors ∧
      c'.intrq = c.intrq := by
  let c₁ : Controller Data := { c with nsect := 1 }
  let c₂ : Controller Data := { c₁ with lbal := secNo.toUInt8 }
  let c₃ : Controller Data := { c₂ with lbam := (secNo >>> 8).toUInt8 }
  let c₄ : Controller Data := { c₃ with lbah := (secNo >>> 16).toUInt8 }
  have high : (secNo >>> 24).toUInt8.toNat = secNo / 16777216 := by
    rw [Nat.shiftRight_eq_div_pow]
    exact Nat.mod_eq_of_lt (by omega)
  have device := deviceByte dev (secNo >>> 24).toUInt8 (by rw [high]; omega)
  refine ⟨{ c₄ with device := devMbs ||| devLba ||| (if dev then devDev else 0) ||| (secNo >>> 24).toUInt8 },?_,calm,?_,?_,rfl,rfl⟩
  · unfold Ide.selectSector
    rw [(Calm.outb calm 1).1,Option.bind_eq_bind,Option.bind_some,(Calm.outb (c := c₁) calm _).2.1,
      Option.bind_some,(Calm.outb (c := c₂) calm _).2.2.1,Option.bind_some,(Calm.outb (c := c₃) calm _).2.2.2.1,Option.bind_some]
    exact (Calm.outb (c := c₄) calm _).2.2.2.2.1
  · exact Bool.eq_iff_iff.mpr (decide_eq_true_iff.trans device.1)
  · have low : secNo.toUInt8.toNat = secNo % 256 := rfl
    have middle : (secNo >>> 8).toUInt8.toNat = secNo / 256 % 256 := by
      rw [Nat.shiftRight_eq_div_pow]
      rfl
    have upper : (secNo >>> 16).toUInt8.toNat = secNo / 65536 % 256 := by
      rw [Nat.shiftRight_eq_div_pow]
      rfl
    change secNo.toUInt8.toNat + 256 * (secNo >>> 8).toUInt8.toNat + 65536 * (secNo >>> 16).toUInt8.toNat + 16777216 * _ = secNo
    rw [device.2,low,middle,upper,high]
    omega

theorem Calm.work (calm : Calm c) : work d c = none := by
  unfold Ide.work
  rw [calm]

theorem Calm.fail (calm : Calm c) : fail d c = none := by
  unfold Ide.fail
  rw [calm]

theorem Settling.work (settling : Settling c) (ran : work d c = some c') : Settling c' := by
  obtain ⟨dev,here⟩ := settling
  exact ⟨dev,here.work ran (fun _ => id) (fun _ => id) fun _ _ => id⟩

/-- A disk that is at rest or writes gives nothing up. -/
theorem Settling.fail (settling : Settling c) : fail d c = none := by
  obtain ⟨dev,here⟩ := settling
  exact here.fail_none (fun _ => id) fun _ => id

/-! What the status register tells. -/

theorem idle_of_status {p : Phase Data} (free : p.status &&& (staBsy ||| staDrq) = 0) : p = .idle := by
  have busy : staBsy &&& (staBsy ||| staDrq) ≠ 0 := by decide
  have asking : (staDrdy ||| staDrq) &&& (staBsy ||| staDrq) ≠ 0 := by decide
  cases p with
  | idle => rfl
  | reading _ | accepting _ => exact absurd free busy
  | writing _ _ => exact absurd free busy
  | offering _ => exact absurd free asking
  | wanting _ => exact absurd free asking

/-- A disk that is not busy is at rest, or it asks for the data register. -/
theorem asks_of_waited {p : Phase Data} (waited : p.status &&& staBsy = 0) :
    p = .idle ∨ p.status &&& staDrq ≠ 0 ∧ ((∃ data, p = .offering data) ∨ ∃ lba, p = .wanting lba) := by
  have busy : staBsy &&& staBsy ≠ 0 := by decide
  have asking : (staDrdy ||| staDrq) &&& staDrq ≠ 0 := by decide
  cases p with
  | idle => exact .inl rfl
  | reading _ | accepting _ => exact absurd waited busy
  | writing _ _ => exact absurd waited busy
  | offering data => exact .inr ⟨asking,.inl ⟨data,rfl⟩⟩
  | wanting lba => exact .inr ⟨asking,.inr ⟨lba,rfl⟩⟩

end

end OsProj.Ide
