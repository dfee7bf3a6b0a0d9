import Mathlib.Algebra.Group.Nat.Defs
import Mathlib.Logic.Function.Basic
import OsProj.History

/-! The disk driver of devices/ide.c: `ide_read` and `ide_write` on the two disks of one channel. The
controller works on a command by itself and interrupts when it has data or is done. Assumed are that
waits for the controller do not run out of time, that callers have interrupts on, as `issue_pio_command`
asserts, and that a disk gives a command up only before it has moved data, since `ide_write` does not
look at the disk again once it has taken a sector. `completion_wait` is its value, without a bound;
the threads that sleep for it are those at `down`. What `select_sector` asserts of the sector number
stands behind its waits here. It holds for every sector that the block layer asks for. -/
namespace OsProj.Ide

/-! The controller. Ports are counted from `reg_base`. -/

def regNsect : Nat := 2
def regLbal : Nat := 3
def regLbam : Nat := 4
def regLbah : Nat := 5
def regDevice : Nat := 6
def regCommand : Nat := 7

def staBsy : UInt8 := 0x80
def staDrdy : UInt8 := 0x40
def staDrq : UInt8 := 0x08

def devMbs : UInt8 := 0xa0
def devLba : UInt8 := 0x40
def devDev : UInt8 := 0x10

def cmdReadSectorRetry : UInt8 := 0x20
def cmdWriteSectorRetry : UInt8 := 0x30

/-- What a disk is at: it fetches a sector, has one for the driver, prepares to take one, wants one
from the driver, or puts one in its place. -/
inductive Phase (Data : Type) where
  | idle
  | reading (lba : Nat)
  | offering (data : Data)
  | accepting (lba : Nat)
  | wanting (lba : Nat)
  | writing (lba : Nat) (data : Data)

/-- The registers, the two disks and the interrupt line. Disk 1, the slave, is `true`. -/
structure Controller (Data : Type) where
  nsect : UInt8
  lbal : UInt8
  lbam : UInt8
  lbah : UInt8
  device : UInt8
  phase : Bool → Phase Data
  sectors : Bool → Nat → Data
  intrq : Bool

section
variable {Data : Type}

def Phase.status : Phase Data → UInt8
  | .idle => staDrdy
  | .reading _ | .accepting _ | .writing _ _ => staBsy
  | .offering _ | .wanting _ => staDrdy ||| staDrq

def Controller.selected (c : Controller Data) : Bool := c.device &&& devDev ≠ 0

def Controller.lba (c : Controller Data) : Nat :=
  c.lbal.toNat + 256 * c.lbam.toNat + 65536 * c.lbah.toNat + 16777216 * (c.device &&& 0x0f).toNat

def Controller.setPhase (c : Controller Data) (d : Bool) (p : Phase Data) : Controller Data :=
  { c with phase := Function.update c.phase d p }

/-- A command for the selected disk, which also takes back the interrupt. -/
def command (byte : UInt8) (c : Controller Data) : Option (Controller Data) :=
  if byte = cmdReadSectorRetry then some { c.setPhase c.selected (.reading c.lba) with intrq := false }
  else if byte = cmdWriteSectorRetry then some { c.setPhase c.selected (.accepting c.lba) with intrq := false }
  else none

/-- The registers must not be written while the selected disk is at something. -/
def outb (port : Nat) (byte : UInt8) (c : Controller Data) : Option (Controller Data) :=
  match c.phase c.selected with
  | .idle =>
    if port = regNsect then some { c with nsect := byte }
    else if port = regLbal then some { c with lbal := byte }
    else if port = regLbam then some { c with lbam := byte }
    else if port = regLbah then some { c with lbah := byte }
    else if port = regDevice then some { c with device := byte }
    else if port = regCommand then command byte c
    else none
  | _ => none

def inbAltStatus (c : Controller Data) : UInt8 := (c.phase c.selected).status

/-- Reading the status register clears any pending interrupt. -/
def inbStatus (c : Controller Data) : UInt8 × Controller Data := (inbAltStatus c,{ c with intrq := false })

/-- A whole sector through the data register. -/
def insw (c : Controller Data) : Option (Data × Controller Data) :=
  match c.phase c.selected with
  | .offering data => some (data,c.setPhase c.selected .idle)
  | _ => none

def outsw (data : Data) (c : Controller Data) : Option (Controller Data) :=
  match c.phase c.selected with
  | .wanting lba => some (c.setPhase c.selected (.writing lba data))
  | _ => none

def work (d : Bool) (c : Controller Data) : Option (Controller Data) :=
  match c.phase d with
  | .reading lba => some { c.setPhase d (.offering (c.sectors d lba)) with intrq := true }
  | .accepting lba => some (c.setPhase d (.wanting lba))
  | .writing lba data =>
    some { c.setPhase d .idle with
      sectors := Function.update c.sectors d (Function.update (c.sectors d) lba data), intrq := true }
  | _ => none

/-- A disk gives a command up before it has moved data. -/
def fail (d : Bool) (c : Controller Data) : Option (Controller Data) :=
  match c.phase d with
  | .reading _ | .accepting _ => some { c.setPhase d .idle with intrq := true }
  | _ => none

end

/-! The driver. -/

inductive Panic where
  | assertion
  | diskFailed
  | violation
  deriving DecidableEq, Repr

inductive Call (Data : Type) where
  | read (dev : Bool) (secNo : Nat)
  | write (dev : Bool) (secNo : Nat) (buffer : Data)
  deriving DecidableEq, Repr

def Call.dev {Data : Type} : Call Data → Bool
  | .read dev _ | .write dev _ _ => dev

def Call.secNo {Data : Type} : Call Data → Nat
  | .read _ secNo | .write _ secNo _ => secNo

inductive Place where
  | acquire
  | waitUntilIdle
  | selectDevice
  | waitUntilIdleAgain
  | selectSector
  | issueCommand
  | down
  | waitWhileBusy
  | transfer
  deriving DecidableEq, Repr

/-- `releasing` still has the sector that was read or written. -/
inductive Pc (Data : Type) where
  | idle
  | inCall (call : Call Data) (place : Place)
  | releasing (call : Call Data) (data : Data)
  deriving DecidableEq, Repr

/-- The channel: its lock, whether it expects an interrupt, the value of `completion_wait`. -/
structure State (Tid Data : Type) where
  lock : Option Tid
  expectingInterrupt : Bool
  completionWait : Nat
  controller : Controller Data
  pc : Tid → Pc Data

inductive Event (Tid Data : Type) where
  | called (t : Tid) (call : Call Data)
  | silent (t : Tid)
  | polled (t : Tid)
  | moved (t : Tid) (call : Call Data) (data : Data)
  | returned (t : Tid) (call : Call Data) (data : Data)
  | worked (d : Bool)
  | failed (d : Bool)
  | interrupted
  | stray
  deriving DecidableEq, Repr

section
variable {Tid Data : Type} [DecidableEq Tid]

def State.goto (s : State Tid Data) (t : Tid) (pc : Pc Data) : State Tid Data := { s with pc := Function.update s.pc t pc }

def State.setController (s : State Tid Data) (c : Controller Data) : State Tid Data := { s with controller := c }

def selectDevice (dev : Bool) (c : Controller Data) : Option (Controller Data) :=
  outb regDevice (devMbs ||| if dev then devDev else 0) c

/-- The registers of `select_sector`, behind its waits. -/
def selectSector (dev : Bool) (secNo : Nat) (c : Controller Data) : Option (Controller Data) := do
  let c ← outb regNsect 1 c
  let c ← outb regLbal secNo.toUInt8 c
  let c ← outb regLbam (secNo >>> 8).toUInt8 c
  let c ← outb regLbah (secNo >>> 16).toUInt8 c
  outb regDevice (devMbs ||| devLba ||| (if dev then devDev else 0) ||| (secNo >>> 24).toUInt8) c

def Call.command : Call Data → UInt8
  | .read _ _ => cmdReadSectorRetry
  | .write _ _ _ => cmdWriteSectorRetry

def Call.next : Call Data → Place → Pc Data
  | call,.acquire => .inCall call .waitUntilIdle
  | call,.waitUntilIdle => .inCall call .selectDevice
  | call,.selectDevice => .inCall call .waitUntilIdleAgain
  | call,.waitUntilIdleAgain => .inCall call .selectSector
  | call,.selectSector => .inCall call .issueCommand
  | .read dev secNo,.issueCommand => .inCall (.read dev secNo) .down
  | .read dev secNo,.down => .inCall (.read dev secNo) .waitWhileBusy
  | .write dev secNo buffer,.issueCommand => .inCall (.write dev secNo buffer) .waitWhileBusy
  | .write dev secNo buffer,.down => .releasing (.write dev secNo buffer) buffer
  | call,.waitWhileBusy => .inCall call .transfer
  | call,.transfer => .inCall call .down

/-- A step of the driver that uses the controller; where the controller does not allow it, it goes wrong. -/
def onController (t : Tid) (k : Pc Data) (s : State Tid Data) (c : Option (Controller Data)) :
    Except Panic (Event Tid Data × State Tid Data) :=
  match c with
  | some c => .ok (.silent t,(s.setController c).goto t k)
  | none => .error .violation

def pollIdle (t : Tid) (k : Pc Data) (s : State Tid Data) : Event Tid Data × State Tid Data :=
  let (status,c) := inbStatus s.controller
  if status &&& (staBsy ||| staDrq) = 0 then (.silent t,(s.setController c).goto t k) else (.polled t,s.setController c)

/-- `none` where the thread is in no call or blocks. -/
def advance (t : Tid) (s : State Tid Data) : Option (Except Panic (Event Tid Data × State Tid Data)) :=
  match s.pc t with
  | .idle => none
  | .inCall call place =>
    let k := call.next place
    match place with
    | .acquire => if s.lock = none then some (.ok (.silent t,{ s with lock := some t }.goto t k)) else none
    | .waitUntilIdle | .waitUntilIdleAgain => some (.ok (pollIdle t k s))
    | .selectDevice => some (onController t k s (selectDevice call.dev s.controller))
    | .selectSector =>
      if call.secNo < 2 ^ 28 then some (onController t k s (selectSector call.dev call.secNo s.controller))
      else some (.error .assertion)
    | .issueCommand => some (onController t k { s with expectingInterrupt := true } (outb regCommand call.command s.controller))
    | .down =>
      if 0 < s.completionWait then some (.ok (.silent t,{ s with completionWait := s.completionWait - 1 }.goto t k)) else none
    | .waitWhileBusy =>
      if inbAltStatus s.controller &&& staBsy = 0 then
        if inbAltStatus s.controller &&& staDrq = 0 then some (.error .diskFailed) else some (.ok (.silent t,s.goto t k))
      else some (.ok (.polled t,s))
    | .transfer =>
      match call with
      | .read _ _ =>
        match insw s.controller with
        | some (data,c) => some (.ok (.moved t call data,(s.setController c).goto t (.releasing call data)))
        | none => some (.error .violation)
      | .write _ _ buffer =>
        match outsw buffer s.controller with
        | some c => some (.ok (.moved t call buffer,(s.setController c).goto t k))
        | none => some (.error .violation)
  | .releasing call data => some (.ok (.returned t call data,{ s with lock := none }.goto t .idle))

def interruptHandler (s : State Tid Data) : State Tid Data :=
  if s.expectingInterrupt then { s.setController (inbStatus s.controller).2 with completionWait := s.completionWait + 1 } else s

/-- What happens next in a run. The handler also runs without an interrupt of the controller. -/
inductive Request (Tid Data : Type) where
  | call (t : Tid) (call : Call Data)
  | advance (t : Tid)
  | work (d : Bool)
  | fail (d : Bool)
  | interrupt
  | stray

/-- The block layer asks for sectors of the disk only, of which there are less than 2^28. -/
def perform : Request Tid Data → State Tid Data → Option (Event Tid Data × State Tid Data)
  | .call t call,s =>
    match s.pc t with
    | .idle => if call.secNo < 2 ^ 28 then some (.called t call,s.goto t (.inCall call .acquire)) else none
    | _ => none
  | .advance t,s =>
    match advance t s with
    | some (.ok out) => some out
    | _ => none
  | .work d,s => (work d s.controller).map fun c => (.worked d,s.setController c)
  | .fail d,s => (fail d s.controller).map fun c => (.failed d,s.setController c)
  | .interrupt,s => if s.controller.intrq then some (.interrupted,interruptHandler s) else none
  | .stray,s => some (.stray,interruptHandler s)

def Step (s : State Tid Data) (e : Event Tid Data) (s' : State Tid Data) : Prop := ∃ request, perform request s = some (e,s')

def start (expecting : Bool) (c : Controller Data) : State Tid Data :=
  ⟨none,expecting,0,{ c with phase := fun _ => .idle, intrq := false },fun _ => .idle⟩

end

end OsProj.Ide
