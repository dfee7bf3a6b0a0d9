import OsProj.IntQueueBytes
import OsProj.Keyboard

/-! The drivers of the serial port and of the keyboard with the queues behind them: `txq` of
devices/serial.c and `buffer` of devices/input.c. Their functions run with interrupts off, up to
where a thread blocks in a queue. `none` is a failed assertion. -/
namespace OsProj.SerialPort

open OsProj.IntQueue (intqEmpty intqFull intqInit Met Result putBytes gotBytes)
open OsProj.Keyboard (Kbd)

/-! The UART. -/

/-- The registers that the driver writes, and the bytes that went to the transmitter, oldest first. -/
structure Uart where
  ier : UInt8
  fcr : UInt8
  lcr : UInt8
  mcr : UInt8
  ls : UInt8
  ms : UInt8
  sent : List UInt8

def ioBase : Nat := 0x3f8
def thrReg : Nat := ioBase + 0
def ierReg : Nat := ioBase + 1
def lsReg : Nat := ioBase + 0
def msReg : Nat := ioBase + 1
def fcrReg : Nat := ioBase + 2
def lcrReg : Nat := ioBase + 3
def mcrReg : Nat := ioBase + 4

def ierRecv : UInt8 := 0x01
def ierXmit : UInt8 := 0x02
def lcrN81 : UInt8 := 0x03
def lcrDlab : UInt8 := 0x80
def mcrOut2 : UInt8 := 0x08

/-- The divisor latch is behind the first two ports while its bit is set. -/
def Uart.dlab (u : Uart) : Bool := u.lcr &&& lcrDlab ≠ 0

def outb (port : Nat) (byte : UInt8) (u : Uart) : Uart :=
  if port = ioBase then if u.dlab then { u with ls := byte } else { u with sent := u.sent ++ [byte] }
  else if port = ioBase + 1 then if u.dlab then { u with ms := byte } else { u with ier := byte }
  else if port = ioBase + 2 then { u with fcr := byte }
  else if port = ioBase + 3 then { u with lcr := byte }
  else if port = ioBase + 4 then { u with mcr := byte }
  else u

inductive Mode where
  | uninit
  | poll
  | queue
  deriving DecidableEq, Repr

structure State (Tid : Type) where
  mode : Mode
  txq : IntQueue.State Tid
  buffer : IntQueue.State Tid
  uart : Uart
  kbd : Kbd

structure Moved where
  put : List UInt8
  entered : List UInt8
  got : List UInt8
  deriving DecidableEq, Repr

def nothing : Moved := ⟨[],[],[]⟩

section
variable {Tid : Type}

/-- After a reset the divisor latch is out of the way. -/
def start (uart : Uart) : State Tid := ⟨.uninit,intqInit,intqInit,{ uart with lcr := 0, sent := [] },Keyboard.boot⟩

def State.out (s : State Tid) (port : Nat) (byte : UInt8) : State Tid := { s with uart := outb port byte s.uart }

def setSerial (bps : Nat) (s : State Tid) : Option (State Tid) :=
  let baseRate := 1843200 / 16
  let divisor := baseRate / bps % 65536
  if 300 ≤ bps ∧ bps ≤ 115200 then
    some ((((s.out lcrReg (lcrN81 ||| lcrDlab)).out lsReg (divisor &&& 0xff).toUInt8).out msReg (divisor >>> 8).toUInt8).out
      lcrReg lcrN81)
  else none

def initPoll (s : State Tid) : Option (State Tid) :=
  if s.mode = .uninit then
    (setSerial 9600 ((s.out ierReg 0).out fcrReg 0)).map fun s =>
      { s.out mcrReg mcrOut2 with txq := intqInit, mode := .poll }
  else none

def putcPoll (byte : UInt8) (s : State Tid) : State Tid := s.out thrReg byte

def ierOf (s : State Tid) : UInt8 :=
  (if intqEmpty s.txq then 0 else ierXmit) ||| (if intqFull s.buffer then 0 else ierRecv)

def writeIer (s : State Tid) : State Tid := s.out ierReg (ierOf s)

def serialNotify (s : State Tid) : State Tid := if s.mode = .queue then writeIer s else s

variable [DecidableEq Tid]

def intqGetc (q : IntQueue.State Tid) : Option (UInt8 × IntQueue.State Tid) :=
  if Met q .notEmpty then IntQueue.finish .getc q else none

def intqPutc (byte : UInt8) (q : IntQueue.State Tid) : Option (IntQueue.State Tid) := IntQueue.handle (.putc byte) q

def onQueue (e : IntQueue.Event Tid) (q : IntQueue.State Tid) : Option (Result × IntQueue.State Tid) :=
  (IntQueue.perform e q).map fun q' => (IntQueue.returned e q,q')

def serialInitQueue (s : State Tid) : Option (State Tid) :=
  (if s.mode = .uninit then initPoll s else some s).bind fun s =>
    if s.mode = .poll then some (writeIer { s with mode := .queue }) else none

def serialPutcPoll (byte : UInt8) (s : State Tid) : Option (State Tid) :=
  (if s.mode = .uninit then initPoll s else some s).map (putcPoll byte)

/-- `serial_putc` while interrupts were on. -/
def serialPutc (t : Tid) (byte : UInt8) (s : State Tid) : Option (Moved × State Tid) :=
  if s.mode = .queue then
    (onQueue (.call t (.putc byte)) s.txq).map fun (r,txq) =>
      ({ nothing with put := putBytes r },if r.isSome then writeIer { s with txq := txq } else { s with txq := txq })
  else (serialPutcPoll byte s).map fun s => ({ nothing with put := [byte] },s)

/-- With interrupts off nobody empties a full queue, so `serial_putc` sends its oldest byte itself. -/
def makeRoom (s : State Tid) : Option (State Tid) :=
  if intqFull s.txq then (intqGetc s.txq).map fun (oldest,txq) => putcPoll oldest { s with txq := txq } else some s

/-- `serial_putc` while interrupts were off. -/
def serialPutcOff (byte : UInt8) (s : State Tid) : Option (Moved × State Tid) :=
  if s.mode = .queue then
    (makeRoom s).bind fun s =>
      (intqPutc byte s.txq).map fun txq => ({ nothing with put := [byte] },writeIer { s with txq := txq })
  else (serialPutcPoll byte s).map fun s => ({ nothing with put := [byte] },s)

def runPutc (t : Tid) (s : State Tid) : Option (Moved × State Tid) :=
  (onQueue (.run t) s.txq).map fun (r,txq) =>
    ({ nothing with put := putBytes r },if r.isSome then writeIer { s with txq := txq } else { s with txq := txq })

/-- The loop of `serial_flush`; the queue holds less than `n` bytes. -/
def serialFlush : Nat → State Tid → Option (State Tid)
  | 0,_ => none
  | n + 1,s =>
    if intqEmpty s.txq then some s
    else (intqGetc s.txq).bind fun (byte,txq) => serialFlush n (putcPoll byte { s with txq := txq })

def inputPutc (key : UInt8) (s : State Tid) : Option (State Tid) :=
  if intqFull s.buffer then none
  else (intqPutc key s.buffer).map fun buffer => serialNotify { s with buffer := buffer }

def inputGetc (e : IntQueue.Event Tid) (s : State Tid) : Option (Moved × State Tid) :=
  (onQueue e s.buffer).map fun (r,buffer) =>
    ({ nothing with got := gotBytes r },
      if r.isSome then serialNotify { s with buffer := buffer } else { s with buffer := buffer })

/-- The first loop of the handler. The port has the bytes one after another. -/
def receive : List UInt8 → State Tid → Option (List UInt8 × State Tid)
  | [],s => some ([],s)
  | byte :: rest,s =>
    if intqFull s.buffer then some ([],s)
    else (inputPutc byte s).bind fun s => (receive rest s).map fun (entered,s) => (byte :: entered,s)

/-- The second loop. The port is ready for `n` bytes. -/
def transmit : Nat → State Tid → Option (State Tid)
  | 0,s => some s
  | n + 1,s =>
    if intqEmpty s.txq then some s
    else (intqGetc s.txq).bind fun (byte,txq) => transmit n ({ s with txq := txq }.out thrReg byte)

def serialInterrupt (received : List UInt8) (ready : Nat) (s : State Tid) : Option (Moved × State Tid) :=
  (receive received s).bind fun (entered,s) =>
    (transmit ready s).map fun s => ({ nothing with entered := entered },writeIer s)

/-- The keyboard handler; the machine goes on unless it reboots. -/
def keyboardInterrupt (first second : UInt8) (s : State Tid) : Option (Moved × State Tid) :=
  match Keyboard.interpret s.kbd first second with
  | .reboot => none
  | .state kbd => some (nothing,{ s with kbd := kbd })
  | .char c =>
    if intqFull s.buffer then some (nothing,s)
    else
      (inputPutc c { s with kbd := { s.kbd with keyCnt := s.kbd.keyCnt + 1 } }).map fun s =>
        ({ nothing with entered := [c] },s)

inductive Event (Tid : Type) where
  | initQueue
  | putc (t : Tid) (byte : UInt8)
  | putcOff (byte : UInt8)
  | runPutc (t : Tid)
  | flush
  | getc (t : Tid)
  | runGetc (t : Tid)
  | serial (received : List UInt8) (ready : Nat)
  | keyboard (first second : UInt8)
  deriving DecidableEq, Repr

def perform (e : Event Tid) (s : State Tid) : Option (Moved × State Tid) :=
  match e with
  | .initQueue => (serialInitQueue s).map fun s => (nothing,s)
  | .putc t byte => serialPutc t byte s
  | .putcOff byte => serialPutcOff byte s
  | .runPutc t => SerialPort.runPutc t s
  | .flush => (serialFlush IntQueue.intqBufsize s).map fun s => (nothing,s)
  | .getc t => inputGetc (.call t .getc) s
  | .runGetc t => inputGetc (.run t) s
  | .serial received ready => serialInterrupt received ready s
  | .keyboard first second => keyboardInterrupt first second s

/-- A thread is in one call at a time and runs when it is not blocked. The queue is set up once, and
the handler of the port is there from then on. -/
def Allowed (s : State Tid) : Event Tid → Prop
  | .initQueue => s.mode ≠ .queue
  | .putc t _ | .getc t => s.txq.pc t = .outside ∧ s.buffer.pc t = .outside
  | .runPutc t => s.txq.pc t ≠ .outside ∧ s.txq.status t = .ready
  | .runGetc t => s.buffer.pc t ≠ .outside ∧ s.buffer.status t = .ready
  | .serial _ _ => s.mode = .queue
  | _ => True

instance (s : State Tid) : (e : Event Tid) → Decidable (Allowed s e)
  | .initQueue => inferInstanceAs (Decidable (s.mode ≠ .queue))
  | .putc t _ => inferInstanceAs (Decidable (s.txq.pc t = .outside ∧ s.buffer.pc t = .outside))
  | .getc t => inferInstanceAs (Decidable (s.txq.pc t = .outside ∧ s.buffer.pc t = .outside))
  | .runPutc t => inferInstanceAs (Decidable (s.txq.pc t ≠ .outside ∧ s.txq.status t = .ready))
  | .runGetc t => inferInstanceAs (Decidable (s.buffer.pc t ≠ .outside ∧ s.buffer.status t = .ready))
  | .serial _ _ => inferInstanceAs (Decidable (s.mode = .queue))
  | .putcOff _ => .isTrue trivial
  | .flush => .isTrue trivial
  | .keyboard _ _ => .isTrue trivial

def Step (s : State Tid) (e : Event Tid × Moved) (s' : State Tid) : Prop :=
  Allowed s e.1 ∧ perform e.1 s = some (e.2,s')

end

end OsProj.SerialPort
