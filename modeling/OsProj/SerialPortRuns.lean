import OsProj.Channel
import OsProj.SerialPort

/-! Bytes through the drivers, whichever threads and handlers call them. -/
namespace OsProj.SerialPort

open OsProj.Channel
open OsProj.History
open OsProj.IntQueue (intqEmpty intqFull intqInit intqBufsize Met Passes SameQueue contents putBytes gotBytes)

/-- The line is set up for 9600 bits per second, and its divisor latch is out of the way. -/
structure Line (u : Uart) : Prop where
  lcr : u.lcr = lcrN81
  ls : u.ls = 12
  ms : u.ms = 0
  mcr : u.mcr = mcrOut2
  fcr : u.fcr = 0

structure Core {Tid : Type} (s : State Tid) : Prop where
  txq : IntQueue.Inv s.txq
  buffer : IntQueue.Inv s.buffer
  puts : IntQueue.Only (fun call => ∃ byte, call = .putc byte) s.txq
  gets : IntQueue.Only (fun call => call = .getc) s.buffer
  early : s.mode ≠ .queue → s.txq = intqInit
  dlab : s.uart.dlab = false
  line : s.mode ≠ .uninit → Line s.uart
  masked : s.mode = .poll → s.uart.ier = 0

/-- Interrupts are enabled while there is something to send, and while there is room for what comes
in, and only then for the latter. -/
structure Enabled {Tid : Type} (s : State Tid) : Prop where
  xmit : ¬intqEmpty s.txq → s.uart.ier &&& ierXmit ≠ 0
  recv : s.uart.ier &&& ierRecv ≠ 0 ↔ ¬intqFull s.buffer

structure Inv {Tid : Type} (s : State Tid) : Prop extends Core s where
  enabled : s.mode = .queue → Enabled s

def output {Tid : Type} (s : State Tid) : List UInt8 := s.uart.sent ++ contents s.txq

structure Carries {Tid : Type} (s : State Tid) (m : Moved) (s' : State Tid) : Prop where
  output : Conserved (output s) m.put [] (output s')
  input : Conserved (contents s.buffer) m.entered m.got (contents s'.buffer)

section
variable {Tid : Type} {s s' : State Tid} {q q' : IntQueue.State Tid} {u : Uart}

theorem Line.dlab (line : Line u) : u.dlab = false := by
  rw [Uart.dlab,line.lcr]
  rfl

theorem out_thr (off : u.dlab = false) (byte : UInt8) : outb thrReg byte u = { u with sent := u.sent ++ [byte] } := by
  rw [outb,if_pos (show thrReg = ioBase from rfl),off]
  rfl

theorem out_ier (off : u.dlab = false) (byte : UInt8) : outb ierReg byte u = { u with ier := byte } := by
  rw [outb,if_neg (by decide),if_pos (show ierReg = ioBase + 1 from rfl),off]
  rfl

theorem out_ls (on : u.dlab = true) (byte : UInt8) : outb lsReg byte u = { u with ls := byte } := by
  rw [outb,if_pos (show lsReg = ioBase from rfl),if_pos on]

theorem out_ms (on : u.dlab = true) (byte : UInt8) : outb msReg byte u = { u with ms := byte } := by
  rw [outb,if_neg (by decide),if_pos (show msReg = ioBase + 1 from rfl),if_pos on]

theorem out_fcr (byte : UInt8) : outb fcrReg byte u = { u with fcr := byte } := rfl

theorem out_lcr (byte : UInt8) : outb lcrReg byte u = { u with lcr := byte } := rfl

theorem out_mcr (byte : UInt8) : outb mcrReg byte u = { u with mcr := byte } := rfl

theorem initPoll_ok (early : s.mode = .uninit) (off : s.uart.dlab = false) : initPoll s =
    some { s with txq := intqInit, mode := .poll, uart := ⟨0,0,lcrN81,mcrOut2,12,0,s.uart.sent⟩ } := by
  have on {ier fcr mcr ls ms : UInt8} {sent : List UInt8} :
      Uart.dlab ⟨ier,fcr,lcrN81 ||| lcrDlab,mcr,ls,ms,sent⟩ = true := by
    change decide ((lcrN81 ||| lcrDlab) &&& lcrDlab ≠ 0) = true
    decide
  rw [initPoll,if_pos early,setSerial,if_pos (by decide)]
  simp only [State.out,out_ier off,out_fcr,out_lcr,out_mcr,Option.map_some]
  rw [out_ls on,out_ms on]
  rfl

variable [DecidableEq Tid]

theorem intqGetc_ok (inv : IntQueue.Inv q) (some_ : ¬intqEmpty q) : ∃ byte q', intqGetc q = some (byte,q') ∧
    IntQueue.Inv q' ∧ contents q = byte :: contents q' ∧ q'.pc = q.pc ∧ ¬intqFull q' := by
  have met : Met q IntQueue.Call.getc.waiter := some_
  obtain ⟨byte,q',done,inv',pc⟩ := inv.finish met
  have passes := (IntQueue.finish_passes inv.bounds met done).1.passed
  refine ⟨byte,q',(if_pos met).trans done,inv',by simpa [putBytes,gotBytes] using passes,pc,?_⟩
  obtain ⟨_,signalled,equal⟩ := Option.map_eq_some_iff.mp done
  cases equal
  exact (IntQueue.signal_kept signalled).1.met.mpr (IntQueue.transfer_met inv met)

theorem intqPutc_ok (inv : IntQueue.Inv q) (room : ¬intqFull q) (byte : UInt8) : ∃ q', intqPutc byte q = some q' ∧
    IntQueue.Inv q' ∧ contents q' = contents q ++ [byte] ∧ q'.pc = q.pc := by
  have met : Met q (IntQueue.Call.putc byte).waiter := room
  obtain ⟨byte',q',done,inv',pc⟩ := inv.finish met
  obtain rfl : byte = byte' := by
    obtain ⟨_,_,equal⟩ := Option.map_eq_some_iff.mp done
    exact (Prod.mk.inj equal).1
  have passes := (IntQueue.finish_passes inv.bounds met done).1.passed
  refine ⟨q',?_,inv',by simpa [putBytes,gotBytes] using passes.symm,pc⟩
  rw [intqPutc,IntQueue.handle,if_pos met,done]
  rfl

omit [DecidableEq Tid] in
theorem contents_init : contents (intqInit : IntQueue.State Tid) = [] := by
  simp [contents,IntQueue.stored,intqInit,intqBufsize]

omit [DecidableEq Tid] in
theorem start_inv (uart : Uart) : Inv (start uart : State Tid) where
  txq := IntQueue.init_inv
  buffer := IntQueue.init_inv
  puts := by
    intro t call here
    rcases here with here | here <;> cases here
  gets := by
    intro t call here
    rcases here with here | here <;> cases here
  early := fun _ => rfl
  dlab := by
    change decide ((0 : UInt8) &&& lcrDlab ≠ 0) = false
    decide
  line := fun other => absurd rfl other
  masked := nofun
  enabled := nofun

omit [DecidableEq Tid] in
theorem Core.send (core : Core s) (byte : UInt8) :
    Core (putcPoll byte s) ∧ (putcPoll byte s).uart = { s.uart with sent := s.uart.sent ++ [byte] } := by
  have sent : (putcPoll byte s).uart = { s.uart with sent := s.uart.sent ++ [byte] } := out_thr core.dlab byte
  refine ⟨⟨core.txq,core.buffer,core.puts,core.gets,core.early,?_,fun mode => ?_,fun mode => ?_⟩,sent⟩
  · rw [sent]
    exact core.dlab
  · have line := core.line mode
    rw [sent]
    exact ⟨line.lcr,line.ls,line.ms,line.mcr,line.fcr⟩
  · rw [sent]
    exact core.masked mode

omit [DecidableEq Tid] in
theorem Core.setTxq (core : Core s) (mode : s.mode = .queue) (inv : IntQueue.Inv q)
    (puts : IntQueue.Only (fun call => ∃ byte, call = .putc byte) q) : Core { s with txq := q } :=
  ⟨inv,core.buffer,puts,core.gets,fun other => absurd mode other,core.dlab,core.line,core.masked⟩

omit [DecidableEq Tid] in
theorem Core.setBuffer (core : Core s) (inv : IntQueue.Inv q) (gets : IntQueue.Only (fun call => call = .getc) q) :
    Core { s with buffer := q } := ⟨core.txq,inv,core.puts,gets,core.early,core.dlab,core.line,core.masked⟩

omit [DecidableEq Tid] in
theorem Core.writeIer (core : Core s) (mode : s.mode = .queue) :
    Inv (writeIer s) ∧ output (SerialPort.writeIer s) = output s := by
  have wrote : (SerialPort.writeIer s).uart = { s.uart with ier := ierOf s } := out_ier core.dlab _
  refine ⟨⟨⟨core.txq,core.buffer,core.puts,core.gets,core.early,?_,fun mode => ?_,fun other => ?_⟩,fun _ => ⟨?_,?_⟩⟩,?_⟩
  · rw [wrote]
    exact core.dlab
  · have line := core.line mode
    rw [wrote]
    exact ⟨line.lcr,line.ls,line.ms,line.mcr,line.fcr⟩
  · cases mode.symm.trans other
  · intro some_
    change ¬intqEmpty s.txq at some_
    rw [wrote]
    simp only [ierOf,if_neg some_]
    split <;> decide
  · rw [wrote]
    simp only [ierOf]
    change _ ↔ ¬intqFull s.buffer
    split <;> split <;> simp_all <;> decide
  · rw [output,wrote]
    rfl

omit [DecidableEq Tid] in
theorem Core.notify (core : Core s) : Inv (serialNotify s) ∧ output (serialNotify s) = output s ∧
    (serialNotify s).buffer = s.buffer ∧ (serialNotify s).mode = s.mode := by
  unfold serialNotify
  split
  · rename_i mode
    obtain ⟨inv,same⟩ := core.writeIer mode
    exact ⟨inv,same,rfl,rfl⟩
  · rename_i other
    exact ⟨⟨core,fun mode => absurd mode other⟩,rfl,rfl,rfl⟩

omit [DecidableEq Tid] in
/-- The line is set up for polling; nothing has been queued. -/
theorem Core.initPoll (core : Core s) (mode : s.mode = .uninit) : ∃ s', initPoll s = some s' ∧ Core s' ∧ s'.mode = .poll ∧
    output s' = output s ∧ s'.buffer = s.buffer := by
  have line : Line ⟨0,0,lcrN81,mcrOut2,12,0,s.uart.sent⟩ := ⟨rfl,rfl,rfl,rfl,rfl⟩
  refine ⟨_,initPoll_ok mode core.dlab,⟨IntQueue.init_inv,core.buffer,?_,core.gets,fun _ => rfl,line.dlab,fun _ => line,
    fun _ => rfl⟩,rfl,?_,rfl⟩
  · exact (core.early (by simp [mode])) ▸ core.puts
  · rw [output,output,core.early (by simp [mode])]

omit [DecidableEq Tid] in
theorem Core.polling (core : Core s) (mode : s.mode ≠ .queue) :
    ∃ s', (if s.mode = .uninit then SerialPort.initPoll s else some s) = some s' ∧ Core s' ∧ s'.mode = .poll ∧
      output s' = output s ∧ s'.buffer = s.buffer := by
  split
  · rename_i early
    exact core.initPoll early
  · rename_i other
    refine ⟨s,rfl,core,?_,rfl,rfl⟩
    cases here : s.mode with
    | uninit => exact absurd here other
    | poll => rfl
    | queue => exact absurd here mode

omit [DecidableEq Tid] in
/-- Without the queue a byte goes straight to the port. -/
theorem Core.serialPutcPoll (core : Core s) (mode : s.mode ≠ .queue) (byte : UInt8) :
    ∃ s', serialPutcPoll byte s = some s' ∧ Inv s' ∧ Carries s ⟨[byte],[],[]⟩ s' := by
  obtain ⟨s₁,begun,core₁,poll,same,kept⟩ := core.polling mode
  obtain ⟨sent,wrote⟩ := core₁.send byte
  have empty : contents (putcPoll byte s₁).txq = [] := by
    rw [sent.early (by rw [show (putcPoll byte s₁).mode = _ from poll]; nofun)]
    exact contents_init
  have empty₁ : contents s₁.txq = [] := empty
  refine ⟨putcPoll byte s₁,by rw [SerialPort.serialPutcPoll,begun]; rfl,⟨sent,fun queue => ?_⟩,?_,?_⟩
  · cases poll.symm.trans queue
  · rw [← same,output,output,wrote,empty,empty₁,List.append_nil,List.append_nil]
    exact conserved_enter _ _
  · rw [show (putcPoll byte s₁).buffer = s.buffer from kept]
    exact conserved_idle _

omit [DecidableEq Tid] in
theorem Core.serialInitQueue (core : Core s) (mode : s.mode ≠ .queue) :
    ∃ s', serialInitQueue s = some s' ∧ Inv s' ∧ Carries s nothing s' := by
  obtain ⟨s₁,begun,core₁,poll,same,kept⟩ := core.polling mode
  let s₂ : State Tid := { s₁ with mode := .queue }
  have core₂ : Core s₂ := ⟨core₁.txq,core₁.buffer,core₁.puts,core₁.gets,fun other => absurd rfl other,core₁.dlab,
    fun _ => core₁.line (by simp [poll]),nofun⟩
  obtain ⟨inv,wrote⟩ := core₂.writeIer rfl
  refine ⟨SerialPort.writeIer s₂,?_,inv,?_,?_⟩
  · rw [SerialPort.serialInitQueue,begun,Option.bind_some,if_pos poll]
  · rw [wrote,show output s₂ = output s from same]
    exact conserved_idle _
  · rw [show (SerialPort.writeIer s₂).buffer = s.buffer from kept]
    exact conserved_idle _

/-- An operation on one of the queues that comes to an end. -/
theorem onQueue_ok {e : IntQueue.Event Tid} {r : IntQueue.Result} {allowed : IntQueue.Call → Prop} (inv : IntQueue.Inv q)
    (only : IntQueue.Only allowed q) (calls : e.Only allowed) (thread : ∀ call, e ≠ .interrupt call)
    (may : IntQueue.Allowed q e) (ran : onQueue e q = some (r,q')) :
    IntQueue.Inv q' ∧ IntQueue.Only allowed q' ∧ Passes q r q' ∧ ∀ call byte, r = some (call,byte) → allowed call := by
  obtain ⟨_,performed,equal⟩ := Option.map_eq_some_iff.mp ran
  obtain ⟨rfl,rfl⟩ := Prod.mk.inj equal
  refine ⟨?_,only.perform inv calls performed,IntQueue.perform_passes inv performed,
    fun call byte gone => only.returned calls gone thread⟩
  rcases inv.perform may with ⟨failed,-⟩ | ⟨_,ran',inv',-⟩
  · rw [performed] at failed
    cases failed
  · rw [performed] at ran'
    cases ran'
    exact inv'

omit [DecidableEq Tid] in
theorem SameQueue.empty_iff (same : SameQueue q q') : intqEmpty q' ↔ intqEmpty q := by
  unfold intqEmpty
  rw [same.head,same.tail]

omit [DecidableEq Tid] in
theorem SameQueue.full_iff (same : SameQueue q q') : intqFull q' ↔ intqFull q := by
  unfold intqFull
  rw [same.head,same.tail]

/-- An operation of a thread on the transmit queue, and the register behind it. -/
theorem Inv.onTxq {e : IntQueue.Event Tid} {r : IntQueue.Result} (inv : Inv s) (mode : s.mode = .queue)
    (calls : e.Only fun call => ∃ byte, call = .putc byte) (thread : ∀ call, e ≠ .interrupt call) (may : IntQueue.Allowed s.txq e)
    (ran : onQueue e s.txq = some (r,q)) :
    Inv (if r.isSome then SerialPort.writeIer { s with txq := q } else { s with txq := q }) ∧
      Carries s ⟨putBytes r,[],[]⟩ (if r.isSome then SerialPort.writeIer { s with txq := q } else { s with txq := q }) := by
  obtain ⟨queue,puts,passes,kind⟩ := onQueue_ok inv.txq inv.puts calls thread may ran
  have core := inv.toCore.setTxq mode queue puts
  have silent : gotBytes r = [] := by
    cases r with
    | none => rfl
    | some out =>
      obtain ⟨call,byte⟩ := out
      obtain ⟨_,rfl⟩ := kind call byte rfl
      rfl
  have carried : Carries s ⟨putBytes r,[],[]⟩ { s with txq := q } := by
    refine ⟨?_,conserved_idle _⟩
    have passed := passes.passed
    rw [silent,List.nil_append] at passed
    rw [output,output,← passed,← List.append_assoc]
    exact conserved_enter _ _
  cases r with
  | none =>
    have same := passes.idle rfl
    refine ⟨⟨core,fun queue => ⟨fun some_ => ?_,(inv.enabled queue).recv⟩⟩,carried⟩
    exact (inv.enabled queue).xmit fun empty => some_ ((SameQueue.empty_iff same).mpr empty)
  | some out =>
    obtain ⟨inv',wrote⟩ := core.writeIer mode
    refine ⟨inv',⟨?_,carried.input⟩⟩
    change Conserved _ _ _ (output (SerialPort.writeIer _))
    rw [wrote]
    exact carried.output

/-- An operation of a thread on the input buffer, and the notice behind it. -/
theorem Inv.onBuffer {e : IntQueue.Event Tid} {m : Moved} (inv : Inv s) (calls : e.Only fun call => call = .getc)
    (thread : ∀ call, e ≠ .interrupt call) (may : IntQueue.Allowed s.buffer e) (ran : inputGetc e s = some (m,s')) :
    Inv s' ∧ Carries s m s' := by
  obtain ⟨⟨r,q⟩,ran,equal⟩ := Option.map_eq_some_iff.mp ran
  obtain ⟨queue,gets,passes,kind⟩ := onQueue_ok inv.buffer inv.gets calls thread may ran
  obtain ⟨rfl,rfl⟩ := Prod.mk.inj equal
  have core := inv.toCore.setBuffer queue gets
  have silent : putBytes r = [] := by
    cases r with
    | none => rfl
    | some out =>
      obtain ⟨call,byte⟩ := out
      obtain rfl := kind call byte rfl
      rfl
  have passed : Conserved (contents s.buffer) [] (gotBytes r) (contents q) := by
    have passed := passes.passed
    rwa [silent] at passed
  cases r with
  | none =>
    have same := passes.idle rfl
    refine ⟨⟨core,fun queue => ⟨(inv.enabled queue).xmit,?_⟩⟩,⟨conserved_idle _,passed⟩⟩
    exact (inv.enabled queue).recv.trans (not_congr (SameQueue.full_iff same).symm)
  | some out =>
    obtain ⟨inv',wrote,kept,-⟩ := core.notify
    refine ⟨inv',⟨?_,?_⟩⟩
    · change Conserved _ _ _ (output (serialNotify _))
      rw [wrote]
      exact conserved_idle _
    · change Conserved _ _ _ (contents (serialNotify _).buffer)
      rw [kept]
      exact passed

/-- A key that there is room for. -/
theorem Core.inputPutc (core : Core s) (room : ¬intqFull s.buffer) (key : UInt8) :
    ∃ s', inputPutc key s = some s' ∧ Inv s' ∧ Carries s ⟨[],[key],[]⟩ s' ∧ s'.mode = s.mode := by
  obtain ⟨q,stored,queue,more,pc⟩ := intqPutc_ok core.buffer room key
  have gets : IntQueue.Only (fun call => call = .getc) q := by
    intro t call here
    rw [pc] at here
    exact core.gets t call here
  obtain ⟨inv',wrote,kept,mode⟩ := (core.setBuffer queue gets).notify
  refine ⟨serialNotify { s with buffer := q },?_,inv',⟨?_,?_⟩,mode⟩
  · rw [SerialPort.inputPutc,if_neg room,stored]
    rfl
  · rw [wrote]
    exact conserved_idle _
  · rw [kept]
    change Conserved _ _ _ (contents q)
    rw [more]
    exact conserved_enter _ _

/-- The oldest byte goes from the queue to the port. -/
theorem Core.sendOldest (core : Core s) (mode : s.mode = .queue) (some_ : ¬intqEmpty s.txq) :
    ∃ byte q, intqGetc s.txq = some (byte,q) ∧ Core (putcPoll byte { s with txq := q }) ∧
      output (putcPoll byte { s with txq := q }) = output s ∧ ¬intqFull q ∧ contents s.txq = byte :: contents q := by
  obtain ⟨byte,q,got,queue,first,pc,room⟩ := intqGetc_ok core.txq some_
  have puts : IntQueue.Only (fun call => ∃ byte, call = .putc byte) q := by
    intro t call here
    rw [pc] at here
    exact core.puts t call here
  obtain ⟨core',wrote⟩ := (core.setTxq mode queue puts).send byte
  refine ⟨byte,q,got,core',?_,room,first⟩
  rw [output,output,wrote,first]
  change (s.uart.sent ++ [byte]) ++ contents q = _
  rw [List.append_assoc]
  rfl

theorem Core.makeRoom (core : Core s) (mode : s.mode = .queue) : ∃ s', makeRoom s = some s' ∧ Core s' ∧ s'.mode = .queue ∧
    output s' = output s ∧ s'.buffer = s.buffer ∧ ¬intqFull s'.txq := by
  unfold SerialPort.makeRoom
  split
  · rename_i full
    have some_ : ¬intqEmpty s.txq := by
      unfold intqEmpty intqFull IntQueue.next intqBufsize at *
      have bounds := core.txq.bounds
      unfold intqBufsize at bounds
      omega
    obtain ⟨oldest,q,got,core₁,same,space,-⟩ := core.sendOldest mode some_
    exact ⟨_,by rw [got]; rfl,core₁,mode,same,rfl,space⟩
  · rename_i space
    exact ⟨s,rfl,core,mode,rfl,rfl,space⟩

theorem Core.serialPutcOff (core : Core s) (mode : s.mode = .queue) (byte : UInt8) :
    ∃ s', serialPutcOff byte s = some (⟨[byte],[],[]⟩,s') ∧ Inv s' ∧ Carries s ⟨[byte],[],[]⟩ s' := by
  obtain ⟨s₁,first,core₁,mode₁,same,kept,space⟩ := core.makeRoom mode
  obtain ⟨q,stored,queue,more,pc⟩ := intqPutc_ok core₁.txq space byte
  have puts : IntQueue.Only (fun call => ∃ byte, call = .putc byte) q := by
    intro t call here
    rw [pc] at here
    exact core₁.puts t call here
  obtain ⟨inv',wrote⟩ := (core₁.setTxq mode₁ queue puts).writeIer mode₁
  refine ⟨_,?_,inv',?_,?_⟩
  · rw [SerialPort.serialPutcOff,if_pos mode,first,Option.bind_some,stored]
    rfl
  · rw [wrote,← same]
    change Conserved _ _ _ (s₁.uart.sent ++ contents q)
    rw [more,← List.append_assoc]
    exact conserved_enter _ _
  · change Conserved _ _ _ (contents s₁.buffer)
    rw [kept]
    exact conserved_idle _

/-- All bytes are taken, or as many as there is room for. -/
theorem Core.receive (core : Core s) (received : List UInt8) : ∃ entered s', receive received s = some (entered,s') ∧ Core s' ∧
    s'.mode = s.mode ∧ output s' = output s ∧ contents s'.buffer = contents s.buffer ++ entered ∧ entered <+: received ∧
      (entered = received ∨ intqFull s'.buffer) := by
  induction received generalizing s with
  | nil => exact ⟨[],s,rfl,core,rfl,rfl,(List.append_nil _).symm,List.nil_prefix,.inl rfl⟩
  | cons byte rest ih =>
    by_cases full : intqFull s.buffer
    · exact ⟨[],s,if_pos full,core,rfl,rfl,(List.append_nil _).symm,List.nil_prefix,.inr full⟩
    · obtain ⟨s₁,took,inv₁,carries,mode⟩ := core.inputPutc full byte
      obtain ⟨entered,s',ran,core',mode',same,more,front,all⟩ := ih inv₁.toCore
      refine ⟨byte :: entered,s',?_,core',mode'.trans mode,?_,?_,?_,?_⟩
      · rw [SerialPort.receive,if_neg full,took,Option.bind_some,ran]
        rfl
      · have sent := carries.output
        unfold Conserved at sent
        rw [same]
        simpa using sent.symm
      · have input := carries.input
        unfold Conserved at input
        rw [more,← List.nil_append (contents s₁.buffer),← input,List.append_assoc]
        rfl
      · exact List.prefix_cons_inj byte |>.mpr front
      · exact all.imp (congrArg _) id

theorem Core.transmit (core : Core s) (mode : s.mode = .queue) (ready : Nat) : ∃ s', transmit ready s = some s' ∧ Core s' ∧
    s'.mode = .queue ∧ output s' = output s ∧ s'.buffer = s.buffer := by
  induction ready generalizing s with
  | zero => exact ⟨s,rfl,core,mode,rfl,rfl⟩
  | succ n ih =>
    by_cases empty : intqEmpty s.txq
    · exact ⟨s,if_pos empty,core,mode,rfl,rfl⟩
    · obtain ⟨byte,q,got,core₁,same,-,-⟩ := core.sendOldest mode empty
      obtain ⟨s',ran,core',mode',same',kept⟩ := ih core₁ mode
      refine ⟨s',?_,core',mode',same'.trans same,kept⟩
      rw [SerialPort.transmit,if_neg empty,got]
      exact ran

theorem Core.serialInterrupt (core : Core s) (mode : s.mode = .queue) (received : List UInt8) (ready : Nat) :
    ∃ entered s', serialInterrupt received ready s = some (⟨[],entered,[]⟩,s') ∧ Inv s' ∧ Carries s ⟨[],entered,[]⟩ s' ∧
      entered <+: received ∧ (entered = received ∨ intqFull s'.buffer) := by
  obtain ⟨entered,s₁,took,core₁,mode₁,same₁,more,front,all⟩ := core.receive received
  obtain ⟨s₂,sent,core₂,mode₂,same₂,kept⟩ := core₁.transmit (mode₁.trans mode) ready
  obtain ⟨inv',wrote⟩ := core₂.writeIer mode₂
  refine ⟨entered,SerialPort.writeIer s₂,?_,inv',⟨?_,?_⟩,front,?_⟩
  · rw [SerialPort.serialInterrupt,took,Option.bind_some]
    change (SerialPort.transmit ready s₁).map _ = _
    rw [sent]
    rfl
  · rw [wrote,same₂,same₁]
    exact conserved_idle _
  · change Conserved _ _ _ (contents s₂.buffer)
    rw [kept,more]
    exact conserved_enter _ _
  · change _ ∨ intqFull s₂.buffer
    rw [kept]
    exact all

omit [DecidableEq Tid] in
theorem empty_iff (bounds : q.head < intqBufsize ∧ q.tail < intqBufsize) : intqEmpty q ↔ contents q = [] := by
  rw [contents,List.map_eq_nil_iff,List.range_eq_nil]
  unfold intqEmpty IntQueue.stored intqBufsize at *
  omega

theorem Core.serialFlush (core : Core s) (mode : s.mode = .queue) (enough : (contents s.txq).length < n) :
    ∃ s', serialFlush n s = some s' ∧ Core s' ∧ s'.mode = .queue ∧ output s' = output s ∧ intqEmpty s'.txq ∧
      s'.buffer = s.buffer ∧ s'.uart.ier = s.uart.ier := by
  induction n generalizing s with
  | zero => exact absurd enough (Nat.not_lt_zero _)
  | succ n ih =>
    by_cases empty : intqEmpty s.txq
    · exact ⟨s,if_pos empty,core,mode,rfl,empty,rfl,rfl⟩
    · obtain ⟨byte,q,got,core₁,same,-,first⟩ := core.sendOldest mode empty
      have fewer : (contents q).length < n := by
        rw [first,List.length_cons] at enough
        omega
      obtain ⟨s',ran,core',mode',same',drained,kept,masks⟩ := ih core₁ mode fewer
      refine ⟨s',?_,core',mode',same'.trans same,drained,kept,masks.trans ?_⟩
      · rw [SerialPort.serialFlush,if_neg empty,got]
        exact ran
      · have wrote : (putcPoll byte { s with txq := q }).uart = { s.uart with sent := s.uart.sent ++ [byte] } := out_thr core.dlab byte
        rw [wrote]

/-- The port has all bytes after a flush. -/
theorem Inv.serialFlush (inv : Inv s) : ∃ s', serialFlush intqBufsize s = some s' ∧ Inv s' ∧ Carries s nothing s' ∧
    intqEmpty s'.txq := by
  by_cases mode : s.mode = .queue
  · have few : (contents s.txq).length < intqBufsize := by
      rw [contents,List.length_map,List.length_range]
      exact IntQueue.stored_lt _
    obtain ⟨s',ran,core',mode',same,drained,kept,masks⟩ := inv.toCore.serialFlush mode few
    refine ⟨s',ran,⟨core',fun _ => ⟨fun some_ => absurd drained some_,?_⟩⟩,⟨?_,?_⟩,drained⟩
    · rw [masks,kept]
      exact (inv.enabled mode).recv
    · rw [same]
      exact conserved_idle _
    · rw [kept]
      exact conserved_idle _
  · have empty : intqEmpty s.txq := by rw [inv.early mode]; rfl
    exact ⟨s,if_pos empty,inv,⟨conserved_idle _,conserved_idle _⟩,empty⟩

/-- A keyboard interrupt enters its character where there is room. -/
theorem Inv.keyboardInterrupt (inv : Inv s) (first second : UInt8) (goes : Keyboard.interpret s.kbd first second ≠ .reboot) :
    ∃ m s', keyboardInterrupt first second s = some (m,s') ∧ Inv s' ∧ Carries s m s' := by
  unfold SerialPort.keyboardInterrupt
  split
  · rename_i reboots
    exact absurd reboots goes
  · rename_i kbd interpreted
    exact ⟨nothing,_,rfl,⟨⟨inv.txq,inv.buffer,inv.puts,inv.gets,inv.early,inv.dlab,inv.line,inv.masked⟩,
      fun mode => ⟨(inv.enabled mode).xmit,(inv.enabled mode).recv⟩⟩,conserved_idle _,conserved_idle _⟩
  · rename_i c interpreted
    split
    · exact ⟨nothing,s,rfl,inv,conserved_idle _,conserved_idle _⟩
    · rename_i room
      have counted : Core { s with kbd := { s.kbd with keyCnt := s.kbd.keyCnt + 1 } } :=
        ⟨inv.txq,inv.buffer,inv.puts,inv.gets,inv.early,inv.dlab,inv.line,inv.masked⟩
      obtain ⟨s',took,inv',carries,-⟩ := counted.inputPutc room c
      exact ⟨⟨[],[c],[]⟩,s',by rw [took]; rfl,inv',carries.output,carries.input⟩

/-- One event, taken apart by what it calls. -/
theorem Inv.step {m : Moved} (inv : Inv s) (step : Step s (e,m) s') : Inv s' ∧ Carries s m s' := by
  obtain ⟨may,ran⟩ := step
  cases e with
  | initQueue =>
    obtain ⟨s₁,done,inv',carries⟩ := inv.toCore.serialInitQueue may
    simp only [perform,done,Option.map_some,Option.some.injEq,Prod.mk.injEq] at ran
    obtain ⟨rfl,rfl⟩ := ran
    exact ⟨inv',carries⟩
  | putc t byte =>
    simp only [perform,serialPutc] at ran
    split at ran
    · rename_i mode
      obtain ⟨⟨r,q⟩,done,equal⟩ := Option.map_eq_some_iff.mp ran
      obtain ⟨rfl,rfl⟩ := Prod.mk.inj equal
      exact inv.onTxq (e := .call t (.putc byte)) mode ⟨byte,rfl⟩ nofun may.1 done
    · rename_i mode
      obtain ⟨s₁,done,inv',carries⟩ := inv.toCore.serialPutcPoll mode byte
      simp only [done,Option.map_some,Option.some.injEq,Prod.mk.injEq] at ran
      obtain ⟨rfl,rfl⟩ := ran
      exact ⟨inv',carries⟩
  | putcOff byte =>
    by_cases mode : s.mode = .queue
    · obtain ⟨s₁,done,inv',carries⟩ := inv.toCore.serialPutcOff mode byte
      simp only [perform,done,Option.some.injEq,Prod.mk.injEq] at ran
      obtain ⟨rfl,rfl⟩ := ran
      exact ⟨inv',carries⟩
    · obtain ⟨s₁,done,inv',carries⟩ := inv.toCore.serialPutcPoll mode byte
      simp only [perform,serialPutcOff,if_neg mode,done,Option.map_some,Option.some.injEq,Prod.mk.injEq] at ran
      obtain ⟨rfl,rfl⟩ := ran
      exact ⟨inv',carries⟩
  | runPutc t =>
    have mode : s.mode = .queue := by
      by_contra other
      refine may.1 ?_
      rw [inv.early other]
      rfl
    obtain ⟨⟨r,q⟩,done,equal⟩ := Option.map_eq_some_iff.mp ran
    obtain ⟨rfl,rfl⟩ := Prod.mk.inj equal
    exact inv.onTxq (e := .run t) mode trivial nofun may done
  | flush =>
    obtain ⟨s₁,done,inv',carries,-⟩ := inv.serialFlush
    simp only [perform,done,Option.map_some,Option.some.injEq,Prod.mk.injEq] at ran
    obtain ⟨rfl,rfl⟩ := ran
    exact ⟨inv',carries⟩
  | getc t => exact inv.onBuffer (e := .call t .getc) rfl nofun may.2 ran
  | runGetc t => exact inv.onBuffer (e := .run t) trivial nofun may ran
  | serial received ready =>
    obtain ⟨entered,s₁,done,inv',carries,-⟩ := inv.toCore.serialInterrupt may received ready
    simp only [perform,done,Option.some.injEq,Prod.mk.injEq] at ran
    obtain ⟨rfl,rfl⟩ := ran
    exact ⟨inv',carries⟩
  | keyboard first second =>
    by_cases reboots : Keyboard.interpret s.kbd first second = .reboot
    · simp only [perform,SerialPort.keyboardInterrupt,reboots] at ran
      cases ran
    · obtain ⟨m',s₁,done,inv',carries⟩ := inv.keyboardInterrupt first second reboots
      simp only [perform,done,Option.some.injEq,Prod.mk.injEq] at ran
      obtain ⟨rfl,rfl⟩ := ran
      exact ⟨inv',carries⟩

/-- An assertion fails only where one of the queues lets a thread run on into a wait that is not due. -/
theorem Inv.fails (inv : Inv s) (may : Allowed s e) (failed : perform e s = none) :
    (∃ t, e = .runPutc t ∧ ¬IntQueue.Current s.txq (.run t)) ∨ (∃ t, e = .runGetc t ∧ ¬IntQueue.Current s.buffer (.run t)) ∨
      ∃ first second, e = .keyboard first second ∧ Keyboard.interpret s.kbd first second = .reboot := by
  have queued {q : IntQueue.State Tid} {e : IntQueue.Event Tid} (queue : IntQueue.Inv q) (may : IntQueue.Allowed q e)
      (failed : onQueue e q = none) : ¬IntQueue.Current q e := by
    rcases queue.perform may with ⟨-,stale⟩ | ⟨q',ran,-,-⟩
    · exact stale
    · rw [onQueue,ran] at failed
      cases failed
  cases e with
  | initQueue =>
    obtain ⟨s₁,done,-⟩ := inv.toCore.serialInitQueue may
    simp [perform,done] at failed
  | putc t byte =>
    simp only [perform,serialPutc] at failed
    split at failed
    · exact absurd trivial (queued (e := .call t (.putc byte)) inv.txq may.1 (Option.map_eq_none_iff.mp failed))
    · rename_i mode
      obtain ⟨s₁,done,-⟩ := inv.toCore.serialPutcPoll mode byte
      simp [done] at failed
  | putcOff byte =>
    by_cases mode : s.mode = .queue
    · obtain ⟨s₁,done,-⟩ := inv.toCore.serialPutcOff mode byte
      simp [perform,done] at failed
    · obtain ⟨s₁,done,-⟩ := inv.toCore.serialPutcPoll mode byte
      simp [perform,serialPutcOff,mode,done] at failed
  | runPutc t => exact .inl ⟨t,rfl,queued inv.txq may (Option.map_eq_none_iff.mp failed)⟩
  | flush =>
    obtain ⟨s₁,done,-⟩ := inv.serialFlush
    simp [perform,done] at failed
  | getc t => exact absurd trivial (queued (e := .call t .getc) inv.buffer may.2 (Option.map_eq_none_iff.mp failed))
  | runGetc t => exact .inr (.inl ⟨t,rfl,queued inv.buffer may (Option.map_eq_none_iff.mp failed)⟩)
  | serial received ready =>
    obtain ⟨entered,s₁,done,-⟩ := inv.toCore.serialInterrupt may received ready
    simp [perform,done] at failed
  | keyboard first second =>
    by_cases reboots : Keyboard.interpret s.kbd first second = .reboot
    · exact .inr (.inr ⟨first,second,rfl,reboots⟩)
    · obtain ⟨m',s₁,done,-⟩ := inv.keyboardInterrupt first second reboots
      simp [perform,done] at failed

/-- A run from a reset on, newest event first, with what each event moved. -/
abbrev Reaches (uart : Uart) (h : List (Event Tid × Moved)) (s : State Tid) : Prop :=
  Path (fun _ s e s' => Step s e s') [] (start uart) h s

theorem reaches_inv {h : List (Event Tid × Moved)} (path : Reaches uart h s) : Inv s :=
  path.invariant (fun _ s => Inv s) (fun _ _ _ _ inv step => (inv.step step).1) (start_inv uart)

theorem path_output {h : List (Event Tid × Moved)} (path : Reaches uart h s) : values (fun e => e.2.put) h = output s := by
  have kept := conserved (fun e : Event Tid × Moved => e.2.put) (fun _ => []) output
    (fun _ _ _ _ front last => ((reaches_inv front).step last).2.output) path
  have none_ (h : List (Event Tid × Moved)) : values (fun _ => ([] : List UInt8)) h = [] := by
    induction h with
    | nil => rfl
    | cons e h ih => rw [values,ih,List.append_nil]
  have first : output (start uart : State Tid) = [] := contents_init
  rw [none_,first] at kept
  exact kept

def operate (e : Event Tid) (s : State Tid) : Option ((Event Tid × Moved) × State Tid) :=
  if Allowed s e then (perform e s).map fun (m,s') => ((e,m),s') else none

theorem operate_step {l : Event Tid × Moved} (ran : operate e s = some (l,s')) : Step s l s' := by
  unfold operate at ran
  split at ran
  · rename_i may
    obtain ⟨⟨m,s₁⟩,done,equal⟩ := Option.map_eq_some_iff.mp ran
    cases equal
    exact ⟨may,done⟩
  · cases ran

/-- A reader waits; a byte is printed before the queue is set up and two after that; a letter is typed. -/
def session : List (Event Bool) :=
  [.getc false,.putc true 72,.initQueue,.putc true 105,.putcOff 33,.keyboard 0x2a 0,.keyboard 0x1e 0,.serial [10] 1,
    .runGetc false]

def afterSession : List (Event Bool × Moved) × State Bool :=
  arrive operate (fun _ _ _ => True) (start ⟨0,0,0,0,0,0,[]⟩) session

theorem afterSession_path : Reaches ⟨0,0,0,0,0,0,[]⟩ afterSession.1 afterSession.2 :=
  arrive_path (fun _ _ _ _ _ ran _ => operate_step ran) (by decide)

/-- Every byte of a completed `serial_putc` has gone to the port or is in the queue, in the order of the
calls, and every byte that `input_getc` returned came from the port or the keyboard, in the order in which
they came; the others are in the buffer. -/
theorem bytes_inOrder {h : List (Event Tid × Moved)} (path : Reaches uart h s) :
    values (fun e => e.2.put) h = s.uart.sent ++ contents s.txq ∧
      values (fun e => e.2.entered) h = values (fun e => e.2.got) h ++ contents s.buffer := by
  refine ⟨path_output path,?_⟩
  have kept := conserved (fun e : Event Tid × Moved => e.2.entered) (fun e => e.2.got)
    (fun s : State Tid => contents s.buffer) (fun _ _ _ _ front last => ((reaches_inv front).step last).2.input) path
  have first : contents (start uart : State Tid).buffer = [] := contents_init
  rw [first] at kept
  exact kept

theorem bytes_inOrder_session : afterSession.2.uart.sent ++ contents afterSession.2.txq = [72,105,33] ∧
    values (fun e => e.2.got) afterSession.1 = [65] :=
  ⟨(bytes_inOrder afterSession_path).1.symm.trans (by decide),by decide⟩

/-- From the moment the queue is set up, whenever interrupts are on the port interrupts if there is something
to send, and it interrupts for what comes in exactly while there is room for it, so that no byte is left behind;
a handler takes what it can; the line stays set up; a flush leaves nothing behind. No handler and no first attempt
of a call fails an assertion. -/
theorem interrupts_enabled {h : List (Event Tid × Moved)} (path : Reaches uart h s) :
    (s.mode = .queue → Enabled s ∧ Line s.uart ∧ ∀ received ready, ∃ entered s', perform (.serial received ready) s =
      some (⟨[],entered,[]⟩,s') ∧ entered <+: received ∧ (entered = received ∨ intqFull s'.buffer)) ∧
    (∃ s', perform .flush s = some (nothing,s') ∧ s'.uart.sent = values (fun e => e.2.put) h) ∧
    ∀ e, Allowed s e → perform e s = none →
      (∃ t, e = .runPutc t ∧ ¬IntQueue.Current s.txq (.run t)) ∨ (∃ t, e = .runGetc t ∧ ¬IntQueue.Current s.buffer (.run t)) ∨
        ∃ first second, e = .keyboard first second ∧ Keyboard.interpret s.kbd first second = .reboot := by
  have inv := reaches_inv path
  refine ⟨fun mode => ⟨inv.enabled mode,inv.line (by simp [mode]),fun received ready => ?_⟩,?_,fun e may => inv.fails may⟩
  · obtain ⟨entered,s',ran,-,-,front,all⟩ := inv.toCore.serialInterrupt mode received ready
    exact ⟨entered,s',ran,front,all⟩
  · obtain ⟨s',ran,inv',carries,drained⟩ := inv.serialFlush
    refine ⟨s',by rw [perform,ran]; rfl,?_⟩
    have sent := carries.output
    have empty := (empty_iff inv'.txq.bounds).mp drained
    rw [Conserved,output,output,empty] at sent
    rw [path_output path]
    simpa [nothing,output] using sent.symm

theorem interrupts_enabled_session : Enabled afterSession.2 :=
  ((interrupts_enabled afterSession_path).1 (by decide)).1

end

end OsProj.SerialPort
