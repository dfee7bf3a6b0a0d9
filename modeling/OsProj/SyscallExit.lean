import OsProj.History
import OsProj.SyscallLocks

/-! Runs of the kernel, and the locks of a thread that a page fault on a buffer ends. -/
namespace OsProj.Syscall

open OsProj.History OsProj.Stopping OsProj.UserMemory

section
variable {k k' : Kernel} {l : Locks} {t : Nat} {ram : Ram} {s : Process}

/-! Runs of the kernel. Threads take turns; between two turns a process may change its memory
and the page directory, so a turn starts from any of these. -/

inductive Action where
  | syscall (services : Services) (esp : Nat)
  | fault (a : Nat)

structure Turn where
  thread : Nat
  process : Process
  openFile : Option OpenFile
  action : Action

def Turn.perform (ram : Ram) (e : Turn) : M Unit :=
  match e.action with
  | .syscall services esp => do
    let _ ← syscallHandler e.thread ram services esp
    return ()
  | .fault a => pageFault e.thread true a

/-- The threads that have exited or wait for good, and the locks. -/
structure System where
  gone : List Nat
  locks : Locks

def booted : System := ⟨[],freeLocks⟩

def Step (ram : Ram) (_ : List Turn) (s : System) (e : Turn) (s' : System) : Prop :=
  e.thread ∉ s.gone ∧ ∃ k,
    (e.perform ram (.enter s.locks e.process e.openFile) = (.ok (),k) ∧ s' = ⟨s.gone,k.locks⟩) ∨
    ∃ stopped ≠ .panicked, e.perform ram (.enter s.locks e.process e.openFile) = (.error stopped,k) ∧
      s' = ⟨e.thread :: s.gone,k.locks⟩

/-- Locks are held by threads that are gone. -/
structure Settled (s : System) : Prop where
  flat : s.locks.consoleLockDepth = 0
  holder : ∀ lock t, s.locks.holder lock = some t → t ∈ s.gone

theorem Settled.other {s : System} (settled : Settled s) (alive : t ∉ s.gone) (lock : Lock) :
    s.locks.holder lock ≠ some t := fun held => alive (settled.holder lock t held)

theorem balanced_perform {e : Turn} (flat : l.consoleLockDepth = 0) (other : l.holder .console ≠ some e.thread) :
    Balanced e.thread l (e.perform ram) := by
  unfold Turn.perform
  split
  · exact (balanced_handler flat other).bind fun _ => .of_keeps flat (keeps_pure _)
  · exact .of_keeps flat (locked_calm flat).pageFault

theorem Step.settled {s s' : System} (settled : Settled s) (step : Step ram h s e s') : Settled s' := by
  obtain ⟨alive,k,outcome⟩ := step
  rcases balanced_perform settled.flat (settled.other alive .console) (.enter s.locks e.process e.openFile) rfl with
    ⟨_,k',ran,same⟩ | ⟨stop,k',ran,held⟩
  · rcases outcome with ⟨ran',rfl⟩ | ⟨_,_,ran',_⟩
    · obtain ⟨_,rfl⟩ := Prod.mk.inj (ran.symm.trans ran')
      rw [same]
      exact settled
    · exact absurd (congrArg Prod.fst (ran.symm.trans ran')) (by simp)
  · rcases outcome with ⟨ran',_⟩ | ⟨_,_,ran',rfl⟩
    · exact absurd (congrArg Prod.fst (ran.symm.trans ran')) (by simp)
    · obtain ⟨_,rfl⟩ := Prod.mk.inj (ran.symm.trans ran')
      refine ⟨held.depth,fun lock t holds => ?_⟩
      rcases held.holder lock with kept | mine
      · exact List.mem_cons_of_mem _ (settled.holder lock t (kept.symm.trans holds))
      · rw [mine] at holds
        obtain rfl := Option.some.inj holds
        exact List.mem_cons_self

theorem run_settled {s : System} (run : Path (Step ram) [] booted h s) : Settled s := by
  apply run.invariant (fun _ s => Settled s) fun _ _ _ _ settled step => Step.settled settled step
  exact ⟨rfl,by simp [booted,freeLocks]⟩

/-! A call with a buffer. -/

structure BufferCall (ram : Ram) (s : Process) (esp : Nat) (reading : Bool) (fd buffer size : Nat) : Prop where
  room : arg esp 0 + 16 ≤ physBase
  number : userWord ram s (arg esp 0) = some (if reading then sysRead else sysWrite)
  descriptor : userWord ram s (arg esp 1) = some fd
  address : userWord ram s (arg esp 2) = some buffer
  length : userWord ram s (arg esp 3) = some size
  user : buffer < physBase
  below : buffer + size ≤ physBase

def transfer (t : Nat) (ram : Ram) (services : Services) (reading : Bool) (fd buffer size : Nat) : M Nat :=
  if reading then syscallRead t ram services fd buffer size
  else syscallWrite t ram services fd buffer size

/-- What happens before a call accesses its buffer: the arguments are read. -/
theorem dispatch_arguments (which : number = sysWrite ∨ number = sysRead)
    (call : BufferCall ram k.process esp reading fd buffer size) :
    dispatch t ram services esp number k =
      (if number = sysWrite then syscallWrite t ram services fd buffer size >>= fun a => pure (some a)
        else syscallRead t ram services fd buffer size >>= fun a => pure (some a) : M (Option Nat))
          (((k.logWord (arg esp 2)).logWord (arg esp 3)).logWord (arg esp 1)) := by
  have room := call.room
  have args : arg esp 1 = arg esp 0 + 4 := arg_one (by omega)
  have noExit : number ≠ sysExit := by rcases which with rfl | rfl <;> decide
  have noOpen : number ≠ sysOpen := by rcases which with rfl | rfl <;> decide
  have length : userWord ram (k.logWord (arg esp 2)).process (arg esp 3) = some size := by
    rw [logWord_process]
    exact call.length
  have descriptor : userWord ram ((k.logWord (arg esp 2)).logWord (arg esp 3)).process (arg esp 1) = some fd := by
    rw [logWord_process,logWord_process]
    exact call.descriptor
  rw [dispatch,if_neg noExit,if_neg noOpen,if_pos which]
  apply (bind_go (validateBuffer_go (by omega) (by omega))).trans
  apply (bind_go (loadWord_some call.address)).trans
  apply (bind_go (loadWord_some length)).trans
  apply (bind_go (validateBuffer_go call.user call.below)).trans
  exact bind_go (loadWord_some descriptor)

theorem dispatch_transfer (call : BufferCall ram k.process esp reading fd buffer size) :
    dispatch t ram services esp (if reading then sysRead else sysWrite) k =
      (transfer t ram services reading fd buffer size >>= fun a => pure (some a))
        (((k.logWord (arg esp 2)).logWord (arg esp 3)).logWord (arg esp 1)) := by
  cases reading with
  | true => exact (dispatch_arguments (.inr rfl) call).trans (by rw [if_neg (by decide)]; rfl)
  | false => exact (dispatch_arguments (.inl rfl) call).trans (by rw [if_pos rfl]; rfl)

/-- A call that stops has stopped in the transfer. -/
theorem handler_killed (call : BufferCall ram s esp reading fd buffer size)
    (killed : syscallHandler t ram services esp (.enter l s f) = (.error e,k)) :
    ∃ k', k'.locks = l ∧ k'.process = s ∧ k'.openFile = f ∧
      transfer t ram services reading fd buffer size k' = (.error e,k) := by
  have room := call.room
  have returns (a : Option Nat) (k : Kernel) : ∃ b k', ((Stopping.modify fun k => { k with inSyscall := false }) >>=
      fun _ => pure a : M (Option Nat)) k = (.ok b,k') := ⟨_,_,rfl⟩
  rw [handler_entered,bind_go (validateBuffer_go (by omega) (by omega)),bind_go (loadWord_some call.number)] at killed
  have dispatched := stop_first returns killed
  rw [dispatch_transfer (k := (Kernel.enter l s f).entered.logWord (arg esp 0)) call] at dispatched
  exact ⟨_,rfl,rfl,rfl,stop_first (fun _ _ => ⟨_,_,rfl⟩) dispatched⟩

/-- The call is one on the open file, and the first byte that cannot be accessed belongs to a
sector that the transfer covers in part. -/
def FaultsInPart (ram : Ram) (s : Process) (f : Option OpenFile) (reading : Bool) (fd buffer size : Nat) : Prop :=
  fd = 2 ∧ ∃ file, f = some file ∧ ∃ i, FirstFault ram s reading buffer (moved file size) i ∧
    ¬ InWholeSector file.pos (moved file size) i

theorem FirstFault.unique (first : FirstFault ram s write buffer n i) (second : FirstFault ram s write buffer n j) :
    i = j := by
  obtain ⟨_,away,before⟩ := first
  obtain ⟨_,away',before'⟩ := second
  rcases Nat.lt_trichotomy i j with less | equal | more
  · have found := before' i less
    rw [away] at found
    exact absurd found (by simp)
  · exact equal
  · have found := before j more
    rw [away'] at found
    exact absurd found (by simp)

/-- The locks after a fault in a transfer of the open file. -/
theorem Transferred.holds_none (transferred : Transferred t ram l s write pos buffer n l')
    (other : ∀ lock, l.holder lock ≠ some t) :
    (∀ lock, l'.holder lock ≠ some t) ↔ ∃ i, FirstFault ram s write buffer n i ∧ ¬ InWholeSector pos n i := by
  obtain ⟨i,fault,whole,part⟩ := transferred
  constructor
  · intro none_
    refine ⟨i,fault,fun inWhole => none_ .channel ?_⟩
    rw [whole inWhole]
    exact setHolder_self
  · rintro ⟨j,fault',inPart⟩
    obtain rfl := fault.unique fault'
    rw [part inPart]
    exact other

theorem Outcome.killed (outcome : Outcome t ram l s write pos buffer n k' x)
    (killed : x k' = (.error (.exited status),k)) : Transferred t ram l s write pos buffer n k.locks := by
  rcases outcome with ⟨a,k1,ran,_⟩ | ⟨e,k1,ran,_,faults⟩
  · exact absurd (congrArg Prod.fst (ran.symm.trans killed)) (by simp)
  · obtain ⟨same,rfl⟩ := Prod.mk.inj (ran.symm.trans killed)
    exact faults status (Except.error.inj same)

theorem not_returned (killed : (pure a : M α) k' = (.error e,k)) : False := by
  have same := congrArg Prod.fst killed
  simp [pure] at same

/-- A transfer of the open file that a fault ended. -/
theorem file_killed (other : ∀ lock, l.holder lock ≠ some t) (opened : f = some file)
    (outcome : Outcome t ram l s reading file.pos buffer (moved file size) k' x)
    (killed : x k' = (.error (.exited status),k)) :
    (∀ lock, k.locks.holder lock ≠ some t) ↔ FaultsInPart ram s f reading 2 buffer size := by
  rw [(outcome.killed killed).holds_none other]
  constructor
  · intro faults
    exact ⟨rfl,file,opened,faults⟩
  · rintro ⟨_,file',same,faults⟩
    obtain rfl := Option.some.inj (opened.symm.trans same)
    exact faults

theorem read_killed (flat : k'.locks.consoleLockDepth = 0) (other : ∀ lock, k'.locks.holder lock ≠ some t)
    (killed : syscallRead t ram services fd buffer size k' = (.error (.exited status),k)) :
    (∀ lock, k.locks.holder lock ≠ some t) ↔ FaultsInPart ram k'.process k'.openFile true fd buffer size := by
  unfold syscallRead at killed
  split at killed
  · exact (not_returned killed).elim
  rename_i descriptor
  obtain rfl := not_not.mp descriptor
  rw [get_bind] at killed
  cases file : k'.openFile with
  | none =>
    rw [file] at killed
    exact (not_returned killed).elim
  | some opened =>
    rw [file] at killed
    exact file_killed other rfl (fileRead_outcome flat ⟨rfl,rfl⟩) killed

theorem write_killed (flat : k'.locks.consoleLockDepth = 0) (other : ∀ lock, k'.locks.holder lock ≠ some t)
    (killed : syscallWrite t ram services fd buffer size k' = (.error (.exited status),k)) :
    (∀ lock, k.locks.holder lock ≠ some t) ↔ FaultsInPart ram k'.process k'.openFile false fd buffer size := by
  unfold syscallWrite at killed
  split at killed
  · rename_i console
    have put := stop_first (fun _ _ => ⟨_,_,rfl⟩) killed
    rcases putbuf_outcome flat (other .console) rfl with ⟨k1,ran,_⟩ | ⟨e,k1,ran,_,holds⟩
    · exact absurd (congrArg Prod.fst (ran.symm.trans put)) (by simp)
    · obtain ⟨same,rfl⟩ := Prod.mk.inj (ran.symm.trans put)
      have held := holds status (Except.error.inj same)
      refine ⟨fun none_ => absurd held (none_ .console),?_⟩
      rintro ⟨two,_⟩
      exact absurd (console.symm.trans two) (by decide)
  split at killed
  · exact (not_returned killed).elim
  rename_i descriptor
  obtain rfl := not_not.mp descriptor
  rw [get_bind] at killed
  cases file : k'.openFile with
  | none =>
    rw [file] at killed
    exact (not_returned killed).elim
  | some opened =>
    rw [file] at killed
    exact file_killed other rfl (fileWrite_outcome flat ⟨rfl,rfl⟩) killed

/-- A thread that a page fault on its buffer ends holds no lock if and only if the fault is in
a sector of the open file that is transferred in part: the console is held while a buffer is
printed, and the channel while a sector is moved whole. -/
theorem killed_holds_no_lock (run : Path (Step ram) [] booted h sys) (alive : t ∉ sys.gone)
    (call : BufferCall ram s esp reading fd buffer size)
    (killed : syscallHandler t ram services esp (.enter sys.locks s f) = (.error (.exited status),k)) :
    (∀ lock, k.locks.holder lock ≠ some t) ↔ FaultsInPart ram s f reading fd buffer size := by
  have settled := run_settled run
  obtain ⟨k',locked,rfl,rfl,ended⟩ := handler_killed call killed
  have flat : k'.locks.consoleLockDepth = 0 := by
    rw [locked]
    exact settled.flat
  have other lock : k'.locks.holder lock ≠ some t := by
    rw [locked]
    exact settled.other alive lock
  cases reading with
  | true => exact read_killed flat other ended
  | false => exact write_killed flat other ended

end

/-! A thread with a buffer below its program, where no page is mapped. -/

def exitStatus : Except Stop α → Option Int
  | .error (.exited status) => some status
  | _ => none

theorem exitStatus_some (exited : exitStatus r = some status) : r = .error (.exited status) := by
  unfold exitStatus at exited
  split at exited
  · rw [Option.some.inj exited]
  · exact absurd exited (by simp)

def bufferCall (number fd size : Nat) : Process := stackProcess (stackBytes [number,fd,134512640,size] 0)

def thousandBytes : OpenFile := ⟨1000,fun _ => 7,0,false⟩

/-- The kernel after thread 1 has made a call from the start of its stack page. -/
def called (s : Process) (f : Option OpenFile) : Except Stop (Option Nat) × Kernel :=
  syscallHandler 1 oneFrame noServices stackPage (.enter booted.locks s f)

/-- Part of a sector: the fault leaves no lock behind. -/
theorem killed_holds_no_lock_part :
    let outcome := called (bufferCall sysRead 2 100) (some thousandBytes)
    Path (Step oneFrame) [] booted [] booted ∧ 1 ∉ booted.gone ∧
      outcome.1 = .error (.exited (-1)) ∧ outcome.2.locks.holder .console = none ∧
      ((∀ lock, outcome.2.locks.holder lock ≠ some 1) ↔
        FaultsInPart oneFrame (bufferCall sysRead 2 100) (some thousandBytes) true 2 134512640 100) := by
  intro outcome
  have exited : outcome.1 = .error (.exited (-1)) := exitStatus_some (by decide +kernel)
  have call : BufferCall oneFrame (bufferCall sysRead 2 100) stackPage true 2 134512640 100 :=
    ⟨by decide,by decide +kernel,by decide +kernel,by decide +kernel,by decide +kernel,by decide,by decide⟩
  exact ⟨.refl,by decide,exited,by decide +kernel,killed_holds_no_lock .refl (by decide) call (Prod.ext exited rfl)⟩

/-- Printing a buffer: the thread is gone and the console is still its own, so the next
thread that prints waits for good. -/
theorem killed_holds_console :
    let outcome := called (bufferCall sysWrite 1 1) none
    Path (Step oneFrame) [] booted [] booted ∧ 1 ∉ booted.gone ∧
      BufferCall oneFrame (bufferCall sysWrite 1 1) stackPage false 1 134512640 1 ∧
      outcome.1 = .error (.exited (-1)) ∧ outcome.2.locks.holder .console = some 1 ∧
      (printf 2 outcome.2).1.toOption = none := by
  intro outcome
  have exited : outcome.1 = .error (.exited (-1)) := exitStatus_some (by decide +kernel)
  have call : BufferCall oneFrame (bufferCall sysWrite 1 1) stackPage false 1 134512640 1 :=
    ⟨by decide,by decide +kernel,by decide +kernel,by decide +kernel,by decide +kernel,by decide,by decide⟩
  exact ⟨.refl,by decide,call,exited,by decide +kernel,by decide +kernel⟩

end OsProj.Syscall
