import OsProj.Syscall

/-! Addresses that a system call accesses through user pointers. -/
namespace OsProj.Syscall

open OsProj.ByteMemory OsProj.Stopping OsProj.UserMemory

def Kernel.log (k : Kernel) (a : Nat) : Kernel := { k with accesses := a :: k.accesses }

def userByte (ram : Ram) (s : Process) (a : Nat) : Option UInt8 := (translate ram s false a).map s.mem

def userWord (ram : Ram) (s : Process) (a : Nat) : Option Nat := do
  let b0 ← userByte ram s a
  let b1 ← userByte ram s (a + 1)
  let b2 ← userByte ram s (a + 2)
  let b3 ← userByte ram s (a + 3)
  return b0.toNat + 256 * b1.toNat + 65536 * b2.toNat + 16777216 * b3.toNat

section
variable {k k' : Kernel} {t : Nat} {ram : Ram}

theorem stops_syscallExit : Stops (syscallExit (α := α) t status) :=
  stops_bind fun _ => stops_stop _

theorem stops_pageFault : Stops (pageFault (α := α) t user a) := by
  apply stops_bind
  intro k
  split
  · exact stops_syscallExit
  · split
    · exact stops_syscallExit
    · exact stops_bind fun _ => stops_stop _

theorem access_some (here : translate ram k.process write a = some place) :
    access t ram write a k = (.ok place,k.log a) := by
  have same : translate ram (k.log a).process write a = some place := here
  apply bind_go rfl |>.trans
  apply bind_go rfl |>.trans
  simp only [Kernel.log] at *
  rw [same]
  rfl

theorem access_none (away : translate ram k.process write a = none) :
    access t ram write a k = pageFault t false a (k.log a) := by
  have same : translate ram (k.log a).process write a = none := away
  apply bind_go rfl |>.trans
  apply bind_go rfl |>.trans
  simp only [Kernel.log] at *
  rw [same]

theorem loadUser_some (here : userByte ram k.process a = some b) :
    loadUser t ram a k = (.ok b,k.log a) := by
  obtain ⟨place,found,rfl⟩ := Option.map_eq_some_iff.mp here
  exact bind_go (access_some found)

theorem loadUser_ok (loaded : loadUser t ram a k = (.ok b,k')) :
    userByte ram k.process a = some b ∧ k' = k.log a := by
  cases found : translate ram k.process false a with
  | none =>
    obtain ⟨place,k1,first,_⟩ := bind_ok.mp loaded
    rw [access_none found] at first
    exact (stops_pageFault.not_ok first).elim
  | some place =>
    have here : userByte ram k.process a = some (k.process.mem place) := by simp [userByte,found]
    rw [loadUser_some here] at loaded
    obtain ⟨same,rfl⟩ := Prod.mk.inj loaded
    obtain rfl := Except.ok.inj same
    exact ⟨here,rfl⟩

def Kernel.logWord (k : Kernel) (a : Nat) : Kernel := (((k.log a).log (a + 1)).log (a + 2)).log (a + 3)

theorem logWord_process : (k.logWord a).process = k.process := rfl

theorem loadWord_some (here : userWord ram k.process a = some w) :
    loadWord t ram a k = (.ok w,k.logWord a) := by
  simp only [userWord,Option.bind_eq_bind,Option.bind_eq_some_iff,Option.pure_def,Option.some.injEq] at here
  obtain ⟨b0,at0,b1,at1,b2,at2,b3,at3,rfl⟩ := here
  apply (bind_go (loadUser_some at0)).trans
  apply (bind_go (loadUser_some (k := k.log a) at1)).trans
  apply (bind_go (loadUser_some (k := (k.log a).log (a + 1)) at2)).trans
  exact bind_go (loadUser_some (k := ((k.log a).log (a + 1)).log (a + 2)) at3)

theorem loadWord_ok (loaded : loadWord t ram a k = (.ok w,k')) :
    userWord ram k.process a = some w ∧ k' = k.logWord a := by
  obtain ⟨b0,k1,load0,loaded⟩ := bind_ok.mp loaded
  obtain ⟨at0,rfl⟩ := loadUser_ok load0
  obtain ⟨b1,k2,load1,loaded⟩ := bind_ok.mp loaded
  obtain ⟨at1,rfl⟩ := loadUser_ok load1
  obtain ⟨b2,k3,load2,loaded⟩ := bind_ok.mp loaded
  obtain ⟨at2,rfl⟩ := loadUser_ok load2
  obtain ⟨b3,k4,load3,loaded⟩ := bind_ok.mp loaded
  obtain ⟨at3,rfl⟩ := loadUser_ok load3
  obtain ⟨same,rfl⟩ := Prod.mk.inj loaded
  obtain rfl := Except.ok.inj same
  refine ⟨?_,rfl⟩
  change userByte ram k.process (a + 1) = some b1 at at1
  change userByte ram k.process (a + 2) = some b2 at at2
  change userByte ram k.process (a + 3) = some b3 at at3
  simp [userWord,at0,at1,at2,at3]

theorem delta_user (inside : pointer < physBase) : delta pointer = physBase - pointer := by
  simp only [delta,physBase] at *
  omega

/-- The check on 32-bit pointers is the one on ranges of addresses. -/
theorem buffer_invalid_iff :
    (!isUserVaddr buffer || decide (delta buffer < length)) = true ↔
      ¬ (buffer < physBase ∧ buffer + length ≤ physBase) := by
  by_cases inside : buffer < physBase
  · simp only [isUserVaddr,delta_user inside,inside,decide_true,Bool.not_true,Bool.false_or,decide_eq_true_eq,
      true_and]
    omega
  · simp [isUserVaddr,inside]

theorem validateBuffer_ok (passed : validateBufferInUserRegion t buffer length k = (.ok (),k')) :
    buffer < physBase ∧ buffer + length ≤ physBase ∧ k' = k := by
  unfold validateBufferInUserRegion at passed
  split at passed
  · exact (stops_syscallExit.not_ok passed).elim
  · rename_i valid
    rw [buffer_invalid_iff,not_not] at valid
    exact ⟨valid.1,valid.2,(Prod.mk.inj passed).2.symm⟩

theorem validateBuffer_go (inside : buffer < physBase) (room : buffer + length ≤ physBase) :
    validateBufferInUserRegion t buffer length k = (.ok (),k) := by
  unfold validateBufferInUserRegion
  rw [if_neg (by rw [buffer_invalid_iff]; exact not_not_intro ⟨inside,room⟩)]
  rfl

/-! Properties that say nothing about locks. -/

def Indifferent (P : Kernel → Prop) : Prop := ∀ k l, P k → P { k with locks := l }

variable {P : Kernel → Prop}

theorem keeps_assert : Keeps P (assert c) := by
  intro k kept
  unfold assert
  split <;> exact kept

theorem keeps_lockHeld : Keeps P (lockHeldByCurrentThread t lock) :=
  keeps_get.bind fun _ _ _ _ _ => keeps_pure _

theorem keeps_lockAcquire (indifferent : Indifferent P) : Keeps P (lockAcquire t lock) := by
  refine Keeps.bind keeps_lockHeld fun _ _ _ _ _ => ?_
  refine Keeps.bind keeps_assert fun _ _ _ _ _ => ?_
  refine Keeps.bind keeps_get fun _ _ _ _ _ => ?_
  split
  · exact keeps_stop _
  · exact keeps_modify fun k kept => indifferent k _ kept

theorem keeps_lockRelease (indifferent : Indifferent P) : Keeps P (lockRelease t lock) := by
  refine Keeps.bind keeps_lockHeld fun _ _ _ _ _ => ?_
  refine Keeps.bind keeps_assert fun _ _ _ _ _ => ?_
  exact keeps_modify fun k kept => indifferent k _ kept

theorem keeps_acquireConsole (indifferent : Indifferent P) : Keeps P (acquireConsole t) := by
  refine Keeps.bind keeps_lockHeld fun _ _ _ _ _ => ?_
  split
  · exact keeps_modify fun k kept => indifferent k _ kept
  · exact keeps_lockAcquire indifferent

theorem keeps_releaseConsole (indifferent : Indifferent P) : Keeps P (releaseConsole t) := by
  refine Keeps.bind keeps_get fun _ _ _ _ _ => ?_
  split
  · exact keeps_modify fun k kept => indifferent k _ kept
  · exact keeps_lockRelease indifferent

theorem keeps_printf (indifferent : Indifferent P) : Keeps P (printf t) :=
  (keeps_acquireConsole indifferent).bind fun _ _ _ _ _ => keeps_releaseConsole indifferent

/-- Printing a line and moving a sector of kernel memory keep the property. -/
structure Calm (t : Nat) (P : Kernel → Prop) : Prop where
  printf : Keeps P (printf t)
  disk : Keeps P (ideTransfer t (pure ()))

theorem keeps_ideTransfer (indifferent : Indifferent P) (kept : Keeps P x) : Keeps P (ideTransfer t x) := by
  refine Keeps.bind (keeps_lockAcquire indifferent) fun _ _ _ _ _ => ?_
  exact Keeps.bind kept fun _ _ _ _ _ => keeps_lockRelease indifferent

theorem Indifferent.calm (indifferent : Indifferent P) : Calm t P where
  printf := keeps_printf indifferent
  disk := keeps_ideTransfer indifferent (keeps_pure _)

theorem Calm.syscallExit (calm : Calm t P) : Keeps P (syscallExit (α := α) t status) :=
  Keeps.bind calm.printf fun _ _ _ _ _ => keeps_stop _

theorem Calm.pageFault (calm : Calm t P) : Keeps P (pageFault (α := α) t user a) := by
  refine Keeps.bind keeps_get fun _ _ _ _ _ => ?_
  split
  · exact calm.syscallExit
  · split
    · exact calm.syscallExit
    · exact Keeps.bind calm.printf fun _ _ _ _ _ => keeps_stop _

theorem Calm.validateBuffer (calm : Calm t P) : Keeps P (validateBufferInUserRegion t buffer length) := by
  unfold validateBufferInUserRegion
  split
  · exact calm.syscallExit
  · exact keeps_pure _

theorem Calm.access (calm : Calm t P) (logged : ∀ k, P k → P (k.log a)) : Keeps P (access t ram write a) := by
  intro k kept
  cases found : translate ram k.process write a with
  | some place =>
    rw [access_some found]
    exact logged k kept
  | none =>
    rw [access_none found]
    exact calm.pageFault _ (logged k kept)

theorem Calm.loadUser (calm : Calm t P) (logged : ∀ k, P k → P (k.log a)) : Keeps P (loadUser t ram a) := by
  refine Keeps.bind (calm.access logged) fun _ _ _ _ _ => ?_
  exact Keeps.bind keeps_get fun _ _ _ _ _ => keeps_pure _

theorem Calm.loadWord (calm : Calm t P) (logged : ∀ k i, i < 4 → P k → P (k.log (a + i))) :
    Keeps P (loadWord t ram a) := by
  have byte i (inside : i < 4) : Keeps P (Syscall.loadUser t ram (a + i)) :=
    calm.loadUser fun k kept => logged k i inside kept
  refine Keeps.bind (byte 0 (by omega)) fun _ _ _ _ _ => ?_
  refine Keeps.bind (byte 1 (by omega)) fun _ _ _ _ _ => ?_
  refine Keeps.bind (byte 2 (by omega)) fun _ _ _ _ _ => ?_
  refine Keeps.bind (byte 3 (by omega)) fun _ _ _ _ _ => ?_
  exact keeps_pure _

/-! Accesses below the limit. The second property also fixes the memory of the process, for
calls that only read it. -/

def Confined (k : Kernel) : Prop := ∀ a ∈ k.accesses, a < physBase

def ConfinedIn (s : Process) (k : Kernel) : Prop := Confined k ∧ k.process = s

theorem confined_indifferent : Indifferent Confined := fun _ _ kept => kept

theorem confinedIn_indifferent : Indifferent (ConfinedIn s) := fun _ _ kept => kept

theorem Confined.log (inside : a < physBase) (kept : Confined k) : Confined (k.log a) := by
  intro b listed
  rcases List.mem_cons.mp listed with rfl | earlier
  · exact inside
  · exact kept b earlier

theorem ConfinedIn.log (inside : a < physBase) (kept : ConfinedIn s k) : ConfinedIn s (k.log a) :=
  ⟨kept.1.log inside,kept.2⟩

theorem confined_loadUser (inside : a < physBase) : Keeps Confined (loadUser t ram a) :=
  confined_indifferent.calm.loadUser fun _ kept => kept.log inside

theorem confined_loadWord (inside : a + 4 ≤ physBase) : Keeps Confined (loadWord t ram a) :=
  confined_indifferent.calm.loadWord fun _ _ _ kept => kept.log (by omega)

theorem confinedIn_loadUser (inside : a < physBase) : Keeps (ConfinedIn s) (loadUser t ram a) :=
  confinedIn_indifferent.calm.loadUser fun _ kept => kept.log inside

theorem confinedIn_loadWord (inside : a + 4 ≤ physBase) : Keeps (ConfinedIn s) (loadWord t ram a) :=
  confinedIn_indifferent.calm.loadWord fun _ _ _ kept => kept.log (by omega)

theorem confined_storeUser (inside : a < physBase) : Keeps Confined (storeUser t ram a value) := by
  refine Keeps.bind (confined_indifferent.calm.access fun _ kept => kept.log inside) fun _ _ _ _ _ => ?_
  exact keeps_modify fun _ kept => kept

/-! Strings. -/

/-- The scan stays below the limit if some byte below it ends the scan. -/
theorem confinedIn_strnlenFrom (room : string + length + left ≤ physBase) (last : length ≤ j)
    (before : j < length + left) (ends : ∀ b, userByte ram s (string + j) = some b → b = 0) :
    Keeps (ConfinedIn s) (strnlenFrom t ram string left length) := by
  induction left generalizing length with
  | zero => omega
  | succ left ih =>
    refine Keeps.bind (confinedIn_loadUser (by omega)) fun k b k' kept loaded => ?_
    split
    · exact keeps_pure _
    · rename_i goesOn
      apply ih (by omega) _ (by omega)
      have other : length ≠ j := by
        rintro rfl
        have found := (loadUser_ok loaded).1
        rw [kept.2] at found
        exact goesOn (ends b found)
      omega

theorem strnlenFrom_ok (here : k.process = s)
    (counted : strnlenFrom t ram string left length k = (.ok n,k')) :
    n = length + left ∨ n < length + left ∧ userByte ram s (string + n) = some 0 := by
  induction left generalizing length k with
  | zero =>
    obtain ⟨_,k1,_,same⟩ := bind_ok.mp counted
    left
    exact (Except.ok.inj (Prod.mk.inj same).1).symm
  | succ left ih =>
    obtain ⟨b,k1,loaded,rest⟩ := bind_ok.mp counted
    obtain ⟨found,rfl⟩ := loadUser_ok loaded
    rw [here] at found
    split at rest
    · rename_i ended
      obtain rfl := Except.ok.inj (Prod.mk.inj rest).1
      rw [ended] at found
      exact .inr ⟨by omega,found⟩
    · rcases ih (k := k.log (string + length)) here rest with full | ⟨short,found⟩
      · exact .inl (by omega)
      · exact .inr ⟨by omega,found⟩

/-- A comparison reads no byte behind the end of the string. -/
theorem confinedIn_strcmpUser (room : string + j < physBase) (ended : userByte ram s (string + j) = some 0)
    (start : i ≤ j) : Keeps (ConfinedIn s) (strcmpUser t ram (string + i) name) := by
  induction name generalizing i with
  | nil => exact Keeps.bind (confinedIn_loadUser (by omega)) fun _ _ _ _ _ => keeps_pure _
  | cons c rest ih =>
    refine Keeps.bind (confinedIn_loadUser (by omega)) fun k b k' kept loaded => ?_
    split
    · rename_i goesOn
      apply ih (i := i + 1)
      have other : i ≠ j := by
        rintro rfl
        have found := (loadUser_ok loaded).1
        rw [kept.2,ended] at found
        exact goesOn.1 (Option.some.inj found).symm
      omega
    · exact keeps_pure _

theorem confinedIn_lookup (room : string + j < physBase) (ended : userByte ram s (string + j) = some 0) :
    Keeps (ConfinedIn s) (lookup t ram string entries) := by
  induction entries with
  | nil => exact keeps_pure _
  | cons entry rest ih =>
    refine Keeps.bind (confinedIn_indifferent.calm.disk) fun _ _ _ _ _ => ?_
    refine Keeps.bind (confinedIn_strcmpUser (i := 0) room ended (by omega)) fun _ _ _ _ _ => ?_
    split
    · exact keeps_pure _
    · exact ih

theorem confinedIn_syscallOpen (room : string + j < physBase) (ended : userByte ram s (string + j) = some 0) :
    Keeps (ConfinedIn s) (syscallOpen t ram services string) := by
  have disk : Keeps (ConfinedIn s) (ideTransfer t (pure ())) := confinedIn_indifferent.calm.disk
  refine Keeps.bind keeps_get fun _ _ _ _ _ => ?_
  split
  · exact keeps_pure _
  · have opened : Keeps (ConfinedIn s) (filesysOpen t ram services string) := by
      refine Keeps.bind disk fun _ _ _ _ _ => ?_
      refine Keeps.bind keeps_assert fun _ _ _ _ _ => ?_
      refine Keeps.bind (confinedIn_lookup room ended) fun _ _ _ _ _ => ?_
      split
      · exact keeps_pure _
      · split
        · exact keeps_pure _
        · split
          · exact Keeps.bind disk fun _ _ _ _ _ => keeps_pure _
          · exact keeps_pure _
    refine Keeps.bind opened fun _ _ _ _ _ => ?_
    exact Keeps.bind (keeps_modify fun _ kept => kept) fun _ _ _ _ _ => keeps_pure _

/-! Buffers. -/

theorem keeps_copyBytes (moves : ∀ i < n, Keeps P (move (buffer + i) (offset + i))) :
    Keeps P (copyBytes move buffer offset n) := by
  induction n generalizing buffer offset with
  | zero => exact keeps_pure _
  | succ n ih =>
    refine Keeps.bind (moves 0 (by omega)) fun _ _ _ _ _ => ih fun i inside => ?_
    have next := moves (i + 1) (by omega)
    rwa [show buffer + (i + 1) = buffer + 1 + i by omega,show offset + (i + 1) = offset + 1 + i by omega]
      at next

theorem chunkSize_le : chunkSize size left ofs ≤ size := Nat.min_le_left _ _

theorem keeps_inodeLoop (wholes : ∀ d o, d + blockSectorSize ≤ total → Keeps P (whole (buffer + d) o))
    (parts : ∀ d o c, d + c ≤ total → Keeps P (part (buffer + d) o c)) (room : done + size ≤ total) :
    Keeps P (inodeLoop whole part bounce length buffer bound size offset done) := by
  induction bound generalizing size offset done with
  | zero => exact keeps_pure _
  | succ bound ih =>
    have fits : chunkSize size (length - offset) (offset % blockSectorSize) ≤ size := chunkSize_le
    unfold inodeLoop
    dsimp only
    split
    · exact keeps_pure _
    · split
      · rename_i entire
        exact Keeps.bind (wholes _ _ (by omega)) fun _ _ _ _ _ => ih (by omega)
      · split
        · exact Keeps.bind (parts _ _ _ (by omega)) fun _ _ _ _ _ => ih (by omega)
        · exact keeps_pure _

theorem confined_readByte (inside : a < physBase) : Keeps Confined (readByte t ram a offset) :=
  Keeps.bind keeps_get fun _ _ _ _ _ => confined_storeUser inside

theorem confined_writeByte (inside : a < physBase) : Keeps Confined (writeByte t ram a offset) :=
  Keeps.bind (confined_loadUser inside) fun _ _ _ _ _ => keeps_modify fun _ kept => kept

theorem confined_inodeReadAt (room : buffer + size ≤ physBase) :
    Keeps Confined (inodeReadAt t ram bounce file buffer size) := by
  have short : offT size ≤ size := by
    unfold offT
    split <;> omega
  refine keeps_inodeLoop (fun d o (inside : d + blockSectorSize ≤ offT size) => ?_)
    (fun d o c (inside : d + c ≤ offT size) => ?_) (by omega)
  · exact keeps_ideTransfer confined_indifferent
      (keeps_copyBytes fun i below => confined_readByte (by omega))
  · refine Keeps.bind confined_indifferent.calm.disk fun _ _ _ _ _ => ?_
    exact Keeps.bind keeps_assert fun _ _ _ _ _ => keeps_copyBytes fun i below => confined_readByte (by omega)

theorem confined_inodeWriteAt (room : buffer + size ≤ physBase) :
    Keeps Confined (inodeWriteAt t ram bounce file buffer size) := by
  have short : offT size ≤ size := by
    unfold offT
    split <;> omega
  unfold inodeWriteAt
  split
  · exact keeps_pure _
  · refine keeps_inodeLoop (fun d o (inside : d + blockSectorSize ≤ offT size) => ?_)
      (fun d o c (inside : d + c ≤ offT size) => ?_) (by omega)
    · exact keeps_ideTransfer confined_indifferent
        (keeps_copyBytes fun i below => confined_writeByte (by omega))
    · have copied : Keeps Confined (assert (buffer + d != null) >>= fun _ =>
          copyBytes (writeByte t ram) (buffer + d) o c >>= fun _ => ideTransfer t (pure ())) := by
        refine Keeps.bind keeps_assert fun _ _ _ _ _ => ?_
        exact Keeps.bind (keeps_copyBytes fun i below => confined_writeByte (by omega))
          fun _ _ _ _ _ => confined_indifferent.calm.disk
      unfold inodeWritePart
      split
      · exact Keeps.bind confined_indifferent.calm.disk fun _ _ _ _ _ => copied
      · exact copied

theorem confined_putchars (room : buffer + n ≤ physBase) : Keeps Confined (putchars t ram buffer n) := by
  induction n generalizing buffer with
  | zero => exact keeps_pure _
  | succ n ih =>
    refine Keeps.bind (confined_loadUser (by omega)) fun _ _ _ _ _ => ?_
    refine Keeps.bind ?_ fun _ _ _ _ _ => ih (by omega)
    exact Keeps.bind keeps_lockHeld fun _ _ _ _ _ => keeps_assert

theorem confined_syscallRead (room : buffer + size ≤ physBase) :
    Keeps Confined (syscallRead t ram services fd buffer size) := by
  unfold syscallRead
  split
  · exact keeps_pure _
  · refine Keeps.bind keeps_get fun _ _ _ _ _ => ?_
    split
    · exact keeps_pure _
    · refine Keeps.bind (confined_inodeReadAt room) fun _ _ _ _ _ => ?_
      exact Keeps.bind (keeps_modify fun _ kept => kept) fun _ _ _ _ _ => keeps_pure _

theorem confined_syscallWrite (room : buffer + size ≤ physBase) :
    Keeps Confined (syscallWrite t ram services fd buffer size) := by
  unfold syscallWrite
  split
  · refine Keeps.bind ?_ fun _ _ _ _ _ => keeps_pure _
    refine Keeps.bind (keeps_acquireConsole confined_indifferent) fun _ _ _ _ _ => ?_
    exact Keeps.bind (confined_putchars room) fun _ _ _ _ _ => keeps_releaseConsole confined_indifferent
  · split
    · exact keeps_pure _
    · refine Keeps.bind keeps_get fun _ _ _ _ _ => ?_
      split
      · exact keeps_pure _
      · refine Keeps.bind (confined_inodeWriteAt room) fun _ _ _ _ _ => ?_
        exact Keeps.bind (keeps_modify fun _ kept => kept) fun _ _ _ _ _ => keeps_pure _

theorem settle_confined (result : Except Panic (α × Process)) (kept : Confined k) :
    Confined (k.settle result).2 := by
  cases result <;> exact kept

theorem confined_syscallSbrk : Keeps Confined (syscallSbrk ram services increment) :=
  fun _ kept => settle_confined _ kept

/-! The handler. -/

/-- A call to open a file by a string that runs up to the limit: every byte below the limit
can be read and none of them ends the string. -/
def Overruns (ram : Ram) (s : Process) (esp : Nat) : Prop :=
  arg esp 0 + 8 ≤ physBase ∧ userWord ram s (arg esp 0) = some sysOpen ∧
    ∃ string < physBase, userWord ram s (arg esp 0 + 4) = some string ∧
      ∀ a, string ≤ a → a < physBase → ∃ b, userByte ram s a = some b ∧ b ≠ 0

theorem arg_one (room : arg esp 0 + 4 ≤ physBase) : arg esp 1 = arg esp 0 + 4 := by
  simp only [arg,physBase] at *
  omega

theorem arg_after (room : arg esp 1 + 4 * i ≤ physBase) : arg esp (i + 1) = arg esp 1 + 4 * i := by
  simp only [arg,physBase] at *
  omega

theorem confinedIn_validateString (bounded : string < physBase → ∃ j, string + j < physBase ∧
    ∀ b, userByte ram s (string + j) = some b → b = 0) :
    Keeps (ConfinedIn s) (validateStringInUserRegion t ram string) := by
  unfold validateStringInUserRegion
  split
  · rename_i user
    have inside : string < physBase := by simpa [isUserVaddr] using user
    obtain ⟨j,room,ends⟩ := bounded inside
    refine Keeps.bind ?_ fun _ _ _ _ _ => ?_
    · rw [strnlen,delta_user inside]
      exact confinedIn_strnlenFrom (by omega) (by omega) (by omega) ends
    · split
      · exact confinedIn_indifferent.calm.syscallExit
      · exact keeps_pure _
  · exact confinedIn_indifferent.calm.syscallExit

theorem validateString_ok (here : k.process = s)
    (passed : validateStringInUserRegion t ram string k = (.ok (),k')) :
    ∃ j, string + j < physBase ∧ userByte ram s (string + j) = some 0 := by
  unfold validateStringInUserRegion at passed
  split at passed
  · rename_i user
    have inside : string < physBase := by simpa [isUserVaddr] using user
    obtain ⟨n,k1,counted,rest⟩ := bind_ok.mp passed
    rw [strnlen,delta_user inside] at counted
    rw [delta_user inside] at rest
    split at rest
    · exact (stops_syscallExit.not_ok rest).elim
    · rcases strnlenFrom_ok here counted with full | ⟨short,ended⟩
      · omega
      · exact ⟨n,by omega,ended⟩
  · exact (stops_syscallExit.not_ok passed).elim

/-- A string that does not run up to the limit. -/
theorem string_bounded (safe : ¬ Overruns ram s esp) (room : arg esp 0 + 8 ≤ physBase)
    (called : userWord ram s (arg esp 0) = some sysOpen)
    (filename : userWord ram s (arg esp 0 + 4) = some string) (inside : string < physBase) :
    ∃ j, string + j < physBase ∧ ∀ b, userByte ram s (string + j) = some b → b = 0 := by
  by_contra unbounded
  push Not at unbounded
  apply safe
  refine ⟨room,called,string,inside,filename,fun a first below => ?_⟩
  have found := unbounded (a - string) (by omega)
  rwa [Nat.add_sub_cancel' first] at found

theorem dispatch_confined (kept : ConfinedIn s k) (room : arg esp 0 + 4 ≤ physBase)
    (called : userWord ram s (arg esp 0) = some number) (safe : ¬ Overruns ram s esp) :
    Confined (dispatch t ram services esp number k).2 := by
  have args := arg_one room
  unfold dispatch
  split
  · refine Keeps.bind confined_indifferent.calm.validateBuffer (fun _ _ _ _ checked => ?_) k kept.1
    obtain ⟨_,inside,_⟩ := validateBuffer_ok checked
    exact Keeps.bind (confined_loadWord inside) fun _ _ _ _ _ => confined_indifferent.calm.syscallExit
  split
  · rename_i opening
    subst opening
    refine (Keeps.bind confinedIn_indifferent.calm.validateBuffer (fun _ _ _ _ checked => ?_) k kept).1
    obtain ⟨_,inside,_⟩ := validateBuffer_ok checked
    refine Keeps.bind (confinedIn_loadWord inside) fun k1 string _ kept1 loaded => ?_
    have filename := (loadWord_ok loaded).1
    rw [kept1.2,args] at filename
    refine Keeps.bind (confinedIn_validateString (string_bounded safe (by omega) called filename))
      fun k2 _ _ kept2 passed => ?_
    obtain ⟨j,below,ended⟩ := validateString_ok kept2.2 passed
    exact Keeps.bind (confinedIn_syscallOpen below ended) fun _ _ _ _ _ => keeps_pure _
  split
  · refine Keeps.bind confined_indifferent.calm.validateBuffer (fun _ _ _ _ checked => ?_) k kept.1
    obtain ⟨_,inside,_⟩ := validateBuffer_ok checked
    refine Keeps.bind (confined_loadWord (by rw [arg_after] <;> omega)) fun _ _ _ _ _ => ?_
    refine Keeps.bind (confined_loadWord (by rw [arg_after] <;> omega)) fun _ _ _ _ _ => ?_
    refine Keeps.bind confined_indifferent.calm.validateBuffer fun _ _ _ _ valid => ?_
    obtain ⟨_,whole,_⟩ := validateBuffer_ok valid
    refine Keeps.bind (confined_loadWord (by omega)) fun _ _ _ _ _ => ?_
    split
    · exact Keeps.bind (confined_syscallWrite whole) fun _ _ _ _ _ => keeps_pure _
    · exact Keeps.bind (confined_syscallRead whole) fun _ _ _ _ _ => keeps_pure _
  split
  · refine Keeps.bind confined_indifferent.calm.validateBuffer (fun _ _ _ _ checked => ?_) k kept.1
    obtain ⟨_,inside,_⟩ := validateBuffer_ok checked
    refine Keeps.bind (confined_loadWord inside) fun _ _ _ _ _ => ?_
    refine Keeps.bind ?_ fun _ _ _ _ _ => keeps_pure _
    unfold syscallClose
    split
    · exact keeps_modify fun _ kept => kept
    · exact keeps_pure _
  split
  · refine Keeps.bind confined_indifferent.calm.validateBuffer (fun _ _ _ _ checked => ?_) k kept.1
    obtain ⟨_,inside,_⟩ := validateBuffer_ok checked
    refine Keeps.bind (confined_loadWord inside) fun _ _ _ _ _ => ?_
    exact Keeps.bind confined_syscallSbrk fun _ _ _ _ _ => keeps_pure _
  · exact Keeps.bind confined_indifferent.calm.printf (fun _ _ _ _ _ => keeps_pure _) k kept.1

def Kernel.enter (l : Locks) (s : Process) (f : Option OpenFile) : Kernel := ⟨l,s,f,false,[]⟩

def Kernel.entered (k : Kernel) : Kernel := { k with inSyscall := true }

theorem handler_entered (t : Nat) (ram : Ram) (services : Services) (esp : Nat) (k : Kernel) :
    syscallHandler t ram services esp k = (validateBufferInUserRegion t (arg esp 0) 4 >>= fun _ =>
      loadWord t ram (arg esp 0) >>= fun number => dispatch t ram services esp number >>= fun eax =>
        modify (fun k => { k with inSyscall := false }) >>= fun _ => pure eax) k.entered :=
  bind_go rfl

theorem handler_confined (safe : ¬ Overruns ram s esp) :
    Confined (syscallHandler t ram services esp (.enter l s f)).2 := by
  have start : ConfinedIn s (Kernel.enter l s f).entered := by simp [ConfinedIn,Confined,Kernel.entered,Kernel.enter]
  rw [handler_entered]
  refine confinedIn_indifferent.calm.validateBuffer.before (fun _ kept => kept.1) ?_ _ start
  intro k1 _ k2 _ checked kept
  obtain ⟨_,room,_⟩ := validateBuffer_ok checked
  refine (confinedIn_loadWord room).before (fun _ kept => kept.1) ?_ _ kept
  intro k3 number k4 kept3 loaded kept
  have called := (loadWord_ok loaded).1
  rw [kept3.2] at called
  apply Keeps.after (dispatch_confined kept room called safe)
  intro eax
  exact Keeps.bind (keeps_modify fun _ kept => kept) fun _ _ _ _ _ => keeps_pure _

def Touched (a : Nat) (k : Kernel) : Prop := a ∈ k.accesses

theorem touched_indifferent : Indifferent (Touched a) := fun _ _ kept => kept

theorem touched_loadUser : Touched a (loadUser t ram a k).2 := by
  have accessed : Touched a (access t ram false a k).2 := by
    cases found : translate ram k.process false a with
    | some place =>
      rw [access_some found]
      exact List.mem_cons_self
    | none =>
      rw [access_none found]
      exact touched_indifferent.calm.pageFault _ List.mem_cons_self
  exact Keeps.after accessed fun _ => Keeps.bind keeps_get fun _ _ _ _ _ => keeps_pure _

/-- Reading through a string that runs up to the limit ends with the byte behind it. -/
theorem strnlenFrom_overrun (room : string + length + left = physBase)
    (endless : ∀ a, string + length ≤ a → a < physBase → ∃ b, userByte ram k.process a = some b ∧ b ≠ 0) :
    Touched physBase (strnlenFrom t ram string left length k).2 := by
  induction left generalizing length k with
  | zero =>
    have behind : string + length = physBase := by omega
    rw [strnlenFrom,behind]
    exact Keeps.after touched_loadUser fun _ => keeps_pure _
  | succ left ih =>
    obtain ⟨b,found,goesOn⟩ := endless (string + length) (by omega) (by omega)
    rw [strnlenFrom,bind_go (loadUser_some found),if_neg goesOn]
    exact ih (by omega) fun a first below => endless a (by omega) below

theorem validateString_overrun (inside : string < physBase)
    (endless : ∀ a, string ≤ a → a < physBase → ∃ b, userByte ram k.process a = some b ∧ b ≠ 0) :
    ∃ e k', validateStringInUserRegion t ram string k = (.error e,k') ∧ Touched physBase k' := by
  have touched : Touched physBase (strnlenFrom t ram string (physBase - string) 0 k).2 :=
    strnlenFrom_overrun (by omega) endless
  rw [validateStringInUserRegion,if_pos (by simpa [isUserVaddr] using inside),strnlen,delta_user inside]
  rcases scanned : strnlenFrom t ram string (physBase - string) 0 k with ⟨e | n,k'⟩
  · rw [scanned] at touched
    exact ⟨e,k',bind_stop scanned,touched⟩
  · rw [scanned] at touched
    rw [bind_go scanned]
    rcases strnlenFrom_ok rfl scanned with full | ⟨short,ended⟩
    · rw [if_pos (by omega)]
      have kept : Touched physBase (syscallExit (α := Unit) t (-1) k').2 :=
        touched_indifferent.calm.syscallExit k' touched
      obtain ⟨e,k'',stopped⟩ := stops_syscallExit (α := Unit) k'
      rw [stopped] at kept
      exact ⟨e,k'',stopped,kept⟩
    · obtain ⟨b,found,goesOn⟩ := endless (string + n) (by omega) (by omega)
      rw [ended] at found
      exact absurd (Option.some.inj found).symm goesOn

theorem handler_overruns (overrun : Overruns ram s esp) :
    Touched physBase (syscallHandler t ram services esp (.enter l s f)).2 := by
  obtain ⟨room,called,string,inside,filename,endless⟩ := overrun
  have args := arg_one (show arg esp 0 + 4 ≤ physBase by omega)
  rw [handler_entered,bind_go (validateBuffer_go (by omega) (by omega)),bind_go (loadWord_some called)]
  obtain ⟨e,k',stopped,touched⟩ := validateString_overrun (t := t)
    (k := ((Kernel.enter l s f).entered.logWord (arg esp 0)).logWord (arg esp 0 + 4)) inside endless
  have ended : dispatch t ram services esp sysOpen ((Kernel.enter l s f).entered.logWord (arg esp 0)) = (.error e,k') := by
    rw [dispatch,if_neg (by decide),if_pos rfl,args]
    rw [bind_go (validateBuffer_go (by omega) (by omega)),bind_go (loadWord_some filename),bind_stop stopped]
  rw [bind_stop ended]
  exact touched

/-- The handler accesses user pointers below the limit only, except in calls to open a file
by a string that runs up to it: `strnlen` reads a byte before it compares the length. -/
theorem user_pointers_confined (thread : Nat) (ram : Ram) (services : Services) (esp : Nat) (l : Locks)
    (s : Process) (f : Option OpenFile) :
    (∀ a ∈ (syscallHandler thread ram services esp (.enter l s f)).2.accesses, a < physBase) ↔
      ¬ Overruns ram s esp := by
  constructor
  · intro confined overrun
    exact Nat.lt_irrefl _ (confined physBase (handler_overruns overrun))
  · intro safe
    exact handler_confined safe

end

/-! A process that has one page, that of its stack. -/

def oneFrame : Ram where
  pages := 300
  base := 3222278144
  count := 1
  aligned := by decide
  low := by decide
  high := by decide
  capped := by decide

def stackPage : Nat := 3221221376

def stackProcess (mem : Memory) : Process where
  pagedir d := if d = 767 then some fun i => if i = 1023 then some ⟨3222278144,true⟩ else none else none
  used _ := some .image
  mem
  startHeap := 134512640
  segbreak := 134512640

/-- The words at the start of the stack page, and its last byte. -/
def stackBytes (words : List Nat) (last : Nat) : Memory := fun a =>
  if a = 3222282239 then UInt8.ofNat last
  else UInt8.ofNat (words.getD ((a - 3222278144) / 4) 0 / 256 ^ ((a - 3222278144) % 4))

def freeLocks : Locks := ⟨fun _ => none,0⟩

def noServices : Services := ⟨[],true,fun _ => true⟩

/-- A string of one byte, the last one below the limit. -/
theorem open_reads_limit :
    ¬ ∀ a ∈ (syscallHandler 1 oneFrame noServices stackPage
      (.enter freeLocks (stackProcess (stackBytes [sysOpen,physBase - 1] 97)) none)).2.accesses,
      a < physBase := by
  decide +kernel

end OsProj.Syscall
