import OsProj.SyscallPointers

/-! Locks of threads that a page fault ends. A fault on a user buffer ends the thread with the
locks it has taken for the transfer. -/
namespace OsProj.Syscall

open OsProj.Stopping OsProj.UserMemory

def Locked (l : Locks) (k : Kernel) : Prop := k.locks = l

section
variable {k k' : Kernel} {l : Locks} {t : Nat} {ram : Ram} {s : Process}

theorem Locks.setHolder_free (free : l.holder lock = none) : (l.setHolder lock (some t)).setHolder lock none = l := by
  unfold Locks.setHolder
  simp only [Function.update_idem]
  rw [← free,Function.update_eq_self]

def Kernel.take (k : Kernel) (lock : Lock) (t : Nat) : Kernel :=
  { k with locks := k.locks.setHolder lock (some t) }

theorem take_locks : (k.take lock t).locks = k.locks.setHolder lock (some t) := rfl

theorem lockHeld_bind {f : Bool → M β} :
    (lockHeldByCurrentThread t lock >>= f) k = f (k.locks.holder lock == some t) k := rfl

theorem lockAcquire_go (free : k.locks.holder lock = none) :
    lockAcquire t lock k = (.ok (),k.take lock t) := by
  simp [Kernel.take,lockAcquire,lockHeldByCurrentThread,bind,andThen,Stopping.get,Stopping.modify,assert,pure,free]

/-- A thread that holds the lock trips the assertion; another one waits for good. -/
theorem lockAcquire_stop (held : k.locks.holder lock ≠ none) :
    ∃ e, (∀ status, e ≠ .exited status) ∧ lockAcquire t lock k = (.error e,k) := by
  by_cases mine : k.locks.holder lock = some t
  · refine ⟨.panicked,by simp,?_⟩
    simp [lockAcquire,lockHeldByCurrentThread,bind,andThen,Stopping.get,assert,pure,mine]
  · refine ⟨.blocked,by simp,?_⟩
    simp [lockAcquire,lockHeldByCurrentThread,bind,andThen,Stopping.get,stop,assert,pure,mine,
      Option.isSome_iff_ne_none,held]

theorem lockRelease_go (held : k.locks.holder lock = some t) :
    lockRelease t lock k = (.ok (),{ k with locks := k.locks.setHolder lock none }) := by
  simp [lockRelease,lockHeldByCurrentThread,bind,andThen,Stopping.get,Stopping.modify,assert,pure,held]

theorem setHolder_self : (l.setHolder lock (some t)).holder lock = some t := Function.update_self ..

theorem setHolder_depth : (l.setHolder lock holder).consoleLockDepth = l.consoleLockDepth := rfl

/-- The locks after an operation of the thread that stopped: the others' are as before. -/
structure Held (t : Nat) (l l' : Locks) : Prop where
  depth : l'.consoleLockDepth = 0
  holder : ∀ lock, l'.holder lock = l.holder lock ∨ l'.holder lock = some t

theorem held_refl (flat : l.consoleLockDepth = 0) : Held t l l := ⟨flat,fun _ => .inl rfl⟩

theorem held_setHolder (held : Held t (l.setHolder lock (some t)) l') : Held t l l' := by
  refine ⟨held.depth,fun other => ?_⟩
  rcases held.holder other with same | mine
  · by_cases equal : other = lock
    · subst equal
      right
      rw [same]
      exact setHolder_self
    · left
      rw [same]
      exact Function.update_of_ne equal _ _
  · exact .inr mine

def Balanced (t : Nat) (l : Locks) (x : M α) : Prop := ∀ k, k.locks = l →
  (∃ a k', x k = (.ok a,k') ∧ k'.locks = l) ∨ ∃ e k', x k = (.error e,k') ∧ Held t l k'.locks

theorem Balanced.of_keeps (flat : l.consoleLockDepth = 0) (kept : Keeps (Locked l) x) : Balanced t l x := by
  intro k locked
  have same := kept k locked
  rcases ran : x k with ⟨e | a,k'⟩
  · rw [ran] at same
    refine .inr ⟨e,k',rfl,?_⟩
    rw [show k'.locks = l from same]
    exact held_refl flat
  · rw [ran] at same
    exact .inl ⟨a,k',rfl,same⟩

theorem Balanced.bind {x : M α} {f : α → M β} (first : Balanced t l x) (second : ∀ a, Balanced t l (f a)) :
    Balanced t l (x >>= f) := by
  intro k locked
  rcases first k locked with ⟨a,k',ran,same⟩ | ⟨e,k',ran,held⟩
  · rcases second a k' same with ⟨b,k'',next,same'⟩ | ⟨e,k'',next,held⟩
    · exact .inl ⟨b,k'',(bind_go ran).trans next,same'⟩
    · exact .inr ⟨e,k'',(bind_go ran).trans next,held⟩
  · exact .inr ⟨e,k',bind_stop ran,held⟩

/-- Printing while the depth is zero leaves the locks alone, also from inside `putbuf`. -/
theorem locked_printf (flat : l.consoleLockDepth = 0) : Keeps (Locked l) (printf t) := by
  rintro k rfl
  by_cases free : k.locks.holder .console = none
  · have acquired : acquireConsole t k = (.ok (),k.take .console t) := by
      rw [acquireConsole,lockHeld_bind,if_neg (by simp [free])]
      exact lockAcquire_go free
    have released : releaseConsole t (k.take .console t) = (.ok (),k) := by
      rw [releaseConsole,get_bind,if_neg (by simp [take_locks,setHolder_depth,flat]),lockRelease_go setHolder_self]
      simp only [take_locks,Locks.setHolder_free free]
      rfl
    rw [printf,bind_go acquired,released]
    rfl
  · by_cases mine : k.locks.holder .console = some t
    · have acquired : acquireConsole t k = (.ok (),k.setDepth 1) := by
        rw [acquireConsole,lockHeld_bind,if_pos (by simp [mine])]
        simp [Stopping.modify,flat]
      have released : releaseConsole t (k.setDepth 1) = (.ok (),k.setDepth 0) := by
        rw [releaseConsole,get_bind,if_pos (by simp [Kernel.setDepth])]
        rfl
      rw [printf,bind_go acquired,released]
      change (k.setDepth 0).locks = k.locks
      rw [← flat]
      rfl
    · obtain ⟨e,_,stopped⟩ := lockAcquire_stop (t := t) free
      have waits : acquireConsole t k = (.error e,k) := by
        rw [acquireConsole,lockHeld_bind,if_neg (by simp [mine])]
        exact stopped
      rw [printf,bind_stop waits]
      rfl

/-- An operation that neither changes the kernel nor ends the thread by a page fault. -/
def Between (x : M Unit) : Prop := ∀ k,
  x k = (.ok (),k) ∨ ∃ e, (∀ status, e ≠ .exited status) ∧ x k = (.error e,k)

theorem between_disk : Between (ideTransfer t (pure ())) := by
  intro k
  by_cases free : k.locks.holder .channel = none
  · left
    rw [ideTransfer,bind_go (lockAcquire_go (t := t) free)]
    refine (lockRelease_go (k := k.take .channel t) setHolder_self).trans ?_
    simp only [take_locks,Locks.setHolder_free free]
    rfl
  · obtain ⟨e,other,stopped⟩ := lockAcquire_stop (t := t) free
    exact .inr ⟨e,other,bind_stop stopped⟩

theorem between_assert : Between (assert c) := by
  intro k
  unfold assert
  split
  · exact .inl rfl
  · exact .inr ⟨.panicked,by simp,rfl⟩

theorem Between.keeps (between : Between x) : Keeps P x := by
  intro k kept
  rcases between k with ran | ⟨e,_,ran⟩ <;> rw [ran] <;> exact kept

theorem locked_calm (flat : l.consoleLockDepth = 0) : Calm t (Locked l) := ⟨locked_printf flat,between_disk.keeps⟩

/-! Transfers. -/

def FirstFault (ram : Ram) (s : Process) (write : Bool) (buffer n i : Nat) : Prop :=
  i < n ∧ translate ram s write (buffer + i) = none ∧
    ∀ j < i, (translate ram s write (buffer + j)).isSome = true

def On (l : Locks) (s : Process) (k : Kernel) : Prop := k.locks = l ∧ k.process.pagedir = s.pagedir

theorem translate_pagedir (same : s'.pagedir = s.pagedir) : translate ram s' write a = translate ram s write a := by
  simp only [translate,Process.page,same]

/-- An operation that accesses a range of user bytes. If a page fault ends the thread then it
was the first byte that cannot be accessed. -/
def Moved (t : Nat) (ram : Ram) (l : Locks) (s : Process) (write : Bool) (faulted : Locks)
    (buffer n : Nat) (x : M Unit) : Prop := ∀ k, On l s k →
  (∃ k', x k = (.ok (),k') ∧ On l s k' ∧ ∀ i < n, (translate ram s write (buffer + i)).isSome = true) ∨
  ∃ e k', x k = (.error e,k') ∧ Held t l k'.locks ∧
    ∀ status, e = .exited status → k'.locks = faulted ∧ ∃ i, FirstFault ram s write buffer n i

theorem Moved.append {y : M Unit} (first : Moved t ram l s write faulted buffer m x)
    (second : Moved t ram l s write faulted (buffer + m) n y) :
    Moved t ram l s write faulted buffer (m + n) (x >>= fun _ => y) := by
  intro k on
  rcases first k on with ⟨k1,ran,on1,open1⟩ | ⟨e,k1,ran,held,exact1⟩
  · rcases second k1 on1 with ⟨k2,next,on2,open2⟩ | ⟨e,k2,next,held,exact2⟩
    · refine .inl ⟨k2,(bind_go ran).trans next,on2,fun i inside => ?_⟩
      by_cases early : i < m
      · exact open1 i early
      · have found := open2 (i - m) (by omega)
        rwa [show buffer + m + (i - m) = buffer + i by omega] at found
    · refine .inr ⟨e,k2,(bind_go ran).trans next,held,fun status exited => ?_⟩
      obtain ⟨same,i,inside,fault,before⟩ := exact2 status exited
      refine ⟨same,m + i,by omega,by rwa [← Nat.add_assoc],fun j less => ?_⟩
      by_cases early : j < m
      · exact open1 j early
      · have found := before (j - m) (by omega)
        rwa [show buffer + m + (j - m) = buffer + j by omega] at found
  · refine .inr ⟨e,k1,bind_stop ran,held,fun status exited => ?_⟩
    obtain ⟨same,i,inside,fault,before⟩ := exact1 status exited
    exact ⟨same,i,by omega,fault,before⟩

/-- The base of all transfers: one byte. -/
theorem moved_access (flat : l.consoleLockDepth = 0) {x : M Unit} (kept : Keeps (Locked l) x)
    (reached : ∀ k, On l s k → ∀ place, translate ram k.process write a = some place →
      ∃ k', x k = (.ok (),k') ∧ On l s k')
    (faulted : ∀ k, translate ram k.process write a = none → ∃ e k', x k = (.error e,k')) :
    Moved t ram l s write l a 1 x := by
  intro k on
  have same : translate ram k.process write a = translate ram s write a := translate_pagedir on.2
  cases found : translate ram s write a with
  | some place =>
    obtain ⟨k',ran,on'⟩ := reached k on place (same.trans found)
    refine .inl ⟨k',ran,on',fun i inside => ?_⟩
    obtain rfl : i = 0 := by omega
    simp [found]
  | none =>
    obtain ⟨e,k',stopped⟩ := faulted k (same.trans found)
    have locked := kept k on.1
    rw [stopped] at locked
    refine .inr ⟨e,k',stopped,?_,fun _ _ => ⟨locked,0,by omega,found,by omega⟩⟩
    rw [show k'.locks = l from locked]
    exact held_refl flat

theorem access_fails (away : translate ram k.process write a = none) :
    ∃ e k', access t ram write a k = (.error e,k') := by
  rw [access_none away]
  exact stops_pageFault _

theorem locked_loadUser (flat : l.consoleLockDepth = 0) : Keeps (Locked l) (loadUser t ram a) :=
  (locked_calm flat).loadUser fun _ kept => kept

theorem locked_loadWord (flat : l.consoleLockDepth = 0) : Keeps (Locked l) (loadWord t ram a) :=
  (locked_calm flat).loadWord fun _ _ _ kept => kept

theorem moved_readByte (flat : l.consoleLockDepth = 0) : Moved t ram l s true l a 1 (readByte t ram a offset) := by
  apply moved_access flat
  · refine Keeps.bind keeps_get fun _ _ _ _ _ => ?_
    refine Keeps.bind ((locked_calm flat).access fun _ kept => kept) fun _ _ _ _ _ => ?_
    exact keeps_modify fun _ kept => kept
  · intro k on place found
    exact ⟨_,(bind_go rfl).trans (bind_go (access_some found)),on⟩
  · intro k away
    obtain ⟨e,k',stopped⟩ := access_fails (t := t) away
    exact ⟨e,k',(bind_go rfl).trans (bind_stop stopped)⟩

theorem moved_writeByte (flat : l.consoleLockDepth = 0) : Moved t ram l s false l a 1 (writeByte t ram a offset) := by
  apply moved_access flat
  · exact Keeps.bind (locked_loadUser flat) fun _ _ _ _ _ => keeps_modify fun _ kept => kept
  · intro k on place found
    have loaded : userByte ram k.process a = some (k.process.mem place) := by simp [userByte,found]
    exact ⟨_,bind_go (loadUser_some loaded),on⟩
  · intro k away
    obtain ⟨e,k',stopped⟩ := access_fails (t := t) away
    exact ⟨e,k',bind_stop (bind_stop stopped)⟩

theorem moved_copyBytes
    (byte : ∀ a offset, Moved t ram l s write l a 1 (move a offset)) :
    Moved t ram l s write l buffer n (copyBytes move buffer offset n) := by
  induction n generalizing buffer offset with
  | zero =>
    intro k on
    exact .inl ⟨k,rfl,on,by omega⟩
  | succ n ih =>
    have rest : Moved t ram l s write l (buffer + 1) n (copyBytes move (buffer + 1) (offset + 1) n) := ih
    have whole := (byte buffer offset).append rest
    rwa [Nat.add_comm 1 n] at whole

/-- A sector that is moved whole: the thread holds the channel when a fault ends it. -/
theorem moved_ideTransfer (flat : l.consoleLockDepth = 0)
    (inside : Moved t ram (l.setHolder .channel (some t)) s write (l.setHolder .channel (some t)) buffer n x) :
    Moved t ram l s write (l.setHolder .channel (some t)) buffer n (ideTransfer t x) := by
  intro k on
  by_cases free : k.locks.holder .channel = none
  · rw [ideTransfer,bind_go (lockAcquire_go (t := t) free)]
    have on' : On (l.setHolder .channel (some t)) s (k.take .channel t) := ⟨by rw [take_locks,on.1],on.2⟩
    rcases inside _ on' with ⟨k',ran,⟨locked,pages⟩,all⟩ | ⟨e,k',ran,held,exact'⟩
    · have mine : k'.locks.holder .channel = some t := by
        rw [locked]
        exact setHolder_self
      refine .inl ⟨_,(bind_go ran).trans (lockRelease_go mine),⟨?_,pages⟩,all⟩
      dsimp only
      rw [locked,Locks.setHolder_free (on.1 ▸ free)]
    · exact .inr ⟨e,k',bind_stop ran,held_setHolder held,exact'⟩
  · obtain ⟨e,other,stopped⟩ := lockAcquire_stop (t := t) free
    refine .inr ⟨e,k,bind_stop stopped,?_,fun status exited => absurd exited (other status)⟩
    rw [on.1]
    exact held_refl flat

theorem Between.before (between : Between x) (flat : l.consoleLockDepth = 0) {y : M Unit}
    (next : Moved t ram l s write faulted buffer n y) :
    Moved t ram l s write faulted buffer n (x >>= fun _ => y) := by
  intro k on
  rcases between k with ran | ⟨e,other,ran⟩
  · rw [bind_go ran]
    exact next k on
  · refine .inr ⟨e,k,bind_stop ran,?_,fun status exited => absurd exited (other status)⟩
    rw [on.1]
    exact held_refl flat

theorem Between.after (between : Between y) (flat : l.consoleLockDepth = 0)
    (first : Moved t ram l s write faulted buffer n x) :
    Moved t ram l s write faulted buffer n (x >>= fun _ => y) := by
  intro k on
  rcases first k on with ⟨k',ran,on',all⟩ | ⟨e,k',ran,rest⟩
  · rw [bind_go ran]
    rcases between k' with next | ⟨e,other,next⟩
    · exact .inl ⟨k',next,on',all⟩
    · refine .inr ⟨e,k',next,?_,fun status exited => absurd exited (other status)⟩
      rw [on'.1]
      exact held_refl flat
  · exact .inr ⟨e,k',bind_stop ran,rest⟩

/-- Part of a sector: the thread holds what it held before when a fault ends it. -/
theorem moved_inodeReadPart (flat : l.consoleLockDepth = 0) :
    Moved t ram l s true l buffer n (inodeReadPart t ram buffer offset n) := by
  apply between_disk.before flat
  apply between_assert.before flat
  exact moved_copyBytes fun _ _ => moved_readByte flat

theorem moved_inodeWritePart (flat : l.consoleLockDepth = 0) :
    Moved t ram l s false l buffer n (inodeWritePart t ram buffer offset n) := by
  have copied : Moved t ram l s false l buffer n (copyBytes (writeByte t ram) buffer offset n) :=
    moved_copyBytes fun _ _ => moved_writeByte flat
  have asserted : Between (assert (buffer != null)) := between_assert
  have stored : Between (ideTransfer t (pure ())) := between_disk
  have written := asserted.before flat (stored.after flat copied)
  unfold inodeWritePart
  split
  · exact between_disk.before flat written
  · exact written

def InWholeSector (pos n i : Nat) : Prop :=
  pos ≤ (pos + i) / blockSectorSize * blockSectorSize ∧
    (pos + i) / blockSectorSize * blockSectorSize + blockSectorSize ≤ pos + n

/-- The locks of a thread that a fault on a byte of a file transfer ends. -/
def Transferred (t : Nat) (ram : Ram) (l : Locks) (s : Process) (write : Bool) (pos buffer n : Nat)
    (l' : Locks) : Prop :=
  ∃ i, FirstFault ram s write buffer n i ∧
    (InWholeSector pos n i → l' = l.setHolder .channel (some t)) ∧ (¬ InWholeSector pos n i → l' = l)

theorem FirstFault.shift (fault : FirstFault ram s write (buffer + done) chunk j) (room : done + chunk ≤ n)
    (before : ∀ i < done, (translate ram s write (buffer + i)).isSome = true) :
    FirstFault ram s write buffer n (done + j) := by
  obtain ⟨inside,away,first⟩ := fault
  refine ⟨by omega,by rwa [← Nat.add_assoc],fun i less => ?_⟩
  by_cases early : i < done
  · exact before i early
  · have found := first (i - done) (by omega)
    rwa [show buffer + done + (i - done) = buffer + i by omega] at found

/-- The next chunk of a transfer: it ends at the end of its sector or of the transfer. -/
structure NextChunk (pos n done chunk : Nat) : Prop where
  some : 0 < chunk
  room : done + chunk ≤ n
  sector : (pos + done) % blockSectorSize + chunk ≤ blockSectorSize
  longest : done + chunk = n ∨ (pos + done + chunk) % blockSectorSize = 0
  edge : done = 0 ∨ (pos + done) % blockSectorSize = 0

theorem nextChunk (chunk_eq : chunkSize (total - done) (length - (pos + done)) ((pos + done) % blockSectorSize) = chunk)
    (some : chunk ≠ 0) (n_eq : n = min total (length - pos))
    (edge : done = 0 ∨ (pos + done) % blockSectorSize = 0 ∨ n ≤ done) : NextChunk pos n done chunk := by
  have inside : (pos + done) % blockSectorSize < blockSectorSize := Nat.mod_lt _ (by decide)
  have left : chunk ≤ total - done := chunk_eq ▸ Nat.min_le_left _ _
  have inInode : chunk ≤ length - (pos + done) := chunk_eq ▸ Nat.le_trans (Nat.min_le_right _ _) (Nat.min_le_left _ _)
  have inSector : chunk ≤ blockSectorSize - (pos + done) % blockSectorSize :=
    chunk_eq ▸ Nat.le_trans (Nat.min_le_right _ _) (Nat.min_le_right _ _)
  have n_le : n ≤ total ∧ n ≤ length - pos := n_eq ▸ ⟨Nat.min_le_left _ _,Nat.min_le_right _ _⟩
  have room : done + chunk ≤ n := n_eq ▸ Nat.le_min.mpr ⟨by omega,by omega⟩
  refine ⟨Nat.pos_of_ne_zero some,room,by omega,?_,?_⟩
  · -- what limits the chunk is the transfer, the inode or the sector
    by_cases whole : chunk = blockSectorSize - (pos + done) % blockSectorSize
    · right
      have split := Nat.div_add_mod (pos + done) blockSectorSize
      have next : pos + done + chunk = blockSectorSize * ((pos + done) / blockSectorSize + 1) := by
        rw [Nat.mul_add_one]
        omega
      rw [next,Nat.mul_mod_right]
    · left
      unfold chunkSize at chunk_eq
      omega
  · rcases edge with start | aligned | ended
    · exact .inl start
    · exact .inr aligned
    · omega

theorem NextChunk.whole (next : NextChunk pos n done blockSectorSize)
    (aligned : (pos + done) % blockSectorSize = 0) (inside : j < blockSectorSize) :
    InWholeSector pos n (done + j) := by
  have room := next.room
  simp only [InWholeSector,blockSectorSize] at *
  omega

theorem NextChunk.part (next : NextChunk pos n done chunk)
    (partly : ¬ ((pos + done) % blockSectorSize = 0 ∧ chunk = blockSectorSize)) (inside : j < chunk) :
    ¬ InWholeSector pos n (done + j) := by
  obtain ⟨_,room,sector,longest,edge⟩ := next
  simp only [InWholeSector,blockSectorSize] at *
  omega

def Outcome (t : Nat) (ram : Ram) (l : Locks) (s : Process) (write : Bool) (pos buffer n : Nat)
    (k : Kernel) (x : M Nat) : Prop :=
  (∃ a k', x k = (.ok a,k') ∧ k'.locks = l) ∨
    ∃ e k', x k = (.error e,k') ∧ Held t l k'.locks ∧
      ∀ status, e = .exited status → Transferred t ram l s write pos buffer n k'.locks

/-- One chunk and the rest of the transfer. -/
theorem Moved.outcome {y : M Nat} (on : On l s k)
    (chunk : Moved t ram l s write faulted (buffer + done) size x)
    (fault : ∀ j, FirstFault ram s write (buffer + done) size j → Transferred t ram l s write pos buffer n faulted)
    (rest : ∀ k', On l s k' → (∀ i < size, (translate ram s write (buffer + done + i)).isSome = true) →
      Outcome t ram l s write pos buffer n k' y) :
    Outcome t ram l s write pos buffer n k (x >>= fun _ => y) := by
  rcases chunk k on with ⟨k',ran,on',all⟩ | ⟨e,k',ran,held,faults⟩
  · rcases rest k' on' all with ⟨a,k'',next,same⟩ | ⟨e,k'',next,rest⟩
    · exact .inl ⟨a,k'',(bind_go ran).trans next,same⟩
    · exact .inr ⟨e,k'',(bind_go ran).trans next,rest⟩
  · refine .inr ⟨e,k',bind_stop ran,held,fun status exited => ?_⟩
    obtain ⟨rfl,j,first⟩ := faults status exited
    exact fault j first

theorem inodeLoop_outcome (on : On l s k)
    (wholes : ∀ b o, Moved t ram l s write (l.setHolder .channel (some t)) b blockSectorSize (whole b o))
    (parts : ∀ b o c, Moved t ram l s write l b c (part b o c)) (n_eq : n = min total (length - pos))
    (edge : done = 0 ∨ (pos + done) % blockSectorSize = 0 ∨ n ≤ done)
    (before : ∀ i < done, (translate ram s write (buffer + i)).isSome = true) :
    Outcome t ram l s write pos buffer n k
      (inodeLoop whole part bounce length buffer bound (total - done) (pos + done) done) := by
  induction bound generalizing done k with
  | zero => exact .inl ⟨done,k,rfl,on.1⟩
  | succ bound ih =>
    have finished : Outcome t ram l s write pos buffer n k (pure done) := .inl ⟨done,k,rfl,on.1⟩
    unfold inodeLoop
    dsimp only
    generalize chunk_eq : chunkSize (total - done) (length - (pos + done)) ((pos + done) % blockSectorSize) = chunk
    split
    · exact finished
    rename_i some
    have next := nextChunk chunk_eq some n_eq edge
    -- what is left starts at a sector, unless the transfer is through
    have rest k' (on' : On l s k')
        (all : ∀ i < chunk, (translate ram s write (buffer + done + i)).isSome = true) :
        Outcome t ram l s write pos buffer n k'
          (inodeLoop whole part bounce length buffer bound (total - done - chunk) (pos + done + chunk) (done + chunk)) := by
      rw [Nat.sub_sub,Nat.add_assoc pos]
      apply ih on'
      · rcases next.longest with through | aligned
        · exact .inr (.inr (by omega))
        · exact .inr (.inl (by rwa [← Nat.add_assoc]))
      · intro i less
        by_cases early : i < done
        · exact before i early
        · have found := all (i - done) (by omega)
          rwa [show buffer + done + (i - done) = buffer + i by omega] at found
    split
    · rename_i entire
      obtain ⟨aligned,rfl⟩ := entire
      refine (wholes (buffer + done) (pos + done)).outcome on (fun j first => ?_) rest
      have whole := next.whole aligned first.1
      exact ⟨done + j,first.shift next.room before,fun _ => rfl,fun part => absurd whole part⟩
    rename_i partly
    split
    · refine (parts (buffer + done) (pos + done) chunk).outcome on (fun j first => ?_) rest
      have part := next.part partly first.1
      exact ⟨done + j,first.shift next.room before,fun whole => absurd whole part,fun _ => rfl⟩
    · exact finished

theorem transfer_outcome (on : On l s k)
    (wholes : ∀ b o, Moved t ram l s write (l.setHolder .channel (some t)) b blockSectorSize (whole b o))
    (parts : ∀ b o c, Moved t ram l s write l b c (part b o c)) :
    Outcome t ram l s write pos buffer (min total (length - pos)) k
      (inodeLoop whole part bounce length buffer bound total pos 0) :=
  inodeLoop_outcome on wholes parts rfl (.inl (rfl : 0 = 0)) fun i less => absurd less (Nat.not_lt_zero i)

/-- The number of bytes a transfer moves if nothing stops it. -/
def moved (file : OpenFile) (size : Nat) : Nat := min (offT size) (file.length - file.pos)

theorem Outcome.advanced (outcome : Outcome t ram l s write pos buffer n k x) :
    Outcome t ram l s write pos buffer n k (x >>= fun a => advance a >>= fun _ => pure a) := by
  rcases outcome with ⟨a,k',ran,same⟩ | ⟨e,k',ran,rest⟩
  · exact .inl ⟨a,_,bind_go ran,same⟩
  · exact .inr ⟨e,k',bind_stop ran,rest⟩

theorem fileRead_outcome (flat : l.consoleLockDepth = 0) (on : On l s k) :
    Outcome t ram l s true file.pos buffer (moved file size) k (fileRead t ram bounce file buffer size) := by
  have flat' : (l.setHolder .channel (some t)).consoleLockDepth = 0 := flat
  refine Outcome.advanced (transfer_outcome on (fun b o => ?_) fun b o c => ?_)
  · exact moved_ideTransfer flat (moved_copyBytes fun _ _ => moved_readByte flat')
  · exact moved_inodeReadPart flat

theorem fileWrite_outcome (flat : l.consoleLockDepth = 0) (on : On l s k) :
    Outcome t ram l s false file.pos buffer (moved file size) k (fileWrite t ram bounce file buffer size) := by
  have flat' : (l.setHolder .channel (some t)).consoleLockDepth = 0 := flat
  apply Outcome.advanced
  unfold inodeWriteAt
  split
  · exact .inl ⟨0,k,rfl,on.1⟩
  · refine transfer_outcome on (fun b o => ?_) fun b o c => ?_
    · exact moved_ideTransfer flat (moved_copyBytes fun _ _ => moved_writeByte flat')
    · exact moved_inodeWritePart flat

/-! The console. -/

theorem locked_putchars (flat : l.consoleLockDepth = 0) : Keeps (Locked l) (putchars t ram buffer n) := by
  induction n generalizing buffer with
  | zero => exact keeps_pure _
  | succ n ih =>
    refine Keeps.bind (locked_loadUser flat) fun _ _ _ _ _ => ?_
    refine Keeps.bind ?_ fun _ _ _ _ _ => ih
    exact Keeps.bind keeps_lockHeld fun _ _ _ _ _ => keeps_assert

/-- A thread that a fault ends inside `putbuf` holds the console. -/
theorem putbuf_outcome (flat : l.consoleLockDepth = 0) (other : l.holder .console ≠ some t) (locked : k.locks = l) :
    (∃ k', putbuf t ram buffer n k = (.ok (),k') ∧ k'.locks = l) ∨
      ∃ e k', putbuf t ram buffer n k = (.error e,k') ∧ Held t l k'.locks ∧
        ∀ status, e = .exited status → k'.locks.holder .console = some t := by
  subst locked
  have entry : acquireConsole t k = lockAcquire t .console k := by
    rw [acquireConsole,lockHeld_bind,if_neg (by simpa using other)]
  by_cases free : k.locks.holder .console = none
  · have acquired := entry.trans (lockAcquire_go free)
    have flat' : (k.locks.setHolder .console (some t)).consoleLockDepth = 0 := flat
    have kept : Locked (k.locks.setHolder .console (some t)) (putchars t ram buffer n (k.take .console t)).2 :=
      locked_putchars flat' _ rfl
    rcases put : putchars t ram buffer n (k.take .console t) with ⟨e | _,k'⟩
    · rw [put] at kept
      have same : k'.locks = k.locks.setHolder .console (some t) := kept
      refine .inr ⟨e,k',(bind_go acquired).trans (bind_stop put),?_,fun _ _ => ?_⟩
      · rw [same]
        exact held_setHolder (held_refl flat')
      · rw [same]
        exact setHolder_self
    · rw [put] at kept
      have same : k'.locks = k.locks.setHolder .console (some t) := kept
      have released : releaseConsole t k' = (.ok (),{ k' with locks := k'.locks.setHolder .console none }) := by
        rw [releaseConsole,get_bind,if_neg (by simp [same,flat'])]
        exact lockRelease_go (by rw [same]; exact setHolder_self)
      refine .inl ⟨_,(bind_go acquired).trans ((bind_go put).trans released),?_⟩
      dsimp only
      rw [same,Locks.setHolder_free free]
  · obtain ⟨e,never,stopped⟩ := lockAcquire_stop (t := t) free
    refine .inr ⟨e,k,bind_stop (entry.trans stopped),held_refl flat,fun status exited => ?_⟩
    exact absurd exited (never status)

/-! Calls that leave the locks alone. -/

theorem locked_strnlenFrom (flat : l.consoleLockDepth = 0) :
    Keeps (Locked l) (strnlenFrom t ram string left length) := by
  induction left generalizing length with
  | zero => exact Keeps.bind (locked_loadUser flat) fun _ _ _ _ _ => keeps_pure _
  | succ left ih =>
    refine Keeps.bind (locked_loadUser flat) fun _ _ _ _ _ => ?_
    split
    · exact keeps_pure _
    · exact ih

theorem locked_strcmpUser (flat : l.consoleLockDepth = 0) : Keeps (Locked l) (strcmpUser t ram a name) := by
  induction name generalizing a with
  | nil => exact Keeps.bind (locked_loadUser flat) fun _ _ _ _ _ => keeps_pure _
  | cons c rest ih =>
    refine Keeps.bind (locked_loadUser flat) fun _ _ _ _ _ => ?_
    split
    · exact ih
    · exact keeps_pure _

theorem locked_lookup (flat : l.consoleLockDepth = 0) : Keeps (Locked l) (lookup t ram name entries) := by
  induction entries with
  | nil => exact keeps_pure _
  | cons entry rest ih =>
    refine Keeps.bind between_disk.keeps fun _ _ _ _ _ => ?_
    refine Keeps.bind (locked_strcmpUser flat) fun _ _ _ _ _ => ?_
    split
    · exact keeps_pure _
    · exact ih

theorem locked_validateString (flat : l.consoleLockDepth = 0) :
    Keeps (Locked l) (validateStringInUserRegion t ram string) := by
  unfold validateStringInUserRegion
  split
  · refine Keeps.bind (locked_strnlenFrom flat) fun _ _ _ _ _ => ?_
    split
    · exact (locked_calm flat).syscallExit
    · exact keeps_pure _
  · exact (locked_calm flat).syscallExit

theorem locked_syscallOpen (flat : l.consoleLockDepth = 0) :
    Keeps (Locked l) (syscallOpen t ram services name) := by
  have opened : Keeps (Locked l) (filesysOpen t ram services name) := by
    refine Keeps.bind between_disk.keeps fun _ _ _ _ _ => ?_
    refine Keeps.bind keeps_assert fun _ _ _ _ _ => ?_
    refine Keeps.bind (locked_lookup flat) fun _ _ _ _ _ => ?_
    split
    · exact keeps_pure _
    · split
      · exact keeps_pure _
      · split
        · exact Keeps.bind between_disk.keeps fun _ _ _ _ _ => keeps_pure _
        · exact keeps_pure _
  refine Keeps.bind keeps_get fun _ _ _ _ _ => ?_
  split
  · exact keeps_pure _
  · refine Keeps.bind opened fun _ _ _ _ _ => ?_
    exact Keeps.bind (keeps_modify fun _ kept => kept) fun _ _ _ _ _ => keeps_pure _

theorem settle_locked (result : Except Panic (α × Process)) (kept : Locked l k) :
    Locked l (k.settle result).2 := by
  cases result <;> exact kept

theorem locked_syscallSbrk : Keeps (Locked l) (syscallSbrk ram services increment) :=
  fun _ kept => settle_locked _ kept

theorem locked_syscallClose : Keeps (Locked l) (syscallClose fd) := by
  unfold syscallClose
  split
  · exact keeps_modify fun _ kept => kept
  · exact keeps_pure _

/-! Every call returns with the locks it started with. -/

theorem Outcome.balanced {x : Kernel → M Nat}
    (outcome : ∀ k, k.locks = l → ∃ s write pos buffer n, Outcome t ram l s write pos buffer n k (x k)) :
    Balanced t l (Stopping.get >>= x) := by
  intro k locked
  rw [get_bind]
  obtain ⟨_,_,_,_,_,ended⟩ := outcome k locked
  rcases ended with returned | ⟨e,k',ran,held,_⟩
  · exact .inl returned
  · exact .inr ⟨e,k',ran,held⟩

theorem balanced_syscallRead (flat : l.consoleLockDepth = 0) :
    Balanced t l (syscallRead t ram services fd buffer size) := by
  unfold syscallRead
  split
  · exact .of_keeps flat (keeps_pure _)
  · apply Outcome.balanced
    intro k locked
    split
    · exact ⟨k.process,true,0,0,0,.inl ⟨_,k,rfl,locked⟩⟩
    · exact ⟨_,_,_,_,_,fileRead_outcome flat ⟨locked,rfl⟩⟩

theorem balanced_syscallWrite (flat : l.consoleLockDepth = 0) (other : l.holder .console ≠ some t) :
    Balanced t l (syscallWrite t ram services fd buffer size) := by
  unfold syscallWrite
  split
  · apply Balanced.bind
    · intro k locked
      rcases putbuf_outcome flat other locked with ⟨k',ran,same⟩ | ⟨e,k',ran,held,_⟩
      · exact .inl ⟨(),k',ran,same⟩
      · exact .inr ⟨e,k',ran,held⟩
    · exact fun _ => .of_keeps flat (keeps_pure _)
  split
  · exact .of_keeps flat (keeps_pure _)
  · apply Outcome.balanced
    intro k locked
    split
    · exact ⟨k.process,true,0,0,0,.inl ⟨_,k,rfl,locked⟩⟩
    · exact ⟨_,_,_,_,_,fileWrite_outcome flat ⟨locked,rfl⟩⟩

theorem balanced_dispatch (flat : l.consoleLockDepth = 0) (other : l.holder .console ≠ some t) :
    Balanced t l (dispatch t ram services esp number) := by
  have calm : Calm t (Locked l) := locked_calm flat
  unfold dispatch
  split
  · apply Balanced.of_keeps flat
    refine Keeps.bind calm.validateBuffer fun _ _ _ _ _ => ?_
    exact Keeps.bind (locked_loadWord flat) fun _ _ _ _ _ => calm.syscallExit
  split
  · apply Balanced.of_keeps flat
    refine Keeps.bind calm.validateBuffer fun _ _ _ _ _ => ?_
    refine Keeps.bind (locked_loadWord flat) fun _ _ _ _ _ => ?_
    refine Keeps.bind (locked_validateString flat) fun _ _ _ _ _ => ?_
    exact Keeps.bind (locked_syscallOpen flat) fun _ _ _ _ _ => keeps_pure _
  split
  · have loaded a : Balanced t l (loadWord t ram a) := .of_keeps flat (locked_loadWord flat)
    have checked a n : Balanced t l (validateBufferInUserRegion t a n) := .of_keeps flat calm.validateBuffer
    refine (checked _ _).bind fun _ => (loaded _).bind fun _ => (loaded _).bind fun _ => ?_
    refine (checked _ _).bind fun _ => (loaded _).bind fun _ => ?_
    split
    · exact (balanced_syscallWrite flat other).bind fun _ => .of_keeps flat (keeps_pure _)
    · exact (balanced_syscallRead flat).bind fun _ => .of_keeps flat (keeps_pure _)
  split
  · apply Balanced.of_keeps flat
    refine Keeps.bind calm.validateBuffer fun _ _ _ _ _ => ?_
    refine Keeps.bind (locked_loadWord flat) fun _ _ _ _ _ => ?_
    exact Keeps.bind locked_syscallClose fun _ _ _ _ _ => keeps_pure _
  split
  · apply Balanced.of_keeps flat
    refine Keeps.bind calm.validateBuffer fun _ _ _ _ _ => ?_
    refine Keeps.bind (locked_loadWord flat) fun _ _ _ _ _ => ?_
    exact Keeps.bind locked_syscallSbrk fun _ _ _ _ _ => keeps_pure _
  · apply Balanced.of_keeps flat
    exact Keeps.bind calm.printf fun _ _ _ _ _ => keeps_pure _

theorem balanced_handler (flat : l.consoleLockDepth = 0) (other : l.holder .console ≠ some t) :
    Balanced t l (syscallHandler t ram services esp) := by
  have calm : Calm t (Locked l) := locked_calm flat
  refine Balanced.bind (.of_keeps flat (keeps_modify fun _ kept => kept)) fun _ => ?_
  refine Balanced.bind (.of_keeps flat calm.validateBuffer) fun _ => ?_
  refine Balanced.bind (.of_keeps flat (locked_loadWord flat)) fun _ => ?_
  refine Balanced.bind (balanced_dispatch flat other) fun _ => .of_keeps flat ?_
  exact Keeps.bind (keeps_modify fun _ kept => kept) fun _ _ _ _ _ => keeps_pure _

end

end OsProj.Syscall
