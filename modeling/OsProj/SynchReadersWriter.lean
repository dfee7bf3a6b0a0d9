import Mathlib.Data.List.Nodup
import OsProj.History
import OsProj.Total

/-! The readers-writers lock over an inner lock that one thread holds at a time and Mesa-style
condition variables: `cond_wait` queues the thread and releases the lock in one step, and a
thread that was signalled goes on when it gets the lock again. The counters are of type `int`;
nothing follows an overflow. -/
namespace OsProj.Synch.ReadersWriter

open OsProj.Total

/-- Where a thread is. The flag is true in the code for readers. -/
inductive Pc where
  | outside
  | acquireLock (reader : Bool)
  | acquireTest (reader : Bool)
  | acquireCount (reader : Bool)
  | acquireWait (reader : Bool)
  | asleep (reader : Bool)
  | signalled (reader : Bool)
  | acquireUncount (reader : Bool)
  | acquireEnter (reader : Bool)
  | acquireUnlock
  | releaseLock (reader : Bool)
  | releaseGive (reader : Bool)
  | releaseSignal (reader : Bool)
  | releaseBroadcast
  | releaseUnlock
  deriving DecidableEq, Repr

/-- A thread with the number of holds as a reader and as a writer to which it has been
admitted and that it has not given up. -/
structure Thread where
  pc : Pc
  reading : Nat
  writing : Nat
  deriving DecidableEq, Repr

structure State (Tid : Type) where
  holder : Option Tid
  AR : Int
  WR : Int
  AW : Int
  WW : Int
  read : List Tid
  write : List Tid
  threads : Tid → Thread

section
variable {Tid : Type}

def State.init : State Tid := ⟨none,0,0,0,0,[],[],fun _ => ⟨.outside,0,0⟩⟩

/-- The condition under which the loop for readers, or for writers, waits. -/
def State.closed (s : State Tid) : Bool → Prop
  | true => s.AW + s.WW > 0
  | false => s.AR + s.AW > 0

instance (s : State Tid) : (reader : Bool) → Decidable (s.closed reader)
  | true => inferInstanceAs (Decidable (s.AW + s.WW > 0))
  | false => inferInstanceAs (Decidable (s.AR + s.AW > 0))

/-- The sum that the loop for readers, or for writers, tests. -/
def State.tested (s : State Tid) : Bool → Int
  | true => s.AW + s.WW
  | false => s.AR + s.AW

def intMax : Int := 2147483647

variable [DecidableEq Tid]

def State.goto (s : State Tid) (t : Tid) (pc : Pc) : State Tid :=
  { s with threads := Function.update s.threads t { s.threads t with pc := pc } }

/-- `cond_signal` on the writers, by a thread that then goes to release the inner lock. -/
def State.signalWrite (s : State Tid) (t : Tid) : State Tid :=
  match s.write with
  | [] => s.goto t .releaseUnlock
  | first :: rest => ({ s with write := rest }.goto first (.signalled false)).goto t .releaseUnlock

/-- The step of a thread that has the inner lock or asks for it. There is none while the lock
is not free for it, and none that overflows. -/
def advance (t : Tid) (s : State Tid) : Option (State Tid) :=
  match (s.threads t).pc with
  | .outside | .asleep _ => none
  | .acquireLock reader => if s.holder = none then some ({ s with holder := some t }.goto t (.acquireTest reader)) else none
  | .acquireTest reader =>
    if s.tested reader ≤ intMax then some (s.goto t (if s.closed reader then .acquireCount reader else .acquireEnter reader))
    else none
  | .acquireCount true => if s.WR < intMax then some ({ s with WR := s.WR + 1 }.goto t (.acquireWait true)) else none
  | .acquireCount false => if s.WW < intMax then some ({ s with WW := s.WW + 1 }.goto t (.acquireWait false)) else none
  | .acquireWait true => some ({ s with holder := none, read := s.read ++ [t] }.goto t (.asleep true))
  | .acquireWait false => some ({ s with holder := none, write := s.write ++ [t] }.goto t (.asleep false))
  | .signalled reader =>
    if s.holder = none then some ({ s with holder := some t }.goto t (.acquireUncount reader)) else none
  | .acquireUncount true => some ({ s with WR := s.WR - 1 }.goto t (.acquireTest true))
  | .acquireUncount false => some ({ s with WW := s.WW - 1 }.goto t (.acquireTest false))
  | .acquireEnter true =>
    if s.AR < intMax then
      some { s with AR := s.AR + 1,
                    threads := Function.update s.threads t
                      { s.threads t with pc := .acquireUnlock, reading := (s.threads t).reading + 1 } }
    else none
  | .acquireEnter false =>
    if s.AW < intMax then
      some { s with AW := s.AW + 1,
                    threads := Function.update s.threads t
                      { s.threads t with pc := .acquireUnlock, writing := (s.threads t).writing + 1 } }
    else none
  | .acquireUnlock => some ({ s with holder := none }.goto t .outside)
  | .releaseLock reader => if s.holder = none then some ({ s with holder := some t }.goto t (.releaseGive reader)) else none
  | .releaseGive true =>
    some { s with AR := s.AR - 1,
                  threads := Function.update s.threads t
                    { s.threads t with pc := .releaseSignal true, reading := (s.threads t).reading - 1 } }
  | .releaseGive false =>
    some { s with AW := s.AW - 1,
                  threads := Function.update s.threads t
                    { s.threads t with pc := .releaseSignal false, writing := (s.threads t).writing - 1 } }
  | .releaseSignal true => some (if s.AR = 0 ∧ s.WW > 0 then s.signalWrite t else s.goto t .releaseUnlock)
  | .releaseSignal false =>
    some (if s.WW > 0 then s.signalWrite t
      else if s.WR > 0 then s.goto t .releaseBroadcast
      else s.goto t .releaseUnlock)
  | .releaseBroadcast =>
    match s.read with
    | [] => some (s.goto t .releaseUnlock)
    | first :: rest => some ({ s with read := rest }.goto first (.signalled true))
  | .releaseUnlock => some ({ s with holder := none }.goto t .outside)

inductive Event (Tid : Type) where
  | acquire (t : Tid) (reader : Bool)
  | release (t : Tid) (reader : Bool)
  | step (t : Tid)
  deriving DecidableEq, Repr

def Thread.has (thread : Thread) (reader : Bool) : Prop := 0 < if reader then thread.reading else thread.writing

/-- A thread releases only what it holds, with the flag it acquired it with. -/
inductive Step : List (Event Tid) → State Tid → Event Tid → State Tid → Prop
  | acquire (idle : (s.threads t).pc = .outside) : Step h s (.acquire t reader) (s.goto t (.acquireLock reader))
  | release (idle : (s.threads t).pc = .outside) (held : (s.threads t).has reader) :
      Step h s (.release t reader) (s.goto t (.releaseLock reader))
  | step (ran : advance t s = some s') : Step h s (.step t) s'

instance (thread : Thread) (reader : Bool) : Decidable (thread.has reader) :=
  inferInstanceAs (Decidable (0 < if reader then thread.reading else thread.writing))

def perform (e : Event Tid) (s : State Tid) : Option (Event Tid × State Tid) :=
  match e with
  | .acquire t reader => if (s.threads t).pc = .outside then some (e,s.goto t (.acquireLock reader)) else none
  | .release t reader =>
    if (s.threads t).pc = .outside ∧ (s.threads t).has reader then some (e,s.goto t (.releaseLock reader)) else none
  | .step t => (advance t s).map fun s' => (e,s')

theorem perform_step {s s' : State Tid} (ran : perform e s = some (e',s')) : Step h s e' s' := by
  cases e with
  | acquire t reader =>
    simp only [perform,Option.ite_none_right_eq_some,Option.some.injEq,Prod.mk.injEq] at ran
    obtain ⟨idle,rfl,rfl⟩ := ran
    exact .acquire idle
  | release t reader =>
    simp only [perform,Option.ite_none_right_eq_some,Option.some.injEq,Prod.mk.injEq] at ran
    obtain ⟨⟨idle,held⟩,rfl,rfl⟩ := ran
    exact .release idle held
  | step t =>
    simp only [perform,Option.map_eq_some_iff,Prod.mk.injEq] at ran
    obtain ⟨_,ran,rfl,rfl⟩ := ran
    exact .step ran

end

/-! The invariant. -/

def Pc.locked : Pc → Bool
  | .acquireTest _ | .acquireCount _ | .acquireWait _ | .acquireUncount _ | .acquireEnter _ | .acquireUnlock
  | .releaseGive _ | .releaseSignal _ | .releaseBroadcast | .releaseUnlock => true
  | _ => false

def Pc.waiting (reader : Bool) : Pc → Bool
  | .asleep r | .signalled r => r == reader
  | _ => false

def Pc.counted (reader : Bool) : Pc → Bool
  | .acquireWait r | .asleep r | .signalled r | .acquireUncount r => r == reader
  | _ => false

/-- The thread will make `AW + WW` positive or wake the readers before it releases the lock. -/
def Pc.opens : Pc → Bool
  | .acquireTest r | .acquireCount r | .acquireEnter r | .releaseSignal r => !r
  | .releaseBroadcast => true
  | _ => false

/-- The thread will make `AR + AW` positive or wake a writer, if one is asleep. -/
def Pc.admits : Pc → Bool
  | .acquireUncount r | .acquireTest r | .acquireCount r | .acquireEnter r | .signalled r => !r
  | .releaseSignal _ => true
  | _ => false

def counted (reader : Bool) (thread : Thread) : Nat := if thread.pc.counted reader then 1 else 0

def waiting (reader : Bool) (thread : Thread) : Nat := if thread.pc.waiting reader then 1 else 0

section
variable {Tid : Type} [Fintype Tid] {s s' : State Tid}

structure Inv (s : State Tid) : Prop where
  lock : ∀ t, (s.threads t).pc.locked = true ↔ s.holder = some t
  ar : s.AR = total Thread.reading s.threads
  aw : s.AW = total Thread.writing s.threads
  wr : s.WR = total (counted true) s.threads
  ww : s.WW = total (counted false) s.threads
  read : s.read.Nodup ∧ ∀ t, t ∈ s.read ↔ (s.threads t).pc = .asleep true
  write : s.write.Nodup ∧ ∀ t, t ∈ s.write ↔ (s.threads t).pc = .asleep false
  closed : ∀ t r, (s.threads t).pc = .acquireCount r ∨ (s.threads t).pc = .acquireWait r → s.closed r
  entered : ∀ t r, (s.threads t).pc = .acquireEnter r → ¬s.closed r
  exclusive : s.AW ≤ 1 ∧ (s.AW ≤ 0 ∨ s.AR ≤ 0)
  holds : ∀ t r, (s.threads t).pc = .releaseLock r ∨ (s.threads t).pc = .releaseGive r → (s.threads t).has r
  readers : s.read ≠ [] → s.AW + s.WW > 0 ∨ ∃ t, (s.threads t).pc.opens
  writers : s.write ≠ [] → s.AR + s.AW > 0 ∨ ∃ t, (s.threads t).pc.admits

theorem init_inv : Inv (State.init : State Tid) where
  lock := by simp [State.init,Pc.locked]
  ar := by simp [State.init,total]
  aw := by simp [State.init,total]
  wr := by simp [State.init,total,counted,Pc.counted]
  ww := by simp [State.init,total,counted,Pc.counted]
  read := by simp [State.init]
  write := by simp [State.init]
  closed := by simp [State.init]
  entered := by simp [State.init]
  exclusive := by simp [State.init]
  holds := by simp [State.init]
  readers := by simp [State.init]
  writers := by simp [State.init]

/-- No other thread has the inner lock. -/
theorem Inv.alone (inv : Inv s) (mine : s.holder = none ∨ s.holder = some t) (other : u ≠ t) :
    (s.threads u).pc.locked = false := by
  rw [← Bool.not_eq_true,inv.lock u]
  rcases mine with free | mine
  · simp [free]
  · simp [mine,Ne.symm other]

theorem opens_locked {p : Pc} (opens : p.opens) : p.locked := by
  cases p <;> simp_all [Pc.opens,Pc.locked]

theorem admits_locked {p : Pc} (admits : p.admits) : p.locked ∨ p = .signalled false := by
  cases p <;> simp_all [Pc.admits,Pc.locked]

theorem Inv.readers_mine (inv : Inv s) (mine : s.holder = none ∨ s.holder = some t) (asleep : s.read ≠ []) :
    s.AW + s.WW > 0 ∨ (s.threads t).pc.opens := by
  rcases inv.readers asleep with positive | ⟨u,opens⟩
  · exact Or.inl positive
  · by_cases same : u = t
    · exact Or.inr (same ▸ opens)
    · have unlocked := inv.alone mine same
      rw [opens_locked opens] at unlocked
      contradiction

theorem Inv.writers_mine (inv : Inv s) (mine : s.holder = none ∨ s.holder = some t) (asleep : s.write ≠ []) :
    s.AR + s.AW > 0 ∨ (s.threads t).pc.admits ∨ ∃ u, u ≠ t ∧ (s.threads u).pc = .signalled false := by
  rcases inv.writers asleep with positive | ⟨u,admits⟩
  · exact Or.inl positive
  · by_cases same : u = t
    · exact Or.inr (Or.inl (same ▸ admits))
    · rcases admits_locked admits with locked | signalled
      · rw [inv.alone mine same] at locked
        contradiction
      · exact Or.inr (Or.inr ⟨u,same,signalled⟩)

theorem Inv.mine (inv : Inv s) (here : (s.threads t).pc = p) (locked : p.locked) : s.holder = some t := by
  rw [← inv.lock,here]
  exact locked

theorem Inv.nonneg (inv : Inv s) : 0 ≤ s.AR ∧ 0 ≤ s.AW ∧ 0 ≤ s.WR ∧ 0 ≤ s.WW := by
  have := inv.ar
  have := inv.aw
  have := inv.wr
  have := inv.ww
  omega

/-- Some writer is counted while one is asleep. -/
theorem Inv.write_counted (inv : Inv s) (asleep : s.write ≠ []) : s.WW > 0 := by
  obtain ⟨t,member⟩ := List.exists_mem_of_ne_nil _ asleep
  have place := (inv.write.2 t).mp member
  have least := le_total (counted false) s.threads t
  have one : counted false (s.threads t) = 1 := by simp [counted,place,Pc.counted]
  have := inv.ww
  omega

theorem Inv.read_counted (inv : Inv s) (asleep : s.read ≠ []) : s.WR > 0 := by
  obtain ⟨t,member⟩ := List.exists_mem_of_ne_nil _ asleep
  have place := (inv.read.2 t).mp member
  have least := le_total (counted true) s.threads t
  have one : counted true (s.threads t) = 1 := by simp [counted,place,Pc.counted]
  have := inv.wr
  omega

/-- The queues of a thread that is neither in one nor goes into one. -/
theorem Inv.queues_same {p q : Pc} (inv : Inv s) (here : (s.threads t).pc = p) (awake : ∀ r, p ≠ .asleep r ∧ q ≠ .asleep r) :
    (s.read.Nodup ∧ ∀ u, u ∈ s.read ↔ u ≠ t ∧ u ∈ s.read ∨ u = t ∧ q = .asleep true) ∧
      s.write.Nodup ∧ ∀ u, u ∈ s.write ↔ u ≠ t ∧ u ∈ s.write ∨ u = t ∧ q = .asleep false := by
  refine ⟨⟨inv.read.1,fun u => ?_⟩,inv.write.1,fun u => ?_⟩
  · have member := inv.read.2 u
    by_cases his : u = t
    · subst his
      rw [here] at member
      simp [member,awake true]
    · simp [his]
  · have member := inv.write.2 u
    by_cases his : u = t
    · subst his
      rw [here] at member
      simp [member,awake false]
    · simp [his]

variable [DecidableEq Tid]

/-- A step of the thread that has the inner lock, or that takes it while it is free. -/
theorem Inv.change (inv : Inv s) (thread : Thread) (mine : s.holder = none ∨ s.holder = some t)
    (threads : s'.threads = Function.update s.threads t thread)
    (holder : s'.holder = if thread.pc.locked then some t else none)
    (ar : s'.AR + (s.threads t).reading = s.AR + thread.reading)
    (aw : s'.AW + (s.threads t).writing = s.AW + thread.writing)
    (wr : s'.WR + counted true (s.threads t) = s.WR + counted true thread)
    (ww : s'.WW + counted false (s.threads t) = s.WW + counted false thread)
    (read : s'.read.Nodup ∧ ∀ u, u ∈ s'.read ↔ u ≠ t ∧ u ∈ s.read ∨ u = t ∧ thread.pc = .asleep true)
    (write : s'.write.Nodup ∧ ∀ u, u ∈ s'.write ↔ u ≠ t ∧ u ∈ s.write ∨ u = t ∧ thread.pc = .asleep false)
    (closed : ∀ r, thread.pc = .acquireCount r ∨ thread.pc = .acquireWait r → s'.closed r)
    (entered : ∀ r, thread.pc = .acquireEnter r → ¬s'.closed r)
    (exclusive : s'.AW ≤ 1 ∧ (s'.AW ≤ 0 ∨ s'.AR ≤ 0))
    (holds : ∀ r, thread.pc = .releaseLock r ∨ thread.pc = .releaseGive r → thread.has r)
    (readers : s'.read ≠ [] → s'.AW + s'.WW > 0 ∨ thread.pc.opens)
    (writers : s'.write ≠ [] → s'.AR + s'.AW > 0 ∨ thread.pc.admits ∨ ∃ u, u ≠ t ∧ (s.threads u).pc = .signalled false) :
    Inv s' := by
  have self : s'.threads t = thread := by rw [threads,Function.update_self]
  have others : ∀ u, u ≠ t → s'.threads u = s.threads u := fun u other => by rw [threads,Function.update_of_ne other]
  have unlocked : ∀ u, u ≠ t → (s'.threads u).pc.locked = false :=
    fun u other => by rw [others u other,inv.alone mine other]
  have sum (w : Thread → Nat) := total_update w s.threads t thread
  refine ⟨?_,?_,?_,?_,?_,?_,?_,?_,?_,exclusive,?_,?_,?_⟩
  · intro u
    by_cases same : u = t
    · subst same
      rw [self,holder]
      cases thread.pc.locked <;> simp
    · rw [unlocked u same,holder]
      split <;> simp [Ne.symm same]
  · have := sum Thread.reading
    have := inv.ar
    rw [threads]
    omega
  · have := sum Thread.writing
    have := inv.aw
    rw [threads]
    omega
  · have := sum (counted true)
    have := inv.wr
    rw [threads]
    omega
  · have := sum (counted false)
    have := inv.ww
    rw [threads]
    omega
  · refine ⟨read.1,fun u => ?_⟩
    rw [read.2 u]
    by_cases same : u = t
    · simp [same,self]
    · simp [same,others u same,inv.read.2 u]
  · refine ⟨write.1,fun u => ?_⟩
    rw [write.2 u]
    by_cases same : u = t
    · simp [same,self]
    · simp [same,others u same,inv.write.2 u]
  · intro u r place
    by_cases same : u = t
    · subst same
      rw [self] at place
      exact closed r place
    · have free := unlocked u same
      rcases place with place | place <;> simp [place,Pc.locked] at free
  · intro u r place
    by_cases same : u = t
    · subst same
      rw [self] at place
      exact entered r place
    · have free := unlocked u same
      simp [place,Pc.locked] at free
  · intro u r place
    by_cases same : u = t
    · subst same
      rw [self] at place ⊢
      exact holds r place
    · rw [others u same] at place ⊢
      exact inv.holds u r place
  · intro asleep
    rcases readers asleep with positive | opens
    · exact Or.inl positive
    · exact Or.inr ⟨t,by rwa [self]⟩
  · intro asleep
    rcases writers asleep with positive | admits | ⟨u,other,signalled⟩
    · exact Or.inl positive
    · exact Or.inr ⟨t,by rwa [self]⟩
    · exact Or.inr ⟨u,by rw [others u other,signalled]; rfl⟩

/-- A step that takes, keeps or releases the inner lock and changes nothing else but the place. -/
theorem Inv.shift (inv : Inv s) (q : Pc) (mine : s.holder = none ∨ s.holder = some t) (here : (s.threads t).pc = p)
    (holder : o = if q.locked then some t else none)
    (awake : ∀ r, p ≠ .asleep r ∧ q ≠ .asleep r) (same : ∀ r, p.counted r = q.counted r)
    (closed : ∀ r, q = .acquireCount r ∨ q = .acquireWait r → s.closed r) (entered : ∀ r, q = .acquireEnter r → ¬s.closed r)
    (holds : ∀ r, q = .releaseLock r ∨ q = .releaseGive r → (s.threads t).has r)
    (opens : p.opens → q.opens ∨ s.read = [] ∨ s.AW + s.WW > 0)
    (admits : p.admits → q.admits ∨ s.write = [] ∨ s.AR + s.AW > 0) :
    Inv (State.goto { s with holder := o } t q) := by
  have weight (r : Bool) : counted r { s.threads t with pc := q } = counted r (s.threads t) := by
    simp only [counted,here,same r]
  obtain ⟨read,write⟩ := inv.queues_same here awake
  refine inv.change { s.threads t with pc := q } mine rfl holder rfl rfl ?_ ?_ read write closed entered inv.exclusive holds
    ?_ ?_
  · rw [weight]
    rfl
  · rw [weight]
    rfl
  · intro asleep
    rcases inv.readers_mine mine asleep with positive | was
    · exact Or.inl positive
    · rw [here] at was
      rcases opens was with opens | empty | positive
      · exact Or.inr opens
      · exact absurd empty asleep
      · exact Or.inl positive
  · intro asleep
    rcases inv.writers_mine mine asleep with positive | was | signalled
    · exact Or.inl positive
    · rw [here] at was
      rcases admits was with admits | empty | positive
      · exact Or.inr (Or.inl admits)
      · exact absurd empty asleep
      · exact Or.inl positive
    · exact Or.inr (Or.inr signalled)

end

end OsProj.Synch.ReadersWriter
