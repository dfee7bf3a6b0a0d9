import Mathlib.Data.Set.Finite.Lattice
import Mathlib.Data.Set.Finite.Range
import OsProj.WorkQueue
import OsProj.Channel

/-! Any number of threads call `wq_push` and `wq_pop`. Between two operations on the mutex or the
condition variable a thread runs alone with what they guard. -/
namespace OsProj.WorkQueue

open OsProj.Faulting
open OsProj.History
open OsProj.Channel

inductive Pc where
  | idle
  | pushLock (clientSocketFd : Int)
  | pushAppend (clientSocketFd : Int)
  | pushBroadcast
  | pushUnlock
  | popLock
  | popTest
  | popAsleep
  | popRelock
  | popTake
  | popUnlock (wqItem : Nat) (clientSocketFd : Int)
  | popFree (wqItem : Nat) (clientSocketFd : Int)
  deriving DecidableEq

structure State (Tid : Type) where
  queue : Queue
  owner : Option Tid
  pc : Tid → Pc

inductive Event (Tid : Type) where
  | called (t : Tid) (clientSocketFd : Option Int)
  | pushed (t : Tid) (clientSocketFd : Int)
  | taken (t : Tid) (clientSocketFd : Int)
  | returned (t : Tid) (clientSocketFd : Option Int)
  | silent (t : Tid)

section
variable {Tid : Type}

def start : State Tid := ⟨wqInit fun _ => none,none,fun _ => .idle⟩

variable [DecidableEq Tid]

def State.goto (s : State Tid) (t : Tid) (pc : Pc) : State Tid := { s with pc := Function.update s.pc t pc }

/-- The mutex is given up, which only its owner may do. -/
def release (t : Tid) (s : State Tid) : Except Fault (State Tid) :=
  if s.owner = some t then .ok { s with owner := none } else .error .notOwner

def pthreadMutexLock (t : Tid) (s : State Tid) (pc : Pc) : Option (Except Fault (Event Tid × State Tid)) :=
  if s.owner = none then some (.ok (.silent t,{ s with owner := some t }.goto t pc)) else none

def pthreadCondBroadcast (s : State Tid) : State Tid :=
  { s with pc := fun u => if s.pc u = .popAsleep then .popRelock else s.pc u }

/-- The next operation of a thread in a call. `calloc` would give `wqItem`. -/
def advance (t : Tid) (wqItem : Nat) (s : State Tid) : Option (Except Fault (Event Tid × State Tid)) :=
  match s.pc t with
  | .idle => none
  | .pushLock fd => pthreadMutexLock t s (.pushAppend fd)
  | .pushAppend fd => some do
      let (_,queue) ← pushItem wqItem fd s.queue
      return (.pushed t fd,{ s with queue := queue }.goto t .pushBroadcast)
  | .pushBroadcast => some (.ok (.silent t,(pthreadCondBroadcast s).goto t .pushUnlock))
  | .pushUnlock => some do
      let s ← release t s
      return (.returned t none,s.goto t .idle)
  | .popLock => pthreadMutexLock t s .popTest
  | .popTest =>
    if s.queue.size = 0 then some do
      let s ← release t s
      return (.silent t,s.goto t .popAsleep)
    else some (.ok (.silent t,s.goto t .popTake))
  | .popAsleep => none
  | .popRelock => pthreadMutexLock t s .popTest
  | .popTake => some do
      let (c,queue) ← popItem s.queue
      return (.taken t c.2,{ s with queue := queue }.goto t (.popUnlock c.1 c.2))
  | .popUnlock wqItem fd => some do
      let s ← release t s
      return (.silent t,s.goto t (.popFree wqItem fd))
  | .popFree wqItem fd => some do
      let (_,queue) ← free wqItem s.queue
      return (.returned t (some fd),{ s with queue := queue }.goto t .idle)

/-- A thread that waits for the condition variable may also wake up without a broadcast. -/
inductive Step : State Tid → Event Tid → State Tid → Prop where
  | push (idle : s.pc t = .idle) (fd : Int) : Step s (.called t (some fd)) (s.goto t (.pushLock fd))
  | pop (idle : s.pc t = .idle) : Step s (.called t none) (s.goto t .popLock)
  | wake (asleep : s.pc t = .popAsleep) : Step s (.silent t) (s.goto t .popRelock)
  | advance (unused : s.queue.items wqItem = none) (moves : advance t wqItem s = some (.ok (e,s'))) : Step s e s'

inductive Request (Tid : Type) where
  | push (t : Tid) (clientSocketFd : Int)
  | pop (t : Tid)
  | wake (t : Tid)
  | advance (t : Tid) (wqItem : Nat)

def perform (request : Request Tid) (s : State Tid) : Option (Event Tid × State Tid) :=
  match request with
  | .push t fd => if s.pc t = .idle then some (.called t (some fd),s.goto t (.pushLock fd)) else none
  | .pop t => if s.pc t = .idle then some (.called t none,s.goto t .popLock) else none
  | .wake t => if s.pc t = .popAsleep then some (.silent t,s.goto t .popRelock) else none
  | .advance t wqItem =>
    if s.queue.items wqItem = none then
      match advance t wqItem s with
      | some (.ok out) => some out
      | _ => none
    else none

theorem perform_step {request : Request Tid} (ran : perform request s = some (e,s')) : Step s e s' := by
  cases request with
  | push t fd =>
    simp only [perform,Option.ite_none_right_eq_some,Option.some.injEq,Prod.mk.injEq] at ran
    obtain ⟨idle,rfl,rfl⟩ := ran
    exact .push idle fd
  | pop t =>
    simp only [perform,Option.ite_none_right_eq_some,Option.some.injEq,Prod.mk.injEq] at ran
    obtain ⟨idle,rfl,rfl⟩ := ran
    exact .pop idle
  | wake t =>
    simp only [perform,Option.ite_none_right_eq_some,Option.some.injEq,Prod.mk.injEq] at ran
    obtain ⟨asleep,rfl,rfl⟩ := ran
    exact .wake asleep
  | advance t wqItem =>
    simp only [perform,Option.ite_none_right_eq_some] at ran
    obtain ⟨unused,ran⟩ := ran
    split at ran
    · rename_i moves
      obtain rfl := Option.some.inj ran
      exact .advance unused moves
    · cases ran

inductive Runs : Nat → State Tid → State Tid → Prop where
  | refl : Runs 0 s s
  | snoc (front : Runs n s s') (unused : s'.queue.items wqItem = none) (moves : advance t wqItem s' = some (.ok (e,s''))) :
      Runs (n + 1) s s''

/-- No thread that is in a call and awake can go on. -/
def Halted (s : State Tid) : Prop :=
  ∀ t wqItem e s', s.queue.items wqItem = none → advance t wqItem s ≠ some (.ok (e,s'))

def Faults (s : State Tid) : Prop :=
  ∃ t wqItem fault, s.queue.items wqItem = none ∧ advance t wqItem s = some (.error fault)

abbrev Reaches (h : List (Event Tid)) (s : State Tid) : Prop := Path (fun _ s e s' => Step s e s') [] start h s

/-- A thread that has nothing to do until another one moves. -/
def Stuck (s : State Tid) (t : Tid) : Prop := s.pc t = .idle ∨ s.pc t = .popAsleep ∨ s.owner ≠ none ∧ s.owner ≠ some t

/-! What a thread and an event carry. -/

def Pc.holds : Pc → Bool
  | .pushAppend _ | .pushBroadcast | .pushUnlock | .popTest | .popTake | .popUnlock _ _ => true
  | _ => false

/-- The value that is still to be put on the list. -/
def Pc.pending : Pc → List Int
  | .pushLock fd | .pushAppend fd => [fd]
  | _ => []

/-- The item that was taken off the list and is not free yet. -/
def Pc.item : Pc → Option (Nat × Int)
  | .popUnlock wqItem fd | .popFree wqItem fd => some (wqItem,fd)
  | _ => none

def Pc.held (pc : Pc) : List Int := (pc.item.map Prod.snd).toList

def Event.thread : Event Tid → Tid
  | .called t _ | .pushed t _ | .taken t _ | .returned t _ | .silent t => t

def Event.calls : Event Tid → List Int
  | .called _ (some fd) => [fd]
  | _ => []

def Event.pushes : Event Tid → List Int
  | .pushed _ fd => [fd]
  | _ => []

def Event.takes : Event Tid → List Int
  | .taken _ fd => [fd]
  | _ => []

def Event.returns : Event Tid → List Int
  | .returned _ (some fd) => [fd]
  | _ => []

/-- What the events of one thread carry. -/
def Event.only (t : Tid) (f : Event Tid → List Int) (e : Event Tid) : List Int := if e.thread = t then f e else []

/-- The mutex is held where the program counters say, the list is in order, memory holds the items
of the list and those that were taken off it, and a sleeping thread has nothing to miss. -/
structure Inv (s : State Tid) (cells : List (Nat × Int)) : Prop where
  shape : Shape s.queue cells
  memory : ∀ p, (s.queue.items p).isSome ↔ p ∈ cells.map Prod.fst ∨ ∃ t c, (s.pc t).item = some c ∧ c.1 = p
  apart : ∀ t c, (s.pc t).item = some c → c.1 ∉ cells.map Prod.fst
  distinct : ∀ t u c d, (s.pc t).item = some c → (s.pc u).item = some d → c.1 = d.1 → t = u
  owner : ∀ t, s.owner = some t ↔ (s.pc t).holds = true
  ready : ∀ t, s.pc t = .popTake → cells ≠ []
  awake : ∀ t, s.pc t = .popAsleep → cells = [] ∨ ∃ u, s.pc u = .pushBroadcast

/-- What a step does to the values on the list and to those that each thread brings and takes. -/
structure Moves (s : State Tid) (cells : List (Nat × Int)) (e : Event Tid) (s' : State Tid) (cells' : List (Nat × Int)) : Prop where
  listed : Conserved (cells.map Prod.snd) e.pushes e.takes (cells'.map Prod.snd)
  brought : ∀ t, Conserved (s.pc t).pending (e.only t Event.calls) (e.only t Event.pushes) (s'.pc t).pending
  carried : ∀ t, Conserved (s.pc t).held (e.only t Event.takes) (e.only t Event.returns) (s'.pc t).held

inductive Outcome (s : State Tid) (cells : List (Nat × Int)) (t : Tid) :
    Option (Except Fault (Event Tid × State Tid)) → Prop where
  | stuck (stuck : Stuck s t) : Outcome s cells t none
  | moved (inv : Inv s' cells') (moves : Moves s cells e s' cells') : Outcome s cells t (some (.ok (e,s')))

end

section
variable {Tid : Type} {s s' : State Tid} {e : Event Tid} {cells : List (Nat × Int)} {t : Tid} {k : Pc}

theorem start_inv : Inv (start : State Tid) [] where
  shape := wqInit_shape _
  memory := by simp [start,wqInit,Pc.item]
  apart := by simp
  distinct := by simp [start,Pc.item]
  owner := by simp [start,Pc.holds]
  ready := by simp [start]
  awake := by simp

/-- The owner of the mutex is the only one. -/
theorem Inv.alone (inv : Inv s cells) (holds : (s.pc t).holds = true) (others : (s.pc u).holds = true) : u = t :=
  Option.some.inj (((inv.owner u).mpr others).symm.trans ((inv.owner t).mpr holds))

/-- A thread asleep beside a list that is not empty is about to be woken. -/
theorem Inv.woken (inv : Inv s cells) (stuck : ∀ t, Stuck s t) (t : Tid) : s.pc t = .idle ∨ s.pc t = .popAsleep ∧ cells = [] := by
  have idle_or (u : Tid) : s.pc u = .idle ∨ s.pc u = .popAsleep := by
    rcases stuck u with idle | asleep | ⟨held,other⟩
    · exact .inl idle
    · exact .inr asleep
    · obtain ⟨v,owns⟩ := Option.ne_none_iff_exists'.mp held
      have holds := (inv.owner v).mp owns
      rcases stuck v with idle | asleep | ⟨-,notOwn⟩
      · rw [idle] at holds
        cases holds
      · rw [asleep] at holds
        cases holds
      · exact absurd owns notOwn
  rcases idle_or t with idle | asleep
  · exact .inl idle
  · refine .inr ⟨asleep,?_⟩
    rcases inv.awake t asleep with empty | ⟨u,broadcasts⟩
    · exact empty
    · rcases idle_or u with idle | asleep'
      · cases broadcasts.symm.trans idle
      · cases broadcasts.symm.trans asleep'

/-- `calloc` finds room. -/
theorem Inv.fresh [Finite Tid] (inv : Inv s cells) : ∃ p, s.queue.items p = none := by
  have bounded : Set.Finite {p | (s.queue.items p).isSome} := by
    refine Set.Finite.subset ((List.finite_toSet (cells.map Prod.fst)).union
      (Set.finite_range fun t => ((s.pc t).item.map Prod.fst).getD 0)) ?_
    intro p used
    rcases (inv.memory p).mp used with listed | ⟨t,c,item,rfl⟩
    · exact .inl listed
    · exact .inr ⟨t,by simp [item]⟩
  obtain ⟨p,free⟩ := bounded.exists_notMem
  exact ⟨p,by simpa using free⟩

variable [DecidableEq Tid]

theorem Event.only_self {f : Event Tid → List Int} : e.only e.thread f = f e := if_pos rfl

theorem Event.only_apart {f : Event Tid → List Int} (apart : u ≠ e.thread) : e.only u f = [] := if_neg (Ne.symm apart)

/-- A step in which only one thread moves. -/
theorem moves_of {cells' : List (Nat × Int)} {queue : Queue} {owner : Option Tid}
    (listed : Conserved (cells.map Prod.snd) e.pushes e.takes (cells'.map Prod.snd))
    (brought : Conserved (s.pc e.thread).pending e.calls e.pushes k.pending)
    (carried : Conserved (s.pc e.thread).held e.takes e.returns k.held) :
    Moves s cells e ⟨queue,owner,Function.update s.pc e.thread k⟩ cells' where
  listed := listed
  brought := by
    intro u
    by_cases same : u = e.thread
    · subst same
      simpa only [Function.update_self,Event.only_self] using brought
    · simpa only [Function.update_of_ne same,Event.only_apart same] using conserved_idle _
  carried := by
    intro u
    by_cases same : u = e.thread
    · subst same
      simpa only [Function.update_self,Event.only_self] using carried
    · simpa only [Function.update_of_ne same,Event.only_apart same] using conserved_idle _

theorem update_kept {f : Pc → β} (same : f k = f (s.pc t)) (u : Tid) : f (Function.update s.pc t k u) = f (s.pc u) := by
  by_cases here : u = t
  · subst here
    rw [Function.update_self,same]
  · rw [Function.update_of_ne here]

theorem Inv.locks (inv : Inv s cells) (free : s.owner = none) (holds : k.holds = true) (u : Tid) :
    some t = some u ↔ (Function.update s.pc t k u).holds = true := by
  by_cases here : u = t
  · subst here
    simp [holds]
  · rw [Function.update_of_ne here,← inv.owner u,free]
    simp [Ne.symm here]

theorem Inv.releases (inv : Inv s cells) (own : s.owner = some t) (gone : k.holds = false) (u : Tid) :
    none = some u ↔ (Function.update s.pc t k u).holds = true := by
  by_cases here : u = t
  · subst here
    simp [gone]
  · rw [Function.update_of_ne here,← inv.owner u,own]
    simp [Ne.symm here]

theorem Inv.keeps (inv : Inv s cells) (same : k.holds = (s.pc t).holds) (u : Tid) :
    s.owner = some u ↔ (Function.update s.pc t k u).holds = true := by
  rw [update_kept same,inv.owner u]

/-- A step that leaves the list alone. -/
theorem Inv.move (inv : Inv s cells) {owner : Option Tid} (owns : ∀ u, owner = some u ↔ (Function.update s.pc t k u).holds = true)
    (item : k.item = (s.pc t).item) (ready : k = .popTake → cells ≠ []) (asleep : k = .popAsleep → cells = [])
    (quiet : s.pc t ≠ .pushBroadcast) : Inv ⟨s.queue,owner,Function.update s.pc t k⟩ cells where
  shape := inv.shape
  memory := by
    intro p
    simp only [update_kept item]
    exact inv.memory p
  apart := by
    intro u c
    simp only [update_kept item]
    exact inv.apart u c
  distinct := by
    intro u v c d
    simp only [update_kept item]
    exact inv.distinct u v c d
  owner := owns
  ready := by
    intro u here
    by_cases same : u = t
    · subst same
      exact ready ((Function.update_self ..).symm.trans here)
    · exact inv.ready u ((Function.update_of_ne same ..).symm.trans here)
  awake := by
    intro u here
    by_cases same : u = t
    · subst same
      exact .inl (asleep ((Function.update_self ..).symm.trans here))
    · rcases inv.awake u ((Function.update_of_ne same ..).symm.trans here) with empty | ⟨v,broadcasts⟩
      · exact .inl empty
      · refine .inr ⟨v,(Function.update_of_ne ?_ ..).trans broadcasts⟩
        rintro rfl
        exact quiet broadcasts

/-- A broadcast changes no thread in a way that matters to its mutex, its values or its item. -/
theorem broadcast_kept {f : Pc → β} (same : f .popRelock = f .popAsleep) (kept : f .pushUnlock = f (s.pc t)) (u : Tid) :
    f (((pthreadCondBroadcast s).goto t .pushUnlock).pc u) = f (s.pc u) := by
  by_cases mine : u = t
  · subst mine
    exact (congrArg f (Function.update_self ..)).trans kept
  · refine (congrArg f (Function.update_of_ne mine ..)).trans ?_
    simp only [pthreadCondBroadcast]
    split
    · rename_i asleep
      rw [same,asleep]
    · rfl

theorem Inv.broadcast (inv : Inv s cells) (here : s.pc t = .pushBroadcast) :
    Inv ((pthreadCondBroadcast s).goto t .pushUnlock) cells := by
  have item (u : Tid) := broadcast_kept (f := Pc.item) rfl (by rw [here]; rfl) u
  refine ⟨inv.shape,?_,?_,?_,?_,?_,?_⟩
  · intro p
    simp only [item]
    exact inv.memory p
  · intro u c
    simp only [item]
    exact inv.apart u c
  · intro u v c d
    simp only [item]
    exact inv.distinct u v c d
  · intro u
    rw [broadcast_kept (f := Pc.holds) rfl (by rw [here]; rfl) u]
    exact inv.owner u
  · intro u takes
    have before := broadcast_kept (f := fun pc => decide (pc = .popTake)) rfl (by rw [here]; rfl) u
    rw [takes] at before
    exact inv.ready u (by simpa using before.symm)
  · intro u asleep
    by_cases mine : u = t
    · subst mine
      exact absurd ((Function.update_self ..).symm.trans asleep) nofun
    · have before := (Function.update_of_ne mine ..).symm.trans asleep
      simp only [pthreadCondBroadcast] at before
      split at before
      · contradiction
      · contradiction

theorem Inv.push (inv : Inv s cells) (here : s.pc t = .pushAppend fd) (unused : s.queue.items p = none) {q : Queue}
    (shape : Shape q (cells ++ [(p,fd)])) (others : ∀ r, r ∉ (cells ++ [(p,fd)]).map Prod.fst → q.items r = s.queue.items r) :
    Inv ⟨q,s.owner,Function.update s.pc t .pushBroadcast⟩ (cells ++ [(p,fd)]) where
  shape := shape
  memory := by
    intro r
    simp only [update_kept (f := Pc.item) (k := .pushBroadcast) (t := t) (s := s) (by rw [here]; rfl)]
    by_cases listed : r ∈ (cells ++ [(p,fd)]).map Prod.fst
    · simp only [shape.isSome listed,listed,true_or]
    · have before : r ∉ cells.map Prod.fst := fun inside => listed (by simp_all)
      rw [others r listed,inv.memory r]
      simp only [before,listed]
  apart := by
    intro u c item
    rw [update_kept (f := Pc.item) (by rw [here]; rfl)] at item
    have stored := (inv.memory c.1).mpr (.inr ⟨u,c,item,rfl⟩)
    have unlisted := inv.apart u c item
    intro inside
    rw [List.map_append,List.mem_append,List.map_singleton,List.mem_singleton] at inside
    rcases inside with old | new
    · exact unlisted old
    · rw [new,unused] at stored
      contradiction
  distinct := by
    intro u v c d
    simp only [update_kept (f := Pc.item) (k := .pushBroadcast) (t := t) (s := s) (by rw [here]; rfl)]
    exact inv.distinct u v c d
  owner := inv.keeps (by rw [here]; rfl)
  ready := fun _ _ => by simp
  awake := fun _ _ => .inr ⟨t,Function.update_self ..⟩

/-- The owner of the mutex keeps it. -/
theorem Inv.owns (inv : Inv s cells) (owner : s'.owner = s.owner) (mine : (s'.pc t).holds = (s.pc t).holds)
    (theirs : ∀ u, u ≠ t → s'.pc u = s.pc u) (u : Tid) : s'.owner = some u ↔ (s'.pc u).holds = true := by
  rw [owner,inv.owner u]
  by_cases same : u = t
  · subst same
    rw [mine]
  · rw [theirs u same]

theorem Inv.take {c : Nat × Int} {rest : List (Nat × Int)} (inv : Inv s (c :: rest)) (here : s.pc t = .popTake)
    (shape : Shape s'.queue rest) (others : ∀ r, r ∉ rest.map Prod.fst → s'.queue.items r = s.queue.items r)
    (owner : s'.owner = s.owner) (mine : s'.pc t = .popUnlock c.1 c.2) (theirs : ∀ u, u ≠ t → s'.pc u = s.pc u) :
    Inv s' rest := by
  have carries : (s'.pc t).item = some c := by rw [mine]; rfl
  have unlisted := inv.shape.tail.1
  have apart (u : Tid) (d : Nat × Int) (other : u ≠ t) (item : (s'.pc u).item = some d) : d.1 ≠ c.1 ∧ d.1 ∉ rest.map Prod.fst := by
    rw [theirs u other] at item
    simpa using inv.apart u d item
  refine ⟨shape,?_,?_,?_,inv.owns owner (by rw [mine,here]; rfl) theirs,?_,?_⟩
  · intro r
    by_cases listed : r ∈ rest.map Prod.fst
    · simp only [shape.isSome listed,listed,true_or]
    rw [others r listed,inv.memory r]
    constructor
    · rintro (before | ⟨u,d,item,rfl⟩)
      · rcases List.mem_cons.mp before with first | later
        · exact .inr ⟨t,c,carries,first.symm⟩
        · exact absurd later listed
      · have other : u ≠ t := by
          rintro rfl
          rw [here] at item
          cases item
        exact .inr ⟨u,d,by rwa [theirs u other],rfl⟩
    · rintro (before | ⟨u,d,item,rfl⟩)
      · exact absurd before listed
      · by_cases same : u = t
        · subst same
          obtain rfl := Option.some.inj (carries.symm.trans item)
          exact .inl (by simp)
        · exact .inr ⟨u,d,by rwa [theirs u same] at item,rfl⟩
  · intro u d item
    by_cases same : u = t
    · subst same
      obtain rfl := Option.some.inj (carries.symm.trans item)
      exact unlisted
    · exact (apart u d same item).2
  · intro u v d d' first second equal
    by_cases left : u = t <;> by_cases right : v = t
    · exact left.trans right.symm
    · subst left
      obtain rfl := Option.some.inj (carries.symm.trans first)
      exact absurd equal.symm (apart v d' right second).1
    · subst right
      obtain rfl := Option.some.inj (carries.symm.trans second)
      exact absurd equal (apart u d left first).1
    · rw [theirs u left] at first
      rw [theirs v right] at second
      exact inv.distinct u v d d' first second equal
  · intro u takes
    by_cases same : u = t
    · subst same
      cases mine.symm.trans takes
    · rw [theirs u same] at takes
      exact absurd (inv.alone (by rw [here]; rfl) (by rw [takes]; rfl)) same
  · intro u asleep
    by_cases same : u = t
    · subst same
      cases mine.symm.trans asleep
    · rw [theirs u same] at asleep
      rcases inv.awake u asleep with empty | ⟨v,broadcasts⟩
      · cases empty
      · obtain rfl := inv.alone (by rw [here]; rfl) (show (s.pc v).holds = true by rw [broadcasts]; rfl)
        cases here.symm.trans broadcasts

theorem Inv.free (inv : Inv s cells) (here : s.pc t = .popFree p fd)
    (queue : s'.queue = { s.queue with items := Function.update s.queue.items p none })
    (owner : s'.owner = s.owner) (mine : s'.pc t = .idle) (theirs : ∀ u, u ≠ t → s'.pc u = s.pc u) : Inv s' cells := by
  have carried : (s.pc t).item = some (p,fd) := by rw [here]; rfl
  have unlisted : p ∉ cells.map Prod.fst := inv.apart t _ carried
  have other (u : Tid) (d : Nat × Int) (item : (s'.pc u).item = some d) : u ≠ t ∧ (s.pc u).item = some d := by
    by_cases same : u = t
    · subst same
      rw [mine] at item
      cases item
    · exact ⟨same,by rwa [theirs u same] at item⟩
  refine ⟨inv.shape.congr (by rw [queue]) (by rw [queue]) ?_,?_,?_,?_,inv.owns owner (by rw [mine,here]; rfl) theirs,?_,?_⟩
  · intro c member
    rw [queue]
    refine Function.update_of_ne ?_ ..
    rintro rfl
    exact unlisted (List.mem_map_of_mem member)
  · intro r
    rw [queue]
    by_cases freed : r = p
    · subst freed
      simp only [Function.update_self,Option.isSome_none,Bool.false_eq_true,unlisted,false_or,false_iff]
      rintro ⟨u,d,item,same⟩
      obtain ⟨apart,item⟩ := other u d item
      exact apart (inv.distinct u t d _ item carried same)
    · change (Function.update s.queue.items p none r).isSome ↔ _
      rw [Function.update_of_ne freed,inv.memory r]
      refine or_congr_right ⟨?_,?_⟩
      · rintro ⟨u,d,item,rfl⟩
        have apart : u ≠ t := by
          rintro rfl
          obtain rfl := Option.some.inj (carried.symm.trans item)
          exact freed rfl
        exact ⟨u,d,by rwa [theirs u apart],rfl⟩
      · rintro ⟨u,d,item,rfl⟩
        exact ⟨u,d,(other u d item).2,rfl⟩
  · intro u d item
    exact inv.apart u d (other u d item).2
  · intro u v c d first second same
    exact inv.distinct u v c d (other u c first).2 (other v d second).2 same
  · intro u takes
    by_cases same : u = t
    · subst same
      cases mine.symm.trans takes
    · exact inv.ready u (by rwa [theirs u same] at takes)
  · intro u asleep
    by_cases same : u = t
    · subst same
      cases mine.symm.trans asleep
    · refine (inv.awake u (by rwa [theirs u same] at asleep)).imp id ?_
      rintro ⟨v,broadcasts⟩
      refine ⟨v,(theirs v ?_).trans broadcasts⟩
      rintro rfl
      cases here.symm.trans broadcasts

theorem moves_silent (pending : ∀ u, (s'.pc u).pending = (s.pc u).pending) (item : ∀ u, (s'.pc u).item = (s.pc u).item) :
    Moves s cells (.silent t) s' cells where
  listed := conserved_idle _
  brought := by
    intro u
    simpa only [pending,Event.only,Event.calls,Event.pushes,ite_self] using conserved_idle _
  carried := by
    intro u
    simpa only [Pc.held,item,Event.only,Event.takes,Event.returns,ite_self] using conserved_idle _

theorem silent_moves {owner : Option Tid} {queue : Queue} (pending : k.pending = (s.pc t).pending) (item : k.item = (s.pc t).item) :
    Moves s cells (.silent t) ⟨queue,owner,Function.update s.pc t k⟩ cells :=
  moves_silent (update_kept pending) (update_kept item)

theorem Inv.lock (inv : Inv s cells) (holds : k.holds = true) (waits : (s.pc t).holds = false) (pending : k.pending = (s.pc t).pending)
    (item : k.item = (s.pc t).item) (ready : k ≠ .popTake) (asleep : k ≠ .popAsleep) :
    Outcome s cells t (pthreadMutexLock t s k) := by
  unfold pthreadMutexLock
  split
  · rename_i free
    refine .moved (inv.move (inv.locks free holds) item (fun takes => absurd takes ready) (fun sleeps => absurd sleeps asleep) ?_)
      (silent_moves pending item)
    intro broadcasts
    rw [broadcasts] at waits
    cases waits
  · rename_i held
    refine .stuck (.inr (.inr ⟨held,fun own => ?_⟩))
    have holder := (inv.owner t).mp own
    rw [waits] at holder
    cases holder

theorem release_ok (own : s.owner = some t) : release t s = .ok { s with owner := none } := if_pos own

theorem Inv.outcome (inv : Inv s cells) (unused : s.queue.items wqItem = none) (t : Tid) :
    Outcome s cells t (advance t wqItem s) := by
  have own (holds : (s.pc t).holds = true) : s.owner = some t := (inv.owner t).mpr holds
  unfold advance
  cases here : s.pc t with
  | idle => exact .stuck (.inl here)
  | popAsleep => exact .stuck (.inr (.inl here))
  | pushLock fd => exact inv.lock rfl (by rw [here]; rfl) (by rw [here]; rfl) (by rw [here]; rfl) (by simp) (by simp)
  | popLock => exact inv.lock rfl (by rw [here]; rfl) (by rw [here]; rfl) (by rw [here]; rfl) (by simp) (by simp)
  | popRelock => exact inv.lock rfl (by rw [here]; rfl) (by rw [here]; rfl) (by rw [here]; rfl) (by simp) (by simp)
  | pushAppend fd =>
    obtain ⟨q,appends,shape,others⟩ := pushItem_ok inv.shape unused fd
    simp only [appends]
    refine .moved (inv.push here unused shape others) (moves_of (e := .pushed t fd) ?_ ?_ ?_)
    · rw [List.map_append]
      exact conserved_enter _ _
    · rw [show s.pc (Event.pushed t fd).thread = _ from here]
      exact conserved_leave [fd] []
    · rw [show s.pc (Event.pushed t fd).thread = _ from here]
      exact conserved_idle _
  | pushBroadcast =>
    exact .moved (inv.broadcast here) (moves_silent (broadcast_kept rfl (by rw [here]; rfl)) (broadcast_kept rfl (by rw [here]; rfl)))
  | pushUnlock =>
    simp only [release_ok (own (by rw [here]; rfl))]
    refine .moved (inv.move (inv.releases (own (by rw [here]; rfl)) rfl) (by rw [here]; rfl) nofun nofun (by rw [here]; nofun))
      (moves_of (e := .returned t none) (conserved_idle _) ?_ ?_)
    · rw [show s.pc (Event.returned t none).thread = _ from here]
      exact conserved_idle _
    · rw [show s.pc (Event.returned t none).thread = _ from here]
      exact conserved_idle _
  | popTest =>
    dsimp only
    split
    · rename_i empty
      have none_ : cells = [] := List.eq_nil_of_length_eq_zero (inv.shape.size.symm.trans empty)
      simp only [release_ok (own (by rw [here]; rfl))]
      exact .moved (inv.move (inv.releases (own (by rw [here]; rfl)) rfl) (by rw [here]; rfl) nofun (fun _ => none_)
        (by rw [here]; nofun)) (silent_moves (by rw [here]; rfl) (by rw [here]; rfl))
    · rename_i some_
      have filled : cells ≠ [] := by
        rintro rfl
        exact some_ inv.shape.size
      exact .moved (inv.move (inv.keeps (by rw [here]; rfl)) (by rw [here]; rfl) (fun _ => filled) nofun (by rw [here]; nofun))
        (silent_moves (by rw [here]; rfl) (by rw [here]; rfl))
  | popTake =>
    obtain _ | ⟨c,rest⟩ := cells
    · exact absurd rfl (inv.ready t here)
    obtain ⟨q,pops,shape,others⟩ := popItem_ok inv.shape
    simp only [pops]
    refine .moved (inv.take here shape others rfl (Function.update_self ..) fun u apart => Function.update_of_ne apart ..)
      (moves_of (e := .taken t c.2) (conserved_leave [c.2] _) ?_ ?_)
    · rw [show s.pc (Event.taken t c.2).thread = _ from here]
      exact conserved_idle _
    · rw [show s.pc (Event.taken t c.2).thread = _ from here]
      exact conserved_enter _ _
  | popUnlock p fd =>
    simp only [release_ok (own (by rw [here]; rfl))]
    exact .moved (inv.move (inv.releases (own (by rw [here]; rfl)) rfl) (by rw [here]; rfl) nofun nofun (by rw [here]; nofun))
      (silent_moves (by rw [here]; rfl) (by rw [here]; rfl))
  | popFree p fd =>
    obtain ⟨a,found⟩ := Option.isSome_iff_exists.mp ((inv.memory p).mpr (.inr ⟨t,(p,fd),by rw [here]; rfl,rfl⟩))
    simp only [free_ok found]
    refine .moved (inv.free here rfl rfl (Function.update_self ..) fun u apart => Function.update_of_ne apart ..)
      (moves_of (e := .returned t (some fd)) (conserved_idle _) ?_ ?_)
    · rw [show s.pc (Event.returned t (some fd)).thread = _ from here]
      exact conserved_idle _
    · rw [show s.pc (Event.returned t (some fd)).thread = _ from here]
      exact conserved_leave [fd] []

theorem Inv.step (inv : Inv s cells) (step : Step s e s') : ∃ cells', Inv s' cells' ∧ Moves s cells e s' cells' := by
  cases step with
  | @push _ t idle fd =>
    refine ⟨cells,inv.move (inv.keeps (by rw [idle]; rfl)) (by rw [idle]; rfl) nofun nofun (by rw [idle]; nofun),
      moves_of (e := .called t (some fd)) (conserved_idle _) ?_ ?_⟩
    · rw [show s.pc (Event.called t (some fd)).thread = _ from idle]
      exact conserved_enter [] [fd]
    · rw [show s.pc (Event.called t (some fd)).thread = _ from idle]
      exact conserved_idle _
  | @pop _ t idle =>
    refine ⟨cells,inv.move (inv.keeps (by rw [idle]; rfl)) (by rw [idle]; rfl) nofun nofun (by rw [idle]; nofun),
      moves_of (e := .called t none) (conserved_idle _) ?_ ?_⟩
    · rw [show s.pc (Event.called t none).thread = _ from idle]
      exact conserved_idle _
    · rw [show s.pc (Event.called t none).thread = _ from idle]
      exact conserved_idle _
  | @wake _ t asleep =>
    exact ⟨cells,inv.move (inv.keeps (by rw [asleep]; rfl)) (by rw [asleep]; rfl) nofun nofun (by rw [asleep]; nofun),
      silent_moves (by rw [asleep]; rfl) (by rw [asleep]; rfl)⟩
  | advance unused moves =>
    rename_i t wqItem
    have outcome := inv.outcome unused t
    rw [moves] at outcome
    obtain _ | ⟨inv',moved⟩ := outcome
    exact ⟨_,inv',moved⟩

theorem reaches_inv (path : Reaches h s) : ∃ cells, Inv s cells :=
  path.invariant (fun _ s => ∃ cells, Inv s cells) (fun _ _ _ _ ⟨_,inv⟩ step => (inv.step step).imp fun _ after => after.1)
    ⟨[],start_inv⟩

theorem reaches_moves (path : Reaches h s) (step : Step s e s') : Moves s (contents s.queue) e s' (contents s'.queue) := by
  obtain ⟨cells,inv⟩ := reaches_inv path
  obtain ⟨cells',inv',moves⟩ := inv.step step
  rwa [inv.shape.contents,inv'.shape.contents]

theorem reaches_faultless (path : Reaches h s) : ¬Faults s := by
  rintro ⟨t,wqItem,fault,unused,faults⟩
  obtain ⟨cells,inv⟩ := reaches_inv path
  have outcome := inv.outcome unused t
  rw [faults] at outcome
  cases outcome

/-- One thread sleeps in `wq_pop` while another one pushes two values. -/
def handOver : List (Request Bool) :=
  [.pop false,.advance false 8,.advance false 8,.push true 5,.advance true 8,.advance true 8,.advance true 16,.advance true 16,
    .push true 6] ++ List.replicate 5 (.advance false 16) ++ [.advance true 16,.advance true 16]

def handedOver : List (Event Bool) × State Bool := arrive perform (fun _ _ _ => True) start handOver

theorem handedOver_path : Reaches handedOver.1 handedOver.2 :=
  arrive_path (fun _ _ _ _ _ ran _ => perform_step ran) (by decide)

/-- Values come off the list in the order in which they were put on it, each of them once; each call of
`wq_push` puts its own value there and each call of `wq_pop` returns the one it took. Nothing goes wrong on
the way, and what is in memory is on the list or about to be freed. -/
theorem exactlyOnce_inOrder (path : Reaches h s) : ¬Faults s ∧
    values Event.pushes h = values Event.takes h ++ (contents s.queue).map Prod.snd ∧
    (∀ t, values (Event.only t Event.calls) h = values (Event.only t Event.pushes) h ++ (s.pc t).pending ∧
      values (Event.only t Event.takes) h = values (Event.only t Event.returns) h ++ (s.pc t).held) ∧
    ∀ p, (s.queue.items p).isSome ↔ p ∈ (contents s.queue).map Prod.fst ∨ ∃ t c, (s.pc t).item = some c ∧ c.1 = p := by
  obtain ⟨cells,inv⟩ := reaches_inv path
  refine ⟨reaches_faultless path,?_,fun t => ⟨?_,?_⟩,?_⟩
  · exact conserved _ _ _ (fun _ _ _ _ front last => (reaches_moves front last).listed) path
  · exact conserved _ _ _ (fun _ _ _ _ front last => (reaches_moves front last).brought t) path
  · exact conserved _ _ _ (fun _ _ _ _ front last => (reaches_moves front last).carried t) path
  · rw [inv.shape.contents]
    exact inv.memory

theorem exactlyOnce_inOrder_handedOver : values Event.returns handedOver.1 = [5] ∧
    values Event.pushes handedOver.1 = values Event.takes handedOver.1 ++ [6] :=
  ⟨by decide,(exactlyOnce_inOrder handedOver_path).2.1⟩

theorem Inv.halted [Finite Tid] (inv : Inv s cells) (halted : Halted s) (t : Tid) : Stuck s t := by
  obtain ⟨p,unused⟩ := inv.fresh
  have outcome := inv.outcome unused t
  generalize moves : advance t p s = out at outcome
  cases outcome with
  | stuck stuck => exact stuck
  | moved => exact absurd moves (halted t p _ _ unused)

theorem Runs.inv {cells : List (Nat × Int)} (runs : Runs n s s') (inv : Inv s cells) : ∃ cells', Inv s' cells' := by
  induction runs with
  | refl => exact ⟨cells,inv⟩
  | snoc front unused moves ih =>
    obtain ⟨cells',inv'⟩ := ih inv
    obtain ⟨cells'',inv'',-⟩ := inv'.step (.advance unused moves)
    exact ⟨cells'',inv''⟩

end

end OsProj.WorkQueue
