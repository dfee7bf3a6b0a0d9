import OsProj.Faulting
import OsProj.ByteMemory

/-! The doubly linked lists of lib/kernel/list.c on a 32-bit machine, over byte-addressed
memory. A list element is the eight bytes of its two pointers; a list is its two header
elements, one after the other. -/
namespace OsProj.KernelList

open OsProj.ByteMemory
open OsProj.Faulting

inductive Panic where
  | assertion
  | nullDereference
  | unending
  deriving DecidableEq, Repr

def null : Nat := 0

def addressLimit : Nat := 4294967296

def sizeMod : Nat := 4294967296

def elemSize : Nat := 8

def prev (m : Memory) (elem : Nat) : Nat := load m elem 4

def next (m : Memory) (elem : Nat) : Nat := load m (elem + 4) 4

def withPrev (m : Memory) (elem v : Nat) : Memory := store m elem 4 v

def withNext (m : Memory) (elem v : Nat) : Memory := store m (elem + 4) 4 v

abbrev M := StateT Memory (Except Panic)

def assert (condition : Bool) : M Unit := if condition then pure () else throw .assertion

def getPrev (elem : Nat) : M Nat := fun m => if elem = null then .error .nullDereference else .ok (prev m elem,m)

def getNext (elem : Nat) : M Nat := fun m => if elem = null then .error .nullDereference else .ok (next m elem,m)

def setPrev (elem v : Nat) : M Unit := fun m =>
  if elem = null then .error .nullDereference else .ok ((),withPrev m elem v)

def setNext (elem v : Nat) : M Unit := fun m =>
  if elem = null then .error .nullDereference else .ok ((),withNext m elem v)

def isHead (elem : Nat) : M Bool := do
  if elem = null then return false
  if (← getPrev elem) ≠ null then return false
  return (← getNext elem) ≠ null

def isInterior (elem : Nat) : M Bool := do
  if elem = null then return false
  if (← getPrev elem) = null then return false
  return (← getNext elem) ≠ null

def isTail (elem : Nat) : M Bool := do
  if elem = null then return false
  if (← getPrev elem) = null then return false
  return (← getNext elem) = null

def head (list : Nat) : Nat := list

def tail (list : Nat) : Nat := list + elemSize

def listInit (list : Nat) : M Unit := do
  assert (list ≠ null)
  setPrev (head list) null
  setNext (head list) (tail list)
  setPrev (tail list) (head list)
  setNext (tail list) null

def listBegin (list : Nat) : M Nat := do
  assert (list ≠ null)
  getNext (head list)

def listNext (elem : Nat) : M Nat := do
  assert ((← isHead elem) || (← isInterior elem))
  getNext elem

def listEnd (list : Nat) : M Nat := do
  assert (list ≠ null)
  return tail list

def listPrev (elem : Nat) : M Nat := do
  assert ((← isInterior elem) || (← isTail elem))
  getPrev elem

def listInsert (before elem : Nat) : M Unit := do
  assert ((← isInterior before) || (← isTail before))
  assert (elem ≠ null)
  setPrev elem (← getPrev before)
  setNext elem before
  setNext (← getPrev before) elem
  setPrev before elem

def listSplice (before first last : Nat) : M Unit := do
  assert ((← isInterior before) || (← isTail before))
  if first = last then return
  let last ← listPrev last
  assert (← isInterior first)
  assert (← isInterior last)
  -- Cleanly remove FIRST...LAST from its current list.
  setNext (← getPrev first) (← getNext last)
  setPrev (← getNext last) (← getPrev first)
  -- Splice FIRST...LAST into new list.
  setPrev first (← getPrev before)
  setNext last before
  setNext (← getPrev before) first
  setPrev before last

def listPushFront (list elem : Nat) : M Unit := do
  listInsert (← listBegin list) elem

def listPushBack (list elem : Nat) : M Unit := do
  listInsert (← listEnd list) elem

def listRemove (elem : Nat) : M Nat := do
  assert (← isInterior elem)
  setNext (← getPrev elem) (← getNext elem)
  setPrev (← getNext elem) (← getPrev elem)
  getNext elem

def listEmpty (list : Nat) : M Bool := do
  return (← listBegin list) == (← listEnd list)

def listFront (list : Nat) : M Nat := do
  assert (!(← listEmpty list))
  getNext (head list)

def listBack (list : Nat) : M Nat := do
  assert (!(← listEmpty list))
  getPrev (tail list)

def listPopFront (list : Nat) : M Nat := do
  let front ← listFront list
  let _ ← listRemove front
  return front

def listPopBack (list : Nat) : M Nat := do
  let back ← listBack list
  let _ ← listRemove back
  return back

/-- The loop of `list_size`; a chain longer than the address space is cyclic. -/
def sizeLoop (list : Nat) : Nat → Nat → Nat → M Nat
  | 0,_,_ => throw .unending
  | fuel + 1,e,cnt => do
    if e = (← listEnd list) then return cnt
    sizeLoop list fuel (← listNext e) ((cnt + 1) % sizeMod)

def listSize (list : Nat) : M Nat := do
  sizeLoop list addressLimit (← listBegin list) 0

def swap (a b : Nat) : M Unit := fun m =>
  .ok ((),store (store m a 4 (load m b 4)) b 4 (load m a 4))

def reverseLoop (list : Nat) : Nat → Nat → M Unit
  | 0,_ => throw .unending
  | fuel + 1,e => do
    if e = (← listEnd list) then return
    swap e (e + 4)
    reverseLoop list fuel (← getPrev e)

def listReverse (list : Nat) : M Unit := do
  if !(← listEmpty list) then
    reverseLoop list addressLimit (← listBegin list)
    swap (head list + 4) (tail list)
    swap (← getNext (head list)) ((← getPrev (tail list)) + 4)

/-! What the single accesses do. -/

variable {m : Memory}

theorem assert_run (holds : c = true) : assert c m = .ok ((),m) := by
  subst holds
  rfl

theorem nonnull (placed : 0 < p) : decide (p ≠ null) = true := decide_eq_true (Nat.ne_of_gt placed)

theorem getPrev_run (placed : 0 < p) : getPrev p m = .ok (prev m p,m) := if_neg (by unfold null; omega)

theorem getNext_run (placed : 0 < p) : getNext p m = .ok (next m p,m) := if_neg (by unfold null; omega)

theorem setPrev_run (placed : 0 < p) (v : Nat) : setPrev p v m = .ok ((),withPrev m p v) :=
  if_neg (by unfold null; omega)

theorem setNext_run (placed : 0 < p) (v : Nat) : setNext p v m = .ok ((),withNext m p v) :=
  if_neg (by unfold null; omega)

theorem isHead_run (placed : 0 < p) :
    isHead p m = .ok (decide (prev m p = 0) && decide (next m p ≠ 0),m) := by
  unfold isHead null
  rw [if_neg (show p ≠ 0 by omega),bind_go (getPrev_run placed)]
  by_cases none : prev m p = 0
  · rw [if_neg (by simpa using none),bind_go (getNext_run placed),none]
    rfl
  · rw [if_pos none]
    simp [none]
    rfl

theorem isInterior_run (placed : 0 < p) :
    isInterior p m = .ok (decide (prev m p ≠ 0) && decide (next m p ≠ 0),m) := by
  unfold isInterior null
  rw [if_neg (show p ≠ 0 by omega),bind_go (getPrev_run placed)]
  by_cases none : prev m p = 0
  · rw [if_pos none,none]
    rfl
  · rw [if_neg none,bind_go (getNext_run placed)]
    simp [none]
    rfl

theorem isTail_run (placed : 0 < p) :
    isTail p m = .ok (decide (prev m p ≠ 0) && decide (next m p = 0),m) := by
  unfold isTail null
  rw [if_neg (show p ≠ 0 by omega),bind_go (getPrev_run placed)]
  by_cases none : prev m p = 0
  · rw [if_pos none,none]
    rfl
  · rw [if_neg none,bind_go (getNext_run placed)]
    simp [none]
    rfl

/-- Interior elements and tails pass the check of an insertion point. -/
theorem insertion_point (placed : 0 < p) (back : 0 < prev m p) (rest : M α) :
    (isInterior p >>= fun a => isTail p >>= fun b => assert (a || b) >>= fun _ => rest) m = rest m := by
  rw [bind_go (isInterior_run placed),bind_go (isTail_run placed)]
  have passed : (decide (prev m p ≠ 0) && decide (next m p ≠ 0) || decide (prev m p ≠ 0) && decide (next m p = 0)) = true := by
    by_cases last : next m p = 0 <;> simp [last] <;> omega
  rw [bind_go (assert_run passed)]

theorem listPrev_run (placed : 0 < p) (back : 0 < prev m p) : listPrev p m = .ok (prev m p,m) := by
  unfold listPrev
  rw [insertion_point placed back]
  exact getPrev_run placed

theorem listNext_run (placed : 0 < p) (ahead : 0 < next m p) : listNext p m = .ok (next m p,m) := by
  unfold listNext
  rw [bind_go (isHead_run placed),bind_go (isInterior_run placed)]
  have passed : (decide (prev m p = 0) && decide (next m p ≠ 0) || decide (prev m p ≠ 0) && decide (next m p ≠ 0)) = true := by
    by_cases first : prev m p = 0 <;> simp [first] <;> omega
  rw [bind_go (assert_run passed)]
  exact getNext_run placed

theorem interior_run (placed : 0 < p) (back : 0 < prev m p) (ahead : 0 < next m p) :
    isInterior p m = .ok (true,m) := by
  rw [isInterior_run placed]
  simp
  omega

theorem listBegin_run (placed : 0 < l) : listBegin l m = .ok (next m l,m) := by
  unfold listBegin
  rw [bind_go (assert_run (nonnull placed))]
  exact getNext_run placed

theorem listEnd_run (placed : 0 < l) : listEnd l m = .ok (tail l,m) := by
  unfold listEnd
  rw [bind_go (assert_run (nonnull placed))]
  rfl

theorem listEmpty_run (placed : 0 < l) : listEmpty l m = .ok (next m l == tail l,m) := by
  unfold listEmpty
  rw [bind_go (listBegin_run placed),bind_go (listEnd_run placed)]
  rfl

end OsProj.KernelList
