import Mathlib.Data.Finset.Basic
import OsProj.Faulting

/-! The hash table of lib/kernel/hash.c. Elements are told apart by their addresses; a
bucket is the sequence of the elements on its list. Elements are different objects in a
32-bit address space, so their count and the size of the bucket array do not wrap. -/
namespace OsProj.HashTable

inductive Fault where
  | outOfBounds
  | unending
  deriving DecidableEq, Repr

structure Hash (α : Type) where
  elemCnt : Nat
  bucketCnt : Nat
  buckets : Nat → List α

def bucketAt (h : Hash α) (i : Nat) : Except Fault (List α) :=
  if i < h.bucketCnt then .ok (h.buckets i) else .error .outOfBounds

def setBucket (h : Hash α) (i : Nat) (bucket : List α) : Except Fault (Hash α) :=
  if i < h.bucketCnt then .ok { h with buckets := Function.update h.buckets i bucket } else .error .outOfBounds

def turnOffLeast1bit (x : Nat) : Nat := x &&& (x - 1)

def isPowerOf2 (x : Nat) : Bool := x ≠ 0 && turnOffLeast1bit x = 0

def minBuckets : Nat := 4

def bestElemsPerBucket : Nat := 2

def powerLoop : Nat → Nat → Except Fault Nat
  | 0,_ => .error .unending
  | fuel + 1,cnt => if isPowerOf2 cnt then .ok cnt else powerLoop fuel (turnOffLeast1bit cnt)

def newBucketCnt (elemCnt : Nat) : Except Fault Nat :=
  let cnt := elemCnt / bestElemsPerBucket
  let cnt := if cnt < minBuckets then minBuckets else cnt
  powerLoop (cnt + 1) cnt

/-- Removes all elements; the elements the destructor was called on come first. -/
def hashClear (h : Hash α) (destructor : Bool) : List α × Hash α :=
  (if destructor then (List.range h.bucketCnt).flatMap h.buckets else [],{ h with elemCnt := 0,buckets := fun _ => [] })

/-- `granted` says whether `malloc` finds memory for the buckets. -/
def hashInit (granted : Bool) : Option (Hash α) :=
  if granted then some (hashClear ⟨0,minBuckets,fun _ => []⟩ false).2 else none

section
variable (hash : α → UInt32) (less : α → α → Bool)

def findBucket (h : Hash α) (e : α) : Nat := (hash e).toNat &&& (h.bucketCnt - 1)

def findElem (h : Hash α) (bucket : Nat) (e : α) : Except Fault (Option α) := do
  return (← bucketAt h bucket).find? fun hi => !less hi e && !less e hi

def insertElem (h : Hash α) (bucket : Nat) (e : α) : Except Fault (Hash α) := do
  setBucket { h with elemCnt := h.elemCnt + 1 } bucket (e :: (← bucketAt h bucket))

/-- `list_remove` takes the element out of whichever list it is on. -/
def removeElem [DecidableEq α] (h : Hash α) (e : α) : Hash α :=
  { h with elemCnt := h.elemCnt - 1,buckets := fun i => (h.buckets i).erase e }

def moveElem (h : Hash α) (e : α) : Except Fault (Hash α) := do
  let newBucket := findBucket hash h e
  setBucket h newBucket (e :: (← bucketAt h newBucket))

def rehash (granted : Bool) (h : Hash α) : Except Fault (Hash α) := do
  let cnt ← newBucketCnt h.elemCnt
  if cnt = h.bucketCnt then return h
  if !granted then return h
  (List.range h.bucketCnt).foldlM (fun h' i => (h.buckets i).foldlM (moveElem hash) h')
    { h with bucketCnt := cnt,buckets := fun _ => [] }

def hashInsert (granted : Bool) (h : Hash α) (new : α) : Except Fault (Option α × Hash α) := do
  let bucket := findBucket hash h new
  let old ← findElem less h bucket new
  let h ← if old.isNone then insertElem h bucket new else pure h
  return (old,← rehash hash granted h)

def hashFind (h : Hash α) (e : α) : Except Fault (Option α) := findElem less h (findBucket hash h e) e

variable [DecidableEq α]

def hashReplace (granted : Bool) (h : Hash α) (new : α) : Except Fault (Option α × Hash α) := do
  let bucket := findBucket hash h new
  let old ← findElem less h bucket new
  let h := match old with
    | some e => removeElem h e
    | none => h
  let h ← insertElem h bucket new
  return (old,← rehash hash granted h)

def hashDelete (granted : Bool) (h : Hash α) (e : α) : Except Fault (Option α × Hash α) := do
  match ← findElem less h (findBucket hash h e) e with
  | some found => return (some found,← rehash hash granted (removeElem h found))
  | none => return (none,h)

end

end OsProj.HashTable
