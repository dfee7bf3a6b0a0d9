import Mathlib.Data.List.Nodup
import OsProj.Faulting

/-! The list of the work queue of hw-http. Its items are linked both ways, and the first one
points back to the last one. Memory allocation succeeds. -/
namespace OsProj.WorkQueue

open OsProj.Faulting

inductive Fault where
  | nullDereference
  | dangling
  | assertion
  | notOwner
  deriving DecidableEq, Repr

structure Item where
  clientSocketFd : Int
  next : Option Nat
  prev : Option Nat
  deriving DecidableEq, Repr

/-- The fields of the queue that its mutex guards, and the items in memory. -/
structure Queue where
  items : Nat → Option Item
  size : Nat
  head : Option Nat

abbrev M := StateT Queue (Except Fault)

/-! Pointers. -/

def item (p : Option Nat) : M Item := fun q =>
  match p with
  | none => .error .nullDereference
  | some p =>
    match q.items p with
    | none => .error .dangling
    | some item => .ok (item,q)

def setItem (p : Option Nat) (f : Item → Item) : M Unit := fun q =>
  match p with
  | none => .error .nullDereference
  | some p =>
    match q.items p with
    | none => .error .dangling
    | some item => .ok ((),{ q with items := Function.update q.items p (some (f item)) })

def setHead (head : Option Nat) : M Unit := modify fun q => { q with head := head }

def free (p : Nat) : M Unit := fun q =>
  match q.items p with
  | none => .error .dangling
  | some _ => .ok ((),{ q with items := Function.update q.items p none })

/-! The macros of utlist.h. -/

def dlAppend (add : Nat) : M Unit := do
  let head := (← get).head
  if head.isSome then
    let first ← item head
    setItem (some add) fun a => { a with prev := first.prev }
    setItem first.prev fun last => { last with next := some add }
    setItem head fun first => { first with prev := some add }
    setItem (some add) fun a => { a with next := none }
  else
    setHead (some add)
    setItem (some add) fun first => { first with prev := some add }
    setItem (some add) fun first => { first with next := none }

def dlDelete (del : Option Nat) : M Unit := do
  let d ← item del
  if d.prev = none then throw .assertion
  else if d.prev = del then setHead none
  else if del = (← get).head then
    setItem d.next fun next => { next with prev := d.prev }
    setHead d.next
  else
    setItem d.prev fun prev => { prev with next := d.next }
    if d.next.isSome then setItem d.next fun next => { next with prev := d.prev }
    else setItem (← get).head fun first => { first with prev := d.prev }

/-! What `wq_push` and `wq_pop` do while they hold the mutex. -/

def wqInit (items : Nat → Option Item) : Queue := ⟨items,0,none⟩

/-- The item is one that `calloc` has given. -/
def pushItem (wqItem : Nat) (clientSocketFd : Int) : M Unit := do
  modify fun q => { q with items := Function.update q.items wqItem (some ⟨0,none,none⟩) }
  setItem (some wqItem) fun a => { a with clientSocketFd := clientSocketFd }
  dlAppend wqItem
  modify fun q => { q with size := q.size + 1 }

def popItem : M (Nat × Int) := do
  let head := (← get).head
  let first ← item head
  modify fun q => { q with size := q.size - 1 }
  dlDelete head
  match head with
  | none => throw .nullDereference
  | some wqItem => return (wqItem,first.clientSocketFd)

/-! The list that is in memory. -/

def itemAt (cells : List (Nat × Int)) (i : Nat) (fd : Int) : Item :=
  ⟨fd,(cells[i + 1]?).map Prod.fst,(if i = 0 then cells.getLast? else cells[i - 1]?).map Prod.fst⟩

/-- The addresses and values found by following the items from `p` on. -/
def listed (items : Nat → Option Item) : Nat → Option Nat → List (Nat × Int)
  | n + 1,some p =>
    match items p with
    | none => []
    | some a => (p,a.clientSocketFd) :: listed items n a.next
  | _,_ => []

def contents (q : Queue) : List (Nat × Int) := listed q.items q.size q.head

structure Shape (q : Queue) (cells : List (Nat × Int)) : Prop where
  distinct : (cells.map Prod.fst).Nodup
  size : q.size = cells.length
  head : q.head = cells.head?.map Prod.fst
  items : ∀ i c, cells[i]? = some c → q.items c.1 = some (itemAt cells i c.2)

section
variable {q : Queue} {cells : List (Nat × Int)}

theorem item_ok (found : q.items p = some a) : item (some p) q = .ok (a,q) := by
  simp only [item,found]

def Queue.alter (q : Queue) (p : Nat) (f : Item → Item) : Queue :=
  { q with items := Function.update q.items p ((q.items p).map f) }

@[simp] theorem Queue.alter_self : (q.alter p f).items p = (q.items p).map f := Function.update_self ..

theorem Queue.alter_apart (apart : r ≠ p) : (q.alter p f).items r = q.items r := Function.update_of_ne apart ..

@[simp] theorem Queue.alter_isSome : ((q.alter p f).items r).isSome = (q.items r).isSome := by
  by_cases same : r = p
  · subst same
    rw [alter_self,Option.isSome_map]
  · rw [alter_apart same]

theorem setItem_ok (found : (q.items p).isSome) (f : Item → Item) : setItem (some p) f q = .ok ((),q.alter p f) := by
  obtain ⟨a,found⟩ := Option.isSome_iff_exists.mp found
  simp only [setItem,Queue.alter,found,Option.map_some]

theorem free_ok (found : q.items p = some a) : free p q = .ok ((),{ q with items := Function.update q.items p none }) := by
  simp only [free,found]

theorem wqInit_shape (items : Nat → Option Item) : Shape (wqInit items) [] :=
  ⟨List.nodup_nil,rfl,rfl,fun i c here => by simp at here⟩

/-- A place is known by its address. -/
theorem Shape.place {i j : Nat} {c d : Nat × Int} (shape : Shape q cells) (here : cells[i]? = some c)
    (there : cells[j]? = some d) (same : c.1 = d.1) : i = j := by
  have first : (cells.map Prod.fst)[i]? = some c.1 := by rw [List.getElem?_map,here]; rfl
  have second : (cells.map Prod.fst)[j]? = some c.1 := by rw [List.getElem?_map,there,same]; rfl
  obtain ⟨small,-⟩ := List.getElem?_eq_some_iff.mp first
  exact (List.getElem?_inj small shape.distinct).mp (first.trans second.symm)

theorem Shape.fresh {i : Nat} {c : Nat × Int} (shape : Shape q cells) (unused : q.items p = none)
    (here : cells[i]? = some c) : c.1 ≠ p := by
  rintro rfl
  rw [shape.items i c here] at unused
  contradiction

theorem Shape.listed_drop (shape : Shape q cells) (n i : Nat) (counted : n + i = cells.length) :
    listed q.items n ((cells[i]?).map Prod.fst) = cells.drop i := by
  induction n generalizing i with
  | zero =>
    rw [List.drop_eq_nil_of_le (by omega)]
    rfl
  | succ n ih =>
    have found := List.getElem?_eq_getElem (show i < cells.length by omega)
    rw [found,Option.map_some,listed,shape.items i _ found,List.drop_eq_getElem_cons (by omega)]
    exact congrArg _ (ih (i + 1) (by omega))

theorem Shape.contents (shape : Shape q cells) : contents q = cells := by
  have walked := shape.listed_drop cells.length 0 rfl
  rw [← List.head?_eq_getElem?,List.drop_zero] at walked
  rw [WorkQueue.contents,shape.size,shape.head,walked]

theorem Shape.congr {q' : Queue} (shape : Shape q cells) (size : q'.size = q.size) (head : q'.head = q.head)
    (items : ∀ c ∈ cells, q'.items c.1 = q.items c.1) : Shape q' cells :=
  ⟨shape.distinct,size.trans shape.size,head.trans shape.head,fun i c here =>
    (items c (List.mem_of_getElem? here)).trans (shape.items i c here)⟩

theorem Shape.isSome (shape : Shape q cells) (inside : p ∈ cells.map Prod.fst) : (q.items p).isSome := by
  obtain ⟨c,member,rfl⟩ := List.mem_map.mp inside
  obtain ⟨i,found⟩ := List.getElem?_of_mem member
  rw [shape.items i c found]
  rfl

theorem Shape.tail {c : Nat × Int} {rest : List (Nat × Int)} (shape : Shape q (c :: rest)) :
    c.1 ∉ rest.map Prod.fst ∧ (rest.map Prod.fst).Nodup := List.nodup_cons.mp shape.distinct

/-- The two ends of a list that is not empty. -/
theorem Shape.ends {c : Nat × Int} {rest : List (Nat × Int)} (shape : Shape q (c :: rest)) : ∃ last,
    (c :: rest).getLast? = some last ∧ (c :: rest)[rest.length]? = some last ∧
      q.items c.1 = some (itemAt (c :: rest) 0 c.2) ∧ (itemAt (c :: rest) 0 c.2).prev = some last.1 ∧
      q.items last.1 = some (itemAt (c :: rest) rest.length last.2) := by
  have final : (c :: rest).getLast? = (c :: rest)[rest.length]? := by
    rw [List.getLast?_eq_getElem?]
    rfl
  obtain ⟨last,found⟩ : ∃ last, (c :: rest)[rest.length]? = some last := ⟨_,List.getElem?_eq_getElem (by simp)⟩
  refine ⟨last,final.trans found,found,shape.items 0 c rfl,?_,shape.items _ last found⟩
  simp only [itemAt,if_pos,final.trans found,Option.map_some]

/-- The items after the one at `p` has been put behind the list from `first` to `last`. -/
def linked (items : Nat → Option Item) (first last p : Nat) (a : Item) (r : Nat) : Option Item :=
  if r = p then some { a with next := none, prev := some last }
  else (items r).map fun b =>
    { b with next := if r = last then some p else b.next, prev := if r = first then some p else b.prev }

theorem dlAppend_nil (empty : q.head = none) (there : q.items p = some a) : dlAppend p q =
    .ok ((),{ q with items := Function.update q.items p (some { a with next := none, prev := some p }), head := some p }) := by
  let q₁ : Queue := { q with head := some p }
  have here : (q₁.items p).isSome := by rw [show q₁.items p = some a from there]; rfl
  rw [dlAppend,bind_go rfl,empty]
  have moved : setHead (some p) q = .ok ((),q₁) := rfl
  refine (bind_go moved).trans ((bind_go (setItem_ok here _)).trans ?_)
  rw [setItem_ok (by simpa using here)]
  simp [Queue.alter,q₁,there]

theorem dlAppend_cons {first last : Nat} (head : q.head = some first) (there : q.items p = some a)
    (firstItem : q.items first = some b) (back : b.prev = some last) (lastItem : q.items last = some c)
    (apart : first ≠ p) (apart' : last ≠ p) :
    dlAppend p q = .ok ((),{ q with items := linked q.items first last p a }) := by
  have here : (q.items p).isSome := by rw [there]; rfl
  have here₁ : (q.items first).isSome := by rw [firstItem]; rfl
  have here₂ : (q.items last).isSome := by rw [lastItem]; rfl
  rw [dlAppend,bind_go rfl,head]
  refine (bind_go (item_ok firstItem)).trans ((bind_go (setItem_ok here _)).trans ?_)
  rw [back]
  refine (bind_go (setItem_ok (by simpa using here₂) _)).trans ((bind_go (setItem_ok (by simpa using here₁) _)).trans ?_)
  rw [setItem_ok (by simpa using here)]
  congr 2
  simp only [Queue.alter]
  congr 1
  funext r
  simp only [linked,Function.update_apply]
  by_cases added : r = p
  · subst added
    simp [apart.symm,apart'.symm,there]
  · by_cases atFirst : r = first <;> by_cases atLast : r = last <;> simp_all

/-- The list with the item at `p` behind it. -/
theorem Shape.append {q' : Queue} (shape : Shape q cells) (unused : q.items p = none) (size : q'.size = q.size + 1)
    (head : q'.head = (cells ++ [(p,fd)]).head?.map Prod.fst)
    (items : ∀ i c, (cells ++ [(p,fd)])[i]? = some c → q'.items c.1 = some (itemAt (cells ++ [(p,fd)]) i c.2)) :
    Shape q' (cells ++ [(p,fd)]) where
  distinct := by
    rw [List.map_append,List.map_singleton]
    refine List.nodup_append.mpr ⟨shape.distinct,by simp,?_⟩
    intro r listed r' here
    obtain ⟨c,member,rfl⟩ := List.mem_map.mp listed
    obtain ⟨i,found⟩ := List.getElem?_of_mem member
    obtain rfl : r' = p := by simpa using here
    exact shape.fresh unused found
  size := by rw [size,shape.size,List.length_append]; rfl
  head := head
  items := items

/-- What appending makes of the item at every place. -/
theorem Shape.linked {c last : Nat × Int} {rest : List (Nat × Int)} {items : Nat → Option Item} {a : Item}
    (shape : Shape q (c :: rest)) (unused : q.items p = none) (final : (c :: rest)[rest.length]? = some last)
    (others : ∀ r, r ≠ p → items r = q.items r) {i : Nat} {d : Nat × Int}
    (here : ((c :: rest) ++ [(p,a.clientSocketFd)])[i]? = some d) :
    WorkQueue.linked items c.1 last.1 p a d.1 = some (itemAt ((c :: rest) ++ [(p,a.clientSocketFd)]) i d.2) := by
  by_cases added : i = rest.length + 1
  · subst added
    obtain rfl : (p,a.clientSocketFd) = d := by simpa using here
    have before : ((c :: rest) ++ [(p,a.clientSocketFd)])[rest.length]? = some last := by
      rw [List.getElem?_append_left (by simp),final]
    simp only [WorkQueue.linked,itemAt,if_pos,Nat.add_eq_zero_iff,Nat.one_ne_zero,and_false,if_false,
      Nat.add_sub_cancel,before]
    simp
  · have small : i < (c :: rest).length := by
      have bound := (List.getElem?_eq_some_iff.mp here).1
      simp only [List.length_append,List.length_cons,List.length_nil] at bound ⊢
      omega
    have found : (c :: rest)[i]? = some d := by rwa [List.getElem?_append_left small] at here
    have apart := shape.fresh unused found
    have isFirst : d.1 = c.1 ↔ i = 0 := ⟨fun same => shape.place found (j := 0) rfl same,by
      rintro rfl
      rw [Option.some.inj found.symm]⟩
    have isLast : d.1 = last.1 ↔ i = rest.length := ⟨fun same => shape.place found final same,by
      rintro rfl
      rw [Option.some.inj (found.symm.trans final)]⟩
    have next : ((c :: rest) ++ [(p,a.clientSocketFd)])[i + 1]? =
        if i = rest.length then some (p,a.clientSocketFd) else (c :: rest)[i + 1]? := by
      split
      · subst i
        simp
      · rw [List.getElem?_append_left (by simp only [List.length_cons] at small ⊢; omega)]
    have before : ((c :: rest) ++ [(p,a.clientSocketFd)])[i - 1]? = (c :: rest)[i - 1]? :=
      List.getElem?_append_left (by omega)
    simp only [WorkQueue.linked,if_neg apart,others _ apart,shape.items i d found,Option.map_some,isFirst,isLast,
      itemAt,next,before,List.getLast?_append,List.getLast?_singleton,Option.some_or]
    congr 2
    · split <;> rfl
    · split <;> rfl

theorem pushItem_ok (shape : Shape q cells) (unused : q.items p = none) (fd : Int) : ∃ q', pushItem p fd q = .ok ((),q') ∧
    Shape q' (cells ++ [(p,fd)]) ∧ ∀ r, r ∉ (cells ++ [(p,fd)]).map Prod.fst → q'.items r = q.items r := by
  let a : Item := ⟨fd,none,none⟩
  let q₁ : Queue := { q with items := Function.update q.items p (some a) }
  have there : q₁.items p = some a := Function.update_self ..
  have others {r : Nat} (apart : r ≠ p) : q₁.items r = q.items r := Function.update_of_ne apart ..
  have started {t : Queue} (appends : dlAppend p q₁ = .ok ((),t)) : pushItem p fd q = .ok ((),{ t with size := t.size + 1 }) := by
    have filled : setItem (some p) (fun b => { b with clientSocketFd := fd })
        { q with items := Function.update q.items p (some ⟨0,none,none⟩) } = .ok ((),q₁) := by
      rw [setItem_ok (by simp)]
      simp [Queue.alter,q₁,a]
    exact (bind_go rfl).trans ((bind_go filled).trans ((bind_go appends).trans rfl))
  cases cells with
  | nil =>
    refine ⟨_,started (dlAppend_nil shape.head there),shape.append unused rfl rfl ?_,?_⟩
    · rintro (_ | i) c found
      · obtain rfl := Option.some.inj found
        exact Function.update_self ..
      · cases found
    · intro r other
      have apart : r ≠ p := by simpa using other
      exact (Function.update_of_ne apart ..).trans (others apart)
  | cons c rest =>
    obtain ⟨last,final,found,first,back,lastItem⟩ := shape.ends
    have apart := shape.fresh unused (i := 0) rfl
    have apart' := shape.fresh unused found
    have appends := dlAppend_cons (q := q₁) shape.head there ((others apart).trans first) back
      ((others apart').trans lastItem) apart apart'
    refine ⟨_,started appends,shape.append unused rfl shape.head ?_,?_⟩
    · exact fun i d here => shape.linked (a := a) unused found (fun r => others) here
    · intro r other
      simp only [List.map_append,List.mem_append,not_or,List.map_singleton,List.mem_singleton] at other
      have notFirst : r ≠ c.1 := fun same => other.1 (by simp [same])
      have notLast : r ≠ last.1 := fun same => other.1 (by
        rw [same]
        exact List.mem_map_of_mem (List.mem_of_getElem? found))
      change linked q₁.items c.1 last.1 p a r = _
      simp [linked,other.2,notFirst,notLast,others other.2]

theorem dlDelete_only (found : q.items p = some a) (alone : a.prev = some p) :
    dlDelete (some p) q = .ok ((),{ q with head := none }) := by
  rw [dlDelete,bind_go (item_ok found),if_neg (by simp [alone]),if_pos alone]
  rfl

theorem dlDelete_head {last next : Nat} (found : q.items p = some a) (back : a.prev = some last) (apart : last ≠ p)
    (head : q.head = some p) (ahead : a.next = some next) (there : (q.items next).isSome) :
    dlDelete (some p) q = .ok ((),{ q.alter next fun b => { b with prev := some last } with head := some next }) := by
  rw [dlDelete,bind_go (item_ok found),if_neg (by simp [back]),if_neg (by simp [back,apart]),bind_go rfl,if_pos head.symm,
    ahead,back]
  exact (bind_go (setItem_ok there _)).trans rfl

/-- The list without its first item, whose successor now leads back to the last one. -/
theorem Shape.rest {c d : Nat × Int} {rest : List (Nat × Int)} (shape : Shape q (c :: d :: rest)) :
    Shape ⟨(q.alter d.1 fun a => { a with prev := (d :: rest).getLast?.map Prod.fst }).items,q.size - 1,some d.1⟩ (d :: rest) where
  distinct := shape.tail.2
  size := by
    change q.size - 1 = _
    rw [shape.size]
    rfl
  head := rfl
  items := by
    intro i e here
    have behind : (c :: d :: rest)[i + 1]? = some e := here
    have before := shape.items (i + 1) e behind
    cases i with
    | zero =>
      obtain rfl := Option.some.inj here
      change (q.alter d.1 _).items d.1 = _
      rw [Queue.alter_self,before]
      simp [itemAt]
    | succ i =>
      have apart : e.1 ≠ d.1 := fun same => by simpa using shape.place behind (j := 1) rfl same
      change (q.alter d.1 _).items e.1 = _
      rw [Queue.alter_apart apart,before]
      simp [itemAt]

theorem popItem_ok {c : Nat × Int} {rest : List (Nat × Int)} (shape : Shape q (c :: rest)) :
    ∃ q', popItem q = .ok (c,q') ∧ Shape q' rest ∧ ∀ r, r ∉ rest.map Prod.fst → q'.items r = q.items r := by
  have head : q.head = some c.1 := shape.head
  have first := shape.items 0 c rfl
  let q₁ : Queue := { q with size := q.size - 1 }
  have started {t : Queue} (deletes : dlDelete (some c.1) q₁ = .ok ((),t)) : popItem q = .ok (c,t) := by
    rw [popItem,bind_go rfl,head]
    exact (bind_go (item_ok first)).trans ((bind_go rfl).trans ((bind_go deletes).trans rfl))
  cases rest with
  | nil =>
    refine ⟨_,started (dlDelete_only first rfl),⟨List.nodup_nil,?_,rfl,by simp⟩,fun _ _ => rfl⟩
    · change q.size - 1 = _
      rw [shape.size]
      rfl
  | cons d rest =>
    obtain ⟨last,final,found,-,back,-⟩ := shape.ends
    have apart : last.1 ≠ c.1 := fun same => by simpa using shape.place found (j := 0) rfl same
    have second : (q.items d.1).isSome := by rw [shape.items 1 d rfl]; rfl
    have restEnds : (d :: rest).getLast?.map Prod.fst = some last.1 := by
      rw [← List.getLast?_cons_cons (a := c),final]
      rfl
    refine ⟨_,started (dlDelete_head first back apart head rfl second),?_,?_⟩
    · have kept := shape.rest
      rw [restEnds] at kept
      exact kept
    · intro r other
      have notNext : r ≠ d.1 := fun same => other (by simp [same])
      exact Queue.alter_apart notNext

end

end OsProj.WorkQueue
