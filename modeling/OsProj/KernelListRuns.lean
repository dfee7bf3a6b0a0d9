import OsProj.KernelListCalls

/-! Sequences of list calls. The abstract lists are plain sequences of elements; a call
whose precondition holds turns them as `Step` says, and the memory follows. -/
namespace OsProj.KernelList

open OsProj.ByteMemory

inductive Call where
  | init (list : Nat)
  | insert (before elem : Nat)
  | splice (before first last : Nat)
  | pushFront (list elem : Nat)
  | pushBack (list elem : Nat)
  | remove (elem : Nat)
  | popFront (list : Nat)
  | popBack (list : Nat)
  | reverse (list : Nat)
  deriving DecidableEq, Repr

def Call.run : Call → M (Option Nat)
  | init list => do listInit list; return none
  | insert before elem => do listInsert before elem; return none
  | splice before first last => do listSplice before first last; return none
  | pushFront list elem => do listPushFront list elem; return none
  | pushBack list elem => do listPushBack list elem; return none
  | remove elem => do return some (← listRemove elem)
  | popFront list => do return some (← listPopFront list)
  | popBack list => do return some (← listPopBack list)
  | reverse list => do listReverse list; return none

/-- An element that may be put into a list. -/
def Fresh (f : Lists) (elem : Nat) : Prop := Placed elem ∧ ∀ y, Node f y → Clear elem y

/-- The calls on sequences, with the value each returns. The element before which
something is inserted, and the end of a spliced range, may be the tail. -/
inductive Step (f : Lists) : Call → Option Nat → Lists → Prop
  | init (placed : Placed (head l) ∧ Placed (tail l))
      (free : ∀ y, Elsewhere f l y → Clear (head l) y ∧ Clear (tail l) y) :
      Step f (.init l) none (Function.update f l (some []))
  | insert (here : f l = some (xs ++ ys)) (point : (ys ++ [tail l]).head? = some before) (fresh : Fresh f e) :
      Step f (.insert before e) none (Function.update f l (some (xs ++ [e] ++ ys)))
  | splice (here : f l = some (xs ++ mid ++ ys)) (range : (mid ++ (ys ++ [tail l])).head? = some first)
      (rest : (ys ++ [tail l]).head? = some last)
      (there : Function.update f l (some (xs ++ ys)) l' = some (us ++ vs))
      (point : (vs ++ [tail l']).head? = some before) :
      Step f (.splice before first last) none
        (Function.update (Function.update f l (some (xs ++ ys))) l' (some (us ++ mid ++ vs)))
  | pushFront (here : f l = some xs) (fresh : Fresh f e) :
      Step f (.pushFront l e) none (Function.update f l (some (e :: xs)))
  | pushBack (here : f l = some xs) (fresh : Fresh f e) :
      Step f (.pushBack l e) none (Function.update f l (some (xs ++ [e])))
  | remove (here : f l = some (xs ++ [e] ++ ys)) (follower : (ys ++ [tail l]).head? = some after) :
      Step f (.remove e) (some after) (Function.update f l (some (xs ++ ys)))
  | popFront (here : f l = some (e :: xs)) : Step f (.popFront l) (some e) (Function.update f l (some xs))
  | popBack (here : f l = some (xs ++ [e])) : Step f (.popBack l) (some e) (Function.update f l (some xs))
  | reverse (here : f l = some xs) : Step f (.reverse l) none (Function.update f l (some xs.reverse))

/-- The memory after calls whose preconditions held, starting without lists. Between calls
everything but the elements of lists may change. -/
inductive Built : Memory → Lists → Prop
  | start (m : Memory) : Built m (fun _ => none)
  | call (built : Built m f) (step : Step f c r f') (ran : c.run m = .ok (a,m')) : Built m' f'
  | other (built : Built m f) (kept : ∀ x, Node f x → Agree m m' x elemSize) : Built m' f

theorem Does.void {x : M Unit} (does : Does x m f f' ()) :
    Does (do x; return none : M (Option Nat)) m f f' none := by
  obtain ⟨m',ran,rest⟩ := does
  exact ⟨m',Faulting.bind_go ran,rest⟩

theorem Does.value {x : M Nat} (does : Does x m f f' r) :
    Does (do return some (← x) : M (Option Nat)) m f f' (some r) := by
  obtain ⟨m',ran,rest⟩ := does
  exact ⟨m',Faulting.bind_go ran,rest⟩

theorem WellFormed.step (wf : WellFormed m f) (step : Step f c r f') : Does c.run m f f' r := by
  cases step with
  | init placed free => exact (listInit_does wf placed.1 placed.2 free).void
  | insert here point fresh => exact (listInsert_does wf here point fresh.1 fresh.2).void
  | splice here range rest there point => exact (listSplice_does wf here range rest there point).void
  | pushFront here fresh => exact (listPushFront_does wf here fresh.1 fresh.2).void
  | pushBack here fresh => exact (listPushBack_does wf here fresh.1 fresh.2).void
  | remove here follower => exact (listRemove_does wf here follower).value
  | popFront here => exact (listPopFront_does wf here).value
  | popBack here => exact (listPopBack_does wf here).value
  | reverse here => exact (listReverse_does wf here).void

theorem WellFormed.empty (m : Memory) : WellFormed m (fun _ => none) where
  shaped := nofun
  placed := by
    rintro x ⟨l,xs,found,_⟩
    cases found
  distinct := nofun
  apart := nofun

theorem Built.wellFormed (built : Built m f) : WellFormed m f := by
  induction built with
  | start m => exact .empty m
  | call _ step ran ih =>
    obtain ⟨m',ran',wf,_⟩ := ih.step step
    obtain ⟨_,rfl⟩ := Prod.mk.inj (Except.ok.inj (ran.symm.trans ran'))
    exact wf
  | other _ kept ih =>
    exact { ih with shaped := fun found => (ih.shaped found).congr (fun x inside => kept x ⟨_,_,found,inside⟩) }

/-- After any calls whose preconditions held the lists are well linked, `list_size` is the
length, and a further such call acts on the sequences and on nothing else. -/
theorem list_refines_sequence (built : Built m f) :
    WellFormed m f ∧ (∀ l xs, f l = some xs → listSize l m = .ok (xs.length,m)) ∧
      ∀ c r f', Step f c r f' → ∃ m', c.run m = .ok (r,m') ∧ Built m' f' ∧ WellFormed m' f' ∧
        ∀ b, Outside f b → Outside f' b → m' b = m b := by
  have wf := built.wellFormed
  refine ⟨wf,fun l xs found => wf.size found,?_⟩
  intro c r f' step
  obtain ⟨m',ran,rest⟩ := wf.step step
  exact ⟨m',ran,built.call step ran,rest⟩

theorem list_refines_sequence_two : ∃ m f, Built m f ∧ f 64 = some [32,16] ∧ listSize 64 m = .ok (2,m) := by
  have elements : ∀ xs y, Node (Function.update (fun _ => none) 64 (some xs)) y → y ∈ nodes 64 xs := by
    intro xs y node
    rcases node_update.mp node with inside | ⟨_,_,_,found,_⟩
    · exact inside
    · cases found
  have made : Step (fun _ => none) (.init 64) none (Function.update (fun _ => none) 64 (some [])) := by
    refine .init ⟨⟨by decide,by decide⟩,⟨by decide,by decide⟩⟩ ?_
    rintro y ⟨_,_,_,found,_⟩
    cases found
  obtain ⟨m₁,_,built₁,_⟩ := (list_refines_sequence (.start fun _ => 0)).2.2 _ _ _ made
  have one := Step.pushBack (e := 16) (Function.update_self ..) ⟨⟨by decide,by decide⟩,fun y node =>
    (show ∀ y ∈ nodes 64 [], Apart 16 8 y 8 by decide) y (elements [] y node)⟩
  obtain ⟨m₂,_,built₂,_⟩ := (list_refines_sequence built₁).2.2 _ _ _ one
  rw [Function.update_idem] at built₂
  have two := Step.pushBack (e := 32) (Function.update_self ..) ⟨⟨by decide,by decide⟩,fun y node =>
    (show ∀ y ∈ nodes 64 [16], Apart 32 8 y 8 by decide) y (elements [16] y node)⟩
  obtain ⟨m₃,_,built₃,_⟩ := (list_refines_sequence built₂).2.2 _ _ _ two
  rw [Function.update_idem] at built₃
  have turned := Step.reverse (f := Function.update (fun _ => none) 64 (some [16,32])) (Function.update_self ..)
  obtain ⟨m₄,_,built₄,_⟩ := (list_refines_sequence built₃).2.2 _ _ _ turned
  rw [Function.update_idem] at built₄
  exact ⟨m₄,_,built₄,Function.update_self ..,(list_refines_sequence built₄).2.1 64 _ (Function.update_self ..)⟩

end OsProj.KernelList
