import Mathlib.Data.List.Chain

/-! Doubly linked chains over two link functions. Neighbours point at each other; a chain
survives every change of links that keeps the forward links of all its nodes but the last
and the backward links of all its nodes but the first. -/
namespace OsProj.LinkedChain

variable {next prev next' prev' : α → α}

/-- `b` comes directly after `a`. -/
def Linked (next prev : α → α) (a b : α) : Prop := next a = b ∧ prev b = a

abbrev Chain (next prev : α → α) (nodes : List α) : Prop := nodes.IsChain (Linked next prev)

theorem Chain.congr (chain : Chain next prev nodes) (forward : ∀ x ∈ nodes.dropLast, next' x = next x)
    (backward : ∀ x ∈ nodes.tail, prev' x = prev x) : Chain next' prev' nodes := by
  induction nodes with
  | nil => exact .nil
  | cons a rest ih =>
    cases rest with
    | nil => exact .singleton a
    | cons b rest =>
      obtain ⟨⟨ahead,back⟩,chain⟩ := List.isChain_cons_cons.mp chain
      have first : next' a = b := (forward a (by simp)).trans ahead
      have second : prev' b = a := (backward b (by simp)).trans back
      refine .cons_cons ⟨first,second⟩ (ih chain ?_ ?_)
      · intro x inside
        exact forward x (by simp [inside])
      · intro x inside
        exact backward x (by simpa using .inr inside)

/-- Two chains joined by linking the end of the first with the start of the second. -/
theorem Chain.join (first : Chain next prev as) (second : Chain next prev bs) (last : as.getLast? = some a)
    (start : bs.head? = some b) (linked : Linked next prev a b) : Chain next prev (as ++ bs) := by
  refine List.isChain_append.mpr ⟨first,second,?_⟩
  intro x atEnd y atStart
  obtain rfl := Option.some.inj (last.symm.trans atEnd)
  obtain rfl := Option.some.inj (start.symm.trans atStart)
  exact linked

theorem Chain.left (chain : Chain next prev (as ++ bs)) : Chain next prev as :=
  (List.isChain_append.mp chain).1

theorem Chain.right (chain : Chain next prev (as ++ bs)) : Chain next prev bs :=
  (List.isChain_append.mp chain).2.1

theorem Chain.linked (chain : Chain next prev (as ++ bs)) (last : as.getLast? = some a)
    (start : bs.head? = some b) : Linked next prev a b :=
  (List.isChain_append.mp chain).2.2 a last b start

/-- With the two links of every node exchanged the chain runs the other way. -/
theorem Chain.reverse (chain : Chain next prev nodes) (forward : ∀ x ∈ nodes, next' x = prev x)
    (backward : ∀ x ∈ nodes, prev' x = next x) : Chain next' prev' nodes.reverse := by
  rw [Chain,List.isChain_reverse]
  refine chain.imp_of_mem_imp ?_
  intro a b here there linked
  exact ⟨(forward b there).trans linked.2,(backward a here).trans linked.1⟩

end OsProj.LinkedChain
