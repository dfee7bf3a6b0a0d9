import Mathlib.Data.List.Nodup

/-! Lists with at most one element for each key, as tables of open objects are: an element is
found, changed or removed by its key. -/
namespace OsProj.Keyed

section
variable {α κ : Type} [DecidableEq κ] (key : α → κ) (k : κ)

def find (l : List α) : Option α := l.find? fun x => key x == k

def update (f : α → α) (l : List α) : List α := l.map fun x => if key x = k then f x else x

def remove (l : List α) : List α := l.filter fun x => key x != k

end

section
variable {α κ : Type} [DecidableEq κ] {key : α → κ} {k : κ} {x y : α} {l : List α} {f : α → α} {p : α → Bool}

theorem find_cons : find key k (x :: l) = if key x = k then some x else find key k l := by
  unfold find
  rw [List.find?_cons]
  by_cases same : key x = k
  · simp [same]
  · rw [beq_false_of_ne same,if_neg same]

theorem find_key (found : find key k l = some x) : x ∈ l ∧ key x = k := by
  have same := List.find?_some found
  exact ⟨List.mem_of_find?_eq_some found,by simpa using same⟩

theorem find_member (nodup : (l.map key).Nodup) (member : x ∈ l) : find key (key x) l = some x := by
  induction l with
  | nil => exact absurd member List.not_mem_nil
  | cons y l ih =>
    obtain ⟨other,rest⟩ := List.nodup_cons.mp nodup
    unfold find
    rw [List.find?_cons]
    rcases List.mem_cons.mp member with rfl | member
    · simp
    · have different : key y ≠ key x := fun same => other (same ▸ List.mem_map_of_mem member)
      rw [beq_false_of_ne different]
      exact ih rest member

theorem find_none (absent : k ∉ l.map key) : find key k l = none := by
  rw [find,List.find?_eq_none]
  intro x member same
  exact absent (List.mem_map.mpr ⟨x,member,by simpa using same⟩)

theorem find_of_mem (member : k ∈ l.map key) : ∃ x, find key k l = some x := by
  obtain ⟨x,here,rfl⟩ := List.mem_map.mp member
  exact Option.isSome_iff_exists.mp (List.find?_isSome.mpr ⟨x,here,by simp⟩)

theorem mem_update : y ∈ update key k f l ↔ ∃ x ∈ l, (if key x = k then f x else x) = y := List.mem_map

theorem map_update {g : α → β} (kept : ∀ x, g (f x) = g x) : (update key k f l).map g = l.map g := by
  rw [update,List.map_map]
  apply List.map_congr_left
  intro x _
  simp only [Function.comp]
  split
  · exact kept x
  · rfl

theorem find_map {g : α → β} (key' : β → κ) (same : ∀ x, key' (g x) = key x) :
    find key' k (l.map g) = (find key k l).map g := by
  unfold find
  rw [List.find?_map]
  congr
  funext x
  rw [Function.comp,same]

theorem update_map {g : α → β} {h : β → β} (key' : β → κ) (same : ∀ x, key' (g x) = key x) (commutes : ∀ x, g (f x) = h (g x)) :
    (update key k f l).map g = update key' k h (l.map g) := by
  simp only [update,List.map_map]
  refine List.map_congr_left fun x _ => ?_
  simp only [Function.comp,same]
  split
  · exact commutes x
  · rfl

theorem remove_map {g : α → β} (key' : β → κ) (same : ∀ x, key' (g x) = key x) :
    (remove key k l).map g = remove key' k (l.map g) := by
  simp only [remove,List.filter_map]
  congr
  funext x
  simp only [Function.comp,same]

/-- Two keys that pick out the same elements. -/
theorem update_by {κ' : Type} [DecidableEq κ'] {key' : α → κ'} {k' : κ'} (picked : ∀ x ∈ l, key x = k ↔ key' x = k') :
    update key k f l = update key' k' f l := by
  refine List.map_congr_left fun x here => ?_
  simp only [picked x here]

theorem remove_by {κ' : Type} [DecidableEq κ'] {key' : α → κ'} {k' : κ'} (picked : ∀ x ∈ l, key x = k ↔ key' x = k') :
    remove key k l = remove key' k' l := by
  refine List.filter_congr fun x here => ?_
  rw [Bool.eq_iff_iff,bne_iff_ne,bne_iff_ne,ne_eq,ne_eq,picked x here]

theorem update_keys (kept : ∀ x, key (f x) = key x) : (update key k f l).map key = l.map key := map_update kept

theorem mem_update_key (member : x ∈ update key k f l) (kept : ∀ x, key (f x) = key x) : key x ∈ l.map key := by
  have here := List.mem_map_of_mem (f := key) member
  rw [update_keys kept] at here
  exact here

theorem find_update (kept : ∀ x, key (f x) = key x) : find key k (update key k f l) = (find key k l).map f := by
  induction l with
  | nil => rfl
  | cons x l ih =>
    unfold find update at *
    rw [List.map_cons,List.find?_cons,List.find?_cons]
    by_cases same : key x = k
    · simp [same,kept]
    · simp only [same,↓reduceIte,beq_false_of_ne same]
      exact ih

theorem find_update_other (kept : ∀ x, key (f x) = key x) (other : k' ≠ k) :
    find key k' (update key k f l) = find key k' l := by
  induction l with
  | nil => rfl
  | cons x l ih =>
    unfold find update at *
    rw [List.map_cons,List.find?_cons,List.find?_cons,ih]
    by_cases same : key x = k
    · simp [same,kept,beq_false_of_ne (Ne.symm other)]
    · simp [same]

theorem mem_remove : x ∈ remove key k l ↔ x ∈ l ∧ key x ≠ k := by
  simp [remove]

theorem remove_absent (absent : k ∉ l.map key) : remove key k l = l := by
  rw [remove,List.filter_eq_self]
  intro x member
  have other : key x ≠ k := fun same => absent (List.mem_map.mpr ⟨x,member,same⟩)
  simpa using other

theorem find_remove_other (other : k' ≠ k) : find key k' (remove key k l) = find key k' l := by
  induction l with
  | nil => rfl
  | cons x l ih =>
    unfold find remove at *
    by_cases same : key x = k
    · rw [List.filter_cons_of_neg (by simp [same]),List.find?_cons,ih]
      simp [same,beq_false_of_ne (Ne.symm other)]
    · rw [List.filter_cons_of_pos (by simp [same]),List.find?_cons,List.find?_cons,ih]

theorem find_remove_self : find key k (remove key k l) = none := by
  apply find_none
  intro here
  obtain ⟨x,member,same⟩ := List.mem_map.mp here
  exact (mem_remove.mp member).2 same

/-- Counting after one element has changed. -/
theorem countP_update (nodup : (l.map key).Nodup) (member : x ∈ l) :
    (update key (key x) f l).countP p + (if p x then 1 else 0) = l.countP p + if p (f x) then 1 else 0 := by
  induction l with
  | nil => exact absurd member List.not_mem_nil
  | cons y l ih =>
    obtain ⟨other,rest⟩ := List.nodup_cons.mp nodup
    have step := List.countP_cons (p := p) (a := y) (l := l)
    rcases List.mem_cons.mp member with rfl | member
    · have same : update key (key x) f l = l := by
        rw [update,List.map_congr_left (g := id)]
        · exact List.map_id l
        · intro z inside
          have different : key z ≠ key x := fun same => other (same ▸ List.mem_map_of_mem inside)
          simp [different]
      have head : update key (key x) f (x :: l) = f x :: update key (key x) f l := by simp [update]
      rw [head,same,List.countP_cons,List.countP_cons]
      omega
    · have different : key y ≠ key x := fun same => other (same ▸ List.mem_map_of_mem member)
      have head : update key (key x) f (y :: l) = y :: update key (key x) f l := by simp [update,different]
      have tail := ih rest member
      rw [head,List.countP_cons,List.countP_cons]
      omega

theorem countP_remove (nodup : (l.map key).Nodup) (member : x ∈ l) :
    (remove key (key x) l).countP p + (if p x then 1 else 0) = l.countP p := by
  induction l with
  | nil => exact absurd member List.not_mem_nil
  | cons y l ih =>
    obtain ⟨other,rest⟩ := List.nodup_cons.mp nodup
    rcases List.mem_cons.mp member with rfl | member
    · have head : remove key (key x) (x :: l) = remove key (key x) l := List.filter_cons_of_neg (by simp)
      rw [head,remove_absent other,List.countP_cons]
    · have different : key y ≠ key x := fun same => other (same ▸ List.mem_map_of_mem member)
      have head : remove key (key x) (y :: l) = y :: remove key (key x) l :=
        List.filter_cons_of_pos (by simpa using different)
      have tail := ih rest member
      rw [head,List.countP_cons,List.countP_cons]
      omega

end

end OsProj.Keyed
