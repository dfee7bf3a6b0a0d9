import OsProj.HeapSort

/-! The binary search of lib/stdlib.c. Pointers are 32-bit addresses, the array is the bytes from
`base` on, and the search fails where it would examine anything but an element of the array. -/
namespace OsProj.BinarySearch

open HeapSort

def elementAt (base : Nat) (array : Bytes) (size pointer : Nat) : Except Fault (Element size) :=
  if inside : base ≤ pointer ∧ size ∣ pointer - base ∧ pointer - base + size ≤ array.length then
    .ok ⟨(array.drop (pointer - base)).take size,by rw [List.length_take,List.length_drop]; omega⟩
  else .error .outside

/-- `first + ((last - first) / size / 2) * size` -/
def middle (first last size : Nat) : Nat := (first + (last + 2 ^ 32 - first) % 2 ^ 32 / size / 2 * size) % 2 ^ 32

section
variable {size : Nat} (key : Element size) (base : Nat) (array : Bytes) (compare : Compare size Aux) (aux : Aux)

/-- The result is the address of an element, or `none` for a null pointer. -/
def searchLoop : Nat → Nat → Nat → Except Fault (Option Nat)
  | 0,_,_ => .error .running
  | fuel + 1,first,last =>
    if first < last then do
      let cmp := compare key (← elementAt base array size (middle first last size)) aux
      if cmp < 0 then searchLoop fuel first (middle first last size)
      else if cmp > 0 then searchLoop fuel ((middle first last size + size) % 2 ^ 32) last
      else return some (middle first last size)
    else return none

def binary_search (fuel cnt : Nat) : Except Fault (Option Nat) :=
  searchLoop key base array compare aux fuel base ((base + size * cnt % 2 ^ 32) % 2 ^ 32)

end

def bsearch (key : Element size) (base : Nat) (array : Bytes) (compare : Element size → Element size → Int) (fuel cnt : Nat) :
    Except Fault (Option Nat) :=
  binary_search key base array compare_thunk compare fuel cnt

/-! Orders and sorted arrays. -/

/-- The results are those of `strcmp` for some order. -/
structure Strcmp (cmp : α → α → Int) : Prop where
  sign : ∀ a b, cmp a b < 0 ↔ 0 < cmp b a
  trans : ∀ a b c, cmp a b ≤ 0 → cmp b c ≤ 0 → cmp a c ≤ 0

def InOrder (cmp : α → α → Int) (cnt : Nat) (f : Nat → α) : Prop := ∀ i j, i < j → j < cnt → cmp (f i) (f j) ≤ 0

section
variable {cmp : α → α → Int} {f : Nat → α} {key : α} {cnt : Nat}

theorem Strcmp.equal (order : Strcmp cmp) (same : cmp a b = 0) : cmp b a = 0 := by
  have below := order.sign a b
  have above := order.sign b a
  omega

theorem InOrder.le (sorted : InOrder cmp cnt f) (order : Strcmp cmp) (le : i ≤ j) (j_in : j < cnt) : cmp (f i) (f j) ≤ 0 := by
  rcases Nat.eq_or_lt_of_le le with rfl | less
  · have self := order.sign (f i) (f i)
    omega
  · exact sorted i j less j_in

/-- A key before an element is before all elements behind it. -/
theorem InOrder.before (sorted : InOrder cmp cnt f) (order : Strcmp cmp) (before : cmp key (f i) < 0) (le : i ≤ j) (j_in : j < cnt) :
    cmp key (f j) < 0 := by
  have level := sorted.le order le j_in
  have atMost := order.trans key (f i) (f j) (by omega) level
  by_contra equal
  have back : cmp (f j) key = 0 := order.equal (show cmp key (f j) = 0 by omega)
  have under := order.trans (f i) (f j) key level (by omega)
  have above := (order.sign key (f i)).mp before
  omega

/-- A key behind an element is behind all elements before it. -/
theorem InOrder.behind (sorted : InOrder cmp cnt f) (order : Strcmp cmp) (behind : 0 < cmp key (f j)) (le : i ≤ j) (j_in : j < cnt) :
    0 < cmp key (f i) := by
  have level := sorted.le order le j_in
  by_contra atMost
  have under := order.trans key (f i) (f j) (by omega) level
  omega

end

/-- The elements that are left: the key is behind all before them and before all behind them. -/
structure Narrowed (cmp : α → α → Int) (key : α) (cnt : Nat) (f : Nat → α) (lo hi : Nat) : Prop where
  within : hi ≤ cnt
  behind : ∀ i < lo, 0 < cmp key (f i)
  before : ∀ i, hi ≤ i → i < cnt → cmp key (f i) < 0

section
variable {cmp : α → α → Int} {f : Nat → α} {key : α} {cnt lo hi : Nat}

theorem Narrowed.start (cmp : α → α → Int) (key : α) (cnt : Nat) (f : Nat → α) : Narrowed cmp key cnt f 0 cnt :=
  ⟨Nat.le_refl cnt,fun _ low => absurd low (Nat.not_lt_zero _),fun _ high inside => absurd inside (Nat.not_lt.mpr high)⟩

theorem Narrowed.lower (narrowed : Narrowed cmp key cnt f lo hi) (sorted : InOrder cmp cnt f) (order : Strcmp cmp)
    (m_in : m < hi) (before : cmp key (f m) < 0) : Narrowed cmp key cnt f lo m :=
  ⟨Nat.le_trans (Nat.le_of_lt m_in) narrowed.within,narrowed.behind,fun _ high inside => sorted.before order before high inside⟩

theorem Narrowed.upper (narrowed : Narrowed cmp key cnt f lo hi) (sorted : InOrder cmp cnt f) (order : Strcmp cmp)
    (m_in : m < hi) (behind : 0 < cmp key (f m)) : Narrowed cmp key cnt f (m + 1) hi :=
  ⟨narrowed.within,fun _ low => sorted.behind order behind (Nat.le_of_lt_succ low) (Nat.lt_of_lt_of_le m_in narrowed.within),
    narrowed.before⟩

/-- No element is equal to the key when none is left. -/
theorem Narrowed.none_left (narrowed : Narrowed cmp key cnt f lo hi) (empty : hi ≤ lo) (i_in : i < cnt) : cmp key (f i) ≠ 0 := by
  rcases Nat.lt_or_ge i lo with low | high
  · have := narrowed.behind i low
    omega
  · have := narrowed.before i (Nat.le_trans empty high) i_in
    omega

end

/-! The search. -/

def Stored (base : Nat) (array : Bytes) (size cnt : Nat) (f : Nat → Element size) : Prop :=
  ∀ i < cnt, elementAt base array size (base + i * size) = .ok (f i)

section
variable {size base cnt lo hi : Nat} {array : Bytes} {f : Nat → Element size} {key : Element size} {compare : Compare size Aux} {aux : Aux}

theorem place_lt (base : Nat) (size_some : 0 < size) (less : lo < hi) : base + lo * size < base + hi * size :=
  Nat.add_lt_add_left (Nat.mul_lt_mul_of_pos_right less size_some) base

theorem place_le (base size : Nat) (le : lo ≤ hi) : base + lo * size ≤ base + hi * size := Nat.add_le_add_left (Nat.mul_le_mul_right size le) base

theorem middle_eq (size_some : 0 < size) (fits : base + cnt * size < 2 ^ 32) (hi_in : hi ≤ cnt) (less : lo < hi) :
    middle (base + lo * size) (base + hi * size) size = base + (lo + (hi - lo) / 2) * size := by
  have order := place_lt base size_some less
  have last := place_le base size hi_in
  have half := place_le base size (show lo + (hi - lo) / 2 ≤ hi by omega)
  have apart : base + hi * size - (base + lo * size) = (hi - lo) * size := by
    rw [Nat.add_sub_add_left,Nat.sub_mul]
  unfold middle
  rw [show (base + hi * size + 2 ^ 32 - (base + lo * size)) % 2 ^ 32 = base + hi * size - (base + lo * size) by omega,apart,
    Nat.mul_div_cancel _ size_some,show base + lo * size + (hi - lo) / 2 * size = base + (lo + (hi - lo) / 2) * size by
      rw [Nat.add_mul,Nat.add_assoc]]
  exact Nat.mod_eq_of_lt (by omega)

/-- One round of the loop compares the key with the element halfway. -/
theorem searchLoop_round (stored : Stored base array size cnt f) (size_some : 0 < size) (fits : base + cnt * size < 2 ^ 32)
    (hi_in : hi ≤ cnt) (less : lo < hi) :
    searchLoop key base array compare aux (fuel + 1) (base + lo * size) (base + hi * size) =
      if compare key (f (lo + (hi - lo) / 2)) aux < 0 then
        searchLoop key base array compare aux fuel (base + lo * size) (base + (lo + (hi - lo) / 2) * size)
      else if compare key (f (lo + (hi - lo) / 2)) aux > 0 then
        searchLoop key base array compare aux fuel (base + (lo + (hi - lo) / 2 + 1) * size) (base + hi * size)
      else .ok (some (base + (lo + (hi - lo) / 2) * size)) := by
  have next := place_le base size (show lo + (hi - lo) / 2 + 1 ≤ cnt by omega)
  have behind : base + (lo + (hi - lo) / 2) * size + size = base + (lo + (hi - lo) / 2 + 1) * size := by
    rw [Nat.succ_mul,Nat.add_assoc]
  rw [searchLoop,if_pos (place_lt base size_some less),middle_eq size_some fits hi_in less,stored (lo + (hi - lo) / 2) (by omega),behind,
    Nat.mod_eq_of_lt (show base + (lo + (hi - lo) / 2 + 1) * size < 2 ^ 32 by omega)]
  rfl

/-- The loop ends with an equal element, or with none when there is none. -/
theorem searchLoop_spec (order : Strcmp fun a b => compare a b aux) (sorted : InOrder (fun a b => compare a b aux) cnt f)
    (stored : Stored base array size cnt f) (size_some : 0 < size) (fits : base + cnt * size < 2 ^ 32)
    (narrowed : Narrowed (fun a b => compare a b aux) key cnt f lo hi) (enough : hi - lo < fuel) :
    (∃ i < cnt, searchLoop key base array compare aux fuel (base + lo * size) (base + hi * size) = .ok (some (base + i * size)) ∧
      compare key (f i) aux = 0) ∨
    searchLoop key base array compare aux fuel (base + lo * size) (base + hi * size) = .ok none ∧
      ∀ i < cnt, compare key (f i) aux ≠ 0 := by
  induction fuel generalizing lo hi with
  | zero => omega
  | succ fuel ih =>
    by_cases less : lo < hi
    · have inside := narrowed.within
      have m_in : lo + (hi - lo) / 2 < hi := by omega
      rw [searchLoop_round stored size_some fits inside less]
      split
      · rename_i before
        exact ih (narrowed.lower sorted order m_in before) (by omega)
      · split
        · rename_i behind
          exact ih (narrowed.upper sorted order m_in behind) (by omega)
        · exact .inl ⟨lo + (hi - lo) / 2,by omega,rfl,by omega⟩
    · refine .inr ⟨?_,fun i i_in => narrowed.none_left (Nat.not_lt.mp less) i_in⟩
      have done : ¬base + lo * size < base + hi * size := Nat.not_lt.mpr (place_le base size (Nat.not_lt.mp less))
      rw [searchLoop,if_neg done]
      rfl

end

/-! Arrays. -/

def bytesOf (items : List (Element size)) : Bytes := items.flatMap Subtype.val

/-- A right result: the address of an equal element, or a null pointer because there is none. -/
def Answers (cmp : Element size → Element size → Int) (key : Element size) (base : Nat) (items : List (Element size)) :
    Option Nat → Prop
  | some pointer => ∃ i e, items[i]? = some e ∧ pointer = base + i * size ∧ cmp key e = 0
  | none => ∀ e ∈ items, cmp key e ≠ 0

section
variable {size base fuel : Nat} {items : List (Element size)} {key : Element size}

theorem bytesOf_length (items : List (Element size)) : (bytesOf items).length = items.length * size := by
  induction items with
  | nil => exact (Nat.zero_mul size).symm
  | cons e items ih =>
    rw [bytesOf,List.flatMap_cons,List.length_append,e.property]
    change size + (bytesOf items).length = _
    rw [ih,List.length_cons,Nat.succ_mul,Nat.add_comm]

theorem bytesOf_drop (items : List (Element size)) (i : Nat) : (bytesOf items).drop (i * size) = bytesOf (items.drop i) := by
  induction i generalizing items with
  | zero => rw [Nat.zero_mul,List.drop_zero,List.drop_zero]
  | succ i ih =>
    cases items with
    | nil => rw [List.drop_nil]; exact List.drop_nil
    | cons e items =>
      rw [List.drop_succ_cons,← ih items,bytesOf,List.flatMap_cons,Nat.succ_mul,Nat.add_comm,← List.drop_drop,
        List.drop_left' e.property]
      rfl

theorem elementAt_bytesOf (items : List (Element size)) (here : items[i]? = some e) :
    elementAt base (bytesOf items) size (base + i * size) = .ok e := by
  have i_in := (List.getElem?_eq_some_iff.mp here).1
  have whole : i * size + size ≤ items.length * size := by
    rw [← Nat.succ_mul]
    exact Nat.mul_le_mul_right size i_in
  have inside : base ≤ base + i * size ∧ size ∣ base + i * size - base ∧ base + i * size - base + size ≤ (bytesOf items).length := by
    rw [Nat.add_sub_cancel_left,bytesOf_length]
    exact ⟨Nat.le_add_right ..,Nat.dvd_mul_left ..,whole⟩
  have rest : items.drop i = e :: items.drop (i + 1) := by
    rw [List.drop_eq_getElem_cons i_in,(List.getElem?_eq_some_iff.mp here).2]
  rw [elementAt,dif_pos inside]
  congr 1
  apply Subtype.ext
  change ((bytesOf items).drop (base + i * size - base)).take size = e.val
  rw [Nat.add_sub_cancel_left,bytesOf_drop,rest,bytesOf,List.flatMap_cons,List.take_left' e.property]

theorem binary_search_spec (compare : Compare size Aux) (aux : Aux) (order : Strcmp fun a b => compare a b aux)
    (sorted : items.Pairwise fun a b => compare a b aux ≤ 0) (size_some : 0 < size) (fits : base + items.length * size < 2 ^ 32)
    (enough : items.length < fuel) :
    ∃ result, binary_search key base (bytesOf items) compare aux fuel items.length = .ok result ∧
      Answers (fun a b => compare a b aux) key base items result := by
  have at_ : ∀ i < items.length, items[i]? = some (items[i]?.getD key) := by
    intro i i_in
    rw [List.getElem?_eq_getElem i_in]
    rfl
  have stored : Stored base (bytesOf items) size items.length fun i => items[i]?.getD key :=
    fun i i_in => elementAt_bytesOf items (at_ i i_in)
  have inOrder : InOrder (fun a b => compare a b aux) items.length fun i => items[i]?.getD key := by
    intro i j less j_in
    simp only [List.getElem?_eq_getElem j_in,List.getElem?_eq_getElem (Nat.lt_trans less j_in)]
    exact List.pairwise_iff_getElem.mp sorted i j _ j_in less
  have last : (base + size * items.length % 2 ^ 32) % 2 ^ 32 = base + items.length * size := by
    rw [Nat.mul_comm size,Nat.mod_eq_of_lt (show items.length * size < 2 ^ 32 by omega),Nat.mod_eq_of_lt fits]
  have searched := searchLoop_spec order inOrder stored size_some fits (Narrowed.start _ key _ _) enough
  rw [Nat.zero_mul,Nat.add_zero] at searched
  rw [binary_search,last]
  rcases searched with ⟨i,i_in,run,equal⟩ | ⟨run,other⟩
  · exact ⟨_,run,i,_,at_ i i_in,rfl,equal⟩
  · refine ⟨_,run,?_⟩
    rintro e inside
    obtain ⟨i,here⟩ := List.mem_iff_getElem?.mp inside
    have found := other i (List.getElem?_eq_some_iff.mp here).1
    rwa [here] at found

/-- Both searches end, examine nothing but elements of the array and find an equal element when there is one. -/
theorem binary_search_finds (size_some : 0 < size) (fits : base + items.length * size < 2 ^ 32) (enough : items.length < fuel) :
    (∀ (Aux : Type) (compare : Compare size Aux) (aux : Aux), (Strcmp fun a b => compare a b aux) →
        (items.Pairwise fun a b => compare a b aux ≤ 0) →
        ∃ result, binary_search key base (bytesOf items) compare aux fuel items.length = .ok result ∧
          Answers (fun a b => compare a b aux) key base items result) ∧
      ∀ compare : Element size → Element size → Int, Strcmp compare → (items.Pairwise fun a b => compare a b ≤ 0) →
        ∃ result, bsearch key base (bytesOf items) compare fuel items.length = .ok result ∧ Answers compare key base items result :=
  ⟨fun _ compare aux order sorted => binary_search_spec compare aux order sorted size_some fits enough,
    fun compare order sorted => binary_search_spec compare_thunk compare order sorted size_some fits enough⟩

theorem binary_search_finds_two :
    (∀ (Aux : Type) (compare : Compare 1 Aux) (aux : Aux), (Strcmp fun a b => compare a b aux) →
        ([⟨[3],rfl⟩,⟨[5],rfl⟩].Pairwise fun a b => compare a b aux ≤ 0) →
        ∃ result, binary_search ⟨[5],rfl⟩ 4096 (bytesOf [⟨[3],rfl⟩,⟨[5],rfl⟩]) compare aux 3 2 = .ok result ∧
          Answers (fun a b => compare a b aux) ⟨[5],rfl⟩ 4096 [⟨[3],rfl⟩,⟨[5],rfl⟩] result) ∧
      ∀ compare : Element 1 → Element 1 → Int, Strcmp compare → ([⟨[3],rfl⟩,⟨[5],rfl⟩].Pairwise fun a b => compare a b ≤ 0) →
        ∃ result, bsearch ⟨[5],rfl⟩ 4096 (bytesOf [⟨[3],rfl⟩,⟨[5],rfl⟩]) compare 3 2 = .ok result ∧
          Answers compare ⟨[5],rfl⟩ 4096 [⟨[3],rfl⟩,⟨[5],rfl⟩] result :=
  binary_search_finds (by decide) (by decide) (by decide)

example : bsearch ⟨[5],rfl⟩ 4096 [3,5] compareBytes 3 2 = .ok (some 4097) := rfl

end

end OsProj.BinarySearch
