import Mathlib.Data.Nat.Bitwise
import OsProj.PageDir
import OsProj.PallocRuns

/-! A page directory as a map from user pages to frames. The map is read off the words of the
directory and of its tables. -/
namespace OsProj.PageDir

open OsProj.ByteMemory OsProj.Faulting OsProj.Palloc

/-! Bit fields as numbers. -/

theorem pdNo_eq (va : Nat) : pdNo va = va / pgSize / 1024 := by
  simp only [pdNo,Nat.shiftRight_eq_div_pow,pgSize,Nat.div_div_eq_div_mul]

theorem ptNo_eq (va : Nat) : ptNo va = va / pgSize % 1024 := by
  simp only [ptNo,Nat.shiftRight_and_distrib]
  have mask : ptMask >>> 12 = 2 ^ 10 - 1 := by decide
  rw [mask,Nat.and_two_pow_sub_one_eq_mod,Nat.shiftRight_eq_div_pow]
  rfl

theorem present_eq (entry : Nat) : entry &&& pteP = entry % 2 := Nat.and_one_is_mod entry

/-- The address in an entry. -/
theorem addr_eq (small : entry < 4294967296) : entry &&& pteAddr = entry / pgSize * pgSize := by
  have cut : entry / pgSize * pgSize = (entry >>> 12) <<< 12 := by
    rw [Nat.shiftRight_eq_div_pow,Nat.shiftLeft_eq]
    rfl
  have mask : pteAddr = (2 ^ 20 - 1) <<< 12 := by decide
  rw [cut,mask]
  apply Nat.eq_of_testBit_eq
  intro i
  rw [Nat.testBit_and,Nat.testBit_shiftLeft,Nat.testBit_shiftLeft,Nat.testBit_shiftRight,Nat.testBit_two_pow_sub_one]
  by_cases low : 12 ≤ i
  · rw [Nat.add_sub_cancel' low]
    by_cases high : i < 32
    · have inside : i - 12 < 20 := by omega
      simp [low,inside]
    · have power : 2 ^ 32 ≤ 2 ^ i := Nat.pow_le_pow_right Nat.two_pos (show 32 ≤ i by omega)
      have bound : entry < 2 ^ i := Nat.lt_of_lt_of_le small power
      simp [Nat.testBit_lt_two_pow bound]
  · simp [low]

/-- Flags beside the address of a page. -/
theorem flags_eq (aligned : frame % pgSize = 0) (small : flags < pgSize) : frame ||| flags = frame + flags := by
  obtain ⟨q,rfl⟩ := Nat.dvd_of_mod_eq_zero aligned
  exact (Nat.two_pow_add_eq_or_of_lt (i := 12) small q).symm

theorem cleared_even (entry : Nat) : (entry &&& (4294967295 - pteP)) % 2 = 0 := by
  have odd := @Nat.and_mod_two_eq_one entry (4294967295 - pteP)
  have mask : (4294967295 - pteP) % 2 ≠ 1 := by decide
  have even : ¬(entry &&& (4294967295 - pteP)) % 2 = 1 := fun one => mask (odd.mp one).2
  omega

/-! What the words say. -/

def tableOf (pde : Nat) : Option Nat := if pde = 0 then none else some (pde / pgSize * pgSize + physBase)

def frameOf (pte : Nat) : Option Nat := if pte % 2 = 1 then some (pte / pgSize * pgSize + physBase) else none

def tableAt (m : Memory) (pd i : Nat) : Option Nat := tableOf (load m (pd + 4 * i) 4)

/-- The frame of a user page, by the number of the page. -/
def pageAt (m : Memory) (pd v : Nat) : Option Nat :=
  (tableAt m pd (v / 1024)).bind fun pt => frameOf (load m (pt + 4 * (v % 1024)) 4)

def userPages : Nat := physBase / pgSize

/-- The outstanding pages, and where memory lies. -/
def Sound (kernel : Kernel) (s : State) (out : List Group) : Prop :=
  ∃ mid, Inv (physBase + 1048576) mid (physBase + pgSize * kernel.ramPages) s out

abbrev page (user : Bool) (p : Nat) : Group := ⟨p,1,user⟩

structure InRam (kernel : Kernel) (p : Nat) : Prop where
  aligned : p % pgSize = 0
  high : physBase ≤ p
  low : p < physBase + pgSize * kernel.ramPages

/-- The directory and its tables are pages of their own, and what they map is in memory. -/
structure Directory (kernel : Kernel) (s : State) (out : List Group) (pd : Nat) : Prop where
  own : page false pd ∈ out
  other : pd ≠ kernel.initPageDir
  entries : ∀ i < 768, load s.memory (pd + 4 * i) 4 = 0 ∨ ∃ pt, load s.memory (pd + 4 * i) 4 = pt - physBase + 7 ∧
    page false pt ∈ out ∧ pt ≠ pd
  distinct : ∀ i < 768, ∀ j < 768, ∀ pt, tableAt s.memory pd i = some pt → tableAt s.memory pd j = some pt → i = j
  framed : ∀ v < userPages, ∀ p, pageAt s.memory pd v = some p → InRam kernel p

section
variable {kernel : Kernel} {s s' : State} {out : List Group} {pd : Nat}

/-- Where an outstanding page lies. -/
theorem Sound.place (sound : Sound kernel s out) (here : page user p ∈ out) :
    p % pgSize = 0 ∧ physBase + 1048576 ≤ p ∧ p + pgSize ≤ physBase + pgSize * kernel.ramPages := by
  obtain ⟨mid,inv⟩ := sound
  have inside := inv.inside _ here
  have placed := inv.placed here
  have aligned : p % pgSize = 0 := placed.aligned
  obtain ⟨bottom,top,located,low,_,high⟩ := inv.pool_at user
  have room := located.room
  have start : (page user p).Has p := ⟨Nat.le_refl _,by simp [pgSize]⟩
  have finish : (page user p).Has (p + (pgSize - 1)) := by
    simp only [Group.Has,pgSize]
    omega
  have first := inside.range located start
  have last := inside.range located finish
  refine ⟨aligned,?_,?_⟩
  · change (s.pool user).base ≤ p ∧ _ at first
    omega
  · simp only [pgSize] at *
    omega

theorem Sound.write (sound : Sound kernel s out) (m : Memory) : Sound kernel { s with memory := m } out := by
  obtain ⟨mid,inv⟩ := sound
  exact ⟨mid,inv.kernel,inv.user,inv.low,inv.high,inv.inside,inv.apart,inv.marked⟩

/-- Two outstanding pages have no byte in common. -/
theorem Sound.apart (sound : Sound kernel s out) (here : page user p ∈ out) (here' : page user' q ∈ out)
    (different : page user p ≠ page user' q) : Apart p pgSize q pgSize := by
  have aligned := (sound.place here).1
  have aligned' := (sound.place here').1
  obtain ⟨mid,inv⟩ := sound
  have apart := inv.apart.forall here here' different p ⟨Nat.le_refl _,by simp [pgSize]⟩
  simp only [Group.Has,Apart,pgSize] at *
  omega

/-- A page or none. -/
theorem Sound.get (sound : Sound kernel s out) (zero user : Bool) :
    pallocGetPage ⟨false,zero,user⟩ s = .ok (0,s) ∨
    ∃ p s', pallocGetPage ⟨false,zero,user⟩ s = .ok (p,s') ∧ p ≠ 0 ∧ Sound kernel s' (page user p :: out) ∧
      (∀ a, a < p ∨ p + pgSize ≤ a → s'.memory a = s.memory a) ∧
      (zero = true → ∀ a, p ≤ a → a < p + pgSize → s'.memory a = 0) := by
  obtain ⟨mid,inv⟩ := sound
  rcases inv.get ⟨false,zero,user⟩ 1 with ⟨p,s',ran,inv',kept,same,zeroed,_⟩ | ⟨_,asserted,_⟩
  · by_cases none : p = 0
    · left
      rw [none,same none] at ran
      exact ran
    · refine .inr ⟨p,s',ran,none,⟨mid,by rwa [if_neg none] at inv'⟩,?_,?_⟩
      · intro a outside
        by_contra changed
        have inside := (kept a changed).2
        simp only [Group.Has,pgSize] at *
        omega
      · intro wanted a low high
        exact zeroed wanted none a ⟨low,by simpa using high⟩
  · contradiction

/-- Which page is handed out. -/
theorem Sound.available (sound : Sound kernel s out) (got : pallocGetPage ⟨false,zero,user⟩ s = .ok (p,s')) :
    (p = 0 → ∀ q, ¬Available s user q) ∧ (p ≠ 0 → Available s user p) := by
  obtain ⟨mid,inv⟩ := sound
  obtain ⟨_,_,located,above,_,_⟩ := inv.pool_at user
  have room := located.room
  have low := inv.low
  rcases inv.get ⟨false,zero,user⟩ 1 with ⟨p',s'',ran,_,_,_,_,place⟩ | ⟨_,asserted,_⟩
  · obtain ⟨rfl,rfl⟩ := Prod.mk.inj (Except.ok.inj (got.symm.trans ran))
    cases found : Bitmap.scan (s.pool user).usedMap.bits (s.pool user).usedMap.bitCnt 0 1 false with
    | none =>
      rw [found] at place
      refine ⟨fun _ q => ?_,fun some_ => absurd place some_⟩
      rintro ⟨i,bound,rfl,clear⟩
      obtain ⟨j,first,last,taken⟩ := Bitmap.scan_none found (Nat.zero_le i) (by omega)
      obtain rfl : j = i := by omega
      rw [clear] at taken
      contradiction
    | some idx =>
      rw [found] at place
      obtain ⟨_,fits,free⟩ := Bitmap.scan_some found
      have address : p = (s.pool user).base + pgSize * idx := place
      refine ⟨fun none => ?_,fun _ => ⟨idx,by omega,address,free idx (Nat.le_refl _) (by omega)⟩⟩
      omega
  · contradiction

/-- A page that is outstanding is not available. -/
theorem Sound.taken (sound : Sound kernel s out) (here : page user p ∈ out) : ¬Available s user p := by
  obtain ⟨mid,inv⟩ := sound
  rintro ⟨i,bound,rfl,clear⟩
  have marked := (inv.marked user i bound).mpr ⟨_,here,rfl,Nat.le_refl _,by simp [pgSize]⟩
  rw [clear] at marked
  contradiction

theorem Sound.free (sound : Sound kernel s out) (here : page user p ∈ out) :
    ∃ s', pallocFreePage p s = .ok ((),s') ∧ Sound kernel s' (out.erase (page user p)) ∧
      ∀ a, a < p ∨ p + pgSize ≤ a → s'.memory a = s.memory a := by
  obtain ⟨mid,inv⟩ := sound
  obtain ⟨s',ran,inv',_,kept⟩ := inv.free here
  refine ⟨s',ran,⟨mid,inv'⟩,?_⟩
  intro a outside
  by_contra changed
  have inside := kept a changed
  simp only [Group.Has,pgSize] at *
  omega

theorem Sound.nodup (sound : Sound kernel s out) : out.Nodup := by
  obtain ⟨mid,inv⟩ := sound
  exact inv.nodup

/-! Entries. -/

theorem vtop_ok (high : physBase ≤ a) : vtop a = .ok (a - physBase) := go (assert_ok high)

theorem ptov_ok (low : a < physBase) : ptov a = .ok (a + physBase) := go (assert_ok low)

theorem Sound.inRam (sound : Sound kernel s out) (here : page user p ∈ out) : InRam kernel p := by
  obtain ⟨aligned,low,high⟩ := sound.place here
  refine ⟨aligned,Nat.le_trans (Nat.le_add_right _ _) low,Nat.lt_of_lt_of_le ?_ high⟩
  exact Nat.lt_add_of_pos_right (by decide)

/-- The entry of a page with flags. -/
theorem InRam.entry (ram : InRam kernel p) (small : flags < pgSize) :
    p - physBase + flags < 4294967296 ∧ (p - physBase + flags) / pgSize * pgSize = p - physBase ∧
      p - physBase < physBase ∧ (p - physBase) % pgSize = 0 ∧ (p - physBase) / pgSize < kernel.ramPages := by
  have aligned := ram.aligned
  have high := ram.high
  have low := ram.low
  have capped := kernel.capped
  simp only [physBase,pgSize] at *
  omega

theorem InRam.pdeCreate (ram : InRam kernel pt) : pdeCreate pt = .ok (pt - physBase + 7) := by
  have aligned := (ram.entry (show 7 < pgSize by decide)).2.2.2.1
  refine (go (assert_ok ram.aligned)).trans ((go (vtop_ok ram.high)).trans ?_)
  have flags : pteU ||| (pteP ||| pteW) = 7 := by decide
  rw [Nat.or_assoc,Nat.or_assoc,flags,flags_eq aligned (by decide)]
  rfl

theorem InRam.pdeGetPt (ram : InRam kernel pt) : PageDir.pdeGetPt (pt - physBase + 7) = .ok pt := by
  obtain ⟨small,address,low,aligned,_⟩ := ram.entry (show 7 < pgSize by decide)
  have present : (pt - physBase + 7) &&& pteP ≠ 0 := by
    rw [present_eq]
    simp only [pgSize] at *
    omega
  refine (go (assert_ok present)).trans ?_
  rw [addr_eq small,address,ptov_ok low]
  exact congrArg Except.ok (Nat.sub_add_cancel ram.high)

def userFlags (writable : Bool) : Nat := if writable then 7 else 5

theorem InRam.pteCreateUser (ram : InRam kernel p) (writable : Bool) :
    PageDir.pteCreateUser p writable = .ok (p - physBase + userFlags writable) := by
  have aligned := (ram.entry (show 7 < pgSize by decide)).2.2.2.1
  have created : pteCreateKernel p writable = .ok (p - physBase ||| pteP ||| if writable then pteW else 0) :=
    (go (assert_ok ram.aligned)).trans (go (vtop_ok ram.high))
  refine (go created).trans ?_
  have flags : pteP ||| ((if writable then pteW else 0) ||| pteU) = userFlags writable := by
    cases writable <;> decide
  have small : userFlags writable < pgSize := by
    cases writable <;> decide
  rw [Nat.or_assoc,Nat.or_assoc,flags,flags_eq aligned small]
  rfl

theorem InRam.frameOf (ram : InRam kernel p) (writable : Bool) :
    p - physBase + userFlags writable < 4294967296 ∧ PageDir.frameOf (p - physBase + userFlags writable) = some p := by
  have small : userFlags writable < pgSize := by
    cases writable <;> decide
  have odd : userFlags writable % 2 = 1 := by
    cases writable <;> decide
  obtain ⟨small,address,_,aligned,_⟩ := ram.entry small
  refine ⟨small,?_⟩
  have present : (p - physBase + userFlags writable) % 2 = 1 := by
    simp only [pgSize] at aligned
    omega
  rw [PageDir.frameOf,if_pos present,address,Nat.sub_add_cancel ram.high]

theorem InRam.tableOf (ram : InRam kernel pt) : PageDir.tableOf (pt - physBase + 7) = some pt := by
  obtain ⟨_,address,_⟩ := ram.entry (show 7 < pgSize by decide)
  rw [PageDir.tableOf,if_neg (by omega),address,Nat.sub_add_cancel ram.high]

theorem pteGetPage_ok (found : frameOf entry = some p) (small : entry < 4294967296) (low : p < 4294967296) :
    pteGetPage entry = .ok p := by
  rw [frameOf] at found
  split at found
  · have address := Option.some.inj found
    rw [pteGetPage,addr_eq small,ptov_ok (by simp only [physBase] at *; omega),address]
  · contradiction

theorem load_word_lt (m : Memory) (a : Nat) : load m a 4 < 4294967296 := load_lt m a 4

/-- An entry of the directory, and the table it points to. -/
theorem Directory.table (directory : Directory kernel s out pd) (sound : Sound kernel s out) (slot : i < 768) :
    load s.memory (pd + 4 * i) 4 = 0 ∧ tableAt s.memory pd i = none ∨
    ∃ pt, tableAt s.memory pd i = some pt ∧ load s.memory (pd + 4 * i) 4 = pt - physBase + 7 ∧ page false pt ∈ out ∧ pt ≠ pd := by
  rcases directory.entries i slot with none | ⟨pt,entry,here,other⟩
  · left
    rw [tableAt,none]
    exact ⟨rfl,rfl⟩
  · right
    refine ⟨pt,?_,entry,here,other⟩
    rw [tableAt,entry,(sound.inRam here).tableOf]

theorem Directory.table_some (directory : Directory kernel s out pd) (sound : Sound kernel s out) (slot : i < 768)
    (found : tableAt s.memory pd i = some pt) :
    load s.memory (pd + 4 * i) 4 = pt - physBase + 7 ∧ page false pt ∈ out ∧ pt ≠ pd := by
  rcases directory.table sound slot with ⟨_,none⟩ | ⟨pt',found',rest⟩
  · rw [none] at found
    contradiction
  · obtain rfl := Option.some.inj (found'.symm.trans found)
    exact rest

theorem Directory.table_none (directory : Directory kernel s out pd) (sound : Sound kernel s out) (slot : i < 768)
    (absent : tableAt s.memory pd i = none) : load s.memory (pd + 4 * i) 4 = 0 := by
  rcases directory.table sound slot with ⟨zero,_⟩ | ⟨pt,found,_⟩
  · exact zero
  · rw [found] at absent
    contradiction

theorem user_slot (user : va < physBase) : va / pgSize / 1024 < 768 ∧ va / pgSize % 1024 < 1024 ∧ va / pgSize < userPages := by
  simp only [physBase,pgSize,userPages] at *
  omega

end

end OsProj.PageDir
