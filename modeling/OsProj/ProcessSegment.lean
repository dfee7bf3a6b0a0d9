import OsProj.PageDirRuns
import OsProj.Process

/-! Loading a segment: the counts of bytes do not wrap, the loop ends, and the pages of the segment
hold the bytes of the file and zeros. -/
namespace OsProj.Process

open OsProj.ByteMemory OsProj.Faulting OsProj.PageDir OsProj.Palloc

/-- The address space of a process: each mapped page has a frame of the user pool for itself. -/
structure Space (kernel : Kernel) (s : State) (out : List Group) (pd : Nat) : Prop where
  sound : Sound kernel s out
  directory : Directory kernel s out pd
  frames : ∀ v < userPages, ∀ p, pageAt s.memory pd v = some p → page true p ∈ out
  distinct : ∀ v < userPages, ∀ w < userPages, ∀ p, pageAt s.memory pd v = some p → pageAt s.memory pd w = some p → v = w

def userByte (m : Memory) (pd a : Nat) : Option UInt8 := (pageAt m pd (a / pgSize)).map fun p => m (p + a % pgSize)

/-- What the loop leaves behind, for `n` pages from page `v` on. -/
structure PagesLoaded (kernel : Kernel) (pd : Nat) (file : File) (pos v n readBytes : Nat) (s : State) (out : List Group) (done : Bool)
    (s' : State) (out' : List Group) : Prop where
  space : Space kernel s' out' pd
  outstanding : ∀ g ∈ out, g ∈ out'
  frames : ∀ q, page true q ∈ out → Agree s'.memory s.memory q pgSize
  others : ∀ w < userPages, w < v ∨ v + n ≤ w → pageAt s'.memory pd w = pageAt s.memory pd w
  bytes : done = true → ∀ x < n * pgSize,
    userByte s'.memory pd (v * pgSize + x) = some (if x < readBytes then file.byte (pos + x) else 0)

section
variable {kernel : Kernel} {s s' : State} {out out' : List Group} {pd : Nat}

/-- The address space in a state that has the same bytes in all pages that were outstanding. -/
theorem Space.kept (space : Space kernel s out pd) (sound' : Sound kernel s' out') (stays : ∀ g ∈ out, g ∈ out')
    (agree : ∀ user q, page user q ∈ out → Agree s'.memory s.memory q pgSize) :
    Space kernel s' out' pd ∧ ∀ v < userPages, pageAt s'.memory pd v = pageAt s.memory pd v := by
  have own := agree false pd space.directory.own
  have same (v : Nat) (low : v < userPages) : pageAt s'.memory pd v = pageAt s.memory pd v :=
    pageAt_congr own (fun i slot pt found => agree false pt (space.directory.table_some space.sound slot found).2.1) low
  refine ⟨⟨sound',space.directory.congr own (fun g here _ => stays g here) ?_,?_,?_⟩,same⟩
  · intro v low p
    rw [same v low]
    exact space.directory.framed v low p
  · intro v low p mapped
    rw [same v low] at mapped
    exact stays _ (space.frames v low p mapped)
  · intro v low w low' p
    rw [same v low,same w low']
    exact space.distinct v low w low' p

/-- Memory is written in a page that is not of the address space. -/
theorem Space.write_fresh (space : Space kernel s out pd) (sound' : Sound kernel s' (page true p :: out))
    (kept : ∀ a, a < p ∨ p + pgSize ≤ a → s'.memory a = s.memory a) :
    Space kernel s' (page true p :: out) pd ∧ ∀ v < userPages, pageAt s'.memory pd v = pageAt s.memory pd v :=
  space.kept sound' (fun _ here => List.mem_cons_of_mem _ here) fun _ _ here => fresh_agree sound' here kept

theorem page_address (low : v < userPages) : v * pgSize < physBase ∧ pgOfs (v * pgSize) = 0 ∧ v * pgSize / pgSize = v := by
  have count : userPages = 786432 := by decide
  simp only [physBase,pgOfs,pgSize]
  omega

theorem next_page (low : v < userPages) : (v * pgSize + pgSize) % 4294967296 = (v + 1) * pgSize := by
  have count : userPages = 786432 := by decide
  have size : pgSize = 4096 := rfl
  rw [Nat.succ_mul,size]
  apply Nat.mod_eq_of_lt
  omega

theorem installPage_ok (space : Space kernel s out pd) (here : page true p ∈ out)
    (unmapped : ∀ v < userPages, pageAt s.memory pd v ≠ some p) (low : v < userPages) (writable : Bool) :
    installPage kernel pd (v * pgSize) p writable s = .ok (false,s) ∨
    ∃ s' out', installPage kernel pd (v * pgSize) p writable s = .ok (true,s') ∧ Space kernel s' out' pd ∧
      (∀ w < userPages, pageAt s'.memory pd w = if w = v then some p else pageAt s.memory pd w) ∧
      (∀ g ∈ out, g ∈ out') ∧ ∀ q, page true q ∈ out → Agree s'.memory s.memory q pgSize := by
  obtain ⟨user,aligned,number⟩ := page_address low
  have looked := pagedirGetPage_ok space.directory space.sound user
  rw [number] at looked
  cases mapped : pageAt s.memory pd v with
  | some q =>
    left
    have high := (space.directory.framed v low q mapped).high
    rw [mapped] at looked
    have some_ : q + pgOfs (v * pgSize) ≠ 0 := by
      simp only [physBase] at high
      omega
    exact (bind_go looked).trans (if_neg some_ ▸ rfl)
  | none =>
    rw [mapped] at looked
    have reached (result : Except Panic (Bool × State)) (rest : pagedirSetPage kernel pd (v * pgSize) p writable s = result) :
        installPage kernel pd (v * pgSize) p writable s = result := (bind_go looked).trans rest
    rcases pagedirSetPage_ok space.directory space.sound aligned user (space.sound.inRam here) (by rw [number]; exact mapped)
      writable with ⟨failed,_⟩ | ⟨s',out',done,_,updated⟩
    · exact .inl (reached _ failed)
    · rw [number] at updated
      refine .inr ⟨s',out',reached _ done,⟨updated.sound,updated.directory,?_,?_⟩,updated.pages,updated.outstanding,updated.frames⟩
      · intro w user q found
        rw [updated.pages w user] at found
        split at found
        · obtain rfl := Option.some.inj found
          exact updated.outstanding _ here
        · exact updated.outstanding _ (space.frames w user q found)
      · intro w user w' user' q found found'
        rw [updated.pages w user] at found
        rw [updated.pages w' user'] at found'
        split at found <;> split at found'
        · omega
        · exact absurd (found'.trans found.symm) (unmapped w' user')
        · exact absurd (found.trans found'.symm) (unmapped w user)
        · exact space.distinct w user w' user' q found found'

/-- A page that cannot be used is given back. -/
theorem Space.give_back (space : Space kernel s out pd) (sound' : Sound kernel s' (page true p :: out))
    (kept : ∀ a, a < p ∨ p + pgSize ≤ a → s'.memory a = s.memory a) :
    ∃ s'', pallocFreePage p s' = .ok ((),s'') ∧ Space kernel s'' out pd ∧
      (∀ v < userPages, pageAt s''.memory pd v = pageAt s.memory pd v) ∧
      ∀ q, page true q ∈ out → Agree s''.memory s.memory q pgSize := by
  obtain ⟨s'',freed,sound'',kept'⟩ := sound'.free List.mem_cons_self
  rw [List.erase_cons_head] at sound''
  have agree (user : Bool) (q : Nat) (here : page user q ∈ out) : Agree s''.memory s.memory q pgSize := by
    intro a low high
    have apart := sound'.apart List.mem_cons_self (List.mem_cons_of_mem _ here) (by
      intro same
      rw [← same] at here
      exact (List.nodup_cons.mp sound'.nodup).1 here)
    unfold Apart at apart
    rw [kept' a (by omega),kept a (by omega)]
  obtain ⟨space'',pages⟩ := space.kept sound'' (fun _ here => here) agree
  exact ⟨s'',freed,space'',pages,fun q => agree true q⟩

theorem give_up (space : Space kernel s out pd) (sound' : Sound kernel s' (page true p :: out))
    (kept : ∀ a, a < p ∨ p + pgSize ≤ a → s'.memory a = s.memory a) (file : File) (pos v : Nat) :
    ∃ s'', (pallocFreePage p >>= fun _ => (return some false : M (Option Bool))) s' = .ok (some false,s'') ∧
      ∀ n readBytes, PagesLoaded kernel pd file pos v n readBytes s out false s'' out := by
  obtain ⟨s'',freed,space'',pages,frames⟩ := space.give_back sound' kept
  exact ⟨s'',bind_go freed,fun n readBytes =>
    ⟨space'',fun _ here => here,frames,fun w low _ => pages w low,by simp⟩⟩

/-- The first page of a longer segment. -/
theorem PagesLoaded.cons {s₁ s₂ : State} {out₁ out₂ : List Group}
    (rest : PagesLoaded kernel pd file (pos + r) (v + 1) n (readBytes - r) s₁ out₁ done s₂ out₂)
    (low : v < userPages) (outstanding : ∀ g ∈ out, g ∈ out₁) (here : page true p ∈ out₁)
    (frames : ∀ q, page true q ∈ out → Agree s₁.memory s.memory q pgSize)
    (pages : ∀ w < userPages, pageAt s₁.memory pd w = if w = v then some p else pageAt s.memory pd w)
    (part : r = min readBytes pgSize)
    (bytes : ∀ x < pgSize, s₁.memory (p + x) = if x < r then file.byte (pos + x) else 0) :
    PagesLoaded kernel pd file pos v (n + 1) readBytes s out done s₂ out₂ := by
  refine ⟨rest.space,fun g member => rest.outstanding g (outstanding g member),?_,?_,?_⟩
  · intro q member a low high
    exact (rest.frames q (outstanding _ member) a low high).trans (frames q member a low high)
  · intro w user outside
    rw [rest.others w user (by omega),pages w user,if_neg (by omega)]
  · intro loaded x inside
    have positive : 0 < pgSize := by decide
    by_cases first : x < pgSize
    · have number : (v * pgSize + x) / pgSize = v := by
        rw [Nat.mul_comm,Nat.mul_add_div positive,Nat.div_eq_of_lt first,Nat.add_zero]
      have inner : (v * pgSize + x) % pgSize = x := by
        rw [Nat.mul_comm,Nat.mul_add_mod,Nat.mod_eq_of_lt first]
      have frame : pageAt s₂.memory pd v = some p := by
        rw [rest.others v low (by omega),pages v low,if_pos rfl]
      rw [userByte,number,inner,frame,Option.map_some,rest.frames p here _ (by omega) (by omega),bytes x first,part]
      have same : x < min readBytes pgSize ↔ x < readBytes := by omega
      simp only [same]
    · obtain ⟨y,rfl⟩ : ∃ y, x = pgSize + y := ⟨x - pgSize,by omega⟩
      have inside' : y < n * pgSize := by
        rw [Nat.succ_mul] at inside
        omega
      have byte := rest.bytes loaded y inside'
      rw [Nat.succ_mul,Nat.add_assoc] at byte
      rw [byte]
      by_cases read : pgSize + y < readBytes
      · have r_eq : r = pgSize := by omega
        rw [if_pos read,if_pos (by omega),r_eq,Nat.add_assoc]
      · rw [if_neg read,if_neg (by omega)]

/-- How a page is shared between the file and zeros. -/
theorem page_parts (readBytes zeroBytes : UInt32) (total : readBytes.toNat + zeroBytes.toNat = (n + 1) * pgSize) :
    ∃ r, (if readBytes < pageSize then readBytes else pageSize).toNat = r ∧ r = min readBytes.toNat pgSize ∧
      (pageSize - if readBytes < pageSize then readBytes else pageSize).toNat = pgSize - r ∧
      (readBytes - if readBytes < pageSize then readBytes else pageSize).toNat = readBytes.toNat - r ∧
      (zeroBytes - (pageSize - if readBytes < pageSize then readBytes else pageSize)).toNat = zeroBytes.toNat - (pgSize - r) ∧
      readBytes.toNat - r + (zeroBytes.toNat - (pgSize - r)) = n * pgSize := by
  have size : pageSize.toNat = pgSize := by decide
  generalize part_eq : (if readBytes < pageSize then readBytes else pageSize) = part
  have part_min : part.toNat = min readBytes.toNat pgSize := by
    rw [← part_eq]
    split
    · rename_i less
      have less := UInt32.lt_iff_toNat_lt.mp less
      omega
    · rename_i more
      have more := mt UInt32.lt_iff_toNat_lt.mpr more
      omega
  have first : part ≤ pageSize := UInt32.le_iff_toNat_le.mpr (by omega)
  have second : part ≤ readBytes := UInt32.le_iff_toNat_le.mpr (by omega)
  have rest := UInt32.toNat_sub_of_le _ _ first
  have third : pageSize - part ≤ zeroBytes := by
    rw [UInt32.le_iff_toNat_le,rest]
    rw [Nat.succ_mul] at total
    omega
  refine ⟨part.toNat,rfl,part_min,by omega,UInt32.toNat_sub_of_le _ _ second,?_,?_⟩
  · rw [UInt32.toNat_sub_of_le _ _ third,rest,size]
  · rw [Nat.succ_mul] at total
    omega

/-- One page is loaded and mapped, or the segment is given up. -/
theorem loadPage_ok (space : Space kernel s out pd) (file : File) (writable : Bool) (pos : Nat) (low : v < userPages)
    (small : r ≤ pgSize) :
    (∃ s', (∀ rest, loadPage kernel pd file writable pos (v * pgSize) r (pgSize - r) rest s = .ok (some false,s')) ∧
      ∀ n readBytes, PagesLoaded kernel pd file pos v n readBytes s out false s' out) ∨
    ∃ s' out' p, (∀ rest, loadPage kernel pd file writable pos (v * pgSize) r (pgSize - r) rest s = rest s') ∧
      Space kernel s' out' pd ∧ (∀ g ∈ out, g ∈ out') ∧ page true p ∈ out' ∧
      (∀ q, page true q ∈ out → Agree s'.memory s.memory q pgSize) ∧
      (∀ w < userPages, pageAt s'.memory pd w = if w = v then some p else pageAt s.memory pd w) ∧
      ∀ x < pgSize, s'.memory (p + x) = if x < r then file.byte (pos + x) else 0 := by
  rcases space.sound.get false true with none | ⟨p,s₁,got,nonzero,sound₁,kept₁,_⟩
  · exact .inl ⟨s,fun rest => bind_go none,fun n readBytes =>
      ⟨space,fun _ here => here,fun _ _ _ _ _ => rfl,fun _ _ _ => rfl,by simp⟩⟩
  let m₂ := paste s₁.memory p file.byte pos (file.served pos r)
  have served : file.served pos r ≤ r := Nat.le_trans (file.served_le pos r) (Nat.min_le_left _ _)
  have kept₂ (a : Nat) (outside : a < p ∨ p + pgSize ≤ a) : m₂ a = s.memory a := by
    rw [← kept₁ a outside]
    exact paste_outside _ _ _ (by omega)
  have sound₂ : Sound kernel { s₁ with memory := m₂ } (page true p :: out) := sound₁.write _
  by_cases whole : file.served pos r ≠ r
  · obtain ⟨s',freed,loaded⟩ := give_up space sound₂ kept₂ file pos v
    refine .inl ⟨s',fun rest => ?_,loaded⟩
    refine (bind_go got).trans ?_
    rw [if_neg nonzero]
    refine (bind_go rfl).trans ?_
    rw [if_pos whole]
    exact freed
  let m₃ := fill m₂ (p + r) (pgSize - r) 0
  have kept₃ (a : Nat) (outside : a < p ∨ p + pgSize ≤ a) : m₃ a = s.memory a := by
    rw [← kept₂ a outside]
    exact if_neg (by omega)
  have sound₃ : Sound kernel { s₁ with memory := m₃ } (page true p :: out) := sound₁.write _
  obtain ⟨space₃,pages₃⟩ := space.write_fresh sound₃ kept₃
  have bytes₃ (x : Nat) (inside : x < pgSize) : m₃ (p + x) = if x < r then file.byte (pos + x) else 0 := by
    by_cases read : x < r
    · have same : m₃ (p + x) = m₂ (p + x) := if_neg (by omega)
      rw [if_pos read,same]
      exact paste_inside _ _ _ _ (by omega)
    · rw [if_neg read]
      exact if_pos (by omega)
  have unmapped (w : Nat) (user : w < userPages) : pageAt m₃ pd w ≠ some p := by
    intro mapped
    rw [pages₃ w user] at mapped
    exact (List.nodup_cons.mp sound₁.nodup).1 (space.frames w user p mapped)
  -- the page is filled, what is left is to map it
  have filled (rest : M (Option Bool)) (result : Except Panic (Option Bool × State))
      (mapped : (installPage kernel pd (v * pgSize) p writable >>= fun placed => if placed then rest else do
        pallocFreePage p
        return some false) { s₁ with memory := m₃ } = result) :
      loadPage kernel pd file writable pos (v * pgSize) r (pgSize - r) rest s = result := by
    refine (bind_go got).trans ?_
    rw [if_neg nonzero]
    refine (bind_go rfl).trans ?_
    rw [if_neg whole]
    exact (bind_go rfl).trans mapped
  rcases installPage_ok space₃ List.mem_cons_self unmapped low writable with failed | ⟨s₄,out₄,done,space₄,pages₄,stays,frames₄⟩
  · obtain ⟨s',freed,loaded⟩ := give_up space sound₃ kept₃ file pos v
    exact .inl ⟨s',fun rest => filled rest _ ((bind_go failed).trans freed),loaded⟩
  · refine .inr ⟨s₄,out₄,p,fun rest => filled rest _ (bind_go done),space₄,fun g here => stays g (List.mem_cons_of_mem _ here),
      stays _ List.mem_cons_self,?_,?_,?_⟩
    · intro q here a inside inside'
      exact (frames₄ q (List.mem_cons_of_mem _ here) a inside inside').trans (fresh_agree sound₃ here kept₃ a inside inside')
    · intro w user
      rw [pages₄ w user,pages₃ w user]
    · intro x inside
      rw [← bytes₃ x inside]
      exact frames₄ p List.mem_cons_self _ (by omega) (by omega)

/-- The loop ends after the pages of the segment, or before when there is no page for one of them. -/
theorem loadPages_ok (space : Space kernel s out pd) (file : File) (writable : Bool) (pos : Nat) (readBytes zeroBytes : UInt32)
    (total : readBytes.toNat + zeroBytes.toNat = n * pgSize) (range : v + n ≤ userPages) :
    ∃ done s' out', (∀ bound, n < bound →
        loadPages kernel pd file writable bound pos (v * pgSize) readBytes zeroBytes s = .ok (some done,s')) ∧
      PagesLoaded kernel pd file pos v n readBytes.toNat s out done s' out' := by
  induction n generalizing s out v pos readBytes zeroBytes with
  | zero =>
    rw [Nat.zero_mul] at total
    refine ⟨true,s,out,?_,space,fun _ here => here,fun _ _ _ _ _ => rfl,fun _ _ _ => rfl,fun _ x inside => ?_⟩
    · intro bound enough
      obtain ⟨bound,rfl⟩ : ∃ k, bound = k + 1 := ⟨bound - 1,by omega⟩
      have none : ¬(0 < readBytes ∨ 0 < zeroBytes) := by
        rw [UInt32.lt_iff_toNat_lt,UInt32.lt_iff_toNat_lt]
        simp only [UInt32.toNat_zero]
        omega
      rw [loadPages,if_neg none]
      rfl
    · rw [Nat.zero_mul] at inside
      omega
  | succ n ih =>
    obtain ⟨r,part,part_min,zero_part,read_left,zero_left,left⟩ := page_parts readBytes zeroBytes total
    have some_ : 0 < readBytes ∨ 0 < zeroBytes := by
      rw [UInt32.lt_iff_toNat_lt,UInt32.lt_iff_toNat_lt]
      simp only [UInt32.toNat_zero]
      rw [Nat.succ_mul] at total
      simp only [pgSize] at total
      omega
    have low : v < userPages := by omega
    have next := next_page low
    -- one round of the loop
    have round (done : Bool) (s' : State) (ran : ∀ bound, n < bound →
        loadPage kernel pd file writable pos (v * pgSize) r (pgSize - r) (loadPages kernel pd file writable bound (pos + r)
          ((v + 1) * pgSize) (readBytes - if readBytes < pageSize then readBytes else pageSize)
          (zeroBytes - (pageSize - if readBytes < pageSize then readBytes else pageSize))) s = .ok (some done,s'))
        (bound : Nat) (enough : n + 1 < bound) :
        loadPages kernel pd file writable bound pos (v * pgSize) readBytes zeroBytes s = .ok (some done,s') := by
      obtain ⟨bound,rfl⟩ : ∃ k, bound = k + 1 := ⟨bound - 1,by omega⟩
      rw [loadPages,if_pos some_,part,zero_part,next]
      exact ran bound (by omega)
    rcases loadPage_ok space file writable pos low (show r ≤ pgSize by omega) with ⟨s',failed,loaded⟩ |
      ⟨s₁,out₁,p,placed,space₁,stays,here,frames,pages,bytes⟩
    · exact ⟨false,s',out,round false s' fun bound _ => failed _,loaded _ _⟩
    · obtain ⟨done,s',out',ran,loaded⟩ := ih space₁ (pos + r) (readBytes - if readBytes < pageSize then readBytes else pageSize)
        (zeroBytes - (pageSize - if readBytes < pageSize then readBytes else pageSize)) (by rw [read_left,zero_left]; exact left)
        (show v + 1 + n ≤ userPages by omega)
      rw [read_left] at loaded
      exact ⟨done,s',out',round done s' fun bound enough => (placed _).trans (ran bound enough),
        loaded.cons low stays here frames pages part_min bytes⟩

/-! The numbers of a valid segment. -/

/-- What the checks exclude, in numbers that do not wrap. -/
structure Phdr.Valid (phdr : Phdr) (file : File) : Prop where
  offsets : phdr.pOffset.toNat % pgSize = phdr.pVaddr.toNat % pgSize
  inside : phdr.pOffset.toNat ≤ file.length
  less : phdr.pFilesz.toNat ≤ phdr.pMemsz.toNat
  some_ : 0 < phdr.pMemsz.toNat
  user : phdr.pVaddr.toNat + phdr.pMemsz.toNat < physBase
  mapped : pgSize ≤ phdr.pVaddr.toNat

section
variable {phdr : Phdr} {file : File}

theorem mask_toNat (x : UInt32) : (x &&& pgMask).toNat = x.toNat % pgSize := by
  have mask : pgMask.toNat = 2 ^ 12 - 1 := by decide
  rw [UInt32.toNat_and,mask,Nat.and_two_pow_sub_one_eq_mod]
  rfl

theorem unmask_toNat (x : UInt32) : (x &&& ~~~pgMask).toNat = x.toNat / pgSize * pgSize := by
  have mask : (~~~pgMask).toNat = pteAddr := by decide
  rw [UInt32.toNat_and,mask]
  exact addr_eq x.toNat_lt

theorem toOff_small (small : x.toNat < 2147483648) : toOff x = x.toNat :=
  Int.bmod_eq_of_le (by omega) (by omega)

/-- A check that fails where its condition holds. -/
theorem passed_iff [Decidable c] {b : Bool} : (if c then false else b) = true ↔ ¬c ∧ b = true := by
  by_cases failed : c
  · rw [if_pos failed]
    simp [failed]
  · rw [if_neg failed]
    simp [failed]

theorem validateSegment_valid (valid : validateSegment phdr file = true) : phdr.Valid file := by
  simp only [validateSegment,passed_iff] at valid
  obtain ⟨offsets,inside,less,some_,user,ends,wraps,mapped,-⟩ := valid
  have memsz := phdr.pMemsz.toNat_lt
  have vaddr := phdr.pVaddr.toNat_lt
  have short := file.short
  have sum := UInt32.toNat_add phdr.pVaddr phdr.pMemsz
  simp only [UInt32.lt_iff_toNat_lt,not_lt,Bool.not_eq_true,Bool.not_eq_false',isUserVaddr,decide_eq_true_eq,ne_eq,
    Decidable.not_not] at offsets inside less some_ user ends wraps mapped
  have same := congrArg UInt32.toNat offsets
  rw [mask_toNat,mask_toNat] at same
  have nonzero : phdr.pMemsz.toNat ≠ 0 := fun zero => some_ (UInt32.toNat_inj.mp zero)
  have length : (UInt32.ofNat file.length).toNat = file.length := UInt32.toNat_ofNat_of_lt (by simp only [UInt32.size]; omega)
  refine ⟨same,by omega,by omega,by omega,?_,mapped⟩
  simp only [physBase] at *
  omega

theorem roundUp_toNat (small : x.toNat < physBase) : (roundUp x).toNat = (x.toNat + pgSize - 1) / pgSize * pgSize := by
  have size : pageSize.toNat = 4096 := by decide
  have one : (1 : UInt32).toNat = 1 := rfl
  have sum : (x + pageSize).toNat = x.toNat + 4096 := by
    rw [UInt32.toNat_add,size]
    apply Nat.mod_eq_of_lt
    simp only [physBase] at small
    omega
  have less : (x + pageSize - 1).toNat = x.toNat + 4096 - 1 := by
    rw [UInt32.toNat_sub_of_le _ _ (UInt32.le_iff_toNat_le.mpr (by rw [sum,one]; omega)),sum,one]
  rw [roundUp,UInt32.toNat_mul,UInt32.toNat_div,less,size]
  apply Nat.mod_eq_of_lt
  simp only [physBase] at small
  omega

def Phdr.bytes (phdr : Phdr) : Nat := (phdr.pVaddr.toNat % pgSize + phdr.pMemsz.toNat + pgSize - 1) / pgSize * pgSize

/-- The counts are those of unbounded arithmetic. -/
theorem Phdr.Valid.counts (valid : phdr.Valid file) :
    phdr.readBytes.toNat = (if 0 < phdr.pFilesz.toNat then phdr.pVaddr.toNat % pgSize + phdr.pFilesz.toNat else 0) ∧
    phdr.zeroBytes.toNat = phdr.bytes - phdr.readBytes.toNat ∧ phdr.readBytes.toNat ≤ phdr.bytes := by
  have less := valid.less
  have user := valid.user
  have vaddr : phdr.pVaddr.toNat % pgSize ≤ phdr.pVaddr.toNat := Nat.mod_le _ _
  have offset : phdr.pageOffset.toNat = phdr.pVaddr.toNat % pgSize := mask_toNat _
  have sum (n : UInt32) (inside : n.toNat ≤ phdr.pMemsz.toNat) :
      (phdr.pageOffset + n).toNat = phdr.pVaddr.toNat % pgSize + n.toNat := by
    rw [UInt32.toNat_add,offset]
    apply Nat.mod_eq_of_lt
    simp only [physBase] at user
    omega
  have whole := sum phdr.pMemsz (Nat.le_refl _)
  have rounded : (roundUp (phdr.pageOffset + phdr.pMemsz)).toNat = phdr.bytes := by
    rw [roundUp_toNat (by omega),whole]
    rfl
  have positive : (0 < phdr.pFilesz) = (0 < phdr.pFilesz.toNat) := by
    rw [UInt32.lt_iff_toNat_lt]
    rfl
  have fits : phdr.pVaddr.toNat % pgSize + phdr.pMemsz.toNat ≤ phdr.bytes := by
    simp only [Phdr.bytes,pgSize]
    omega
  unfold Phdr.zeroBytes Phdr.readBytes
  simp only [positive]
  split
  · rw [sum _ less]
    refine ⟨rfl,?_,by omega⟩
    rw [UInt32.toNat_sub_of_le _ _ (UInt32.le_iff_toNat_le.mpr (by rw [sum _ less,rounded]; omega)),rounded,sum _ less]
  · exact ⟨rfl,rounded,Nat.zero_le _⟩

/-- The segment has pages of user memory, and none is page 0. -/
theorem Phdr.Valid.range (valid : phdr.Valid file) :
    ∃ n, phdr.bytes = n * pgSize ∧ 1 ≤ phdr.pVaddr.toNat / pgSize ∧ phdr.pVaddr.toNat / pgSize + n ≤ userPages := by
  have user := valid.user
  have mapped := valid.mapped
  have count : userPages = 786432 := by decide
  refine ⟨_,rfl,?_,?_⟩
  · simp only [pgSize] at *
    omega
  · simp only [pgSize,physBase] at *
    omega

/-- The segment is loaded with the counts of the file's numbers, and all assertions hold. -/
theorem loadPhdr_ok (space : Space kernel s out pd) (valid : phdr.Valid file) (total : phdr.bytes = n * pgSize)
    (range : phdr.pVaddr.toNat / pgSize + n ≤ userPages) :
    ∃ done s' out', (∀ bound, n < bound → loadPhdr kernel pd file bound phdr s = .ok (some done,s')) ∧
      PagesLoaded kernel pd file (phdr.pOffset.toNat / pgSize * pgSize) (phdr.pVaddr.toNat / pgSize) n phdr.readBytes.toNat
        s out done s' out' := by
  obtain ⟨_,zero,less⟩ := valid.counts
  have sum : phdr.readBytes.toNat + phdr.zeroBytes.toNat = n * pgSize := by rw [zero,Nat.add_sub_cancel' less,total]
  have inside := valid.inside
  have short := file.short
  have memPage : phdr.memPage.toNat = phdr.pVaddr.toNat / pgSize * pgSize := unmask_toNat _
  have filePage : toOff phdr.filePage = (phdr.pOffset.toNat / pgSize * pgSize : Nat) := by
    have down := Nat.div_mul_le_self phdr.pOffset.toNat pgSize
    have position : phdr.filePage.toNat = phdr.pOffset.toNat / pgSize * pgSize := unmask_toNat _
    rw [toOff_small (by rw [position]; omega),position]
  obtain ⟨done,s',out',ran,loaded⟩ := loadPages_ok space file phdr.writable (phdr.pOffset.toNat / pgSize * pgSize)
    phdr.readBytes phdr.zeroBytes sum range
  refine ⟨done,s',out',fun bound enough => ?_,loaded⟩
  have pages : (phdr.readBytes + phdr.zeroBytes) % pageSize = 0 := by
    have size : pageSize.toNat = pgSize := by decide
    have divides : pgSize ∣ 2 ^ 32 := ⟨1048576,by decide⟩
    apply UInt32.toNat_inj.mp
    rw [UInt32.toNat_mod,UInt32.toNat_add,sum,size,Nat.mod_mod_of_dvd _ divides,Nat.mul_mod_left]
    rfl
  have start : pgOfs phdr.memPage.toNat = 0 := by
    rw [memPage]
    exact Nat.mul_mod_left _ _
  have even : (toOff phdr.filePage).tmod pgSize = 0 := by
    rw [filePage,Int.natCast_mul]
    exact Int.mul_tmod_left _ _
  have seek : 0 ≤ toOff phdr.filePage := by
    rw [filePage]
    exact Int.natCast_nonneg _
  refine (bind_go (lift_ok (assert_ok pages))).trans ((bind_go (lift_ok (assert_ok start))).trans ?_)
  refine (bind_go (lift_ok (assert_ok even))).trans ((bind_go (lift_ok (assert_ok seek))).trans ?_)
  rw [filePage,memPage,Int.toNat_natCast]
  exact ran bound enough

theorem page_of_segment (total : (va % pgSize + memsz + pgSize - 1) / pgSize * pgSize = n * pgSize) (first : 1 ≤ va / pgSize)
    (low : va / pgSize ≤ w) (high : w < va / pgSize + n) (user : w < userPages) :
    pgSize ≤ w * pgSize ∧ (w + 1) * pgSize ≤ physBase ∧ va < (w + 1) * pgSize ∧ w * pgSize < va + memsz := by
  have count : userPages = 786432 := by decide
  simp only [pgSize,physBase] at *
  omega

/-- The places of a byte of the segment in its pages and in the file. -/
theorem byte_of_segment (total : (va % pgSize + memsz + pgSize - 1) / pgSize * pgSize = n * pgSize)
    (same : ofs % pgSize = va % pgSize) (inside : i < memsz) :
    va + i = va / pgSize * pgSize + (va % pgSize + i) ∧ ofs + i = ofs / pgSize * pgSize + (va % pgSize + i) ∧
      va % pgSize + i < n * pgSize := by
  simp only [pgSize] at *
  omega

/-- A segment that passes the checks is loaded without wrapping, in finitely many rounds and with all assertions
holding; only pages of user memory change, and after a success they hold the bytes of the file and zeros. -/
theorem segment_loading (space : Space kernel s out pd) (valid : validateSegment phdr file = true) :
    phdr.readBytes.toNat = (if 0 < phdr.pFilesz.toNat then phdr.pVaddr.toNat % pgSize + phdr.pFilesz.toNat else 0) ∧
    phdr.readBytes.toNat + phdr.zeroBytes.toNat =
      (phdr.pVaddr.toNat % pgSize + phdr.pMemsz.toNat + pgSize - 1) / pgSize * pgSize ∧
    ∃ done s', (∀ more, (phdr.readBytes.toNat + phdr.zeroBytes.toNat) / pgSize < more →
        loadPhdr kernel pd file more phdr s = .ok (some done,s')) ∧
      (∀ w < userPages, pageAt s'.memory pd w ≠ pageAt s.memory pd w → pgSize ≤ w * pgSize ∧ (w + 1) * pgSize ≤ physBase ∧
        phdr.pVaddr.toNat < (w + 1) * pgSize ∧ w * pgSize < phdr.pVaddr.toNat + phdr.pMemsz.toNat) ∧
      (done = true →
        (∀ i < phdr.pFilesz.toNat, userByte s'.memory pd (phdr.pVaddr.toNat + i) = some (file.byte (phdr.pOffset.toNat + i))) ∧
        ∀ i, phdr.pFilesz.toNat ≤ i → i < phdr.pMemsz.toNat → userByte s'.memory pd (phdr.pVaddr.toNat + i) = some 0) := by
  have valid := validateSegment_valid valid
  obtain ⟨read,zero,less⟩ := valid.counts
  obtain ⟨n,total,first,range⟩ := valid.range
  obtain ⟨done,s',out',ran,loaded⟩ := loadPhdr_ok space valid total range
  have rounds : (phdr.readBytes.toNat + phdr.zeroBytes.toNat) / pgSize = n := by
    rw [zero,Nat.add_sub_cancel' less,total]
    exact Nat.mul_div_cancel n (by decide)
  refine ⟨read,by rw [zero,Nat.add_sub_cancel' less]; rfl,done,s',fun more enough => ran more (rounds ▸ enough),?_,?_⟩
  · intro w user changed
    have inside : phdr.pVaddr.toNat / pgSize ≤ w ∧ w < phdr.pVaddr.toNat / pgSize + n := by
      by_contra outside
      exact changed (loaded.others w user (by omega))
    exact page_of_segment total first inside.1 inside.2 user
  · intro success
    have bytes := loaded.bytes success
    refine ⟨fun i inside => ?_,fun i behind inside => ?_⟩
    · obtain ⟨place,source,low⟩ := byte_of_segment total valid.offsets (Nat.lt_of_lt_of_le inside valid.less)
      rw [place,bytes _ low,if_pos (by rw [read,if_pos (by omega)]; omega),source]
    · obtain ⟨place,_,low⟩ := byte_of_segment total valid.offsets inside
      have unread : ¬phdr.pVaddr.toNat % pgSize + i < phdr.readBytes.toNat := by
        rw [read]
        split <;> omega
      rw [place,bytes _ low,if_neg unread]

/-- A new directory maps nothing. -/
theorem Space.created (booted : Booted kernel s out) (made : pagedirCreate kernel s = .ok (pd,s')) (nonzero : pd ≠ 0) :
    Space kernel s' (page false pd :: out) pd := by
  obtain ⟨sound,directory,unmapped,_⟩ := booted.created made nonzero
  refine ⟨sound,directory,?_,?_⟩
  · intro v user p mapped
    exact absurd ((unmapped v user).symm.trans mapped).symm (Option.some_ne_none _)
  · intro v user w _ p mapped
    exact absurd ((unmapped v user).symm.trans mapped).symm (Option.some_ne_none _)

def smallFile : File where
  length := 100
  byte := fun _ => 7
  served := fun pos size => min size (100 - pos)
  short := by decide
  served_le := fun _ _ => Nat.le_refl _

def smallPhdr : Phdr := ⟨1,0,134512640,100,5000,6⟩

def smallLoad : Except Panic (Option Bool) := do
  let (_,s) ← smallBoot
  let (pd,s) ← pagedirCreate smallKernel s
  let (done,_) ← loadPhdr smallKernel pd smallFile 3 smallPhdr s
  return done

/-- It is loaded: the last byte of the file, and the first zero behind it. -/
theorem segment_loading_small :
    ∃ s out pd s', Space smallKernel s out pd ∧ validateSegment smallPhdr smallFile = true ∧ smallPhdr.readBytes.toNat = 100 ∧
      (∀ more, 2 < more → loadPhdr smallKernel pd smallFile more smallPhdr s = .ok (some true,s')) ∧
      userByte s'.memory pd (134512640 + 99) = some 7 ∧ userByte s'.memory pd (134512640 + 100) = some 0 := by
  obtain ⟨s₀,out₀,pd,s,boot,booted,made,nonzero⟩ := small_created
  have space := Space.created booted made nonzero
  obtain ⟨read,_,done,s',ran,_,bytes⟩ := segment_loading space (show validateSegment smallPhdr smallFile = true by decide)
  have loaded : smallLoad.toOption = some (some true) := by decide +kernel
  unfold smallLoad at loaded
  rw [go boot] at loaded
  dsimp only at loaded
  rw [go made] at loaded
  dsimp only at loaded
  rw [go (ran 3 (by decide))] at loaded
  obtain rfl : done = true := Option.some.inj (Option.some.inj loaded)
  obtain ⟨file,zero⟩ := bytes rfl
  exact ⟨s,_,pd,s',space,by decide,read,ran,file 99 (by decide),zero 100 (by decide) (by decide)⟩

end

end

end OsProj.Process
