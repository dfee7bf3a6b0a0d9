import OsProj.UserMemoryFrames

/-! A process as `load` leaves it: the break is a page boundary below the stack page, and no
frame is allocated for the heap. -/
namespace OsProj.UserMemory

open OsProj.Bitmap OsProj.ByteMemory OsProj.Faulting

/-- A process before it is loaded, with the frames that others use. -/
def unloaded (used : Nat → Option Owner) (mem : Memory) : Process := ⟨fun _ => none,used,mem,0,0⟩

def stackPage : Nat := physBase / pgSize - 1

/-- The process while its segments are loaded. A segment may end at the end of user memory;
then the last page is taken. -/
structure Loading (ram : Ram) (s : Process) : Prop where
  framed : Framed ram s
  heapless : ∀ f, s.used f ≠ some .heap
  aligned : s.segbreak % pgSize = 0
  high : s.segbreak ≤ physBase
  top : s.segbreak = physBase → (s.page (physBase / pgSize - 1)).isSome = true

structure Loaded (ram : Ram) (s : Process) : Prop where
  framed : Framed ram s
  heapless : ∀ f, s.used f ≠ some .heap
  aligned : s.segbreak % pgSize = 0
  room : s.segbreak + pgSize ≤ physBase

/-- One frame of the image, taken and filled. -/
theorem allocated_image {s : Process} (framed : Framed ram s) (heapless : ∀ f, s.used f ≠ some .heap)
    (free : ∀ f, idx ≤ f → f < idx + 1 → s.used f = none) (m : Memory) :
    Framed ram { s with used := setMultiple s.used idx 1 (some .image), mem := m } ∧
      (∀ f, setMultiple s.used idx 1 (some .image) f ≠ some .heap) ∧
      Owner.Ours (setMultiple s.used idx 1 (some .image) idx) ∧
      Unmapped ram { s with used := setMultiple s.used idx 1 (some .image), mem := m } idx := by
  refine ⟨framed.allocate free .image m,?_,?_,framed.free_unmapped (free idx (by omega) (by omega))⟩
  · intro f
    unfold setMultiple
    split
    · simp
    · exact heapless f
  · right
    exact if_pos ⟨Nat.le_refl _,by omega⟩

/-- Mapping a page that could be mapped, for the image. -/
theorem install_image {s : Process} (framed : Framed ram s) (user : v < physBase / pgSize)
    (inside : f < ram.count) (ours : Owner.Ours (s.used f)) (unmapped : Unmapped ram s f)
    (ok : installPage ram granted (v * pgSize) (ram.kpage f) writable s = .ok (true,s')) :
    s.page v = none ∧ s' = s.map v ⟨ram.kpage f,writable⟩ ∧ Framed ram s' := by
  obtain ⟨aligned,number⟩ := page_number v
  have user' : v * pgSize < physBase := by
    simp only [physBase,pgSize] at *
    omega
  rw [installPage_eq aligned user' inside (framed.real _),number] at ok
  obtain ⟨able,rfl⟩ := Prod.mk.inj (Except.ok.inj ok)
  rw [if_pos able]
  refine ⟨?_,rfl,framed.map user inside ours unmapped⟩
  simp only [Process.canMap,Bool.and_eq_true,Option.isNone_iff_eq_none] at able
  exact able.1

/-- The way a failing load goes on does not return success. -/
theorem freed_returns_false (page : Nat) (s : Process) :
    (pallocFreePage ram page >>= fun _ => pure false) s ≠ .ok (true,s') := by
  intro ok
  obtain ⟨_,t,_,rest⟩ := bind_ok.mp ok
  exact absurd (Prod.mk.inj (pure_ok.mp rest)).1 (by decide)

theorem loadPages_spec {s s' : Process} (framed : Framed ram s) (heapless : ∀ f, s.used f ≠ some .heap)
    (total : readBytes + zeroBytes = bound * pgSize) (user : v + bound ≤ physBase / pgSize)
    (ok : loadPages ram exe grants writable bound ofs (v * pgSize) readBytes zeroBytes s = .ok (true,s')) :
    Framed ram s' ∧ (∀ f, s'.used f ≠ some .heap) ∧ s'.segbreak = s.segbreak ∧
      s'.startHeap = s.startHeap ∧
      ∀ w, (s'.page w).isSome = true ↔ (s.page w).isSome = true ∨ v ≤ w ∧ w < v + bound := by
  induction bound generalizing s ofs v readBytes zeroBytes with
  | zero =>
    obtain ⟨_,rfl⟩ := Prod.mk.inj (pure_ok.mp ok)
    exact ⟨framed,heapless,rfl,rfl,fun w => ⟨.inl,fun present => present.resolve_right (by omega)⟩⟩
  | succ bound ih =>
    rw [loadPages,if_neg (by simp only [pgSize] at total; omega)] at ok
    generalize part : (if readBytes < pgSize then readBytes else pgSize) = pageReadBytes at ok
    have smaller : pageReadBytes = min readBytes pgSize := by
      rw [← part]
      split <;> omega
    obtain ⟨kpage,t,allocated,rest⟩ := bind_ok.mp ok
    rcases pallocGetMultiple_cases allocated with ⟨rfl,rfl⟩ | ⟨idx,_,rfl,inside,free,rfl⟩
    · rw [if_pos rfl] at rest
      exact absurd (Prod.mk.inj (pure_ok.mp rest)).1 (by decide)
    have frame : idx < ram.count := by omega
    rw [if_neg (ram.kpage_real frame)] at rest
    obtain ⟨n,t,read,rest⟩ := bind_ok.mp rest
    obtain ⟨rfl,rfl⟩ := Prod.mk.inj (Except.ok.inj read)
    split at rest
    · obtain ⟨placed,t,installed,rest⟩ := bind_ok.mp (modify_bind.mp rest)
      cases placed with
      | false => exact absurd rest (freed_returns_false _ _)
      | true =>
        rw [(page_number v).2] at installed
        obtain ⟨framed₁,heapless₁,ours,unmapped⟩ := allocated_image framed heapless free _
        obtain ⟨_,rfl,framed₂⟩ := install_image framed₁ (by omega) frame ours unmapped installed
        have next : v * pgSize + pgSize = (v + 1) * pgSize := (Nat.succ_mul v pgSize).symm
        rw [if_pos rfl,next] at rest
        obtain ⟨framed₃,heapless₃,segbreak,startHeap,pages⟩ := ih framed₂ (by rw [map_used]; exact heapless₁)
          (by simp only [pgSize] at total smaller ⊢; omega) (by omega) rest
        refine ⟨framed₃,heapless₃,segbreak.trans map_segbreak,startHeap.trans map_startHeap,fun w => ?_⟩
        rw [pages w,page_map]
        split
        · rename_i here
          exact ⟨fun _ => .inr (by omega),fun _ => .inl rfl⟩
        · exact or_congr_right (by omega)
    · exact absurd rest (freed_returns_false _ _)

/-- A segment that passes the checks ends in user memory. -/
theorem validateSegment_range (valid : validateSegment exe phdr = true) :
    ∃ v n, pgRoundDown phdr.pVaddr.toNat = v * pgSize ∧ phdr.bytes = n * pgSize ∧ 0 < n ∧
      v + n ≤ physBase / pgSize ∧ phdr.readBytes ≤ phdr.bytes := by
  simp only [validateSegment,isUserVaddr,Bool.and_eq_true,beq_iff_eq,bne_iff_ne,decide_eq_true_eq] at valid
  obtain ⟨⟨⟨⟨⟨⟨⟨_,_⟩,smaller⟩,some⟩,user⟩,ends⟩,wraps⟩,_⟩ := valid
  refine ⟨phdr.pVaddr.toNat / pgSize,(pgOfs phdr.pVaddr.toNat + phdr.pMemsz.toNat + pgSize - 1) / pgSize,
    rfl,rfl,?_,?_,?_⟩
  · simp only [pgSize]
    omega
  · have word := phdr.pMemsz.toNat_lt
    simp only [physBase,pgSize,pgOfs] at *
    omega
  · simp only [Phdr.readBytes,Phdr.bytes,pgOfs,pgSize]
    split <;> omega

/-- A loaded segment has its pages mapped, and no other page changes. -/
theorem loadSegment_spec {s s' : Process} (loading : Loading ram s) (valid : validateSegment exe phdr = true)
    (ok : loadSegment ram exe grants (pgRoundDown phdr.pOffset.toNat) (pgRoundDown phdr.pVaddr.toNat)
      phdr.readBytes (phdr.bytes - phdr.readBytes) writable s = .ok (true,s')) :
    Framed ram s' ∧ (∀ f, s'.used f ≠ some .heap) ∧ s'.segbreak = s.segbreak ∧ s'.startHeap = s.startHeap ∧
      ∀ w, (s'.page w).isSome = true ↔ (s.page w).isSome = true ∨
        pgRoundDown phdr.pVaddr.toNat ≤ w * pgSize ∧ w * pgSize < pgRoundDown phdr.pVaddr.toNat + phdr.bytes := by
  obtain ⟨v,n,first,bytes,some,user,less⟩ := validateSegment_range valid
  obtain ⟨_,ok⟩ := assert_bind.mp ok
  obtain ⟨_,ok⟩ := assert_bind.mp ok
  obtain ⟨_,ok⟩ := assert_bind.mp ok
  have total : phdr.readBytes + (phdr.bytes - phdr.readBytes) = n * pgSize := by omega
  have pages : n * pgSize / pgSize = n := (page_number n).2
  rw [total,pages,first] at ok
  obtain ⟨framed,heapless,segbreak,startHeap,mapped⟩ := loadPages_spec loading.framed loading.heapless total user ok
  refine ⟨framed,heapless,segbreak,startHeap,fun w => ?_⟩
  rw [mapped w,first,bytes]
  simp only [pgSize]
  exact or_congr_right (by omega)

theorem Loading.segment {s s' : Process} (loading : Loading ram s) (valid : validateSegment exe phdr = true)
    (ok : loadSegment ram exe grants (pgRoundDown phdr.pOffset.toNat) (pgRoundDown phdr.pVaddr.toNat)
      phdr.readBytes (phdr.bytes - phdr.readBytes) writable s = .ok (true,s')) (start : Nat) :
    Loading ram { s' with
      startHeap := start
      segbreak := pgRoundDown phdr.pVaddr.toNat + phdr.bytes } := by
  obtain ⟨v,n,first,bytes,some,user,_⟩ := validateSegment_range valid
  obtain ⟨framed,heapless,_,_,mapped⟩ := loadSegment_spec loading valid ok
  rw [first,bytes] at mapped ⊢
  refine ⟨⟨framed.owned,framed.distinct⟩,heapless,?_,?_,?_⟩
  · simp only [pgSize]
    omega
  · simp only [physBase,pgSize] at *
    omega
  · intro ends
    refine (mapped _).mpr (.inr ?_)
    simp only [physBase,pgSize] at *
    omega

theorem Loading.segments {s s' : Process} (loading : Loading ram s)
    (ok : loadSegments ram exe grants phdrs s = .ok (true,s')) : Loading ram s' := by
  induction phdrs generalizing s with
  | nil =>
    obtain ⟨_,rfl⟩ := Prod.mk.inj (pure_ok.mp ok)
    exact loading
  | cons phdr rest ih =>
    unfold loadSegments at ok
    split at ok
    · split at ok
      · rename_i valid
        obtain ⟨placed,t,loaded,ok⟩ := bind_ok.mp ok
        cases placed with
        | false => exact absurd (Prod.mk.inj (pure_ok.mp ok)).1 (by decide)
        | true =>
          rw [if_pos rfl] at ok
          exact ih (loading.segment valid loaded _) (modify_bind.mp ok)
      · exact absurd (Prod.mk.inj (pure_ok.mp ok)).1 (by decide)
    · split at ok
      · exact absurd (Prod.mk.inj (pure_ok.mp ok)).1 (by decide)
      · exact ih loading ok

/-- The stack is set up on a page that no segment has. -/
theorem setupStack_spec {s s' : Process} (loading : Loading ram s) (ok : setupStack ram granted s = .ok (true,s')) :
    Framed ram s' ∧ (∀ f, s'.used f ≠ some .heap) ∧ s.page stackPage = none ∧ s'.segbreak = s.segbreak ∧ s'.startHeap = s.startHeap ∧
      ∀ w, (s'.page w).isSome = true ↔ w = stackPage ∨ (s.page w).isSome = true := by
  obtain ⟨kpage,t,allocated,rest⟩ := bind_ok.mp ok
  rcases pallocGetMultiple_cases allocated with ⟨rfl,rfl⟩ | ⟨idx,_,rfl,inside,free,rfl⟩
  · exact absurd (Prod.mk.inj (pure_ok.mp rest)).1 (by decide)
  have frame : idx < ram.count := by omega
  rw [if_neg (ram.kpage_real frame)] at rest
  obtain ⟨placed,t,installed,rest⟩ := bind_ok.mp rest
  cases placed with
  | false => exact absurd rest (freed_returns_false _ _)
  | true =>
    obtain ⟨framed₁,heapless₁,ours,unmapped⟩ := allocated_image loading.framed loading.heapless free _
    have top : physBase - pgSize = stackPage * pgSize := rfl
    rw [top] at installed
    obtain ⟨absent,rfl,framed₂⟩ := install_image framed₁ (by decide) frame ours unmapped installed
    obtain ⟨_,rfl⟩ := Prod.mk.inj (pure_ok.mp rest)
    refine ⟨framed₂,by rw [map_used]; exact heapless₁,absent,map_segbreak,map_startHeap,fun w => ?_⟩
    rw [page_map]
    split
    · rename_i here
      exact ⟨fun _ => .inl here,fun _ => rfl⟩
    · rename_i other
      exact ⟨.inr,fun present => present.resolve_left other⟩

/-- The stack page must be free for the stack to be set up, so no segment ends behind it. -/
theorem Loading.stack {s s' : Process} (loading : Loading ram s)
    (ok : setupStack ram granted s = .ok (true,s')) : Loaded ram s' := by
  obtain ⟨framed,heapless,absent,segbreak,_,_⟩ := setupStack_spec loading ok
  have below : s.segbreak ≠ physBase := by
    intro ends
    have taken := loading.top ends
    have absent' : s.page (physBase / pgSize - 1) = none := absent
    rw [absent'] at taken
    contradiction
  have aligned := loading.aligned
  have high := loading.high
  refine ⟨framed,heapless,segbreak ▸ aligned,?_⟩
  rw [segbreak]
  simp only [physBase,pgSize] at *
  omega

theorem loading_unloaded (others : ∀ f, used f = none ∨ used f = some .other) : Loading ram (unloaded used mem) := by
  refine ⟨⟨?_,?_⟩,?_,rfl,Nat.zero_le _,fun impossible => absurd impossible (by simp [unloaded,physBase])⟩
  · intro v pte present
    contradiction
  · intro v w pte pte' present
    contradiction
  · intro f
    rcases others f with free | taken
    · simp [unloaded,free]
    · simp [unloaded,taken]

theorem load_spec (others : ∀ f, used f = none ∨ used f = some .other)
    (ok : load ram exe grants (unloaded used mem) = .ok (true,s)) : Loaded ram s := by
  have loading : Loading ram (unloaded used mem) := loading_unloaded others
  obtain ⟨loaded,t,segments,rest⟩ := bind_ok.mp ok
  cases loaded with
  | false => exact absurd (Prod.mk.inj (pure_ok.mp rest)).1 (by decide)
  | true => exact (loading.segments segments).stack rest

end OsProj.UserMemory
