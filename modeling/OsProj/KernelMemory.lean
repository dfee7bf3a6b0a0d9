import OsProj.MallocFootprint
import OsProj.PallocRuns

/-! The kernel's two allocators together: `malloc` of threads/malloc.c takes its pages from the
kernel pool of threads/palloc.c. What malloc does with pages of any origin is done here with those
that the page allocator has. -/
namespace OsProj.KernelMemory

open OsProj.Bitmap
open OsProj.ByteMemory
open OsProj.Faulting
open OsProj.Simulating
open OsProj.KernelList (null sizeMod listPushFront listEmpty)
open OsProj.Malloc (field setField onList blocksPerArena blockSizeOf freeCnt freeList arenaMagic arenaSize arenaToBlock blockToArena
  addBlocks removeBlocks pageCount takeBlock findDesc setPages blind_field blind_setField blind_onList blind_assert blind_blockToArena
  blind_addBlocks blind_removeBlocks blind_takeBlock blind_blockSize blind_memory)

inductive Fault where
  | malloc (fault : Malloc.Fault)
  | palloc (panic : Palloc.Panic)
  deriving DecidableEq, Repr

structure State where
  pools : Palloc.State
  descCnt : Nat

abbrev M := StateT State (Except Fault)

def onHeap (x : Malloc.M α) : M α :=
  onPart (fun k => ⟨k.pools.memory,[],k.descCnt⟩)
    (fun s k => { pools := { k.pools with memory := s.memory }, descCnt := s.descCnt }) Fault.malloc x

def onPools (x : Palloc.M α) : M α := onPart State.pools (fun pools k => { k with pools := pools }) Fault.palloc x

def noFlags : Palloc.PallocFlags := ⟨false,false,false⟩

def mallocInit (descs : Nat) : M Unit := onHeap (Malloc.mallocInit descs)

def mallocBig (size : Nat) : M Nat := do
  let pageCnt := pageCount size
  let a ← onPools (Palloc.pallocGetMultiple noFlags pageCnt)
  if a = null then return null
  onHeap (setField a 0 arenaMagic)
  onHeap (setField a 4 null)
  onHeap (setField a 8 pageCnt)
  return a + arenaSize

def newArena (d : Nat) : M Bool := do
  let a ← onPools (Palloc.pallocGetPage noFlags)
  if a = null then return false
  onHeap (setField a 0 arenaMagic)
  onHeap (setField a 4 d)
  onHeap (setField a 8 (← onHeap (blocksPerArena d)))
  onHeap (addBlocks d a Malloc.pgSize 0)
  return true

section
variable (descs : Nat)

def malloc (size : Nat) : M Nat := do
  if size = 0 then return null
  match findDesc size (← get).pools.memory (← get).descCnt descs with
  | none => mallocBig size
  | some d =>
    if ← onHeap (onList (listEmpty (freeList d))) then
      if !(← newArena d) then return null
    onHeap (takeBlock d)

def calloc (a b : Nat) : M Nat := do
  let size := a * b % sizeMod
  if size < a || size < b then return null
  let p ← malloc descs size
  if p ≠ null then onHeap (modify fun s => { s with memory := fill s.memory p size 0 })
  return p

end

def freeBlock (a d b : Nat) : M Unit := do
  let size ← onHeap (blockSizeOf d)
  onHeap (modify fun s => { s with memory := fill s.memory b size 0xcc })
  onHeap (onList (listPushFront (freeList d) b))
  onHeap (setField a 8 ((← onHeap (freeCnt a)) + 1))
  let perArena ← onHeap (blocksPerArena d)
  if (← onHeap (freeCnt a)) ≥ perArena then
    onHeap (Malloc.assert ((← onHeap (freeCnt a)) = perArena))
    onHeap (removeBlocks d a Malloc.pgSize 0)
    onPools (Palloc.pallocFreePage a)

def free (p : Nat) : M Unit := do
  if p ≠ null then
    let a ← onHeap (blockToArena p)
    let d ← onHeap (Malloc.desc a)
    if d ≠ null then freeBlock a d p
    else onPools (Palloc.pallocFreeMultiple a (← onHeap (freeCnt a)))

def realloc (descs oldBlock newSize : Nat) : M Nat := do
  if newSize = 0 then
    free oldBlock
    return null
  let newBlock ← malloc descs newSize
  if oldBlock ≠ null ∧ newBlock ≠ null then
    let oldSize ← onHeap (Malloc.blockSize oldBlock)
    let minSize := min newSize oldSize
    onHeap (modify fun s => { s with memory := copy s.memory newBlock oldBlock minSize })
    free oldBlock
  return newBlock

def serve (descs : Nat) : Malloc.Call → M Nat
  | .malloc size => malloc descs size
  | .calloc a b => calloc descs a b
  | .realloc oldBlock newSize => realloc descs oldBlock newSize
  | .free p => do
    free p
    return null

/-! malloc over the page allocator does what it does over any answers. -/

def groupOf (held : Nat × Nat) : Palloc.Group := ⟨held.1,held.2,false⟩

/-- The states of malloc and of the kernel's memory agree; `others` are the groups of pages that malloc does not hold. -/
structure Tied (lo mid hi : Nat) (others : List Palloc.Group) (k : State) (s : Malloc.State) : Prop where
  memory : s.memory = k.pools.memory
  descCnt : s.descCnt = k.descCnt
  pools : Palloc.Inv lo mid hi k.pools (s.pages.map groupOf ++ others)

def offered (pools : Palloc.State) (pageCnt : Nat) : Nat :=
  (scan pools.kernelPool.usedMap.bits pools.kernelPool.usedMap.bitCnt 0 pageCnt false).elim 0
    fun idx => if pageCnt = 0 then 0 else pools.kernelPool.base + Palloc.pgSize * idx

structure Asks (lo mid hi : Nat) (others : List Palloc.Group) (answers : Malloc.Answers) (k : State) (s : Malloc.State) : Prop where
  tied : Tied lo mid hi others k s
  answers : answers = offered k.pools

section
variable {lo mid hi : Nat} {out out' : List Palloc.Group} {pools : Palloc.State}

theorem inv_memory (inv : Palloc.Inv lo mid hi pools out) (memory : Memory) :
    Palloc.Inv lo mid hi { pools with memory := memory } out :=
  ⟨inv.kernel,inv.user,inv.low,inv.high,inv.inside,inv.apart,inv.marked⟩

theorem inv_perm (inv : Palloc.Inv lo mid hi pools out) (perm : out'.Perm out) : Palloc.Inv lo mid hi pools out' where
  kernel := inv.kernel
  user := inv.user
  low := inv.low
  high := inv.high
  inside := fun g here => inv.inside g (perm.mem_iff.mp here)
  apart := (perm.pairwise_iff fun apart => Std.Symm.symm _ _ apart).mpr inv.apart
  marked := fun user i bound => by
    rw [inv.marked user i bound]
    simp only [perm.mem_iff]

/-- Requests without `PAL_ZERO` write nothing. -/
theorem getMultiple_memory (inv : Palloc.Inv lo mid hi pools out)
    (ran : Palloc.pallocGetMultiple noFlags pageCnt pools = .ok (pages,pools')) : pools'.memory = pools.memory := by
  by_cases none_ : pageCnt = 0
  · rw [Palloc.pallocGetMultiple,if_pos none_] at ran
    cases ran
    rfl
  rcases Palloc.bitmapScanAndFlip_ok pageCnt (inv.small noFlags.user) with ⟨idx,found,flipped⟩ | ⟨absent,kept⟩
  · rw [Palloc.getMultiple_found none_ (inv.base_pos noFlags.user) flipped] at ran
    cases ran
    rfl
  · rw [Palloc.getMultiple_full none_ kept] at ran
    cases ran
    rfl

theorem groupOf_injective : Function.Injective groupOf := by
  rintro ⟨a,n⟩ ⟨b,k⟩ same
  cases same
  rfl

end

section
variable {lo mid hi : Nat} {others : List Palloc.Group} {answers : Malloc.Answers} {x : Malloc.M α}

theorem Tied.onHeap {k : State} {s s' : Malloc.State} (blind : Blind setPages x) (tied : Tied lo mid hi others k s)
    (ran : x s = .ok (a,s')) : ∃ t, onHeap x k = .ok (a,{ pools := { k.pools with memory := t.memory }, descCnt := t.descCnt }) ∧
      s' = setPages s.pages t := by
  have same : s = setPages s.pages ⟨k.pools.memory,[],k.descCnt⟩ := by
    rw [← tied.memory,← tied.descCnt]
    rfl
  rw [same] at ran
  obtain ⟨t,ran',after⟩ := blind.ok_inv ran
  exact ⟨t,onPart_ok ran',after⟩

theorem simulates_onHeap (blind : Blind setPages x) : Simulates (Tied lo mid hi others) (onHeap x) x (Tied lo mid hi others) := by
  intro k s a s' tied ran
  obtain ⟨t,ran',rfl⟩ := tied.onHeap blind ran
  exact ⟨_,ran',rfl,rfl,inv_memory tied.pools t.memory⟩

/-- Before malloc asks for pages, the answer that it will get does not change. -/
theorem asks_onHeap (blind : Blind setPages x) :
    Simulates (Asks lo mid hi others answers) (onHeap x) x (Asks lo mid hi others answers) := by
  intro k s a s' asks ran
  obtain ⟨t,ran',rfl⟩ := asks.tied.onHeap blind ran
  exact ⟨_,ran',⟨rfl,rfl,inv_memory asks.tied.pools t.memory⟩,asks.answers⟩

theorem simulates_get_pages (pageCnt : Nat) : Simulates (Asks lo mid hi others answers)
    (onPools (Palloc.pallocGetMultiple noFlags pageCnt)) (Malloc.pallocGetMultiple answers pageCnt) (Tied lo mid hi others) := by
  intro k s a s' asks ran
  obtain ⟨memory,descCnt,pools⟩ := asks.tied
  rcases pools.get noFlags pageCnt with ⟨pages,pools',got,inv,_,same,_,place⟩ | ⟨_,asserted,_⟩
  · have answer : answers pageCnt = pages := by
      rw [asks.answers,place]
      rfl
    unfold Malloc.pallocGetMultiple at ran
    rw [answer] at ran
    split at ran
    · rename_i nothing
      cases ran
      obtain rfl := same nothing
      rw [nothing] at got
      exact ⟨k,onPart_ok got,asks.tied⟩
    · rename_i some_
      cases ran
      rw [if_neg (show a ≠ 0 from some_)] at inv
      exact ⟨_,onPart_ok got,memory.trans (getMultiple_memory pools got).symm,descCnt,inv⟩
  · cases asserted

theorem simulates_free_pages (pages pageCnt : Nat) : Simulates (Tied lo mid hi others)
    (onPools (Palloc.pallocFreeMultiple pages pageCnt)) (Malloc.pallocFreeMultiple pages pageCnt) (Tied lo mid hi others) := by
  intro k s a s' tied ran
  unfold Malloc.pallocFreeMultiple at ran
  split at ran
  · rename_i held
    cases ran
    have here : groupOf (pages,pageCnt) ∈ s.pages.map groupOf ++ others :=
      List.mem_append_left _ (List.mem_map_of_mem held)
    obtain ⟨_,idx,place,fits⟩ := tied.pools.inside _ here
    have freed := tied.pools.freeMultiple_ok here place fits
    refine ⟨_,onPart_ok freed,?_,tied.descCnt,?_⟩
    · rw [tied.memory]
      rfl
    · have dropped := tied.pools.drop here place (fill k.pools.memory pages (Palloc.pgSize * pageCnt) 0xcc)
      rw [List.erase_append_left _ (List.mem_map_of_mem held),← List.map_erase groupOf_injective] at dropped
      exact dropped
  · cases ran

theorem simulates_mallocBig (size : Nat) :
    Simulates (Asks lo mid hi others answers) (mallocBig size) (Malloc.mallocBig answers size) (Tied lo mid hi others) :=
  (simulates_get_pages _).bind fun a => (simulates_pure _).ite <|
    (simulates_onHeap (blind_setField a _ _)).bind fun _ => (simulates_onHeap (blind_setField _ _ _)).bind fun _ =>
      (simulates_onHeap (blind_setField _ _ _)).bind fun _ => simulates_pure _

theorem simulates_newArena (d : Nat) :
    Simulates (Asks lo mid hi others answers) (newArena d) (Malloc.newArena answers d) (Tied lo mid hi others) :=
  (simulates_get_pages 1).bind fun a => (simulates_pure _).ite <|
    (simulates_onHeap (blind_setField a _ _)).bind fun _ => (simulates_onHeap (blind_setField _ _ _)).bind fun _ =>
      (simulates_onHeap (blind_field _ _)).bind fun _ => (simulates_onHeap (blind_setField _ _ _)).bind fun _ =>
        (simulates_onHeap (blind_addBlocks _ _ _ _)).bind fun _ => simulates_pure _

theorem Asks.start (tied : Tied lo mid hi others k s) : Asks lo mid hi others (offered k.pools) k s := ⟨tied,rfl⟩

theorem simulates_malloc (descs size : Nat) :
    Simulates (Asks lo mid hi others answers) (malloc descs size) (Malloc.malloc descs answers size) (Tied lo mid hi others) := by
  have done (p : Nat) : Simulates (Asks lo mid hi others answers) (pure p : M Nat) (pure p : Malloc.M Nat) (Tied lo mid hi others) :=
    (simulates_pure p).weaken (fun _ _ => id) fun _ _ asks => asks.tied
  unfold malloc Malloc.malloc
  refine Simulates.ite (done _) ?_
  refine simulates_get fun k s asks => simulates_get fun k' s' asks' => ?_
  rw [asks.tied.memory,asks'.tied.descCnt]
  cases findDesc size k.pools.memory k'.descCnt descs with
  | none => exact simulates_mallocBig size
  | some d =>
    refine (asks_onHeap (blind_onList _)).bind fun empty => Simulates.ite ?_ ?_
    · refine (simulates_newArena d).bind fun made => ?_
      exact Simulates.ite (simulates_pure _) (simulates_onHeap (blind_takeBlock d))
    · exact (simulates_onHeap (blind_takeBlock d)).weaken (fun _ _ asks => asks.tied) fun _ _ => id

theorem simulates_calloc (descs a b : Nat) :
    Simulates (Asks lo mid hi others answers) (calloc descs a b) (Malloc.calloc descs answers a b) (Tied lo mid hi others) := by
  unfold calloc Malloc.calloc
  refine Simulates.ite ((simulates_pure _).weaken (fun _ _ => id) fun _ _ asks => asks.tied) ?_
  refine (simulates_malloc descs _).bind fun p => Simulates.ite ?_ (simulates_pure _)
  exact (simulates_onHeap (blind_memory fun m => fill m p _ 0)).bind fun _ => simulates_pure _

theorem simulates_freeBlock (a d b : Nat) :
    Simulates (Tied lo mid hi others) (freeBlock a d b) (Malloc.freeBlock a d b) (Tied lo mid hi others) := by
  refine (simulates_onHeap (blind_field _ _)).bind fun size => ?_
  refine (simulates_onHeap (blind_memory fun m => fill m b size 0xcc)).bind fun _ => ?_
  refine (simulates_onHeap (blind_onList _)).bind fun _ => (simulates_onHeap (blind_field _ _)).bind fun cnt => ?_
  refine (simulates_onHeap (blind_setField _ _ _)).bind fun _ => (simulates_onHeap (blind_field _ _)).bind fun perArena => ?_
  refine (simulates_onHeap (blind_field _ _)).bind fun cnt' => Simulates.ite ?_ (simulates_pure _)
  refine (simulates_onHeap (blind_field _ _)).bind fun cnt'' => (simulates_onHeap (blind_assert _)).bind fun _ => ?_
  exact (simulates_onHeap (blind_removeBlocks _ _ _ _)).bind fun _ => simulates_free_pages a 1

theorem simulates_free (p : Nat) : Simulates (Tied lo mid hi others) (free p) (Malloc.free p) (Tied lo mid hi others) := by
  refine Simulates.ite ?_ (simulates_pure _)
  refine (simulates_onHeap (blind_blockToArena p)).bind fun a => (simulates_onHeap (blind_field _ _)).bind fun d => ?_
  exact (simulates_freeBlock a d p).ite ((simulates_onHeap (blind_field _ _)).bind fun cnt => simulates_free_pages a cnt)

theorem simulates_realloc (descs oldBlock newSize : Nat) : Simulates (Asks lo mid hi others answers)
    (realloc descs oldBlock newSize) (Malloc.realloc descs answers oldBlock newSize) (Tied lo mid hi others) := by
  unfold realloc Malloc.realloc
  refine Simulates.ite ?_ ((simulates_malloc descs newSize).bind fun newBlock => Simulates.ite ?_ (simulates_pure _))
  · exact ((simulates_free oldBlock).bind fun _ => simulates_pure _).weaken (fun _ _ asks => asks.tied) fun _ _ => id
  · refine (simulates_onHeap (blind_blockSize oldBlock)).bind fun oldSize => ?_
    refine (simulates_onHeap (blind_memory fun m => copy m newBlock oldBlock (min newSize oldSize))).bind fun _ => ?_
    exact (simulates_free oldBlock).bind fun _ => simulates_pure _

/-- malloc over the page allocator does what malloc does over the answers that the page allocator gives. -/
theorem simulates_serve (descs : Nat) (c : Malloc.Call) :
    Simulates (Asks lo mid hi others answers) (serve descs c) (c.run descs answers) (Tied lo mid hi others) := by
  cases c with
  | malloc size => exact simulates_malloc descs size
  | calloc a b => exact simulates_calloc descs a b
  | realloc oldBlock newSize => exact simulates_realloc descs oldBlock newSize
  | free p => exact ((simulates_free p).bind fun _ => simulates_pure _).weaken (fun _ _ asks => asks.tied) fun _ _ => id

end

end OsProj.KernelMemory
