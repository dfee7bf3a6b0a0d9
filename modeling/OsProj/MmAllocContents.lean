import OsProj.MmAllocSeats

/-! What a client sees of its bytes: memory that comes from `mm_malloc` is zero, and `mm_realloc` moves the contents
of a block and leaves all others alone. -/
namespace OsProj.MmAlloc

open OsProj.ByteMemory OsProj.Faulting OsProj.History

section
variable {s : System} {heap : Heap} {blocks blocks' : List Block} {live : Ranges}

/-- The neighbours of the block of a pointer, as the node names them. -/
theorem ServedElsewhere.neighbour {b c : Block} (elsewhere : ServedElsewhere s.heap ptr size) (least : 0 < size) (most : size < 4294967295)
    (chain : Chain s.heap (xs ++ b :: ys)) (payload : b.payload = ptr)
    (fit : FirstFit s.heap.mem size s.heap.memHead d) (beside : c ∈ xs.getLast? ∨ c ∈ ys.head?) : d ≠ c.addr := by
  obtain ⟨before,behind⟩ := elsewhere least most d fit b.addr chain.reached (by rw [chain.node]; exact payload)
  rw [chain.node] at before behind
  rcases beside with last | first
  · obtain ⟨front,rfl⟩ : ∃ front, xs = front ++ [c] := ⟨xs.dropLast,(List.dropLast_append_getLast? c last).symm⟩
    simpa [lastAddr] using before
  · obtain ⟨rest,rfl⟩ : ∃ rest, ys = c :: rest := ⟨ys.tail,(List.cons_head?_tail first).symm⟩
    exact behind

/-- Freeing the pointer still merges no block in use when the new block is in use too. -/
theorem Serves.unused (serves : Serves s blocks size p heap blocks') (chain : Chain s.heap blocks) (served : p ≠ null)
    (least : 0 < size) (other : p ≠ ptr) (unused : ListUnused ptr blocks s.live)
    (elsewhere : ServedElsewhere s.heap ptr size) : ListUnused ptr blocks' (s.live.add p size) := by
  have chain' := serves.seated.working.chain
  rw [Ranges.add,if_neg served]
  intro xs b ys split payload c beside free r member
  obtain ⟨most,⟨d,listed,rfl,sound,here,fit⟩ | ⟨front,t,after,new,rfl,rfl,gone,taken,sound,here⟩⟩ := serves.place served
  · rcases List.mem_cons.mp member with rfl | old
    · intro same
      have known : c ∈ blocks' := by
        rw [split]
        rcases beside with last | first
        · exact List.mem_append_left _ (List.mem_of_mem_getLast? last)
        · exact List.mem_append_right _ (List.mem_cons_of_mem _ (List.mem_of_mem_head? first))
      obtain rfl := chain.payload_inj listed known sound (same.symm.trans here.symm)
      subst split
      exact elsewhere.neighbour least most chain payload fit beside rfl
    · exact unused xs b ys split payload c beside free r old
  · have split' : (front ++ [t]) ++ [new] = xs ++ b :: ys := by simpa using split
    rcases split_concat split' with rfl | ⟨ys',rfl,rest⟩
    · exact absurd (here.symm.trans payload) other
    have before : front ++ t :: after = xs ++ b :: (ys' ++ after) := by
      have joined := congrArg (· ++ after) rest
      simpa using joined
    have beside' : c ∈ xs.getLast? ∨ c ∈ (ys' ++ after).head? := by
      refine beside.imp_right fun first => ?_
      cases ys' with
      | nil =>
        obtain rfl : new = c := Option.some.inj first
        rw [taken] at free
        contradiction
      | cons e ys' => exact first
    rcases List.mem_cons.mp member with rfl | old
    · intro same
      have known : c ∈ front ++ [t,new] := by
        rw [split]
        rcases beside with last | first
        · exact List.mem_append_left _ (List.mem_of_mem_getLast? last)
        · exact List.mem_append_right _ (List.mem_cons_of_mem _ (List.mem_of_mem_head? first))
      obtain rfl := chain'.payload_inj (b := new) (by simp) known sound (same.symm.trans here.symm)
      rw [taken] at free
      contradiction
    · exact unused xs b (ys' ++ after) before payload c beside' free r old

/-- A block that was moved: its bytes are at the new place, as many as its size field says, and the bytes of all other
ranges are where they were. -/
structure Moved (s : System) (blocks : List Block) (ptr n size p : Nat) (heap : Heap) (blocks' : List Block) : Prop where
  seated : Seated heap blocks' ((s.live.remove ptr).add p size)
  zeros : Zeros heap.mem blocks' ((s.live.remove ptr).add p size)
  other : p ≠ ptr
  kept : ∀ r ∈ s.live, r.1 ≠ ptr → Agree heap.mem s.heap.mem r.1 r.2
  released : ∀ b ∈ blocks', b.payload = ptr → b.free = true
  copied : ∃ b ∈ blocks, b.payload = ptr ∧ ∀ i < min b.size size, i < n → heap.mem (p + i) = s.heap.mem (ptr + i)

theorem Seated.congr (seated : Seated heap blocks live) {m : Memory}
    (same : ∀ b ∈ blocks, nodeAt m b.addr = nodeAt heap.mem b.addr) : Seated { heap with mem := m } blocks live :=
  ⟨seated.working.congr same,seated.seat,seated.positive⟩

/-- The client writes into one of its ranges. -/
theorem Zeros.write {m m' : Memory} (zeros : Zeros m blocks live)
    (same : ∀ x, m' x = m x ∨ ∃ r ∈ live, r.1 ≤ x ∧ x < r.1 + r.2) : Zeros m' blocks live := by
  intro b member free x low high
  rcases same x with unchanged | inside
  · rw [unchanged]
    exact zeros b member free x low high
  · exact .inr inside

/-- Reallocation of a live pointer. -/
theorem Seated.realloc (seated : Seated s.heap blocks s.live) (zeros : Zeros s.heap.mem blocks s.live)
    (held : (ptr,n) ∈ s.live) (positive : size ≠ 0) (whole : ServedWhole s size) (inList : TailInList s.heap size)
    (unused : size < 4294967295 → ListUnused ptr blocks s.live ∧ ServedElsewhere s.heap ptr size)
    (ok : mmRealloc fuel grants ptr size s.heap = .ok (p,heap)) :
    (p = null ∧ ∃ blocks', Serves s blocks size null heap blocks') ∨
    (p ≠ null ∧ ∃ blocks', Moved s blocks ptr n size p heap blocks') := by
  have working := seated.working
  have real := working.placed.real working.chain.high ⟨_,held,rfl⟩
  have present : ptr ≠ null := by
    have inside := (working.placed.inside _ held).1
    have low := working.chain.low
    simp only [null,pageSize] at *
    omega
  obtain ⟨heap₁,allocated,rest⟩ := mmRealloc_spec working.chain real present positive ok
  obtain ⟨blocks₁,serves⟩ := seated.malloc zeros whole inList allocated
  rcases rest blocks₁ serves.seated.working.chain serves.old serves.clear with
    ⟨rfl,rfl⟩ | ⟨served,b,member,_,payload,freed⟩
  · exact .inl ⟨rfl,blocks₁,serves⟩
  refine .inr ⟨served,?_⟩
  have added : s.live.add p size = (p,size) :: s.live := if_neg served
  have apart := serves.seated.working.placed.apart
  have distinct := serves.seated.distinct
  rw [added] at apart distinct
  have other : p ≠ ptr := by
    rintro rfl
    exact (List.nodup_cons.mp distinct).1 (List.mem_map.mpr ⟨_,held,rfl⟩)
  obtain ⟨most,_⟩ := serves.place served
  have unused₁ := serves.unused working.chain served (Nat.pos_of_ne_zero positive) other (unused most).1 (unused most).2
  have small : min b.size size ≤ size := Nat.min_le_right _ _
  have seated₂ := serves.seated.congr (m := copy heap₁.mem p ptr (min b.size size)) fun c listed =>
    nodeAt_copy_apart ((serves.clear served c listed).mono (by omega) (by omega)) _ _
  have zeros₂ : Zeros (copy heap₁.mem p ptr (min b.size size)) blocks₁ (s.live.add p size) := by
    refine serves.zeros.write fun x => ?_
    by_cases inside : p ≤ x ∧ x < p + min b.size size
    · exact .inr ⟨(p,size),by simp [added],inside.1,by dsimp only; omega⟩
    · exact .inl (if_neg inside)
  obtain ⟨blocks₂,seated₃,zeros₃,kept,released⟩ := seated₂.free zeros₂ ⟨(ptr,n),by simp [added,held],rfl⟩ unused₁ freed
  have removed : (s.live.add p size).remove ptr = (s.live.remove ptr).add p size := by
    rw [added,Ranges.add,if_neg served]
    exact List.eraseP_cons_of_neg (by simpa using other)
  rw [removed] at seated₃ zeros₃
  refine ⟨blocks₂,seated₃,zeros₃,other,?_,released,b,member,payload,?_⟩
  · intro r live elsewhere x low high
    have clear := (List.pairwise_cons.mp apart).1 r live
    have outside : ¬(p ≤ x ∧ x < p + min b.size size) := by
      unfold Apart at clear
      dsimp only at clear
      omega
    refine (kept r (by simp [added,live]) elsewhere x low high).trans ?_
    exact (if_neg outside).trans (serves.kept r live x low high)
  · intro i few inside
    refine (kept (p,size) (by simp [added]) other (p + i) (by dsimp only; omega) (by dsimp only; omega)).trans ?_
    have source : copy heap₁.mem p ptr (min b.size size) (p + i) = heap₁.mem (ptr + i) := by
      rw [copy,if_pos (by omega),Nat.add_sub_cancel_left]
    exact source.trans (serves.kept _ held (ptr + i) (by dsimp only; omega) (by dsimp only; omega))

/-- No list yet, or one in which the client's ranges have their places. -/
def Tidy (s : System) : Prop := Bare s ∨ ∃ blocks, Seated s.heap blocks s.live ∧ Zeros s.heap.mem blocks s.live

theorem Tidy.sound (tidy : Tidy s) : Sound s := tidy.imp_right fun ⟨blocks,seated,_⟩ => ⟨blocks,seated.working⟩

/-- With a live pointer there is a list. -/
theorem Tidy.seated (tidy : Tidy s) (held : ∃ r ∈ s.live, r.1 = ptr) :
    ∃ blocks, Seated s.heap blocks s.live ∧ Zeros s.heap.mem blocks s.live := by
  rcases tidy with bare | seated
  · rw [bare.live] at held
    simp at held
  · exact seated

theorem Bare.tidy (bare : Bare s) (least : 0 < size) (empty : s.heap.memHead = null)
    (grown : Grown grants s.heap [] size p b heap [b]) : Tidy ⟨heap,s.live.add p size⟩ := by
  have added : ∀ r ∈ s.live.add p size, p ≠ null ∧ r = (p,size) := by
    intro r member
    rw [bare.live,Ranges.add] at member
    split at member
    · contradiction
    · rename_i present
      exact ⟨present,List.mem_singleton.mp member⟩
  refine .inr ⟨[b],⟨bare.working empty grown,?_,?_⟩,?_⟩
  · intro r member
    obtain ⟨present,rfl⟩ := added r member
    rcases grown.outcome with ⟨_,none,_⟩ | ⟨sound,address,_⟩
    · exact absurd none present
    · exact ⟨b,by simp,sound,by rw [Block.payload_eq sound,grown.addr,address]⟩
  · intro r member
    obtain ⟨_,rfl⟩ := added r member
    exact least
  · intro c member free
    rw [List.mem_singleton.mp member,grown.taken] at free
    contradiction

theorem Tidy.malloc (tidy : Tidy s) (whole : ServedWhole s size) (inList : TailInList s.heap size)
    (ok : mmMalloc fuel grants size s.heap = .ok (p,heap)) : Tidy ⟨heap,s.live.add p size⟩ := by
  rcases tidy with bare | ⟨blocks,seated,zeros⟩
  · rcases bare.malloc_cases ok with ⟨rfl,bare'⟩ | ⟨least,empty,b,grown⟩
    · exact .inl bare'
    · exact bare.tidy least empty grown
  · obtain ⟨blocks',serves⟩ := seated.malloc zeros whole inList ok
    exact .inr ⟨blocks',serves.seated,serves.zeros⟩

theorem Tidy.free (tidy : Tidy s) (unused : FreesUnused s ptr) (held : ∃ r ∈ s.live, r.1 = ptr)
    (ok : mmFree fuel ptr s.heap = .ok (u,heap)) : Tidy ⟨heap,s.live.remove ptr⟩ := by
  obtain ⟨blocks,seated,zeros⟩ := tidy.seated held
  obtain ⟨blocks',seated',zeros',_⟩ := seated.free zeros held (unused.list seated.working.chain) ok
  exact .inr ⟨blocks',seated',zeros'⟩

theorem Tidy.step {s' : System} (tidy : Tidy s) (step : Step h s e s') (keeps : KeepsContents h s e) : Tidy s' := by
  obtain ⟨q,p⟩ := e
  cases step.moves tidy.sound.not_null with
  | idle => exact tidy
  | malloc same ok =>
    rcases same with rfl | rfl
    · exact tidy.malloc keeps.1 keeps.2 ok
    · exact tidy.malloc keeps.1 keeps.2.1 ok
  | free same held ok =>
    rcases same with rfl | ⟨grants,rfl⟩
    · exact tidy.free keeps held ok
    · exact tidy.free (keeps.2.2 (by decide)).1 held ok
  | realloc same positive held ok =>
    subst same
    obtain ⟨blocks,seated,zeros⟩ := tidy.seated held
    obtain ⟨⟨ptr,n⟩,member,rfl⟩ := held
    obtain ⟨whole,inList,unused⟩ := keeps
    rcases seated.realloc zeros member positive whole inList
      (fun most => ⟨(unused most).1.list seated.working.chain,(unused most).2⟩) ok with
      ⟨rfl,blocks',serves⟩ | ⟨served,blocks',moved⟩
    · exact .inr ⟨blocks',serves.seated,serves.zeros⟩
    · rw [if_neg served]
      exact .inr ⟨blocks',moved.seated,moved.zeros⟩
  | write _ held =>
    rename_i a v _
    obtain ⟨r,member,low,high⟩ := held
    obtain ⟨blocks,seated,zeros⟩ := tidy.seated ⟨r,member,rfl⟩
    refine .inr ⟨blocks,seated.congr fun b listed => ?_,zeros.write fun x => ?_⟩
    · exact nodeAt_fill_apart ((seated.working.placed.headers r member b listed).mono (by omega) (by omega)) _ _
    · by_cases here : a ≤ x ∧ x < a + 1
      · exact .inr ⟨r,member,by omega,by omega⟩
      · exact .inl (if_neg here)

/-- What every run that meets the conditions keeps. -/
theorem tidy_run (image : Image) (run : Path (Guarded Step KeepsContents) [] image.boot h s) : Tidy s :=
  run.invariant (fun _ s => Tidy s) (fun _ _ _ _ tidy step => tidy.step step.1 step.2)
    (.inl ⟨.inl rfl,rfl,rfl,image.low,Nat.le_refl _,image.high⟩)

/-- In every run that meets the conditions, a call of `mm_malloc` that is served returns zeros; this includes the calls
that `mm_realloc` makes. -/
theorem malloc_zeroed (image : Image) (run : Path (Guarded Step KeepsContents) [] image.boot h s) (whole : ServedWhole s size)
    (ok : mmMalloc fuel grants size s.heap = .ok (p,heap)) (served : p ≠ null) :
    ∀ x, p ≤ x → x < p + size → heap.mem x = 0 := by
  have grew (b : Block) (blocks blocks' : List Block) (grown : Grown grants s.heap blocks size p b heap blocks') :
      ∀ x, p ≤ x → x < p + size → heap.mem x = 0 := by
    rcases grown.outcome with ⟨_,none,_⟩ | ⟨_,_,_,_,zero⟩
    · exact absurd none served
    · exact zero
  rcases tidy_run image run with bare | ⟨blocks,seated,zeros⟩
  · rcases bare.malloc_cases ok with ⟨none,_⟩ | ⟨_,_,b,grown⟩
    · exact absurd none served
    · exact grew b [] [b] grown
  · have working := seated.working
    rcases mmMalloc_cases working.chain (fun _ => working.tail) working.listed
      (fun least most curr fit => (whole least most curr fit).1) ok with
      ⟨_,none,_⟩ | ⟨least,most,rfl,b,member,fit,free,large,rfl⟩ | ⟨_,_,b,blocks',grown⟩
    · exact absurd none served
    · exact (seated.reused zeros whole least most member free large fit).bytes served
    · exact grew b blocks blocks' grown

/-- The size field of the block of a live pointer is enough for what a reallocation is to copy. -/
def CopiesAll (s : System) (ptr size : Nat) : Prop :=
  ∀ a, Listed s.heap a → (nodeAt s.heap.mem a).allocated = ptr → ∀ r ∈ s.live, r.1 = ptr → min r.2 size ≤ (nodeAt s.heap.mem a).size

def KeepsReallocs (h : List Event) (s : System) (e : Event) : Prop :=
  KeepsContents h s e ∧ match e.1 with
  | .realloc _ ptr size => CopiesAll s ptr size
  | _ => True

structure GivenUp (s : System) (ptr : Nat) : Prop where
  live : ∀ r ∈ s.live, r.1 ≠ ptr
  marked : ∀ a, Listed s.heap a → (nodeAt s.heap.mem a).allocated = ptr → (nodeAt s.heap.mem a).free = true

/-- What is promised of `q = mm_realloc(ptr, size)` for a live pointer to `n` bytes. -/
structure Contract (s : System) (ptr n size q : Nat) (s' : System) : Prop where
  live : q ≠ null → (q,size) ∈ s'.live ∧ Safe s'
  contents : q ≠ null → ∀ i < min n size, s'.heap.mem (q + i) = s.heap.mem (ptr + i)
  released : q ≠ null → (GivenUp s' ptr ↔ q ≠ ptr)
  others : ∀ r ∈ s.live, r.1 ≠ ptr → r ∈ s'.live ∧ Agree s'.heap.mem s.heap.mem r.1 r.2
  refused : q = null → s'.live = s.live ∧ Agree s'.heap.mem s.heap.mem ptr n ∧
    ∃ a, Listed s'.heap a ∧ (nodeAt s'.heap.mem a).allocated = ptr

/-- In every run that meets the conditions, every reallocation of a live pointer keeps its contract. -/
theorem realloc_contract (image : Image) (run : Path (Guarded Step KeepsReallocs) [] image.boot h s) {s' : System}
    (step : Guarded Step KeepsReallocs h s (.realloc grants ptr size,q) s') (held : (ptr,n) ∈ s.live) (positive : 0 < size) :
    Contract s ptr n size q s' := by
  have tidy := tidy_run image (run.mono fun _ _ _ _ step => ⟨step.1,step.2.1⟩)
  obtain ⟨⟨admissible,fuel,executed⟩,⟨whole,inList,unused⟩,copies⟩ := step
  obtain ⟨blocks,seated,zeros⟩ := tidy.seated ⟨_,held,rfl⟩
  have chain := seated.working.chain
  simp only [execute] at executed
  split at executed
  · rename_i q' heap ok
    obtain ⟨rfl,rfl⟩ := Prod.mk.inj (Except.ok.inj executed)
    rw [if_neg (Nat.pos_iff_ne_zero.mp positive)]
    rcases seated.realloc zeros held (Nat.pos_iff_ne_zero.mp positive) whole inList
      (fun most => ⟨(unused most).1.list chain,(unused most).2⟩) ok with
      ⟨rfl,blocks',serves⟩ | ⟨served,blocks',moved⟩
    · refine ⟨(absurd rfl ·),(absurd rfl ·),(absurd rfl ·),?_,fun _ => ?_⟩
      · exact fun r member _ => ⟨member,serves.kept r member⟩
      obtain ⟨b,member,_,payload⟩ := serves.seated.seat _ held
      obtain ⟨front,after,rfl⟩ := List.append_of_mem member
      have chain' := serves.seated.working.chain
      exact ⟨rfl,serves.kept _ held,b.addr,chain'.reached,by rw [chain'.node]; exact payload⟩
    · rw [if_neg served]
      have added : (s.live.remove ptr).add q' size = (q',size) :: s.live.remove ptr := if_neg served
      refine ⟨fun _ => ⟨by simp [added],?_⟩,fun _ i few => ?_,fun _ => ?_,fun r member other => ?_,
        fun none => absurd none served⟩
      · exact Sound.safe (.inr ⟨blocks',moved.seated.working⟩)
      · obtain ⟨b,member,payload,copied⟩ := moved.copied
        obtain ⟨front,after,rfl⟩ := List.append_of_mem member
        have enough := copies b.addr chain.reached (by rw [chain.node]; exact payload) _ held rfl
        rw [chain.node] at enough
        dsimp only at enough
        exact copied i (by omega) (by omega)
      · refine iff_of_true ⟨fun r member => ?_,fun a listed here => ?_⟩ moved.other
        · dsimp only at member
          rw [added] at member
          rcases List.mem_cons.mp member with rfl | old
          · exact moved.other
          · exact remove_ne seated.distinct old
        · have chain' := moved.seated.working.chain
          obtain ⟨b,member,rfl⟩ := chain'.listed listed
          have marked := moved.released b member
          obtain ⟨front,after,rfl⟩ := List.append_of_mem member
          dsimp only at here ⊢
          rw [chain'.node] at here ⊢
          exact marked here
      · exact ⟨by simp [added,mem_remove member other],moved.kept r member other⟩
  · contradiction

end

/-! The conditions as searches decide them. -/

theorem listed_nodesFrom (ok : nodesFrom s.mem fuel a = some found) (reached : a ≠ null → Listed s a) (member : b ∈ found) :
    Listed s b := by
  induction fuel generalizing a found with
  | zero => contradiction
  | succ fuel ih =>
    unfold nodesFrom at ok
    split at ok
    · obtain rfl := Option.some.inj ok
      contradiction
    · rename_i present
      obtain ⟨rest,later,rfl⟩ := Option.map_eq_some_iff.mp ok
      rcases List.mem_cons.mp member with rfl | behind
      · exact reached present
      · exact ih later (.next (reached present)) behind

def TailWithin (fuel : Nat) (s : Heap) : Prop :=
  s.memTail = null ∨ s.memTail ∈ (nodesFrom s.mem fuel s.memHead).getD []

instance (fuel : Nat) (s : Heap) : Decidable (TailWithin fuel s) := inferInstanceAs (Decidable (_ ∨ _))

theorem TailWithin.inList (within : TailWithin fuel s) (size : Nat) : TailInList s size := by
  intro _ _
  refine within.imp_right fun member => ?_
  cases ok : nodesFrom s.mem fuel s.memHead with
  | none => simp [ok] at member
  | some found => exact listed_nodesFrom ok .head (by simpa [ok] using member)

instance (s : System) : DecidablePred (MergesUnused s) := fun a =>
  decidable_of_iff (∀ n ∈ [(nodeAt s.heap.mem a).prev,(nodeAt s.heap.mem a).next], FreeNeighbour s.heap.mem n →
    ∀ r ∈ s.live, r.1 ≠ (nodeAt s.heap.mem n).allocated) (by simp [MergesUnused])

def ElsewhereWithin (fuel : Nat) (s : Heap) (ptr size : Nat) : Prop :=
  FitWithin fuel s size fun curr => BlocksWithin fuel s ptr fun a => curr ≠ (nodeAt s.mem a).prev ∧ curr ≠ (nodeAt s.mem a).next

instance (fuel : Nat) (s : Heap) (ptr size : Nat) : Decidable (ElsewhereWithin fuel s ptr size) :=
  inferInstanceAs (Decidable (FitWithin ..))

theorem ElsewhereWithin.elsewhere (within : ElsewhereWithin fuel s ptr size) : ServedElsewhere s ptr size :=
  fun _ _ _ fit => (within.fit fit).listed

def ReallocsWithin (fuel : Nat) (_ : List Event) (s : System) : Event → Prop
  | (.malloc _ size,_) => ServedWithin fuel s size ∧ TailWithin fuel s.heap
  | (.realloc _ ptr size,_) => ServedWithin fuel s size ∧ TailWithin fuel s.heap ∧
    BlocksWithin fuel s.heap ptr (MergesUnused s) ∧ ElsewhereWithin fuel s.heap ptr size ∧
    BlocksWithin fuel s.heap ptr fun a => ∀ r ∈ s.live, r.1 = ptr → min r.2 size ≤ (nodeAt s.heap.mem a).size
  | (.free ptr,_) => BlocksWithin fuel s.heap ptr (MergesUnused s)
  | (.write ..,_) => True

instance (fuel : Nat) (h : List Event) (s : System) : (e : Event) → Decidable (ReallocsWithin fuel h s e)
  | (.malloc ..,_) => inferInstanceAs (Decidable (_ ∧ _))
  | (.realloc ..,_) => inferInstanceAs (Decidable (_ ∧ _ ∧ _ ∧ _ ∧ _))
  | (.free ptr,_) => inferInstanceAs (Decidable (BlocksWithin fuel s.heap ptr (MergesUnused s)))
  | (.write ..,_) => inferInstanceAs (Decidable True)

theorem ReallocsWithin.keeps (within : ReallocsWithin fuel h s e) : KeepsReallocs h s e := by
  obtain ⟨q,p⟩ := e
  cases q with
  | malloc grants size => exact ⟨⟨within.1.whole,within.2.inList size⟩,trivial⟩
  | realloc grants ptr size =>
    obtain ⟨served,tail,unused,elsewhere,copies⟩ := within
    exact ⟨⟨served.whole,tail.inList size,fun _ => ⟨unused.listed,elsewhere.elsewhere⟩⟩,copies.listed⟩
  | free ptr => exact ⟨BlocksWithin.listed within,trivial⟩
  | write a v => exact ⟨trivial,trivial⟩

theorem outcome_reallocs (fuel : Nat) (requests : List Request)
    (handled : (replay (perform fuel) (fun h s e => e.1.Admissible s ∧ ReallocsWithin fuel h s e) requests
      ([],zeroed.boot)).isSome = true) :
    Path (Guarded Step KeepsReallocs) [] zeroed.boot (outcome fuel requests).1 (outcome fuel requests).2 := by
  have path : Path (Guarded Step (ReallocsWithin fuel)) [] zeroed.boot
    (outcome fuel requests).1 (outcome fuel requests).2 := arrive_guarded (perform_step fuel) handled
  exact path.mono fun _ _ _ _ step => ⟨step.1,step.2.keeps⟩

/-- What a call returned and the state it ended in, as running it decides it. -/
theorem returned {x : Except ε (α × β)} (P : α → β → Prop) [∀ a b, Decidable (P a b)]
    (seen : x.toOption.any (fun r => P r.1 r.2) = true) : ∃ a b, x = .ok (a,b) ∧ P a b := by
  cases x with
  | error fault => contradiction
  | ok r => exact ⟨r.1,r.2,rfl,of_decide_eq_true seen⟩

/-- A block that was written and freed is zero when it is handed out again. -/
theorem malloc_zeroed_reused :
    let reached := outcome 4 [.malloc granted 100,.malloc granted 50,.write 4128 7,.free 4128]
    ∃ heap, mmMalloc 4 granted 90 reached.2.heap = .ok (4128,heap) ∧ ∀ x, 4128 ≤ x → x < 4128 + 90 → heap.mem x = 0 := by
  intro reached
  obtain ⟨_,heap,ok,rfl⟩ := returned (x := mmMalloc 4 granted 90 reached.2.heap) (fun p _ => p = 4128) (by decide +kernel)
  have path : Path (Guarded Step KeepsReallocs) [] zeroed.boot reached.1 reached.2 := outcome_reallocs 4 _ (by decide +kernel)
  have within : ReallocsWithin 4 reached.1 reached.2 (.malloc granted 90,4128) := by decide +kernel
  have contents := path.mono fun _ _ _ _ step => (⟨step.1,step.2.1⟩ : Guarded Step KeepsContents _ _ _ _)
  exact ⟨heap,ok,malloc_zeroed zeroed contents within.keeps.1.1 ok (by decide)⟩

/-- A freed block is handed out, written, and handed out once more with what was written. -/
theorem second_owner_sees_first :
    let reached := outcome 4 [.malloc granted 100,.free 4128,.malloc granted 100,.write 4128 1]
    Path Step [] zeroed.boot reached.1 reached.2 ∧
      ∃ heap, mmMalloc 4 granted 100 reached.2.heap = .ok (4128,heap) ∧ heap.mem 4128 = 1 := by
  intro reached
  refine ⟨outcome_path 4 _ (by decide +kernel),?_⟩
  obtain ⟨_,heap,ok,rfl,written⟩ := returned (x := mmMalloc 4 granted 100 reached.2.heap)
    (fun p heap => p = 4128 ∧ heap.mem 4128 = 1) (by decide +kernel)
  exact ⟨heap,ok,written⟩

/-- A block is moved behind the break, past one that stays. -/
theorem realloc_contract_moved :
    let reached := outcome 4 [.malloc granted 100,.malloc granted 50,.write 4128 7]
    (4128,100) ∈ reached.2.live ∧ reached.2.heap.mem 4128 = 7 ∧
      ∃ s', Step reached.1 reached.2 (.realloc granted 4128 200,4342) s' ∧ s'.heap.mem 4342 = 7 ∧
        Contract reached.2 4128 100 200 4342 s' := by
  intro reached
  have held : (4128,100) ∈ reached.2.live := by decide +kernel
  have path : Path (Guarded Step KeepsReallocs) [] zeroed.boot reached.1 reached.2 := outcome_reallocs 4 _ (by decide +kernel)
  have within : ReallocsWithin 4 reached.1 reached.2 (.realloc granted 4128 200,4342) := by decide +kernel
  obtain ⟨_,s',executed,rfl,moved⟩ := returned (x := execute 4 (.realloc granted 4128 200) reached.2)
    (fun p s => p = 4342 ∧ s.heap.mem 4342 = 7) (by decide +kernel)
  have step : Step reached.1 reached.2 (.realloc granted 4128 200,4342) s' := ⟨⟨by decide,.inr ⟨_,held,rfl⟩⟩,4,executed⟩
  exact ⟨held,by decide +kernel,s',step,moved,realloc_contract zeroed path ⟨step,within.keeps⟩ held (by decide)⟩

/-- A block is moved into the freed block in front of it. That one is still marked as free, so that giving up the
old place merges the two and wipes what was moved. -/
theorem realloc_wipes_what_it_moved :
    let reached := outcome 4 [.malloc granted 100,.malloc granted 100,.write 4260 7,.free 4128]
    Path Step [] zeroed.boot reached.1 reached.2 ∧ (4260,100) ∈ reached.2.live ∧ reached.2.heap.mem 4260 = 7 ∧
      ∃ s', Step reached.1 reached.2 (.realloc granted 4260 90,4128) s' ∧ s'.heap.mem 4128 = 0 ∧
        ¬Contract reached.2 4260 100 90 4128 s' := by
  intro reached
  have held : (4260,100) ∈ reached.2.live := by decide +kernel
  have before : reached.2.heap.mem 4260 = 7 := by decide +kernel
  obtain ⟨_,s',executed,rfl,wiped⟩ := returned (x := execute 4 (.realloc granted 4260 90) reached.2)
    (fun p s => p = 4128 ∧ s.heap.mem 4128 = 0) (by decide +kernel)
  refine ⟨outcome_path 4 _ (by decide +kernel),held,before,s',⟨⟨by decide,.inr ⟨_,held,rfl⟩⟩,4,executed⟩,wiped,?_⟩
  intro contract
  have same := contract.contents (by decide) 0 (by decide)
  rw [Nat.add_zero,Nat.add_zero,wiped,before] at same
  exact absurd same (by decide)

end OsProj.MmAlloc
