import Mathlib.Data.List.Nodup
import OsProj.MallocLists

/-! The counts in the headers of the kernel allocator's pages, and how pages join the heap
and leave it. -/
namespace OsProj.Malloc

open OsProj.ByteMemory
open OsProj.KernelList (sizeMod)

section
variable {h : Heap}

/-! How many blocks of an arena are on the list. -/

theorem count_push (held : .arena a i ∈ h.groups) (sound : Sound descs h) (piece : Piece (.arena a i) e n) (xs : List Nat)
    (g : Group) : (h.withFree i (e :: xs)).count g = (h.withFree i xs).count g + if g = .arena a i then 1 else 0 := by
  have rounds : pgRoundDown e = a := piece.rounds (sound.laid _ held)
  cases g with
  | big page pageCnt => simp [Heap.count]
  | arena a' j =>
    by_cases same : j = i
    · subst same
      simp only [Heap.count,Heap.listed,withFree_free,List.countP_cons,rounds,Group.arena.injEq,and_true,decide_eq_true_eq]
      simp only [eq_comm]
    · simp only [Heap.count,Heap.listed,withFree_other same,Group.arena.injEq,same,and_false,if_false,Nat.add_zero]

theorem blocksFrom_nodup (a : Nat) (i : Class) (k : Nat) : (blocksFrom a i k).Nodup :=
  List.Nodup.map (fun _ _ => block_inj) List.nodup_range'

theorem mem_listed (sound : Sound descs h) (held : .arena a i ∈ h.groups) :
    b ∈ (h.free i).filter (fun b => pgRoundDown b = a) ↔ b ∈ h.free i ∧ b ∈ blocksFrom a i 0 := by
  rw [List.mem_filter,decide_eq_true_eq]
  apply and_congr_right
  intro listed
  obtain ⟨a',there,piece⟩ := sound.members i b listed
  have rounds : pgRoundDown b = a' := piece.rounds (sound.laid _ there)
  cases piece with
  | block inside =>
    rename_i k
    constructor
    · intro here
      rw [here] at rounds
      subst rounds
      exact mem_blocksFrom.mpr ⟨k,Nat.zero_le _,inside,rfl⟩
    · intro member
      obtain ⟨j,_,inside',same⟩ := mem_blocksFrom.mp member
      rw [same]
      exact pgRoundDown_block (sound.laid _ held).aligned inside'

/-- An arena all of whose blocks are on the list. -/
theorem Shape.full_iff (shape : Shape descs m h count) (held : .arena a i ∈ h.groups) :
    h.listed i a ≤ perArena i ∧ (h.listed i a = perArena i ↔ ∀ b ∈ blocksFrom a i 0, b ∈ h.free i) := by
  have member := fun b => mem_listed (b := b) shape.sound held
  have length : (blocksFrom a i 0).length = perArena i := by simp [blocksFrom]
  have nodup := (shape.nodup i).filter (fun b => pgRoundDown b = a)
  have part := List.subperm_of_subset nodup (fun b inside => ((member b).mp inside).2)
  rw [Heap.listed,List.countP_eq_length_filter,← length]
  refine ⟨part.length_le,?_,?_⟩
  · intro full b inside
    exact ((member b).mp ((part.perm_of_length_le (Nat.le_of_eq full.symm)).mem_iff.mpr inside)).1
  · intro all
    have whole := List.subperm_of_subset (blocksFrom_nodup a i 0) (fun b inside => (member b).mpr ⟨all b inside,inside⟩)
    exact Nat.le_antisymm part.length_le whole.length_le

theorem Shape.recount (shape : Shape descs m h count) (same : ∀ g ∈ h.groups, count g = count' g) :
    Shape descs m h count' where
  sound := shape.sound
  fields := ⟨shape.fields.desc,shape.fields.header,fun g held => (shape.fields.counted g held).trans (same g held)⟩
  lists := shape.lists

def Heap.adopt (h : Heap) (g : Group) : Heap := { h with groups := g :: h.groups }

def withHeader (descs : Nat) (m : Memory) (g : Group) (v : Nat) : Memory :=
  store (store (store m (g.page + 0) 4 arenaMagic) (g.page + 4) 4 (g.desc descs)) (g.page + 8) 4 v

theorem withHeader_outside (descs : Nat) (m : Memory) (v : Nat) (outside : b < g.page ∨ g.page + arenaSize ≤ b) :
    withHeader descs m g v b = m b := by
  unfold arenaSize at outside
  unfold withHeader store
  rw [if_neg (by omega),if_neg (by omega),if_neg (by omega)]

structure Fresh (descs : Nat) (h : Heap) (g : Group) : Prop where
  laid : Laid descs g
  apart : ∀ g' ∈ h.groups, Group.Disjoint g g'

theorem Fresh.notMem (fresh : Fresh descs h g) : g ∉ h.groups := by
  intro held
  have header := fresh.laid.header
  have apart := fresh.apart g held
  unfold Group.Disjoint Apart at apart
  unfold arenaSize at header
  omega

theorem Fresh.ne (fresh : Fresh descs h g) (old : g' ∈ h.groups) : g' ≠ g := fun same => fresh.notMem (same ▸ old)

theorem Sound.adopt (sound : Sound descs h) (fresh : Fresh descs h g) : Sound descs (h.adopt g) where
  placed := sound.placed
  laid := by
    intro g' held
    rcases List.mem_cons.mp held with rfl | held
    · exact fresh.laid
    · exact sound.laid g' held
  apart := List.pairwise_cons.mpr ⟨fresh.apart,sound.apart⟩
  members := by
    intro i b listed
    obtain ⟨a,held,piece⟩ := sound.members i b listed
    exact ⟨a,List.mem_cons_of_mem _ held,piece⟩

/-- A block of a fresh group is in no other group. -/
theorem Sound.fresh_other (sound : Sound descs h) (fresh : Fresh descs h g) (piece : Piece g x n) (held : g' ∈ h.groups)
    (piece' : Piece g' x k) : False := by
  have within := piece'.within (sound.laid _ held)
  have same := (sound.adopt fresh).group_unique (List.mem_cons_self ..) (List.mem_cons_of_mem _ held) piece (by omega) (by omega)
  exact fresh.notMem (same ▸ held)

theorem Sound.fresh_unlisted (sound : Sound descs h) (fresh : Fresh descs h g) (piece : Piece g x n) (i : Class) : x ∉ h.free i := by
  intro listed
  obtain ⟨a,held,piece'⟩ := sound.members i x listed
  exact sound.fresh_other fresh piece held piece'

theorem live_adopt : (h.adopt g).Live x n ↔ h.Live x n ∨ Piece g x n ∧ ∀ i, x ∉ h.free i := by
  unfold Heap.Live Heap.adopt
  simp only [List.mem_cons]
  constructor
  · rintro ⟨g',rfl | held,piece,unlisted⟩
    · exact .inr ⟨piece,unlisted⟩
    · exact .inl ⟨g',held,piece,unlisted⟩
  · rintro (⟨g',held,piece,unlisted⟩ | ⟨piece,unlisted⟩)
    · exact ⟨g',.inr held,piece,unlisted⟩
    · exact ⟨g,.inl rfl,piece,unlisted⟩

theorem desc_lt (sound : Sound descs h) (g : Group) : g.desc descs < sizeMod := by
  cases g with
  | arena a i => exact desc_fits sound i
  | big a pageCnt => exact Nat.zero_lt_succ _

/-- A header makes a fresh group part of the heap. -/
theorem Shape.adopt (shape : Shape descs m h count) (fresh : Fresh descs h g) (fits : v < sizeMod) :
    Shape descs (withHeader descs m g v) (h.adopt g) (Function.update count g v) ∧
      Frame h (h.adopt g) m (withHeader descs m g v) := by
  have sound := shape.sound
  have laid := fresh.laid
  have header := laid.header
  have clear := laid.clear
  have kept : Shape descs (withHeader descs m g v) h count := by
    refine shape.congr (fun b owned => (withHeader_outside descs m v ?_).symm)
    rcases sound.owned_within owned with inDescs | ⟨g',held,low,high⟩
    · unfold Apart at clear
      omega
    · have apart := fresh.apart g' held
      unfold Group.Disjoint Apart at apart
      omega
  have loaded : load (withHeader descs m g v) g.page 4 = arenaMagic ∧ load (withHeader descs m g v) (g.page + 4) 4 = g.desc descs ∧
      load (withHeader descs m g v) (g.page + 8) 4 = v := by
    unfold withHeader
    refine ⟨?_,?_,?_⟩
    · rw [load_store_apart (.inr (by omega)),load_store_apart (.inr (by omega)),Nat.add_zero,load_store_same]
      rfl
    · rw [load_store_apart (.inr (by omega)),load_store_same]
      exact Nat.mod_eq_of_lt (desc_lt sound g)
    · rw [load_store_same]
      exact Nat.mod_eq_of_lt fits
  refine ⟨⟨sound.adopt fresh,⟨kept.fields.desc,?_,?_⟩,kept.lists⟩,?_⟩
  · intro g' held
    rcases List.mem_cons.mp held with rfl | held
    · exact ⟨loaded.1,loaded.2.1⟩
    · exact kept.fields.header g' held
  · intro g' held
    rcases List.mem_cons.mp held with rfl | old
    · rw [Function.update_self]
      exact loaded.2.2
    · rw [Function.update_of_ne (fresh.ne old)]
      exact kept.fields.counted g' old
  · intro x n live _ b low high
    refine (withHeader_outside descs m v ?_).symm
    obtain ⟨g',held,piece,_⟩ := live
    have within := piece.within (sound.laid g' held)
    have apart := fresh.apart g' held
    unfold Group.Disjoint Apart at apart
    omega

theorem Sound.nodup_groups (sound : Sound descs h) : h.groups.Nodup := by
  refine sound.apart.imp_of_mem (fun {g g'} held _ disjoint same => ?_)
  have header := (sound.laid g held).header
  subst same
  unfold Group.Disjoint Apart at disjoint
  omega

def Heap.drop (h : Heap) (g : Group) : Heap := { h with groups := h.groups.erase g }

/-- A group without free blocks can be given back. -/
theorem Shape.drop (shape : Shape descs m h count) (held : g ∈ h.groups) (unused : ∀ i, ∀ b ∈ h.free i, ¬Piece g b (classSize i)) :
    Shape descs (fill m g.page g.size 0xcc) (h.drop g) count ∧ Frame h (h.drop g) m (fill m g.page g.size 0xcc) := by
  have sound := shape.sound
  have laid := sound.laid g held
  have clear := laid.clear
  have nodup := sound.nodup_groups
  have rest : ∀ g' ∈ h.groups.erase g, g' ≠ g ∧ g' ∈ h.groups := fun g' left => nodup.mem_erase_iff.mp left
  have sound' : Sound descs (h.drop g) := by
    refine ⟨sound.placed,fun g' left => sound.laid g' (rest g' left).2,sound.apart.sublist List.erase_sublist,?_⟩
    intro i b listed
    obtain ⟨a,there,piece⟩ := sound.members i b listed
    refine ⟨a,nodup.mem_erase_iff.mpr ⟨?_,there⟩,piece⟩
    rintro rfl
    exact unused i b listed piece
  have away : ∀ g' ∈ h.groups.erase g, ∀ b, g'.page ≤ b → b < g'.page + g'.size → m b = fill m g.page g.size 0xcc b := by
    intro g' left b low high
    refine (if_neg ?_).symm
    have disjoint := sound.disjoint (rest g' left).2 held (rest g' left).1
    unfold Group.Disjoint Apart at disjoint
    omega
  have before : Shape descs m (h.drop g) count := by
    refine ⟨sound',⟨shape.fields.desc,?_,?_⟩,shape.lists⟩
    · exact fun g' left => shape.fields.header g' (rest g' left).2
    · exact fun g' left => shape.fields.counted g' (rest g' left).2
  constructor
  · refine before.congr ?_
    intro b owned
    rcases sound'.owned_within owned with inDescs | ⟨g',left,low,high⟩
    · refine (if_neg ?_).symm
      unfold Apart at clear
      omega
    · exact away g' left b low high
  · intro x n _ live b low high
    obtain ⟨g',left,piece,_⟩ := live
    have within := piece.within (sound.laid g' (rest g' left).2)
    exact away g' left b (by omega) (by omega)

end

end OsProj.Malloc
