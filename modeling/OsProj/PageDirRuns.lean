import OsProj.History
import OsProj.PageDirDestroy

/-! Calls on a directory from its creation to its end, with other code running between them. -/
namespace OsProj.PageDir

open OsProj.ByteMemory OsProj.Faulting OsProj.History OsProj.Palloc

/-- The kernel after paging has been set up: its page directory is a page of its own without
entries for user addresses. -/
structure Booted (kernel : Kernel) (s : State) (out : List Group) : Prop where
  reached : ∃ ram userPageLimit, kernel.ramPages = initRamPages ram ∧ Palloc.Reached ram userPageLimit s out
  own : page false kernel.initPageDir ∈ out
  clear : ∀ i < 768, load s.memory (kernel.initPageDir + 4 * i) 4 = 0

inductive Call where
  | setPage (upage kpage : Nat) (writable : Bool)
  | clearPage (upage : Nat)
  | getPage (uaddr : Nat)
  | elsewhere

abbrev Event := Call × Nat

def Call.Allowed (kernel : Kernel) (m : Memory) (pd : Nat) : Call → Prop
  | .setPage upage kpage _ => pgOfs upage = 0 ∧ upage < physBase ∧ pageAt m pd (upage / pgSize) = none ∧ InRam kernel kpage
  | .clearPage upage => pgOfs upage = 0 ∧ upage < physBase
  | .getPage uaddr => uaddr < physBase
  | .elsewhere => False

def exec (kernel : Kernel) (pd : Nat) : Call → M Nat
  | .setPage upage kpage writable => do
    return (← pagedirSetPage kernel pd upage kpage writable).toNat
  | .clearPage upage => do
    pagedirClearPage pd upage
    return 0
  | .getPage uaddr => pagedirGetPage pd uaddr
  | .elsewhere => return 0

def Own (m : Memory) (pd p : Nat) : Prop := p = pd ∨ ∃ i < 768, tableAt m pd i = some p

/-- Other code allocates, frees and writes pages, but not those of the directory. -/
def Elsewhere (kernel : Kernel) (pd : Nat) (s s' : State) : Prop :=
  ∃ out', Sound kernel s' out' ∧ ∀ p, Own s.memory pd p → page false p ∈ out' ∧ Agree s'.memory s.memory p pgSize

def Step (kernel : Kernel) (pd : Nat) (_ : List Event) (s : State) (e : Event) (s' : State) : Prop :=
  match e.1 with
  | .elsewhere => Elsewhere kernel pd s s'
  | call => call.Allowed kernel s.memory pd ∧ exec kernel pd call s = .ok (e.2,s')

/-- The calls on a map from user pages to frames. A page is refused when its table is missing and
cannot be had, and only then. -/
def MapStep (pd : Nat) (s : State) (map : Nat → Option Nat) (e : Event) (map' : Nat → Option Nat) : Prop :=
  match e.1 with
  | .setPage upage kpage _ =>
    ¬Refused s pd upage ∧ e.2 = 1 ∧ map' = Function.update map (upage / pgSize) (some kpage) ∨
    Refused s pd upage ∧ e.2 = 0 ∧ map' = map
  | .clearPage upage => map' = Function.update map (upage / pgSize) none
  | .getPage uaddr => e.2 = (map (uaddr / pgSize)).elim 0 (· + pgOfs uaddr) ∧ map' = map
  | .elsewhere => map' = map

def Mirrored (kernel : Kernel) (pd : Nat) (h : List Event) (x : State × (Nat → Option Nat)) (e : Event)
    (x' : State × (Nat → Option Nat)) : Prop := Step kernel pd h x.1 e x'.1 ∧ MapStep pd x.1 x.2 e x'.2

structure Shows (kernel : Kernel) (pd : Nat) (entries : Nat → Nat) (s : State) (map : Nat → Option Nat) : Prop where
  held : ∃ out, Sound kernel s out ∧ Directory kernel s out pd
  pages : ∀ v < userPages, pageAt s.memory pd v = map v
  user : ∀ v, userPages ≤ v → map v = none
  kernelEntries : ∀ i, 768 ≤ i → i < 1024 → load s.memory (pd + 4 * i) 4 = entries i

section
variable {kernel : Kernel} {s s' : State} {out : List Group} {pd : Nat}

theorem Booted.sound (booted : Booted kernel s out) : Sound kernel s out := by
  obtain ⟨ram,limit,count,reached⟩ := booted.reached
  obtain ⟨mid,inv⟩ := reached.inv
  exact ⟨mid,count ▸ inv⟩

/-- A new directory is a copy of the kernel's. -/
theorem pagedirCreate_ok (sound : Sound kernel s out) (own : page false kernel.initPageDir ∈ out)
    (clear : ∀ i < 768, load s.memory (kernel.initPageDir + 4 * i) 4 = 0) :
    pagedirCreate kernel s = .ok (0,s) ∨
    ∃ pd s', pagedirCreate kernel s = .ok (pd,s') ∧ pd ≠ 0 ∧ Sound kernel s' (page false pd :: out) ∧
      Directory kernel s' (page false pd :: out) pd ∧ (∀ v < userPages, pageAt s'.memory pd v = none) ∧
      (∀ i < 1024, load s'.memory (pd + 4 * i) 4 = load s.memory (kernel.initPageDir + 4 * i) 4) ∧
      ∀ user q, page user q ∈ out → Agree s'.memory s.memory q pgSize := by
  rcases sound.get false false with none | ⟨pd,s₁,got,some,sound₁,kept,_⟩
  · exact .inl (bind_go none)
  have old := fresh_agree sound₁ own kept
  have fresh := (List.nodup_cons.mp sound₁.nodup).1
  have copied (i : Nat) (low : i < 1024) : load (copy s₁.memory pd kernel.initPageDir pgSize) (pd + 4 * i) 4 =
      load s.memory (kernel.initPageDir + 4 * i) 4 := by
    have inside := word_inside (a := pd) low
    apply load_shift
    intro x small
    rw [copy,if_pos (by omega),show kernel.initPageDir + (pd + 4 * i + x - pd) = kernel.initPageDir + 4 * i + x by omega]
    exact old _ (by omega) (by omega)
  have zero (i : Nat) (slot : i < 768) : load (copy s₁.memory pd kernel.initPageDir pgSize) (pd + 4 * i) 4 = 0 :=
    (copied i (by omega)).trans (clear i slot)
  have absent (i : Nat) (slot : i < 768) : tableAt (copy s₁.memory pd kernel.initPageDir pgSize) pd i = none := by
    rw [tableAt,zero i slot]
    rfl
  have unmapped (v : Nat) (user : v < userPages) : pageAt (copy s₁.memory pd kernel.initPageDir pgSize) pd v = none := by
    rw [pageAt,absent _ (page_slot user),Option.bind_none]
  refine .inr ⟨pd,_,(bind_go got).trans (if_pos some ▸ rfl),some,sound₁.write _,?_,unmapped,copied,?_⟩
  · refine ⟨List.mem_cons_self,?_,fun i slot => .inl (zero i slot),?_,?_⟩
    · rintro rfl
      exact fresh own
    · intro i slot j slot' pt found
      exact absurd ((absent i slot).symm.trans found).symm (Option.some_ne_none _)
    · intro v user p mapped
      exact absurd ((unmapped v user).symm.trans mapped).symm (Option.some_ne_none _)
  · intro user q here a low high
    have apart := sound₁.apart List.mem_cons_self (List.mem_cons_of_mem _ here) (by
      intro same
      rw [← same] at here
      exact fresh here)
    exact (copy_agree apart _ _ a low high).trans (fresh_agree sound₁ here kept a low high)

/-- What creating a directory returned is as `pagedirCreate_ok` tells. -/
theorem Booted.created (booted : Booted kernel s out) (made : pagedirCreate kernel s = .ok (pd,s')) (nonzero : pd ≠ 0) :
    Sound kernel s' (page false pd :: out) ∧ Directory kernel s' (page false pd :: out) pd ∧
      (∀ v < userPages, pageAt s'.memory pd v = none) ∧
      ∀ i < 1024, load s'.memory (pd + 4 * i) 4 = load s.memory (kernel.initPageDir + 4 * i) 4 := by
  rcases pagedirCreate_ok booted.sound booted.own booted.clear with failed | ⟨pd',s'',made',_,sound,directory,unmapped,copied,_⟩
  · exact absurd (Prod.mk.inj (Except.ok.inj (made.symm.trans failed))).1 nonzero
  · obtain ⟨rfl,rfl⟩ := Prod.mk.inj (Except.ok.inj (made.symm.trans made'))
    exact ⟨sound,directory,unmapped,copied⟩

/-- What a call leaves is the map it makes of the map before. -/
theorem Shows.updated (shows : Shows kernel pd entries s map) (updated : Updated kernel pd s out s' out' map')
    (same : ∀ v < userPages, map' v = map'' v) (user : ∀ v, userPages ≤ v → map'' v = none) :
    Shows kernel pd entries s' map'' :=
  ⟨⟨out',updated.sound,updated.directory⟩,fun v low => (updated.pages v low).trans (same v low),user,
    fun i high low => (updated.kernelEntries i high low).trans (shows.kernelEntries i high low)⟩

theorem update_user (user : ∀ v, userPages ≤ v → map v = none) (low : u < userPages) (frame : Option Nat) :
    ∀ v, userPages ≤ v → Function.update map u frame v = none := by
  intro v high
  rw [Function.update_of_ne (by omega)]
  exact user v high

/-- Every call that is allowed returns, and does to the map what it should. -/
theorem Shows.exec (shows : Shows kernel pd entries s map) (allowed : call.Allowed kernel s.memory pd) :
    ∃ r s' map', PageDir.exec kernel pd call s = .ok (r,s') ∧ Shows kernel pd entries s' map' ∧ MapStep pd s map (call,r) map' := by
  obtain ⟨out,sound,directory⟩ := shows.held
  cases call with
  | setPage upage kpage writable =>
    obtain ⟨aligned,user,unmapped,ram⟩ := allowed
    have number := (user_slot user).2.2
    rcases pagedirSetPage_ok directory sound aligned user ram unmapped writable with ⟨failed,refused⟩ | ⟨s',out',done,room,updated⟩
    · exact ⟨0,s,map,bind_go failed,shows,.inr ⟨refused,rfl,rfl⟩⟩
    · refine ⟨1,s',_,bind_go done,shows.updated updated (fun v low => ?_) (update_user shows.user number (some kpage)),
        .inl ⟨room,rfl,rfl⟩⟩
      rw [Function.update_apply,shows.pages v low]
  | clearPage upage =>
    obtain ⟨aligned,user⟩ := allowed
    obtain ⟨s',done,updated⟩ := pagedirClearPage_ok directory sound aligned user
    refine ⟨0,s',_,bind_go done,shows.updated updated (fun v low => ?_) (update_user shows.user (user_slot user).2.2 none),rfl⟩
    rw [Function.update_apply,shows.pages v low]
  | getPage uaddr =>
    have done := pagedirGetPage_ok directory sound allowed
    rw [shows.pages _ (user_slot allowed).2.2] at done
    exact ⟨_,s,map,done,shows,rfl,rfl⟩
  | elsewhere => contradiction

theorem Shows.elsewhere (shows : Shows kernel pd entries s map) (elsewhere : Elsewhere kernel pd s s') :
    Shows kernel pd entries s' map := by
  obtain ⟨out,sound,directory⟩ := shows.held
  obtain ⟨out',sound',kept⟩ := elsewhere
  have own := kept pd (.inl rfl)
  have same (v : Nat) (low : v < userPages) : pageAt s'.memory pd v = pageAt s.memory pd v :=
    pageAt_congr own.2 (fun i slot pt found => (kept pt (.inr ⟨i,slot,found⟩)).2) low
  have entries_ (i : Nat) (low : i < 1024) : load s'.memory (pd + 4 * i) 4 = load s.memory (pd + 4 * i) 4 :=
    load_congr (own.2.mono (word_inside low))
  refine ⟨⟨out',sound',own.1,directory.other,?_,?_,?_⟩,fun v low => (same v low).trans (shows.pages v low),shows.user,
    fun i high low => (entries_ i low).trans (shows.kernelEntries i high low)⟩
  · intro i slot
    rw [entries_ i (by omega)]
    refine (directory.table sound slot).imp And.left ?_
    rintro ⟨pt,found,entry,_,other⟩
    exact ⟨pt,entry,(kept pt (.inr ⟨i,slot,found⟩)).1,other⟩
  · intro i slot j slot' pt
    rw [tableAt_congr own.2 (by omega),tableAt_congr own.2 (by omega)]
    exact directory.distinct i slot j slot' pt
  · intro v low p
    rw [same v low]
    exact directory.framed v low p

theorem Shows.step (shows : Shows kernel pd entries s map) (step : Step kernel pd h s e s') :
    ∃ map', Shows kernel pd entries s' map' ∧ MapStep pd s map e map' := by
  obtain ⟨call,r⟩ := e
  cases call with
  | elsewhere => exact ⟨map,shows.elsewhere step,rfl⟩
  | setPage | clearPage | getPage =>
    obtain ⟨allowed,ran⟩ := step
    obtain ⟨r',s'',map',ran',shows',mapped⟩ := shows.exec allowed
    obtain ⟨rfl,rfl⟩ := Prod.mk.inj (Except.ok.inj (ran.symm.trans ran'))
    exact ⟨map',shows',mapped⟩

theorem run_shows (shows : Shows kernel pd entries s₁ map₁) (run : Path (Step kernel pd) [] s₁ h s) :
    ∃ map, Path (Mirrored kernel pd) [] (s₁,map₁) h (s,map) ∧ Shows kernel pd entries s map := by
  induction run with
  | refl => exact ⟨map₁,.refl,shows⟩
  | snoc _ step ih =>
    obtain ⟨map,path,shows⟩ := ih
    obtain ⟨map',shows',mapped⟩ := shows.step step
    exact ⟨map',path.snoc ⟨step,mapped⟩,shows'⟩

/-- The frames that a map has are outstanding pages apart from the directory's, and no two are the same. -/
structure FramesDistinct (s : State) (out : List Group) (pd : Nat) (map : Nat → Option Nat) : Prop where
  outstanding : ∀ v p, map v = some p → Outstanding out p
  distinct : ∀ v w p, map v = some p → map w = some p → v = w
  data : ∀ v p, map v = some p → ¬Own s.memory pd p

/-- A directory behaves as a map from user pages to frames, whatever is called on it, and refuses a page only for
want of a table; the kernel's entries stay, every call returns, and its end frees each frame, each table and the
directory once. -/
theorem pagedir_refines_map (booted : Booted kernel s₀ out₀) (created : pagedirCreate kernel s₀ = .ok (pd,s₁)) (some : pd ≠ 0)
    (run : Path (Step kernel pd) [] s₁ h s) :
    ∃ map, Path (Mirrored kernel pd) [] (s₁,fun _ => none) h (s,map) ∧ (∀ v, userPages ≤ v → map v = none) ∧
      (∀ uaddr < physBase, pagedirGetPage pd uaddr s = .ok ((map (uaddr / pgSize)).elim 0 (· + pgOfs uaddr),s)) ∧
      (∀ call : Call, call.Allowed kernel s.memory pd → ∃ r s', exec kernel pd call s = .ok (r,s')) ∧
      (∀ i, 768 ≤ i → i < 1024 → load s.memory (pd + 4 * i) 4 = load s₀.memory (kernel.initPageDir + 4 * i) 4) ∧
      ∀ out, Sound kernel s out → (∀ p, Own s.memory pd p → page false p ∈ out) → FramesDistinct s out pd map →
        ∃ s', pagedirDestroy kernel pd s = .ok ((),s') ∧ freePages (dirPages s.memory pd) s = .ok ((),s') ∧
          (dirPages s.memory pd).Nodup ∧
          ∀ p, p ∈ dirPages s.memory pd ↔ (∃ v, map v = Option.some p) ∨ (∃ i < 768, tableAt s.memory pd i = Option.some p) ∨ p = pd := by
  obtain ⟨sound₁,directory₁,unmapped,copied⟩ := booted.created created some
  have first : Shows kernel pd (fun i => load s₀.memory (kernel.initPageDir + 4 * i) 4) s₁ fun _ => none :=
    ⟨⟨_,sound₁,directory₁⟩,unmapped,fun _ _ => rfl,fun i _ low => copied i low⟩
  obtain ⟨map,path,shows⟩ := run_shows first run
  refine ⟨map,path,shows.user,?_,?_,shows.kernelEntries,?_⟩
  · intro uaddr user
    obtain ⟨out,sound,directory⟩ := shows.held
    rw [pagedirGetPage_ok directory sound user,shows.pages _ (user_slot user).2.2]
  · intro call allowed
    obtain ⟨r,s',_,ran,_⟩ := shows.exec allowed
    exact ⟨r,s',ran⟩
  · intro out sound own frames
    obtain ⟨_,soundᵢ,directoryᵢ⟩ := shows.held
    have directory : Directory kernel s out pd := by
      refine ⟨own pd (.inl rfl),directoryᵢ.other,?_,directoryᵢ.distinct,directoryᵢ.framed⟩
      intro i slot
      refine (directoryᵢ.table soundᵢ slot).imp And.left ?_
      rintro ⟨pt,found,entry,_,other⟩
      exact ⟨pt,entry,own pt (.inr ⟨i,slot,found⟩),other⟩
    have owned : Owned kernel s out pd := by
      refine ⟨?_,?_,?_⟩
      · intro v low p
        rw [shows.pages v low]
        exact frames.outstanding v p
      · intro v low w low' p
        rw [shows.pages v low,shows.pages w low']
        exact frames.distinct v w p
      · intro v low p mapped
        rw [shows.pages v low] at mapped
        have data := frames.data v p mapped
        exact ⟨fun same => data (.inl same),fun i slot table => data (.inr ⟨i,slot,table⟩)⟩
    obtain ⟨s',destroyed,freed,nodup⟩ := pagedirDestroy_ok directory sound owned
    refine ⟨s',destroyed,freed,nodup,fun p => ?_⟩
    rw [mem_dirPages]
    refine or_congr_left ⟨?_,?_⟩
    · rintro ⟨v,low,mapped⟩
      exact ⟨v,(shows.pages v low).symm.trans mapped⟩
    · rintro ⟨v,mapped⟩
      have low : v < userPages := by
        by_contra high
        rw [shows.user v (by omega)] at mapped
        exact Option.some_ne_none _ mapped.symm
      exact ⟨v,low,(shows.pages v low).trans mapped⟩

/-! A machine with little memory. -/

/-- The machine, with the first page of its kernel pool as the kernel's page directory. -/
def smallKernel : Kernel := ⟨3222278144,initRamPages 64,by decide⟩

def smallBoot : Except Panic (Nat × State) := do
  pallocGetPage ⟨true,true,false⟩ (← pallocInit ⟨fun _ => 0,fun _ _ => true⟩ (initRamPages 64) 100)

theorem small_booted : ∃ s out, smallBoot = .ok (smallKernel.initPageDir,s) ∧ Booted smallKernel s out := by
  have returned : (smallBoot.map Prod.fst).toOption = some smallKernel.initPageDir := by decide +kernel
  cases booted : smallBoot with
  | error panic =>
    rw [booted] at returned
    contradiction
  | ok result =>
    obtain ⟨dir,s⟩ := result
    rw [booted] at returned
    obtain rfl : dir = smallKernel.initPageDir := Option.some.inj returned
    unfold smallBoot at booted
    cases init : pallocInit ⟨fun _ => 0,fun _ _ => true⟩ (initRamPages 64) 100 with
    | error panic =>
      rw [init] at booted
      contradiction
    | ok s₀ =>
      rw [go init] at booted
      have reached := (Palloc.Reached.boot init).getPage booted
      rw [if_neg (by decide)] at reached
      obtain ⟨mid,inv⟩ := (Palloc.Reached.boot init).inv
      rcases inv.get ⟨true,true,false⟩ 1 with ⟨p,s',got,_,_,_,zeroed,_⟩ | ⟨failed,_⟩
      · obtain ⟨rfl,rfl⟩ := Prod.mk.inj (Except.ok.inj (got.symm.trans booted))
        refine ⟨_,_,rfl,⟨64,100,rfl,reached⟩,List.mem_cons_self,fun i slot => load_zero fun b low high => ?_⟩
        refine zeroed rfl (by decide) b ⟨?_,?_⟩
        · dsimp only
          omega
        · simp only [pgSize]
          omega
      · exact absurd (booted.symm.trans failed) (by simp)

def smallCreate : Except Panic Nat := do
  let (_,s) ← smallBoot
  let (pd,_) ← pagedirCreate smallKernel s
  return pd

/-- A directory can be made there. -/
theorem small_created :
    ∃ s₀ out₀ pd s₁, smallBoot = .ok (smallKernel.initPageDir,s₀) ∧ Booted smallKernel s₀ out₀ ∧
      pagedirCreate smallKernel s₀ = .ok (pd,s₁) ∧ pd ≠ 0 := by
  obtain ⟨s₀,out₀,boot,booted⟩ := small_booted
  have returned : smallCreate.toOption = some 3222282240 := by decide +kernel
  unfold smallCreate at returned
  rw [go boot] at returned
  dsimp only at returned
  rcases pagedirCreate_ok booted.sound booted.own booted.clear with failed | ⟨pd,s₁,made,nonzero,_⟩
  · rw [go failed] at returned
    change some 0 = some 3222282240 at returned
    contradiction
  · exact ⟨s₀,out₀,pd,s₁,boot,booted,made,nonzero⟩

def smallMap : Except Panic (Nat × Nat × Nat) := do
  let (_,s) ← smallBoot
  let (pd,s) ← pagedirCreate smallKernel s
  let (r,s) ← exec smallKernel pd (.setPage 134512640 3222290432 true) s
  let (p,_) ← pagedirGetPage pd 134512645 s
  return (pd,r,p)

theorem pagedir_refines_map_small :
    ∃ s₀ out₀ pd s₁ s, Booted smallKernel s₀ out₀ ∧ pagedirCreate smallKernel s₀ = .ok (pd,s₁) ∧
      exec smallKernel pd (.setPage 134512640 3222290432 true) s₁ = .ok (1,s) ∧
      pagedirGetPage pd 134512645 s = .ok (3222290437,s) ∧
      ∃ map, Path (Mirrored smallKernel pd) [] (s₁,fun _ => none) [(.setPage 134512640 3222290432 true,1)] (s,map) ∧
        map (134512640 / pgSize) = some 3222290432 ∧
        ∀ uaddr < physBase, pagedirGetPage pd uaddr s = .ok ((map (uaddr / pgSize)).elim 0 (· + pgOfs uaddr),s) := by
  obtain ⟨s₀,out₀,pd,s₁,boot,booted,made,nonzero⟩ := small_created
  obtain ⟨sound,directory,unmapped,copied⟩ := booted.created made nonzero
  have allowed : (Call.setPage 134512640 3222290432 true).Allowed smallKernel s₁.memory pd :=
    ⟨by decide,by decide,unmapped _ (by decide),by decide,by decide,by decide⟩
  have first : Shows smallKernel pd (fun i => load s₀.memory (smallKernel.initPageDir + 4 * i) 4) s₁ fun _ => none :=
    ⟨⟨_,sound,directory⟩,unmapped,fun _ _ => rfl,fun i _ low => copied i low⟩
  obtain ⟨r,s,_,ran,_⟩ := first.exec allowed
  have step : Step smallKernel pd [] s₁ (.setPage 134512640 3222290432 true,r) s := ⟨allowed,ran⟩
  obtain ⟨map,path,_,reads,_⟩ := pagedir_refines_map booted made nonzero (.snoc .refl step)
  have values : smallMap.toOption = some (3222282240,1,3222290437) := by decide +kernel
  have read := reads 134512645 (by decide)
  unfold smallMap at values
  rw [go boot] at values
  dsimp only at values
  rw [go made] at values
  dsimp only at values
  rw [go ran] at values
  dsimp only at values
  rw [go read] at values
  obtain ⟨_,rest⟩ := Prod.mk.inj (Option.some.inj values)
  obtain ⟨one,found⟩ := Prod.mk.inj rest
  subst one
  have mapped : map (134512640 / pgSize) = some 3222290432 := by
    cases path with
    | snoc front last =>
      cases front
      rcases last.2 with ⟨_,_,updated⟩ | ⟨_,zero,_⟩
      · exact (congrFun updated _).trans (Function.update_self ..)
      · exact absurd zero Nat.one_ne_zero
  have value : (map (134512645 / pgSize)).elim 0 (· + pgOfs 134512645) = 3222290437 := found
  rw [value] at read
  exact ⟨s₀,out₀,pd,s₁,s,booted,made,ran,read,map,path,mapped,reads⟩

end

end OsProj.PageDir
