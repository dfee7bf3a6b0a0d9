import OsProj.ProcessSegment

/-! Starting a process that cannot be loaded: what is given back, and the page directory that is not. -/
namespace OsProj.Process

open OsProj.ByteMemory OsProj.Faulting OsProj.PageDir OsProj.Palloc

/-- What an attempt took is back: the pages that could be handed out before can be again, with the page
of the file name, and the process control block is freed. -/
structure GivenBack (fileName : Nat) (m m' : Machine) : Prop where
  pages : ∀ user p, Available m.pages user p → Available m'.pages user p
  fileName : Available m'.pages false fileName
  blocks : m'.blocks = m.blocks

section
variable {kernel : Kernel} {s s' : State} {out out' : List Group} {pd : Nat}

/-- A step of loading returns, and keeps all pages that are outstanding. -/
def Goes (kernel : Kernel) (pd : Nat) (out : List Group) (ran : Except Panic (Option Bool × State)) : Prop :=
  ∃ done s' out', ran = .ok (some done,s') ∧ Space kernel s' out' pd ∧ ∀ g ∈ out, g ∈ out'

theorem setupStack_ok (space : Space kernel s out pd) :
    ∃ done s' out', setupStack kernel pd s = .ok (done,s') ∧ Space kernel s' out' pd ∧ ∀ g ∈ out, g ∈ out' := by
  rcases space.sound.get true true with none | ⟨p,s₁,got,nonzero,sound₁,kept,_⟩
  · exact ⟨false,s,out,bind_go none,space,fun _ here => here⟩
  obtain ⟨space₁,pages⟩ := space.write_fresh sound₁ kept
  have unmapped (w : Nat) (user : w < userPages) : pageAt s₁.memory pd w ≠ some p := by
    intro mapped
    rw [pages w user] at mapped
    exact (List.nodup_cons.mp sound₁.nodup).1 (space.frames w user p mapped)
  have top : physBase - pgSize = (userPages - 1) * pgSize := by decide
  rcases installPage_ok space₁ List.mem_cons_self unmapped (show userPages - 1 < userPages by decide) true with
    failed | ⟨s₂,out₂,installed,space₂,_,stays,_⟩
  · obtain ⟨s₂,freed,space₂,_⟩ := space.give_back sound₁ kept
    refine ⟨false,s₂,out,?_,space₂,fun _ here => here⟩
    refine (bind_go got).trans ?_
    rw [if_pos nonzero,top]
    exact (bind_go failed).trans (bind_go freed)
  · refine ⟨true,s₂,out₂,?_,space₂,fun g here => stays g (List.mem_cons_of_mem _ here)⟩
    refine (bind_go got).trans ?_
    rw [if_pos nonzero,top]
    exact bind_go installed

theorem Goes.stop (space : Space kernel s out pd) : Goes kernel pd out (.ok (some false,s)) :=
  ⟨false,s,out,rfl,space,fun _ here => here⟩

/-- All program headers are gone through, or one of them stops the loop. -/
theorem loadPhdrs_ok (space : Space kernel s out pd) (file : File) (n : Nat) (fileOfs : Int) :
    Goes kernel pd out (loadPhdrs kernel pd file n fileOfs s) := by
  induction n generalizing s out fileOfs with
  | zero => exact ⟨true,s,out,rfl,space,fun _ here => here⟩
  | succ n ih =>
    unfold loadPhdrs
    split
    · exact Goes.stop space
    split
    · exact Goes.stop space
    dsimp only
    split
    · split
      · rename_i valid
        have valid := validateSegment_valid valid
        obtain ⟨pages,total,_,range⟩ := valid.range
        obtain ⟨done,s₁,out₁,ran,loaded⟩ := loadPhdr_ok space valid total range
        have few : pages < rounds := by
          have count : userPages = 786432 := by decide
          have bound : rounds = 786433 := rfl
          omega
        cases done with
        | false => exact ⟨false,s₁,out₁,bind_go (ran rounds few),loaded.space,loaded.outstanding⟩
        | true =>
          obtain ⟨done,s₂,out₂,went,space₂,stays⟩ := ih loaded.space ((fileOfs + 32).bmod 4294967296)
          exact ⟨done,s₂,out₂,(bind_go (ran rounds few)).trans went,space₂,fun g here => stays g (loaded.outstanding g here)⟩
      · exact Goes.stop space
    split
    · exact Goes.stop space
    · exact ih space _

theorem loadFile_ok (space : Space kernel s out pd) (opened : Option File) :
    Goes kernel pd out (loadFile kernel pd opened s) := by
  cases opened with
  | none => exact Goes.stop space
  | some file =>
    unfold loadFile
    dsimp only
    split
    · obtain ⟨done,s₁,out₁,ran,space₁,stays₁⟩ := loadPhdrs_ok space file (ePhnum file) (ePhoff file)
      cases done with
      | false => exact ⟨false,s₁,out₁,bind_go ran,space₁,stays₁⟩
      | true =>
        obtain ⟨done,s₂,out₂,stack,space₂,stays₂⟩ := setupStack_ok space₁
        exact ⟨done,s₂,out₂,(bind_go ran).trans (bind_go stack),space₂,fun g here => stays₂ g (stays₁ g here)⟩
    · exact Goes.stop space

/-- Without a page for the directory nothing is taken; otherwise the directory stays outstanding to the end. -/
theorem load_ok (booted : Booted kernel s out) (opened : Option File) :
    (∀ p, ¬Available s false p) ∧ load kernel opened s = .ok (some false,s) ∨
    ∃ pd done s' out', Available s false pd ∧ page false pd ∉ out ∧ load kernel opened s = .ok (some done,s') ∧
      (opened = none → done = false) ∧ Sound kernel s' out' ∧ page false pd ∈ out' ∧ ∀ g ∈ out, g ∈ out' := by
  rcases pagedirCreate_ok booted.sound booted.own booted.clear with failed | ⟨pd,s₁,made,nonzero,sound₁,_⟩
  · refine .inl ⟨?_,bind_go failed⟩
    rcases booted.sound.get false false with none | ⟨p,s₁,got,some_,_⟩
    · exact (booted.sound.available none).1 rfl
    · have created := (bind_go got).symm.trans failed
      rw [if_pos some_] at created
      exact absurd (Prod.mk.inj (Except.ok.inj created)).1 some_
  · have space := Space.created booted made nonzero
    obtain ⟨done,s₂,out₂,ran,space₂,stays⟩ := loadFile_ok space opened
    refine .inr ⟨pd,done,s₂,out₂,?_,(List.nodup_cons.mp sound₁.nodup).1,?_,?_,space₂.sound,stays _ List.mem_cons_self,
      fun g here => stays g (List.mem_cons_of_mem _ here)⟩
    · rcases booted.sound.get false false with none | ⟨p,s',got,some_,_⟩
      · exact absurd (Prod.mk.inj (Except.ok.inj (made.symm.trans (bind_go none)))).1 nonzero
      · have created := (bind_go got).symm.trans made
        rw [if_pos some_] at created
        obtain rfl : p = pd := (Prod.mk.inj (Except.ok.inj created)).1
        exact (booted.sound.available got).2 nonzero
    · refine (bind_go made).trans ?_
      rw [if_neg nonzero]
      exact ran
    · rintro rfl
      exact (Option.some.inj (Prod.mk.inj (Except.ok.inj ran)).1).symm

/-- The page of a file name is freed. -/
theorem free_fileName (sound : Sound kernel s out) (here : page false fileName ∈ out) :
    ∃ s', pallocFreePage fileName s = .ok ((),s') ∧ Sound kernel s' (out.erase (page false fileName)) ∧
      Available s' false fileName ∧ ∀ user p, Available s user p → Available s' user p := by
  have aligned := (sound.inRam here).aligned
  obtain ⟨mid,inv⟩ := sound
  obtain ⟨s',freed,inv',available,_⟩ := inv.free here
  refine ⟨s',freed,⟨mid,inv'⟩,(available false fileName).mpr (.inr ⟨rfl,⟨Nat.le_refl _,?_⟩,aligned⟩),?_⟩
  · exact Nat.lt_add_of_pos_right (Nat.mul_pos (by decide) Nat.one_pos)
  · exact fun user p before => (available user p).mpr (.inl before)

theorem onPages_ok {x : M α} (blocks : List Nat) (ran : x s = .ok (a,s')) : onPages x ⟨s,blocks⟩ = .ok (a,⟨s',blocks⟩) :=
  go ran

variable {m : Machine}

theorem startProcess_no_pcb (opened : Option File) (freed : pallocFreePage fileName m.pages = .ok ((),s')) :
    startProcess kernel fileName 0 opened m = .ok (some false,⟨s',m.blocks⟩) := by
  refine (bind_go rfl).trans ?_
  rw [if_neg fun some_ => some_ rfl]
  refine (bind_go rfl).trans ?_
  dsimp only
  rw [if_neg fun failed => failed.2 rfl]
  exact bind_go (onPages_ok _ freed)

/-- The block stays with a process that has been loaded. -/
theorem startProcess_pcb (some_ : answer ≠ 0) (loaded : load kernel opened m.pages = .ok (some done,s))
    (freed : pallocFreePage fileName s = .ok ((),s')) :
    startProcess kernel fileName answer opened m = .ok (some done,⟨s',if done then answer :: m.blocks else m.blocks⟩) := by
  have taken : malloc answer m = .ok (answer,{ m with blocks := answer :: m.blocks }) := by
    rw [malloc,if_neg some_]
  refine (bind_go taken).trans ?_
  dsimp only
  rw [if_pos some_]
  refine (bind_go (onPages_ok _ loaded)).trans ?_
  cases done with
  | false =>
    rw [if_pos ⟨by decide,some_⟩]
    refine (bind_go rfl).trans ((bind_go (onPages_ok _ freed)).trans ?_)
    dsimp only
    rw [List.erase_cons_head]
    rfl
  | true =>
    rw [if_neg fun failed => failed.1 rfl]
    exact bind_go (onPages_ok _ freed)

/-- Starting a process ends in every case. A page directory that was made and not used is never given back. -/
theorem startProcess_cases (booted : Booted kernel m.pages out) (here : page false fileName ∈ out) (answer : Nat)
    (opened : Option File) :
    (answer = 0 ∨ ∀ p, ¬Available m.pages false p) ∧
      (∃ m', startProcess kernel fileName answer opened m = .ok (some false,m') ∧ GivenBack fileName m m') ∨
    answer ≠ 0 ∧ ∃ pd done m', Available m.pages false pd ∧ startProcess kernel fileName answer opened m = .ok (some done,m') ∧
      (opened = none → done = false) ∧ ¬Available m'.pages false pd := by
  by_cases none : answer = 0
  · subst none
    obtain ⟨s',freed,_,available,kept⟩ := free_fileName booted.sound here
    exact .inl ⟨.inl rfl,_,startProcess_no_pcb opened freed,kept,available,rfl⟩
  rcases load_ok booted opened with ⟨full,failed⟩ | ⟨pd,done,s,out',before,fresh,loaded,missing,sound,own,stays⟩
  · obtain ⟨s',freed,_,available,kept⟩ := free_fileName booted.sound here
    exact .inl ⟨.inr full,_,startProcess_pcb none failed freed,kept,available,rfl⟩
  · obtain ⟨s',freed,sound',_⟩ := free_fileName sound (stays _ here)
    have other : page false pd ≠ page false fileName := by
      intro same
      rw [same] at fresh
      exact fresh here
    exact .inr ⟨none,pd,done,_,before,startProcess_pcb none loaded freed,missing,
      sound'.taken ((List.mem_erase_of_ne other).mpr own)⟩

/-- A start that fails gives everything back exactly when it did not come to make a page directory. -/
theorem failed_start_iff (booted : Booted kernel m.pages out) (here : page false fileName ∈ out) (answer : Nat)
    (opened : Option File) :
    ∃ done m', startProcess kernel fileName answer opened m = .ok (some done,m') ∧
      (done = false → (GivenBack fileName m m' ↔ answer = 0 ∨ ∀ p, ¬Available m.pages false p)) := by
  rcases startProcess_cases booted here answer opened with ⟨none,m',failed,back⟩ | ⟨some_,pd,done,m',before,ran,_,after⟩
  · exact ⟨false,m',failed,fun _ => ⟨fun _ => none,fun _ => back⟩⟩
  · refine ⟨done,m',ran,fun _ => ⟨fun back => absurd (back.pages false pd before) after,?_⟩⟩
    rintro (zero | full)
    · exact absurd zero some_
    · exact absurd before (full pd)

/-- A page is taken from the kernel pool. -/
theorem Booted.get_page (booted : Booted kernel s out) (got : pallocGetPage ⟨false,zero,false⟩ s = .ok (p,s')) (nonzero : p ≠ 0) :
    Booted kernel s' (page false p :: out) := by
  obtain ⟨ram,limit,count,reached⟩ := booted.reached
  have reached' := reached.getPage got
  rw [if_neg nonzero] at reached'
  refine ⟨⟨ram,limit,count,reached'⟩,List.mem_cons_of_mem _ booted.own,fun i slot => ?_⟩
  rcases booted.sound.get zero false with none | ⟨p',s'',got',_,sound',kept,_⟩
  · exact absurd (Prod.mk.inj (Except.ok.inj (got.symm.trans none))).1 nonzero
  · obtain ⟨rfl,rfl⟩ := Prod.mk.inj (Except.ok.inj (got.symm.trans got'))
    rw [← booted.clear i slot]
    exact load_congr ((fresh_agree sound' booted.own kept).mono (word_inside (by omega)))

def smallName : Except Panic (Nat × State) := do
  let (_,s) ← smallBoot
  pallocGetPage ⟨false,false,false⟩ s

def smallNext : Except Panic Nat := do
  let (_,s) ← smallName
  let (next,_) ← pallocGetPage ⟨false,false,false⟩ s
  return next

theorem small_named :
    ∃ fileName s out, smallName = .ok (fileName,s) ∧ Booted smallKernel s (page false fileName :: out) := by
  obtain ⟨s₀,out₀,boot,booted⟩ := small_booted
  have returned : (smallName.map Prod.fst).toOption = some 3222282240 := by decide +kernel
  have run : smallName = pallocGetPage ⟨false,false,false⟩ s₀ := by rw [smallName,boot]; rfl
  cases named : pallocGetPage ⟨false,false,false⟩ s₀ with
  | error panic =>
    rw [run,named] at returned
    contradiction
  | ok result =>
    obtain ⟨fileName,s⟩ := result
    rw [run,named] at returned
    obtain rfl : fileName = 3222282240 := Option.some.inj returned
    exact ⟨_,s,out₀,run.trans named,Booted.get_page booted named (by decide)⟩

theorem failed_start_iff_small :
    ∃ fileName s out, Booted smallKernel s (page false fileName :: out) ∧
      ∃ done m', startProcess smallKernel fileName 3222295040 none ⟨s,[]⟩ = .ok (some done,m') ∧
        (done = false → (GivenBack fileName ⟨s,[]⟩ m' ↔ 3222295040 = 0 ∨ ∀ p, ¬Available s false p)) := by
  obtain ⟨fileName,s,out,_,booted⟩ := small_named
  exact ⟨fileName,s,out,booted,failed_start_iff (m := ⟨s,[]⟩) booted List.mem_cons_self 3222295040 none⟩

/-- The directory of a process without an executable is lost. -/
theorem failed_start_keeps_directory :
    ∃ fileName s out m', Booted smallKernel s (page false fileName :: out) ∧
      startProcess smallKernel fileName 3222295040 none ⟨s,[]⟩ = .ok (some false,m') ∧ ¬GivenBack fileName ⟨s,[]⟩ m' := by
  obtain ⟨fileName,s,out,named,booted⟩ := small_named
  have returned : smallNext.toOption = some 3222286336 := by decide +kernel
  unfold smallNext at returned
  rw [go named] at returned
  dsimp only at returned
  have room : ∃ p, Available s false p := by
    rcases booted.sound.get false false with none | ⟨p,s',got,nonzero,_⟩
    · rw [go none] at returned
      change some 0 = some 3222286336 at returned
      contradiction
    · exact ⟨p,(booted.sound.available got).2 nonzero⟩
  rcases startProcess_cases (m := ⟨s,[]⟩) booted List.mem_cons_self 3222295040 none with
    ⟨zero | full,_⟩ | ⟨_,pd,done,m',before,ran,missing,after⟩
  · contradiction
  · obtain ⟨p,available⟩ := room
    exact absurd available (full p)
  · obtain rfl := missing rfl
    exact ⟨fileName,s,out,m',booted,ran,fun back => after (back.pages false pd before)⟩

end

end OsProj.Process
