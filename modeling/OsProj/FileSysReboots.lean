import OsProj.FileSysCutCalls

/-! One device in one kernel after another. The power goes off between calls or during a call, at
any sector that was to be written. -/
namespace OsProj.FileSys

open OsProj.Budget OsProj.ByteMemory OsProj.Faulting OsProj.Keyed

section
variable (dev : Device)

/-- The file of the free map is not one of a caller, so only its inode is closed. -/
def freeMapClose : M Unit := fun v =>
  match v.freeMapFile with
  | none => .ok ((),v)
  | some file => inodeClose dev file v

def filesysDone : M Unit := freeMapClose dev

end

inductive Turn where
  | call (e : Event)
  | shutDown
  | powerOff
  | cut (call : Call)

/-- A call, or the end of a kernel and the start of the next one. -/
inductive MachineStep (dev : Device) (past : List Turn) (v : Volume) : Turn → Volume → Prop where
  | call (step : Step dev [] v e v') : MachineStep dev past v (.call e) v'
  | shutDown (done : filesysDone dev v = .ok ((),v₁)) (boot : filesysInit dev false (Volume.boot v₁.disk) = .ok ((),v')) :
    MachineStep dev past v .shutDown v'
  | powerOff (boot : filesysInit dev false (Volume.boot v.disk) = .ok ((),v')) : MachineStep dev past v .powerOff v'
  | cut (admissible : Admissible v call) (cut : Cut (Power.exec dev call) v disk)
    (boot : filesysInit dev false (Volume.boot disk) = .ok ((),v')) : MachineStep dev past v (.cut call) v'

def Store.closed (s : Store) : Store := { s with handles := fun _ => none }

inductive StoreTurn (past : List Turn) (s : Store) : Turn → Store → Prop where
  | call (step : s.Step e s') : StoreTurn past s (.call e) s'
  | shutDown : StoreTurn past s .shutDown s.closed
  | powerOff : StoreTurn past s .powerOff s.closed
  | cut (cut : s.Cut call s') : StoreTurn past s (.cut call) s'.closed

/-- The machine was started on a device that it formatted. -/
def Cycled (dev : Device) (h : List Turn) (v : Volume) : Prop :=
  ∃ disk first, filesysInit dev true (Volume.boot disk) = .ok ((),first) ∧ History.Path (MachineStep dev) [] first h v

def Turn.Touches (v : Volume) (name : CString) (i : Nat) (turn : Turn) : Prop :=
  ∃ call, ((∃ e, turn = .call e ∧ e.call = call) ∨ turn = .cut call) ∧
    (call = .filesysRemove name ∨ ∃ file ∈ v.files, file.inode = i ∧
      ((∃ buffer size, call = .fileWrite file.id buffer size) ∨ ∃ buffer size ofs, call = .fileWriteAt file.id buffer size ofs))

section
variable {dev : Device} {v v' : Volume} {s s' : Store} {name : CString}

/-! Steps. -/

/-- Closing the file of the free map writes nothing. -/
theorem Inv.filesysDone_ok (inv : Inv dev v extra) : ∃ v₁, filesysDone dev v = .ok ((),v₁) ∧ v₁.disk = v.disk := by
  obtain ⟨inode,found,-,-⟩ := inv.mapOpen.inode
  obtain ⟨member,sector⟩ := find_key found
  have linked : inode.removed = false := by
    by_contra removed
    have removed : inode.removed = true := by simpa using removed
    have gone : 0 ∈ removedInodes v.openInodes := mem_removed.mpr ⟨inode,member,removed,sector⟩
    exact (List.nodup_cons.mp inv.layout.nodup).1 (List.mem_cons_of_mem _ (List.mem_append_right _ gone))
  refine ⟨{ v with openInodes := closeList v.openInodes inode },?_,rfl⟩
  have closed : freeMapClose dev v = FileSys.inodeClose dev 0 v := by
    unfold freeMapClose
    rw [inv.mapFile]
  exact closed.trans (inodeClose_plain found (.inr linked))

/-- A step of the machine is one of the store. -/
theorem MachineStep.refines (shown : Shows dev v s) (masked : Masked dev v) (step : MachineStep dev past v turn v') :
    Masked dev v' ∧ ∃ s', StoreTurn past s turn s' ∧ Shows dev v' s' := by
  cases step with
  | call step =>
    obtain ⟨inv',s',abstract,refines'⟩ := step_refines shown.inv shown.refines step
    exact ⟨keeps_exec _ _ _ _ masked step.2.1,s',.call abstract,inv',refines'⟩
  | shutDown done boot =>
    obtain ⟨v₂,done',disk⟩ := shown.inv.filesysDone_ok
    obtain ⟨-,rfl⟩ := Prod.mk.inj (Except.ok.inj (done.symm.trans done'))
    rw [disk] at boot
    exact ⟨filesysInit_masked boot,_,.shutDown,shown.remount masked boot⟩
  | powerOff boot => exact ⟨filesysInit_masked boot,_,.powerOff,shown.remount masked boot⟩
  | cut admissible cut boot =>
    obtain ⟨s',abstract,holds⟩ := exec_cut shown.inv masked shown.refines admissible cut
    obtain ⟨v₁,booted,masked',shown'⟩ := holds.boot
    obtain ⟨-,rfl⟩ := Prod.mk.inj (Except.ok.inj (boot.symm.trans booted))
    exact ⟨masked',_,.cut abstract,shown'⟩

theorem Cycled.shows (cycled : Cycled dev h v) :
    Masked dev v ∧ ∃ s, History.Path StoreTurn [] Store.empty h s ∧ Shows dev v s := by
  obtain ⟨disk,first,done,run⟩ := cycled
  induction run with
  | refl =>
    obtain ⟨inv,refines⟩ := format_inv done
    exact ⟨filesysInit_masked done,_,.refl,inv,refines⟩
  | snoc front last ih =>
    obtain ⟨masked,s,path,shown⟩ := ih
    obtain ⟨masked',s',turn,shown'⟩ := last.refines shown masked
    exact ⟨masked',s',.snoc path turn,shown'⟩

theorem Shows.powerOff (shown : Shows dev v s) (masked : Masked dev v) : ∃ v', MachineStep dev past v .powerOff v' := by
  obtain ⟨v',boot,-⟩ := (Inv.holds shown.inv masked (shown.refines.lists shown.inv)).boot
  exact ⟨v',.powerOff boot⟩

theorem Shows.shutDown (shown : Shows dev v s) (masked : Masked dev v) : ∃ v', MachineStep dev past v .shutDown v' := by
  obtain ⟨v₁,done,disk⟩ := shown.inv.filesysDone_ok
  obtain ⟨v',boot,-⟩ := (Inv.holds shown.inv masked (shown.refines.lists shown.inv)).boot
  rw [← disk] at boot
  exact ⟨v',.shutDown done boot⟩

/-! A small device. -/

theorem small_cycled : Cycled smallDevice [] smallVolume := by
  obtain ⟨disk,first,done,run⟩ := small_formatted
  cases run
  exact ⟨disk,_,done,.refl⟩

def smallName : CString := ⟨[97],by decide⟩

def smallCreate : Call := .filesysCreate smallName 600

theorem small_admissible : Admissible smallVolume smallCreate := by
  refine ⟨⟨by decide,by decide⟩,fun id named => ?_⟩
  contradiction

theorem small_created : ∃ e v i, Cycled smallDevice [.call e] v ∧ v.inodeOf smallName = some i := by
  obtain ⟨disk,first,done,run⟩ := small_cycled
  cases run
  have placeable : Placeable Store.empty.names smallName := by
    refine ⟨⟨by decide,by decide⟩,rfl,?_⟩
    rintro ⟨taken,card,used⟩
    obtain ⟨name,member⟩ := Finset.card_pos.mp (card.symm ▸ (by decide : 0 < rootEntries))
    exact Bool.false_ne_true (used name member)
  have space : formattedSectors smallDevice + 1 + dataSectors 600 ≤ smallDevice.size := by decide
  obtain ⟨v,i,made,-,⟨shown,-,-⟩⟩ := (format_filled done).create placeable space
  have ran : exec smallDevice smallCreate smallVolume = .ok (.success true,v) := bind_go made
  refine ⟨⟨smallCreate,.success true,callRoom smallDevice smallVolume smallCreate⟩,v,i,⟨disk,_,done,.snoc .refl (.call ?_)⟩,?_⟩
  · exact ⟨small_admissible,ran,rfl⟩
  have found : Function.update Store.empty.names smallName (some i) smallName = some i := Function.update_self _ _ _
  exact (congrFun shown.refines.names smallName).symm.trans found

/-- With power for two writes the call is cut. -/
theorem small_cut : ∃ disk, Cut (Power.exec smallDevice smallCreate) smallVolume disk := by
  have spent : (match Power.exec smallDevice smallCreate (2,smallVolume) with
      | .error (.spent _) => true
      | _ => false) = true := by decide +kernel
  split at spent
  · rename_i disk stopped
    exact ⟨disk,2,stopped⟩
  · contradiction

/-! The store. -/

/-- Over any calls, whether they return or the power goes off during them, and any number of
kernels, what is on the device is a store of names and bytes: calls return, and the next kernel
starts. -/
theorem machine_refines_store (cycled : Cycled dev h v) :
    (∃ s, History.Path StoreTurn [] Store.empty h s ∧ Refines v s) ∧
      (∀ call, Admissible v call → ∃ result v', exec dev call v = .ok (result,v')) ∧
      (∃ v', MachineStep dev h v .shutDown v') ∧ (∃ v', MachineStep dev h v .powerOff v') ∧
      ∀ call disk, Admissible v call → Cut (Power.exec dev call) v disk →
        ∃ v', filesysInit dev false (Volume.boot disk) = .ok ((),v') := by
  obtain ⟨masked,s,path,shown⟩ := cycled.shows
  refine ⟨⟨s,path,shown.refines⟩,?_,shown.shutDown masked,shown.powerOff masked,?_⟩
  · intro call admissible
    obtain ⟨result,v',-,done,-⟩ := simulated shown.inv shown.refines admissible
    exact ⟨result,v',done⟩
  · intro call disk admissible cut
    obtain ⟨s',-,holds⟩ := exec_cut shown.inv masked shown.refines admissible cut
    obtain ⟨v',boot,-⟩ := holds.boot
    exact ⟨v',boot⟩

theorem machine_refines_store_cut : ∃ v, Cycled smallDevice [.cut smallCreate] v ∧
    (∃ s, History.Path StoreTurn [] Store.empty [.cut smallCreate] s ∧ Refines v s) ∧
      (∀ call, Admissible v call → ∃ result v', exec smallDevice call v = .ok (result,v')) ∧
      (∃ v', MachineStep smallDevice [.cut smallCreate] v .shutDown v') ∧
      (∃ v', MachineStep smallDevice [.cut smallCreate] v .powerOff v') ∧
      ∀ call disk, Admissible v call → Cut (Power.exec smallDevice call) v disk →
        ∃ v', filesysInit smallDevice false (Volume.boot disk) = .ok ((),v') := by
  obtain ⟨disk,cut⟩ := small_cut
  obtain ⟨v,boot⟩ := (machine_refines_store small_cycled).2.2.2.2 _ disk small_admissible cut
  obtain ⟨first,start,done,run⟩ := small_cycled
  have cycled : Cycled smallDevice [.cut smallCreate] v := ⟨first,start,done,run.snoc (.cut small_admissible cut boot)⟩
  exact ⟨v,cycled,machine_refines_store cycled⟩

/-! What is kept. -/

/-- A name and its file are left alone by turns that do not touch them. -/
theorem StoreTurn.spares (refines : Refines v s) (found : s.names name = some i) (spared : ¬ turn.Touches v name i)
    (step : StoreTurn past s turn s') : s'.names name = some i ∧ s'.bytes i = s.bytes i := by
  have other_name {name' : CString} (removes : ∃ call, ((∃ e, turn = .call e ∧ e.call = call) ∨ turn = .cut call) ∧
      call = .filesysRemove name') : name ≠ name' := by
    rintro rfl
    obtain ⟨call,which,removes⟩ := removes
    exact spared ⟨call,which,.inl removes⟩
  have other_file {f object pos deny} (handle : s.handles f = some ⟨object,pos,deny⟩)
      (writes : ∃ call, ((∃ e, turn = .call e ∧ e.call = call) ∨ turn = .cut call) ∧
        ((∃ buffer size, call = .fileWrite f buffer size) ∨ ∃ buffer size ofs, call = .fileWriteAt f buffer size ofs)) : i ≠ object := by
    rintro rfl
    obtain ⟨call,which,writes⟩ := writes
    exact spared ⟨call,which,.inr ⟨_,refines.file_of handle,rfl,writes⟩⟩
  cases step with
  | shutDown => exact ⟨found,rfl⟩
  | powerOff => exact ⟨found,rfl⟩
  | cut cut =>
    cases cut with
    | before => exact ⟨found,rfl⟩
    | removed gone =>
      have other := other_name ⟨_,.inr rfl,rfl⟩
      exact ⟨(Function.update_of_ne other _ _).trans found,rfl⟩
    | write handle =>
      have other := other_file handle ⟨_,.inr rfl,.inl ⟨_,_,rfl⟩⟩
      exact ⟨found,Function.update_of_ne other _ _⟩
    | writeAt handle =>
      have other := other_file handle ⟨_,.inr rfl,.inr ⟨_,_,_,rfl⟩⟩
      exact ⟨found,Function.update_of_ne other _ _⟩
  | call step =>
    cases step with
    | created placeable unused =>
      refine ⟨(Function.update_of_ne ?_ _ _).trans found,Function.update_of_ne ?_ _ _⟩
      · rintro rfl
        exact nomatch placeable.2.1.symm.trans found
      · rintro rfl
        exact unused.1 name found
    | removed gone =>
      have other := other_name ⟨_,.inl ⟨_,rfl,rfl⟩,rfl⟩
      exact ⟨(Function.update_of_ne other _ _).trans found,rfl⟩
    | write handle =>
      have other := other_file handle ⟨_,.inl ⟨_,rfl,rfl⟩,.inl ⟨_,_,rfl⟩⟩
      exact ⟨found,Function.update_of_ne other _ _⟩
    | writeAt handle =>
      have other := other_file handle ⟨_,.inl ⟨_,rfl,rfl⟩,.inr ⟨_,_,_,rfl⟩⟩
      exact ⟨found,Function.update_of_ne other _ _⟩
    | _ => exact ⟨found,rfl⟩

/-- A file that has a name is found again under it with the same bytes, after any calls and any
cuts of the power that do not touch it. -/
theorem file_survives (cycled : Cycled dev past v) (found : v.inodeOf name = some i)
    (run : History.Path (History.Guarded (MachineStep dev) fun _ w turn => ¬ turn.Touches w name i) past v h v')
    (buffer : Memory) (size : Int) : v'.inodeOf name = some i ∧ ∃ f v₁ v₂,
      filesysOpen dev name v' = .ok (some f,v₁) ∧
      fileRead dev f buffer size v₁ =
        .ok ((min size.toNat (v.bytesOf i).length,readInto buffer (v.bytesOf i) 0 (min size.toNat (v.bytesOf i).length)),v₂) := by
  obtain ⟨masked,s,-,shown⟩ := cycled.shows
  have start : Masked dev v ∧ ∃ s, Shows dev v s ∧ s.names name = some i ∧ s.bytes i = v.bytesOf i := by
    obtain ⟨named,bytes,-⟩ := shown.file found
    exact ⟨masked,s,shown,named,bytes⟩
  obtain ⟨-,s',shown',named,bytes⟩ := run.invariant
    (fun _ w => Masked dev w ∧ ∃ s, Shows dev w s ∧ s.names name = some i ∧ s.bytes i = v.bytesOf i) (by
      rintro past w turn w' ⟨masked,s,shown,named,bytes⟩ ⟨step,spared⟩
      obtain ⟨masked',s',turned,shown'⟩ := step.refines shown masked
      obtain ⟨named',bytes'⟩ := turned.spares shown.refines named spared
      exact ⟨masked',s',shown',named',bytes'.trans bytes⟩) start
  obtain ⟨v₁,f,opened,-,shown₁,-⟩ := shown'.openFile named
  obtain ⟨v₂,read,-⟩ := shown₁.readFile (Function.update_self _ _ _) buffer size
  have same : (s'.setHandle f (some ⟨i,0,false⟩)).bytes i = v.bytesOf i := bytes
  rw [same,transfer,Nat.sub_zero] at read
  exact ⟨by rw [← shown'.refines.names,named],f,v₁,v₂,opened,read⟩

/-- A new file is there when the power comes back. -/
theorem file_survives_powerOff : ∃ e v i v', Cycled smallDevice [.call e] v ∧ v.inodeOf smallName = some i ∧
    MachineStep smallDevice [.call e] v .powerOff v' ∧ v'.inodeOf smallName = some i ∧ ∃ f v₁ v₂,
      filesysOpen smallDevice smallName v' = .ok (some f,v₁) ∧
      fileRead smallDevice f (fun _ => 0) 1000 v₁ = .ok ((min (1000 : Int).toNat (v.bytesOf i).length,
        readInto (fun _ => 0) (v.bytesOf i) 0 (min (1000 : Int).toNat (v.bytesOf i).length)),v₂) := by
  obtain ⟨e,v,i,cycled,named⟩ := small_created
  obtain ⟨masked,s,-,shown⟩ := cycled.shows
  obtain ⟨v',off⟩ : ∃ v', MachineStep smallDevice [.call e] v .powerOff v' := shown.powerOff masked
  have spared : ¬ Turn.powerOff.Touches v smallName i := by
    rintro ⟨call,⟨e,other,-⟩ | other,-⟩
    · exact nomatch other
    · exact nomatch other
  exact ⟨e,v,i,v',cycled,named,off,file_survives cycled named (.snoc .refl ⟨off,spared⟩) _ _⟩

end

end OsProj.FileSys
