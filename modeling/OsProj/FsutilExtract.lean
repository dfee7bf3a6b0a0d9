import OsProj.FileSysMounted
import OsProj.FsutilAppend

/-! Extracting the files of an archive to a volume without files. -/
namespace OsProj.Fsutil

open OsProj.ByteMemory OsProj.Faulting OsProj.FileSys OsProj.Ustar

def Exactly (s : Store) (files : List Entry) : Prop :=
  ∀ name bytes, (∃ i, s.names name = some i ∧ s.bytes i = bytes) ↔ (name,bytes) ∈ files

section
variable {fs dev : Device} {m : Machine} {s : Store} {name : CString} {content : List UInt8} {files : List Entry} {f i pos size : Nat}

/-- A file of which the front is written, with more written behind it. -/
theorem overwrite_front {data : Memory} (length : content.length = pos + size) (some_ : n ≤ size)
    (bytes : ∀ k < n, data k = content.getD (pos + k) 0) :
    overwrite (content.take pos ++ List.replicate size 0) pos n data =
      content.take (pos + n) ++ List.replicate (size - n) 0 := by
  apply List.ext_getElem
  · simp only [overwrite,List.length_mapIdx,List.length_append,List.length_take,List.length_replicate]
    omega
  · intro k inside inside'
    simp only [overwrite,List.getElem_mapIdx]
    simp only [overwrite,List.length_mapIdx,List.length_append,List.length_take,List.length_replicate] at inside
    by_cases front : k < pos
    · rw [if_neg (by omega),List.getElem_append_left (by simp; omega),List.getElem_append_left (by simp; omega),
        List.getElem_take,List.getElem_take]
    by_cases written : k < pos + n
    · rw [if_pos (by omega),List.getElem_append_left (by simp; omega),List.getElem_take,bytes _ (by omega)]
      have place : pos + (k - pos) = k := by omega
      rw [place,List.getD_eq_getElem?_getD,List.getElem?_eq_getElem (by omega)]
      rfl
    · rw [if_neg (by omega),List.getElem_append_right (by simp; omega),List.getElem_append_right (by simp; omega),
        List.getElem_replicate,List.getElem_replicate]

def Alone (s : Store) (f : Nat) : Prop := ∀ f', f' ≠ f → s.handles f' = none

theorem Alone.allowed (alone : Alone s f) : ¬ (s.setHandle f (some ⟨i,pos,false⟩)).Denied j := by
  rintro ⟨f',handle,found,-,denied⟩
  by_cases same : f' = f
  · subst same
    rw [setHandle_same] at found
    cases found
    contradiction
  · simp only [Store.setHandle,Function.update_of_ne same,alone f' same] at found
    contradiction

theorem copyLoop_ok (name : CString) (filled : Filled fs m.volume (s.setHandle f (some ⟨i,pos,false⟩)) used) (alone : Alone s f)
    (length : content.length = pos + size) (bytes : s.bytes i = content.take pos ++ List.replicate size 0)
    (enough : size ≤ bound) (room : m.extractSector + dataSectors size ≤ dev.size)
    (data : ∀ k < size, m.scratch (blockSectorSize * m.extractSector + k) = content.getD (pos + k) 0) :
    ∃ v, copyLoop fs dev name f bound size m =
        .ok ((),{ m with volume := v, extractSector := m.extractSector + dataSectors size }) ∧
      Filled fs v (Store.setHandle { s with bytes := Function.update s.bytes i content } f (some ⟨i,pos + size,false⟩)) used := by
  induction bound generalizing m s pos size with
  | zero =>
    obtain rfl : size = 0 := by omega
    have same : s.bytes i = content := by simp [bytes,length]
    refine ⟨m.volume,rfl,?_⟩
    rw [← same,Function.update_eq_self]
    exact filled
  | succ bound ih =>
    rw [copyLoop]
    by_cases done : size = 0
    · subst done
      have same : s.bytes i = content := by simp [bytes,length]
      refine ⟨m.volume,rfl,?_⟩
      rw [← same,Function.update_eq_self]
      exact filled
    · let n := min size blockSectorSize
      have most : n ≤ size := Nat.min_le_left _ _
      have sectors : dataSectors size = 1 + dataSectors (size - n) := by
        simp only [n,dataSectors,blockSectorSize] at *
        omega
      have whole : transfer (s.bytes i) n pos = n := by
        have long : (s.bytes i).length = pos + size := by simp [bytes,length]
        rw [transfer,long]
        omega
      let chunk := paste (fun _ => 0) 0 m.scratch (blockSectorSize * m.extractSector) blockSectorSize
      have front k (inside : k < n) : chunk k = content.getD (pos + k) 0 := by
        have byte := paste_inside (fun _ => 0) 0 m.scratch (blockSectorSize * m.extractSector)
          (Nat.lt_of_lt_of_le inside (Nat.min_le_right _ _))
        rw [Nat.zero_add] at byte
        exact byte.trans (data k (by omega))
      obtain ⟨v,wrote,shown,bits⟩ := filled.toShows.writeFile setHandle_same alone.allowed chunk n
      let s₁ : Store := { s with bytes := Function.update s.bytes i (content.take (pos + n) ++ List.replicate (size - n) 0) }
      have after : overwrite (s.bytes i) pos n chunk = content.take (pos + n) ++ List.replicate (size - n) 0 := by
        rw [bytes]
        exact overwrite_front length most front
      have store : Store.setHandle { s.setHandle f (some ⟨i,pos,false⟩) with
          bytes := Function.update s.bytes i (overwrite (s.bytes i) pos (transfer (s.bytes i) n pos) chunk) } f
          (some ⟨i,pos + transfer (s.bytes i) n pos,false⟩) = s₁.setHandle f (some ⟨i,pos + n,false⟩) := by
        rw [whole,after]
        simp only [s₁,Store.setHandle,Function.update_idem]
      have wrote : fileWrite fs f chunk n m.volume = .ok (transfer (s.bytes i) n pos,v) := wrote
      rw [whole] at wrote
      have filled₁ : Filled fs v (s₁.setHandle f (some ⟨i,pos + n,false⟩)) used := filled.same (store ▸ shown) bits
      let m₁ : Machine := { m with volume := v, extractSector := m.extractSector + 1 }
      have later k (inside : k < size - n) : m₁.scratch (blockSectorSize * m₁.extractSector + k) =
          content.getD (pos + n + k) 0 := by
        have place : blockSectorSize * m₁.extractSector + k = blockSectorSize * m.extractSector + (n + k) := by
          simp only [m₁,n,blockSectorSize] at *
          omega
        rw [place,Nat.add_assoc]
        exact data (n + k) (by omega)
      obtain ⟨v',ran,filled'⟩ := ih (m := m₁) (s := s₁) filled₁ alone (by omega) (Function.update_self _ _ _)
        (by simp only [n,blockSectorSize]; omega) (by simp only [m₁]; omega) later
      refine ⟨v',?_,?_⟩
      · rw [if_neg done]
        refine (bind_go (extractRead_ok (by omega))).trans ?_
        refine (bind_go (onVolume_ok (m := { m with extractSector := m.extractSector + 1 }) wrote)).trans ?_
        rw [if_neg fun different => different rfl]
        refine ran.trans ?_
        simp only [m₁,sectors,Nat.add_assoc]
      · have reached : pos + n + (size - n) = pos + size := by omega
        simp only [s₁,Function.update_idem,reached] at filled'
        exact filled'

/-- A new file with the bytes that follow its header. -/
theorem extractFile_ok (content : List UInt8) (filled : Filled fs m.volume s used) (closed : s.handles = fun _ => none) (placeable : Placeable s.names name)
    (space : used + 1 + dataSectors content.length ≤ fs.size) (room : m.extractSector + dataSectors content.length ≤ dev.size)
    (data : ∀ k < content.length, m.scratch (blockSectorSize * m.extractSector + k) = content.getD k 0) :
    ∃ v i, extractFile fs dev name content.length m =
        .ok ((),{ m with volume := v, extractSector := m.extractSector + dataSectors content.length }) ∧ s.Unused i ∧
      Filled fs v { s with names := Function.update s.names name (some i), bytes := Function.update s.bytes i content }
        (used + 1 + dataSectors content.length) := by
  obtain ⟨v₁,i,created,unused,filled₁⟩ := filled.create placeable space
  obtain ⟨v₂,f,opened,free,shown₂,bits₂⟩ := filled₁.toShows.openFile (Function.update_self _ _ _)
  have alone : Alone { s with
      names := Function.update s.names name (some i)
      bytes := Function.update s.bytes i (List.replicate content.length 0) } f := fun f' _ => congrFun closed f'
  obtain ⟨v₃,ran,filled₃⟩ := copyLoop_ok (m := { m with volume := v₂ }) name (filled₁.same shown₂ bits₂) alone
    (Nat.zero_add _).symm (Function.update_self _ _ _) (Nat.le_refl _) room (by simpa using data)
  obtain ⟨v₄,shut,shown₄,bits₄⟩ := filled₃.toShows.closeFile setHandle_same (Function.update_self _ _ _)
  refine ⟨v₄,i,?_,unused,?_⟩
  · refine (bind_go (onVolume_ok created)).trans ?_
    refine (bind_go (onVolume_ok (m := { m with volume := v₁ }) opened)).trans ?_
    refine (bind_go ran).trans ?_
    exact onVolume_ok shut
  · have clear : Function.update s.handles f none = s.handles := by
      have free : s.handles f = none := free
      rw [← free,Function.update_eq_self]
    simp only [Store.setHandle,Function.update_idem,clear] at shown₄
    exact filled₃.same shown₄ bits₄

/-- A name that is not among so few files can be added. -/
theorem Exactly.placeable (exactly : Exactly s files) (valid : ValidName name) (new : name ∉ files.map Prod.fst)
    (few : files.length < rootEntries) : Placeable s.names name := by
  have listed other (found : (s.names other).isSome) : other ∈ files.map Prod.fst := by
    obtain ⟨i,some_⟩ := Option.isSome_iff_exists.mp found
    exact List.mem_map_of_mem (f := Prod.fst) ((exactly other _).mp ⟨i,some_,rfl⟩)
  refine ⟨valid,?_,?_⟩
  · by_contra some_
    exact new (listed name (Option.isSome_iff_ne_none.mpr some_))
  · rintro ⟨taken,card,found⟩
    have subset : taken ⊆ (files.map Prod.fst).toFinset := fun other here => List.mem_toFinset.mpr (listed other (found other here))
    have fewer := (Finset.card_le_card subset).trans (List.toFinset_card_le _)
    rw [List.length_map] at fewer
    omega

theorem Exactly.snoc (exactly : Exactly s files) (absent : s.names name = none) (unused : s.Unused i) :
    Exactly { s with names := Function.update s.names name (some i), bytes := Function.update s.bytes i content }
      (files ++ [(name,content)]) := by
  intro other bytes
  rw [List.mem_append,List.mem_singleton,← exactly other bytes,Prod.mk.injEq]
  by_cases same : other = name
  · subst same
    simp only [Function.update_self,Option.some.injEq,absent,reduceCtorEq,false_and,exists_false,true_and,false_or]
    constructor
    · rintro ⟨j,rfl,read⟩
      rw [Function.update_self] at read
      exact read.symm
    · rintro rfl
      exact ⟨i,rfl,Function.update_self _ _ _⟩
  · simp only [Function.update_of_ne same,same,false_and,or_false]
    refine exists_congr fun j => and_congr_right fun found => ?_
    rw [Function.update_of_ne]
    rintro rfl
    exact unused.1 other found

/-- The sector read as a header. -/
theorem header_read {scratch h : Memory} (bytes : ∀ k < blockSectorSize, scratch (blockSectorSize * pos + k) = h k) :
    ustarParseHeader (paste (fun _ => 0) 0 scratch (blockSectorSize * pos) blockSectorSize) = ustarParseHeader h := by
  refine ustarParseHeader_congr fun k inside => ?_
  have byte := paste_inside (fun _ => 0) 0 scratch (blockSectorSize * pos) inside
  rw [Nat.zero_add] at byte
  exact byte.trans (bytes k inside)

theorem blank_eof : ustarParseHeader (fun _ => 0) = .ok .eof := by
  have zero : isAllZeros (fun _ => 0) ustarHeaderSize = true := by simp [isAllZeros]
  rw [ustarParseHeader,if_pos zero]

theorem Entered.parsed {scratch : Memory} {entry : Entry} (entered : Entered scratch pos entry)
    (plain : stripAntisocialPrefixes entry.1 = entry.1) (short : entry.1.val.length ≤ 99) (small : entry.2.length ≤ 2147483647) :
    ustarParseHeader (paste (fun _ => 0) 0 scratch (blockSectorSize * pos) blockSectorSize) =
      .ok (.regular entry.1 entry.2.length) := by
  obtain ⟨h,made,bytes⟩ := entered.header
  obtain ⟨h',made',parsed⟩ := ustar_round_trip plain short small
  obtain rfl : h = h' := Option.some.inj (made.symm.trans made')
  rw [header_read bytes,parsed]

/-- All files of the archive join those that are there already. -/
theorem extractLoop_ok (filled : Filled fs m.volume s used) (closed : s.handles = fun _ => none) (exactly : Exactly s before)
    (archived : Archived m.scratch files m.extractSector last) (blank : Blank m.scratch last) (inside : last < dev.size)
    (valid : ∀ f ∈ files, ValidName f.1) (plain : ∀ f ∈ files, stripAntisocialPrefixes f.1 = f.1)
    (distinct : ((before ++ files).map Prod.fst).Nodup) (few : (before ++ files).length ≤ rootEntries)
    (space : used + (files.map Entry.sectors).sum ≤ fs.size) (enough : files.length < bound) :
    ∃ m' s', extractLoop fs dev bound m = .ok ((),m') ∧ Shows fs m'.volume s' ∧ Exactly s' (before ++ files) := by
  induction files generalizing m s used before bound with
  | nil =>
    obtain _ | bound := bound
    · contradiction
    obtain rfl : m.extractSector = last := archived
    refine ⟨{ m with extractSector := m.extractSector + 1 },s,?_,filled.toShows,by rwa [List.append_nil]⟩
    refine (bind_go rfl).trans ((bind_go (extractRead_ok inside)).trans ?_)
    rw [header_read blank,blank_eof]
    rfl
  | cons entry rest ih =>
    obtain _ | bound := bound
    · contradiction
    obtain ⟨name,content⟩ := entry
    obtain ⟨entered,archived⟩ := archived
    have later := archived.le
    simp only [List.map_cons,List.sum_cons,List.length_cons,List.length_append,Entry.sectors] at space few enough later
    have valid_ : ValidName name := valid _ List.mem_cons_self
    have fits := bytesToSectors_fits (show used + 1 + dataSectors content.length ≤ fs.size by omega)
    have short : name.val.length ≤ 99 := valid_.2.trans (by decide)
    have parsed := entered.parsed (plain _ List.mem_cons_self) short
      (show content.length ≤ _ by omega)
    have new : name ∉ before.map Prod.fst := by
      rw [List.map_append,List.nodup_append] at distinct
      intro here
      exact distinct.2.2 name here name List.mem_cons_self rfl
    have placeable := exactly.placeable valid_ new (by omega)
    obtain ⟨v,i,ran,unused,filled'⟩ := extractFile_ok (m := { m with extractSector := m.extractSector + 1 })
      content filled closed placeable (by omega) (show m.extractSector + 1 + dataSectors content.length ≤ dev.size by omega) entered.data
    have first : m.extractSector < dev.size := by omega
    have next : m.extractSector + 1 + dataSectors content.length = m.extractSector + Entry.sectors (name,content) := by
      simp only [Entry.sectors]
      omega
    rw [next] at ran
    have shape : before ++ (name,content) :: rest = before ++ [(name,content)] ++ rest := by simp
    rw [shape] at distinct
    obtain ⟨m',s',ran',shown',exactly'⟩ := ih (m := { m with volume := v, extractSector := m.extractSector + Entry.sectors (name,content) })
      (s := { s with names := Function.update s.names name (some i), bytes := Function.update s.bytes i content })
      filled' closed (exactly.snoc placeable.2.1 unused) archived blank
      (fun f here => valid f (List.mem_cons_of_mem _ here)) (fun f here => plain f (List.mem_cons_of_mem _ here)) distinct
      (by simp; omega) (by omega) (show rest.length < bound by omega)
    refine ⟨m',s',?_,shown',shape ▸ exactly'⟩
    refine (bind_go rfl).trans ((bind_go (extractRead_ok first)).trans ?_)
    rw [parsed]
    exact (bind_go ran).trans ran'

theorem exactly_empty : Exactly Store.empty [] := by
  intro name bytes
  simp [Store.empty]

/-- On a formatted volume there are the files of the archive and no others. -/
theorem fsutilExtract_ok (formatted : filesysInit fs true (Volume.boot disk) = .ok ((),m.volume)) (fresh : m.extractSector = 0)
    (archived : Archived m.scratch files 0 last) (blank : Blank m.scratch last) (inside : last + 2 ≤ dev.size)
    (valid : ∀ f ∈ files, ValidName f.1) (plain : ∀ f ∈ files, stripAntisocialPrefixes f.1 = f.1)
    (distinct : (files.map Prod.fst).Nodup) (few : files.length ≤ rootEntries)
    (space : formattedSectors fs + (files.map Entry.sectors).sum ≤ fs.size) (enough : files.length ≤ last) :
    ∃ m' s, fsutilExtract fs dev m = .ok ((),m') ∧ Shows fs m'.volume s ∧ Exactly s files := by
  rw [← fresh] at archived
  obtain ⟨m',s,ran,shown,exactly⟩ := extractLoop_ok (format_filled formatted) rfl exactly_empty archived blank
    (show last < dev.size by omega) valid plain distinct few space (show files.length < dev.size + 1 by omega)
  have first : 0 < dev.size := by omega
  have second : 1 < dev.size := by omega
  exact ⟨_,s,(bind_go ran).trans ((bind_go (scratchWrite_ok first _)).trans (scratchWrite_ok second _)),shown,exactly⟩

end

/-! The round trip. -/

section
variable {source target scratch : Device} {v v' : Volume} {files : List Entry}

theorem sectors_pos (files : List Entry) : files.length ≤ (files.map Entry.sectors).sum := by
  have counted : (files.map Entry.sectors).length ≤ (files.map Entry.sectors).sum := by
    apply List.length_le_sum_of_one_le
    intro sectors member
    obtain ⟨entry,-,rfl⟩ := List.mem_map.mp member
    simp only [Entry.sectors]
    omega
  rwa [List.length_map] at counted

/-- Files that one kernel appends to an archive are what another one extracts from it to a new
file system, and nothing else is there. -/
theorem archive_round_trip (nonempty : files ≠ []) (distinct : (files.map Prod.fst).Nodup)
    (plain : ∀ f ∈ files, stripAntisocialPrefixes f.1 = f.1) (mounted : Mounted source v)
    (held : ∀ f ∈ files, ∃ i, v.inodeOf f.1 = some i ∧ v.bytesOf i = f.2)
    (formatted : filesysInit target true (Volume.boot disk) = .ok ((),v')) (slots : files.length ≤ rootEntries)
    (space : formattedSectors target + (files.map Entry.sectors).sum ≤ target.size)
    (room : (files.map Entry.sectors).sum + 2 ≤ scratch.size) (before : Memory) :
    ∃ m m', appendAll source scratch (files.map Prod.fst) (Machine.boot v before) = .ok ((),m) ∧
      fsutilExtract target scratch (Machine.boot v' m.scratch) = .ok ((),m') ∧
      ∀ name bytes, (∃ i, m'.volume.inodeOf name = some i ∧ m'.volume.bytesOf i = bytes) ↔ (name,bytes) ∈ files := by
  obtain ⟨-,s,shown⟩ := mounted.shows
  have stored f (here : f ∈ files) : ∃ i, s.names f.1 = some i ∧ s.bytes i = f.2 := by
    obtain ⟨i,found,bytes⟩ := held f here
    obtain ⟨named,same,-⟩ := shown.file found
    exact ⟨i,named,same.trans bytes⟩
  have valid f (here : f ∈ files) : ValidName f.1 := by
    obtain ⟨i,found,-⟩ := held f here
    exact (shown.file found).2.2
  have short f (here : f ∈ files) : f.1.val.length ≤ 99 := (valid f here).2.trans (by decide)
  obtain ⟨m,appended,sector,archived,blank,-⟩ := appendAll_ok (m := Machine.boot v before) shown stored plain short
    (show 0 + (files.map Entry.sectors).sum + 2 ≤ scratch.size by omega)
  have last : m.appendSector = (files.map Entry.sectors).sum := sector.trans (Nat.zero_add _)
  rw [last] at archived blank
  obtain ⟨m',s',extracted,shown',exactly⟩ := fsutilExtract_ok (m := Machine.boot v' m.scratch) formatted rfl archived
    (blank nonempty) room valid plain distinct slots space (sectors_pos files)
  refine ⟨m,m',appended,extracted,fun name bytes => ?_⟩
  rw [← exactly name bytes,shown'.refines.names]
  refine exists_congr fun i => and_congr_right fun found => ?_
  rw [(shown'.file found).2.1]

theorem archive_round_trip_one :
    ∃ v m m', Mounted smallDevice v ∧ appendAll smallDevice smallDevice [⟨[97],by decide⟩] (Machine.boot v fun _ => 0) = .ok ((),m) ∧
      fsutilExtract smallDevice smallDevice (Machine.boot smallVolume m.scratch) = .ok ((),m') ∧
      ∀ name bytes, (∃ i, m'.volume.inodeOf name = some i ∧ m'.volume.bytesOf i = bytes) ↔
        (name,bytes) ∈ [((⟨[97],by decide⟩ : CString),List.replicate 3 (0 : UInt8))] := by
  obtain ⟨disk,first,formatted,run⟩ := small_formatted
  cases run
  have placeable : Placeable Store.empty.names ⟨[97],by decide⟩ :=
    exactly_empty.placeable ⟨by decide,by decide⟩ (by simp) (by decide)
  have space : formattedSectors smallDevice + 1 + dataSectors 3 ≤ smallDevice.size := by decide
  obtain ⟨v,i,created,-,filled⟩ := (format_filled formatted).create placeable space
  have admissible : Admissible smallVolume (.filesysCreate ⟨[97],by decide⟩ 3) :=
    ⟨⟨by decide,by decide⟩,fun id file => by cases file⟩
  have ran : exec smallDevice (.filesysCreate ⟨[97],by decide⟩ 3) smallVolume = .ok (.success true,v) := bind_go created
  have mounted : Mounted smallDevice v := (Mounted.format formatted).call admissible ran
  have found : v.inodeOf ⟨[97],by decide⟩ = some i := by
    have named := congrFun filled.refines.names ⟨[97],by decide⟩
    simp only [Function.update_self] at named
    exact named.symm
  have bytes : v.bytesOf i = List.replicate 3 0 := by
    rw [← (filled.toShows.file found).2.1]
    exact Function.update_self _ _ _
  have nonempty : [((⟨[97],by decide⟩ : CString),List.replicate 3 (0 : UInt8))] ≠ [] := List.cons_ne_nil _ _
  obtain ⟨m,m',appended,extracted,files⟩ := archive_round_trip nonempty
    (by simp) (by simp; decide) mounted (by simpa using ⟨i,found,bytes⟩) formatted (by decide) (by decide)
    (show _ ≤ smallDevice.size by decide) fun _ => 0
  exact ⟨v,m,m',mounted,appended,extracted,files⟩

end

end OsProj.Fsutil
