import OsProj.FsutilArchive

/-! Appending files to the archive. -/
namespace OsProj.Fsutil

open OsProj.ByteMemory OsProj.Faulting OsProj.FileSys OsProj.Ustar

section
variable {fs dev : Device} {m : Machine} {s : Store} {name : CString} {f i pos size : Nat} {handle handle' : Option Handle}

theorem setHandle_twice : (s.setHandle f handle).setHandle f handle' = s.setHandle f handle' := by
  simp only [Store.setHandle,Function.update_idem]

theorem setHandle_same : (s.setHandle f handle).handles f = handle := by
  simp only [Store.setHandle,Function.update_self]

/-- A handle that is closed again leaves no trace. -/
theorem setHandle_restored (free : s.handles f = none) : (s.setHandle f handle).setHandle f none = s := by
  rw [setHandle_twice,Store.setHandle,← free,Function.update_eq_self]

/-- The machine after some bytes of a file were appended, from its position on. -/
structure Appended (m m' : Machine) (bytes : List UInt8) (pos size : Nat) : Prop where
  sector : m'.appendSector = m.appendSector + dataSectors size
  below : ∀ a < blockSectorSize * m.appendSector, m'.scratch a = m.scratch a
  data : ∀ k < size, m'.scratch (blockSectorSize * m.appendSector + k) = bytes.getD (pos + k) 0

/-- A sector of a file, and then the others. -/
theorem Appended.cons {m m₁ m' : Machine} {chunk : Memory}
    (front : m₁.scratch = paste m.scratch (blockSectorSize * m.appendSector) chunk 0 blockSectorSize)
    (next : m₁.appendSector = m.appendSector + 1) (positive : 0 < size)
    (bytes_ : ∀ k < min size blockSectorSize, chunk k = bytes.getD (pos + k) 0)
    (rest : Appended m₁ m' bytes (pos + min size blockSectorSize) (size - min size blockSectorSize)) :
    Appended m m' bytes pos size := by
  obtain ⟨sector,below,data⟩ := rest
  simp only [blockSectorSize,next,front] at *
  refine ⟨?_,fun a low => ?_,fun k inside => ?_⟩
  · rw [sector]
    unfold dataSectors
    omega
  · simp only [blockSectorSize] at low
    rw [below a (by omega)]
    exact paste_outside _ _ _ (by omega)
  · simp only [blockSectorSize]
    by_cases first : k < 512
    · rw [below _ (by omega),paste_inside _ _ _ _ first,Nat.zero_add]
      exact bytes_ k (by omega)
    · have later := data (k - 512) (by omega)
      have place : 512 * (m.appendSector + 1) + (k - 512) = 512 * m.appendSector + k := by omega
      have byte : pos + min size 512 + (k - 512) = pos + k := by omega
      rw [place,byte] at later
      exact later

theorem appendLoop_ok (name : CString) (shown : Shows fs m.volume (s.setHandle f (some ⟨i,pos,deny⟩)))
    (length : (s.bytes i).length = pos + size) (enough : size ≤ bound)
    (room : m.appendSector + dataSectors size ≤ dev.size) (buffer : Memory) :
    ∃ m', appendLoop fs dev name f bound size buffer m = .ok ((),m') ∧
      Shows fs m'.volume (s.setHandle f (some ⟨i,pos + size,deny⟩)) ∧ Appended m m' (s.bytes i) pos size := by
  induction bound generalizing m pos size buffer with
  | zero =>
    obtain rfl : size = 0 := by omega
    exact ⟨m,rfl,shown,rfl,fun a _ => rfl,fun k inside => absurd inside (Nat.not_lt_zero k)⟩
  | succ bound ih =>
    rw [appendLoop]
    by_cases done : size = 0
    · subst done
      exact ⟨m,rfl,shown,rfl,fun a _ => rfl,fun k inside => absurd inside (Nat.not_lt_zero k)⟩
    · have left : m.appendSector + 1 + dataSectors (size - min size blockSectorSize) ≤ dev.size := by
        simp only [dataSectors,blockSectorSize] at *
        omega
      have whole : transfer (s.bytes i) (min size blockSectorSize : Nat) pos = min size blockSectorSize := by
        rw [transfer,length]
        omega
      obtain ⟨v,read,shown₁⟩ := shown.readFile setHandle_same buffer (min size blockSectorSize : Nat)
      change fileRead fs f buffer (min size blockSectorSize : Nat) m.volume =
        .ok ((transfer (s.bytes i) (min size blockSectorSize : Nat) pos,
          readInto buffer (s.bytes i) pos (transfer (s.bytes i) (min size blockSectorSize : Nat) pos)),v) at read
      change Shows fs v ((s.setHandle f _).setHandle f
        (some ⟨i,pos + transfer (s.bytes i) (min size blockSectorSize : Nat) pos,deny⟩)) at shown₁
      rw [setHandle_twice] at shown₁
      rw [whole] at read shown₁
      let chunk := fill (readInto buffer (s.bytes i) pos (min size blockSectorSize))
        (min size blockSectorSize) (blockSectorSize - min size blockSectorSize) 0
      let m₁ : Machine := { m with
        volume := v
        scratch := paste m.scratch (blockSectorSize * m.appendSector) chunk 0 blockSectorSize
        appendSector := m.appendSector + 1 }
      have front k (inside : k < min size blockSectorSize) : chunk k = (s.bytes i).getD (pos + k) 0 :=
        (if_neg (by omega)).trans (if_pos inside)
      obtain ⟨m',ran,shown',appended⟩ := ih (m := m₁) shown₁ (by omega) (by simp only [blockSectorSize]; omega) left chunk
      refine ⟨m',?_,?_,appended.cons rfl rfl (by omega) front⟩
      · rw [if_neg done]
        refine (bind_go rfl).trans ?_
        rw [if_neg (by omega)]
        refine (bind_go (onVolume_ok read)).trans ?_
        dsimp only
        rw [if_neg (by simp)]
        refine (bind_go (appendWrite_ok (m := { m with volume := v }) (show m.appendSector < dev.size by omega) chunk)).trans ?_
        exact ran
      · have reached : pos + min size blockSectorSize + (size - min size blockSectorSize) = pos + size := by omega
        rwa [reached] at shown'

/-- Two sectors of zeros, behind everything else. -/
theorem appendMarker_ok (room : m.appendSector + 2 ≤ dev.size) :
    ∃ scratch, appendMarker dev m = .ok ((),{ m with scratch := scratch }) ∧ Blank scratch m.appendSector ∧
      ∀ a < blockSectorSize * m.appendSector, scratch a = m.scratch a := by
  let first := paste m.scratch (blockSectorSize * m.appendSector) (fun _ => 0) 0 blockSectorSize
  refine ⟨paste first (blockSectorSize * (m.appendSector + 1)) (fun _ => 0) 0 blockSectorSize,?_,fun k inside => ?_,
    fun a below => ?_⟩
  · refine (bind_go rfl).trans ((bind_go (scratchWrite_ok (by omega) _)).trans ?_)
    exact scratchWrite_ok (by omega) _
  · rw [paste_outside _ _ _ (by simp only [blockSectorSize] at *; omega)]
    exact paste_inside _ _ _ _ inside
  · rw [paste_outside _ _ _ (by simp only [blockSectorSize] at *; omega)]
    exact paste_outside _ _ _ (.inl below)

theorem ustarMakeHeader_some (plain : stripAntisocialPrefixes name = name) (short : name.val.length ≤ 99) (size : Nat) :
    ∃ h, ustarMakeHeader name .regular size = some h := by
  simp only [ustarMakeHeader,plain]
  exact ⟨_,if_neg (by omega)⟩

/-- The file is in the archive, with the end behind it, and the store is as before. -/
theorem fsutilAppend_ok (shown : Shows fs m.volume s) (found : s.names name = some i)
    (plain : stripAntisocialPrefixes name = name) (short : name.val.length ≤ 99)
    (room : m.appendSector + Entry.sectors (name,s.bytes i) + 2 ≤ dev.size) :
    ∃ m', fsutilAppend fs dev name m = .ok ((),m') ∧ Shows fs m'.volume s ∧
      m'.appendSector = m.appendSector + Entry.sectors (name,s.bytes i) ∧
      Entered m'.scratch m.appendSector (name,s.bytes i) ∧ Blank m'.scratch m'.appendSector ∧
      ∀ a < blockSectorSize * m.appendSector, m'.scratch a = m.scratch a := by
  obtain ⟨v,f,opened,free,shown₁,-⟩ := shown.openFile found
  have length : fileLength f v = .ok ((s.bytes i).length,v) := shown₁.fileLength setHandle_same
  obtain ⟨h,made⟩ := ustarMakeHeader_some plain short (s.bytes i).length
  let m₁ : Machine := { m with
    volume := v
    scratch := paste m.scratch (blockSectorSize * m.appendSector) h 0 blockSectorSize
    appendSector := m.appendSector + 1 }
  simp only [Entry.sectors] at room
  have first : m.appendSector < dev.size := by omega
  have left : m₁.appendSector + dataSectors (s.bytes i).length ≤ dev.size := by
    simp only [m₁]
    omega
  obtain ⟨m₂,ran,shown₂,sector,below,data⟩ := appendLoop_ok (m := m₁) name shown₁ (Nat.zero_add _).symm (Nat.le_refl _) left h
  have last : m₂.appendSector = m.appendSector + (1 + dataSectors (s.bytes i).length) := by
    simp only [sector,m₁]
    omega
  obtain ⟨scratch,marked,blank,before⟩ := appendMarker_ok (m := m₂) (show _ ≤ dev.size by omega)
  obtain ⟨v',closed,shown₃,-⟩ := shown₂.closeFile setHandle_same found
  rw [setHandle_restored free] at shown₃
  have kept a (low : a < blockSectorSize * (m.appendSector + 1)) : scratch a = m₁.scratch a := by
    rw [before a,below a low]
    simp only [blockSectorSize] at *
    omega
  refine ⟨{ m₂ with scratch := scratch, volume := v' },?_,shown₃,last,⟨⟨h,made,fun k inside => ?_⟩,fun k inside => ?_⟩,blank,
    fun a low => ?_⟩
  · refine (bind_go (onVolume_ok opened)).trans ((bind_go (onVolume_ok length)).trans ?_)
    simp only [made]
    refine (bind_go (appendWrite_ok (m := { m with volume := v }) first h)).trans ?_
    refine (bind_go ran).trans ((bind_go marked).trans ?_)
    exact onVolume_ok closed
  · change scratch _ = h k
    rw [kept _ (by simp only [blockSectorSize] at *; omega)]
    have byte := paste_inside m.scratch (blockSectorSize * m.appendSector) h 0 inside
    rwa [Nat.zero_add] at byte
  · have byte := data k inside
    rw [Nat.zero_add] at byte
    rw [← byte]
    refine before _ ?_
    have inside : k < (s.bytes i).length := inside
    have enough := dataSectors_room (s.bytes i).length
    simp only [blockSectorSize,last] at *
    omega
  · change scratch a = m.scratch a
    rw [kept a (by simp only [blockSectorSize] at *; omega)]
    exact paste_outside _ _ _ (.inl low)

end

section
variable {fs dev : Device} {m : Machine} {s : Store} {files : List Entry}

/-- All files are in the archive, one after another. -/
theorem appendAll_ok (shown : Shows fs m.volume s) (held : ∀ f ∈ files, ∃ i, s.names f.1 = some i ∧ s.bytes i = f.2)
    (plain : ∀ f ∈ files, stripAntisocialPrefixes f.1 = f.1) (short : ∀ f ∈ files, f.1.val.length ≤ 99)
    (room : m.appendSector + (files.map Entry.sectors).sum + 2 ≤ dev.size) :
    ∃ m', appendAll fs dev (files.map Prod.fst) m = .ok ((),m') ∧
      m'.appendSector = m.appendSector + (files.map Entry.sectors).sum ∧
      Archived m'.scratch files m.appendSector m'.appendSector ∧ (files ≠ [] → Blank m'.scratch m'.appendSector) ∧
      ∀ a < blockSectorSize * m.appendSector, m'.scratch a = m.scratch a := by
  induction files generalizing m with
  | nil => exact ⟨m,rfl,rfl,rfl,fun some => absurd rfl some,fun a _ => rfl⟩
  | cons entry rest ih =>
    obtain ⟨name,bytes⟩ := entry
    obtain ⟨i,found,rfl⟩ := held _ List.mem_cons_self
    have found : s.names name = some i := found
    rw [List.map_cons,List.sum_cons] at room
    obtain ⟨m₁,first,shown₁,sector,entered,blank,before⟩ := fsutilAppend_ok shown found (plain _ List.mem_cons_self)
      (short _ List.mem_cons_self) (show _ ≤ dev.size by omega)
    obtain ⟨m',ran,sector',archived,blank',before'⟩ := ih shown₁ (fun f here => held f (List.mem_cons_of_mem _ here))
      (fun f here => plain f (List.mem_cons_of_mem _ here)) (fun f here => short f (List.mem_cons_of_mem _ here)) (by omega)
    refine ⟨m',(bind_go first).trans ran,?_,⟨entered.congr ?_,?_⟩,fun _ => ?_,fun a low => ?_⟩
    · rw [List.map_cons,List.sum_cons]
      omega
    · rw [← sector]
      exact before'
    · rw [← sector]
      exact archived
    · cases rest with
      | nil =>
        obtain rfl : m₁ = m' := (Prod.mk.inj (Except.ok.inj ran)).2
        exact blank
      | cons next rest => exact blank' (List.cons_ne_nil _ _)
    · rw [before' a (Nat.lt_of_lt_of_le low (Nat.mul_le_mul_left _ (by omega)))]
      exact before a low

end

end OsProj.Fsutil
