import Mathlib.Data.List.Perm.Basic
import OsProj.ByteMemory

/-! The scan of a block device for partitions, as it reads the tables, and the chain of tables
that the disk holds. Memory allocation succeeds, so the recursion of the scan is bounded by
the fuel alone. -/
namespace OsProj.PartitionScan

open OsProj.ByteMemory

def sectorValues : Nat := 4294967296

inductive BlockType where
  | kernel
  | filesys
  | scratch
  | swap
  | raw
  | foreign
  deriving DecidableEq, Repr

/-- A disk is its name, its number of sectors and its bytes, 512 in each sector. -/
structure Disk where
  name : List Char
  size : Nat
  small : size < sectorValues
  bytes : Memory

structure Entry where
  type : UInt8
  offset : Nat
  size : Nat
  deriving DecidableEq, Repr

structure Table where
  partitions : List Entry
  signature : Nat
  deriving DecidableEq, Repr

/-- A sector read as a partition table: a loader of 446 bytes, four entries of 16 bytes and
the signature. -/
def Disk.table (d : Disk) (sector : Nat) : Table where
  partitions := [0,1,2,3].map fun i =>
    ⟨d.bytes (512 * sector + 446 + 16 * i + 4),load d.bytes (512 * sector + 446 + 16 * i + 8) 4,
      load d.bytes (512 * sector + 446 + 16 * i + 12) 4⟩
  signature := load d.bytes (512 * sector + 510) 2

structure Partition where
  type : BlockType
  start : Nat
  size : Nat
  deriving DecidableEq, Repr

structure Registration where
  name : List Char
  partition : Partition
  deriving DecidableEq, Repr

inductive Message where
  | noPartitions
  | tablePastEnd (sector : Nat)
  | invalidSignature
  | invalidExtended (sector : Nat)
  | extended (sector : Nat)
  | startPastEnd (partNr start : Nat)
  | endPastEnd (partNr stop size : Nat)
  deriving DecidableEq, Repr

structure Scan where
  partNr : Nat
  registered : List Registration
  console : List Message
  deriving DecidableEq, Repr

def Scan.print (s : Scan) (m : Message) : Scan := { s with console := s.console ++ [m] }

def blockType (partType : UInt8) : BlockType :=
  if partType = 0x20 then .kernel
  else if partType = 0x21 then .filesys
  else if partType = 0x22 then .scratch
  else if partType = 0x23 then .swap
  else .foreign

/-- The name of the disk with the number behind it, in a buffer of 16 characters. -/
def partitionName (d : Disk) (partNr : Nat) : List Char := (d.name ++ (Nat.repr partNr).toList).take 15

def foundPartition (d : Disk) (partType : UInt8) (start size partNr : Nat) (s : Scan) : Scan :=
  if d.size ≤ start then s.print (.startPastEnd partNr start)
  else if (start + size) % sectorValues < start ∨ d.size < (start + size) % sectorValues then
    s.print (.endPastEnd partNr ((start + size) % sectorValues) d.size)
  else { s with registered := s.registered ++ [⟨partitionName d partNr,⟨blockType partType,start,size⟩⟩] }

def Entry.empty (e : Entry) : Bool := e.size == 0 || e.type == 0

def Entry.extended (e : Entry) : Bool := e.type == 0x05 || e.type == 0x0f || e.type == 0x85 || e.type == 0xc5

def parseEntry (call : Nat → Nat → Scan → Option Scan) (d : Disk) (sector primaryExtendedSector : Nat)
    (s : Scan) (e : Entry) : Option Scan :=
  if e.empty then some s
  else if e.extended then
    if sector = 0 then call e.offset e.offset (s.print (.extended sector))
    else call ((e.offset + primaryExtendedSector) % sectorValues) primaryExtendedSector (s.print (.extended sector))
  else
    some (foundPartition d e.type ((e.offset + sector) % sectorValues) e.size (s.partNr + 1)
      { s with partNr := s.partNr + 1 })

/-- Whatever the sector is, the table is read from sector 0. -/
def readPartitionTable (d : Disk) : Nat → Nat → Nat → Scan → Option Scan
  | 0, _, _, _ => none
  | fuel + 1, sector, primaryExtendedSector, s =>
    if d.size ≤ sector then some (s.print (.tablePastEnd sector))
    else if (d.table 0).signature ≠ 0xaa55 then
      some (s.print (if primaryExtendedSector = 0 then .invalidSignature else .invalidExtended sector))
    else (d.table 0).partitions.foldlM (parseEntry (readPartitionTable d fuel) d sector primaryExtendedSector) s

def partitionScan (d : Disk) (fuel : Nat) : Option Scan :=
  (readPartitionTable d fuel 0 0 ⟨0,[],[]⟩).map fun s => if s.partNr = 0 then s.print .noPartitions else s

/-- The partitions named by the entries of the table in a sector and by the extended tables
they point to. An entry for an extended table holds its sector in sector 0, elsewhere its
distance from the extended table that sector 0 points to. Every table is on the disk and has
its signature, and a derivation is finite, so the chain is finite and without cycles. -/
inductive Named (d : Disk) : Nat → Nat → List Entry → List Partition → Prop
  | nil : Named d primary sector [] []
  | empty (unused : e.empty) (rest : Named d primary sector entries ps) :
      Named d primary sector (e :: entries) ps
  | plain (used : ¬e.empty) (plain : ¬e.extended) (rest : Named d primary sector entries ps) :
      Named d primary sector (e :: entries) (⟨blockType e.type,sector + e.offset,e.size⟩ :: ps)
  | extended (used : ¬e.empty) (extended : e.extended)
      (base : primary' = if sector = 0 then e.offset else primary)
      (target : sector' = if sector = 0 then e.offset else primary + e.offset)
      (inside : sector' < d.size) (valid : (d.table sector').signature = 0xaa55)
      (chained : Named d primary' sector' (d.table sector').partitions qs)
      (rest : Named d primary sector entries ps) :
      Named d primary sector (e :: entries) (qs ++ ps)

def Disk.Valid (d : Disk) : Prop := 0 < d.size ∧ (d.table 0).signature = 0xaa55

/-- The chain from the master boot record on is well formed and names these partitions. -/
def Chain (d : Disk) (ps : List Partition) : Prop := d.Valid ∧ Named d 0 0 (d.table 0).partitions ps

def Fits (d : Disk) (p : Partition) : Bool := p.start + p.size ≤ d.size

/-- The scan returns and has registered the partitions of a well-formed chain that fit, each
of them once. -/
def Scanned (d : Disk) : Prop :=
  ∃ fuel s, partitionScan d fuel = some s ∧
    ∀ ps, Chain d ps → (s.registered.map Registration.partition).Perm (ps.filter (Fits d))

/-! What the scan does in terms of the one table it reads. -/

def Entry.isPlain (e : Entry) : Bool := !e.empty && !e.extended

def Entry.isLink (e : Entry) : Bool := !e.empty && e.extended

def Disk.links (d : Disk) : List Entry := (d.table 0).partitions.filter Entry.isLink

def Entry.partition (e : Entry) (start : Nat) : Partition := ⟨blockType e.type,start,e.size⟩

def Disk.moved (d : Disk) (sector : Nat) : List Partition :=
  (((d.table 0).partitions.filter Entry.isPlain).map fun e =>
    e.partition ((e.offset + sector) % sectorValues)).filter (Fits d)

def Scan.partitions (s : Scan) : List Partition := s.registered.map Registration.partition

variable {d : Disk} {e : Entry} {s : Scan} {call : Nat → Nat → Scan → Option Scan} {calls : Entry → List Partition}

theorem offset_lt (member : e ∈ (d.table sector).partitions) : e.offset < sectorValues := by
  obtain ⟨i,-,rfl⟩ := List.mem_map.mp member
  exact load_lt _ _ 4

theorem size_lt (member : e ∈ (d.table sector).partitions) : e.size < sectorValues := by
  obtain ⟨i,-,rfl⟩ := List.mem_map.mp member
  exact load_lt _ _ 4

/-- The checks with wrapped sums accept a used partition exactly when it fits. -/
theorem foundPartition_partitions (d : Disk) (partType : UInt8) (s : Scan) (partNr : Nat) (used : 0 < size)
    (below : size < sectorValues) :
    (foundPartition d partType start size partNr s).partitions =
      s.partitions ++ [(⟨blockType partType,start,size⟩ : Partition)].filter (Fits d) := by
  have small := d.small
  by_cases fits : start + size ≤ d.size
  · have whole : (start + size) % sectorValues = start + size := Nat.mod_eq_of_lt (by omega)
    simp [foundPartition,whole,Fits,fits,show ¬d.size ≤ start by omega,show ¬d.size < start + size by omega,
      show ¬start + size < start by omega,Scan.partitions]
  · have refused : d.size ≤ start ∨ (start + size) % sectorValues < start ∨
        d.size < (start + size) % sectorValues := by
      by_cases behind : d.size ≤ start
      · exact Or.inl behind
      · by_cases wraps : start + size < sectorValues
        · rw [Nat.mod_eq_of_lt wraps]
          omega
        · rw [Nat.mod_eq_sub_mod (by omega),Nat.mod_eq_of_lt (by omega)]
          omega
    rcases refused with behind | refused
    · simp [foundPartition,behind,Fits,fits,Scan.partitions,Scan.print]
    · by_cases behind : d.size ≤ start
      · simp [foundPartition,behind,Fits,fits,Scan.partitions,Scan.print]
      · simp [foundPartition,behind,refused,Fits,fits,Scan.partitions,Scan.print]

def linked (sector primary : Nat) (e : Entry) : Nat × Nat :=
  if sector = 0 then (e.offset,e.offset) else ((e.offset + primary) % sectorValues,primary)

theorem parseEntry_link (link : e.isLink) :
    parseEntry call d sector primary s e =
      call (linked sector primary e).1 (linked sector primary e).2 (s.print (.extended sector)) := by
  simp only [Entry.isLink,Bool.and_eq_true,Bool.not_eq_true'] at link
  by_cases first : sector = 0 <;> simp [parseEntry,linked,link,first]

/-- Only links make a call. -/
theorem parseEntry_unlinked {call' : Nat → Nat → Scan → Option Scan} (link : ¬e.isLink) :
    parseEntry call d sector primary s e = parseEntry call' d sector primary s e := by
  by_cases unused : e.empty
  · simp [parseEntry,unused]
  · have plain : e.extended = false := by simpa [Entry.isLink,unused] using link
    simp [parseEntry,unused,plain]

/-- What the entry of a table in a sector adds to the partitions, given what its call adds. -/
def added (d : Disk) (sector : Nat) (calls : Entry → List Partition) (e : Entry) : List Partition :=
  if e.isLink then calls e
  else if e.isPlain then [e.partition ((e.offset + sector) % sectorValues)].filter (Fits d)
  else []

theorem parseEntry_plain (call : Nat → Nat → Scan → Option Scan) (link : ¬e.isLink) (below : e.size < sectorValues) :
    ∃ s', parseEntry call d sector primary s e = some s' ∧
      s'.partitions = s.partitions ++ added d sector calls e := by
  by_cases unused : e.empty
  · exact ⟨s,by simp [parseEntry,unused],by simp [added,link,Entry.isPlain,unused]⟩
  · have plain : e.extended = false := by simpa [Entry.isLink,unused] using link
    have used : 0 < e.size := by
      have := unused
      simp only [Entry.empty,Bool.or_eq_true,beq_iff_eq,not_or] at this
      omega
    refine ⟨foundPartition d e.type ((e.offset + sector) % sectorValues) e.size (s.partNr + 1)
      { s with partNr := s.partNr + 1 },by simp [parseEntry,unused,plain],?_⟩
    rw [foundPartition_partitions d _ _ _ used below]
    simp [added,link,Entry.isPlain,unused,plain,Entry.partition,Scan.partitions]

/-- If every call for an entry returns, so does the loop. -/
theorem entries_return (calls : Entry → List Partition) (entries : List Entry)
    (below : ∀ e ∈ entries, e.size < sectorValues)
    (returns : ∀ e ∈ entries, e.isLink → ∀ s, ∃ s',
      call (linked sector primary e).1 (linked sector primary e).2 s = some s' ∧
        s'.partitions.Perm (s.partitions ++ calls e)) (s : Scan) :
    ∃ s', entries.foldlM (parseEntry call d sector primary) s = some s' ∧
      s'.partitions.Perm (s.partitions ++ entries.flatMap (added d sector calls)) := by
  induction entries generalizing s with
  | nil => exact ⟨s,rfl,by simp⟩
  | cons e entries ih =>
    have head : ∃ s', parseEntry call d sector primary s e = some s' ∧
        s'.partitions.Perm (s.partitions ++ added d sector calls e) := by
      by_cases link : e.isLink
      · obtain ⟨s',called,more⟩ := returns e List.mem_cons_self link (s.print (.extended sector))
        exact ⟨s',(parseEntry_link link).trans called,by simpa [added,link,Scan.print,Scan.partitions] using more⟩
      · obtain ⟨s',parsed,more⟩ := parseEntry_plain call (d := d) link (below e List.mem_cons_self)
        exact ⟨s',parsed,List.Perm.of_eq more⟩
    obtain ⟨s₁,first,more₁⟩ := head
    obtain ⟨s₂,rest,more₂⟩ := ih (fun e member => below e (List.mem_cons_of_mem _ member))
      (fun e member => returns e (List.mem_cons_of_mem _ member)) s₁
    refine ⟨s₂,?_,?_⟩
    · rw [List.foldlM_cons,first]
      exact rest
    · rw [List.flatMap_cons,← List.append_assoc]
      exact more₂.trans (more₁.append_right _)

/-- If some call for an entry does not return, the loop does not. -/
theorem entries_stuck (entries : List Entry) (member : e ∈ entries) (link : e.isLink)
    (stuck : ∀ s, call (linked sector primary e).1 (linked sector primary e).2 s = none) (s : Scan) :
    entries.foldlM (parseEntry call d sector primary) s = none := by
  induction entries generalizing s with
  | nil => exact absurd member List.not_mem_nil
  | cons f entries ih =>
    rw [List.foldlM_cons]
    rcases List.mem_cons.mp member with rfl | member
    · rw [parseEntry_link link,stuck]
      rfl
    · cases parseEntry call d sector primary s f with
      | none => rfl
      | some s' => exact ih member s'

theorem readPartitionTable_past (past : d.size ≤ sector) :
    readPartitionTable d (fuel + 1) sector primary s = some (s.print (.tablePastEnd sector)) := by
  simp [readPartitionTable,past]

theorem readPartitionTable_entries (valid : d.Valid) (inside : sector < d.size) :
    readPartitionTable d (fuel + 1) sector primary s =
      (d.table 0).partitions.foldlM (parseEntry (readPartitionTable d fuel) d sector primary) s := by
  simp [readPartitionTable,Nat.not_le.mpr inside,valid.2]

/-- A call that returned returns the same with more fuel. -/
theorem readPartitionTable_more (fuel : Nat) (read : readPartitionTable d fuel sector primary s = some s') :
    readPartitionTable d (fuel + 1) sector primary s = some s' := by
  induction fuel generalizing sector primary s s' with
  | zero => exact nomatch read
  | succ fuel ih =>
    by_cases past : d.size ≤ sector
    · rwa [readPartitionTable_past past] at read ⊢
    by_cases valid : (d.table 0).signature = 0xaa55
    · have inside := Nat.not_le.mp past
      have valid : d.Valid := ⟨Nat.zero_lt_of_lt inside,valid⟩
      rw [readPartitionTable_entries valid inside] at read ⊢
      generalize (d.table 0).partitions = entries at read ⊢
      induction entries generalizing s with
      | nil => exact read
      | cons e entries rest =>
        rw [List.foldlM_cons] at read ⊢
        obtain ⟨s₁,first,last⟩ := Option.bind_eq_some_iff.mp read
        have again : parseEntry (readPartitionTable d (fuel + 1)) d sector primary s e = some s₁ := by
          by_cases link : e.isLink
          · rw [parseEntry_link link] at first ⊢
            exact ih first
          · rwa [parseEntry_unlinked link] at first
        rw [again]
        exact rest last
    · simpa [readPartitionTable,past,valid] using read

/-- Calls that lead to one another again and again do not return. -/
theorem readPartitionTable_stuck (valid : d.Valid) (P : Nat → Nat → Prop)
    (again : ∀ sector primary, P sector primary → sector < d.size ∧
      ∃ e ∈ d.links, P (linked sector primary e).1 (linked sector primary e).2)
    (fuel : Nat) (here : P sector primary) (s : Scan) : readPartitionTable d fuel sector primary s = none := by
  induction fuel generalizing sector primary s with
  | zero => rfl
  | succ fuel ih =>
    obtain ⟨inside,e,member,next⟩ := again sector primary here
    rw [Disk.links,List.mem_filter] at member
    rw [readPartitionTable_entries valid inside]
    exact entries_stuck _ member.1 member.2 (fun s => ih next s) s

/-- The call for a link of the master boot record does not lead to a further one. -/
def Ends (d : Disk) (e : Entry) : Prop :=
  d.size ≤ e.offset ∨ 0 < e.offset ∧ ∀ f ∈ d.links, d.size ≤ (f.offset + e.offset) % sectorValues

/-- Unless a link lies past the end or all calls below its own do, the scan comes back to a
call it has made before. -/
theorem readPartitionTable_loops (valid : d.Valid) (member : e ∈ d.links) (loops : ¬Ends d e) (fuel : Nat) (s : Scan) :
    readPartitionTable d fuel 0 0 s = none := by
  simp only [Ends,not_or,not_and,not_forall,Nat.not_le] at loops
  obtain ⟨inside,further⟩ := loops
  by_cases first : e.offset = 0
  · apply readPartitionTable_stuck valid (fun sector primary => sector = 0 ∧ primary = 0) ?_ fuel ⟨rfl,rfl⟩
    rintro sector primary ⟨rfl,rfl⟩
    exact ⟨valid.1,e,member,by simp [linked,first]⟩
  · obtain ⟨f,linkf,insidef⟩ := further (Nat.pos_of_ne_zero first)
    apply readPartitionTable_stuck valid (fun sector primary => sector = 0 ∨ primary = e.offset ∧
      (sector = e.offset ∨ sector = (f.offset + e.offset) % sectorValues)) ?_ fuel (Or.inl rfl)
    intro sector primary here
    by_cases zero : sector = 0
    · exact ⟨by rw [zero]; exact valid.1,e,member,Or.inr (by simp [linked,zero])⟩
    · obtain ⟨base,place⟩ := here.resolve_left zero
      have lower : sector < d.size := by
        rcases place with rfl | rfl <;> assumption
      exact ⟨lower,f,linkf,Or.inr (by simp [linked,zero,base])⟩

theorem added_plain (plain : e.isPlain) :
    added d sector calls e = [e.partition ((e.offset + sector) % sectorValues)].filter (Fits d) := by
  have link : e.isLink = false := by
    simp only [Entry.isPlain,Bool.and_eq_true,Bool.not_eq_true'] at plain
    simp [Entry.isLink,plain]
  simp [added,link,plain]

/-- The plain entries of a table and its links, one after the other. -/
theorem flatMap_added (entries : List Entry) :
    (entries.flatMap (added d sector calls)).Perm
      (((entries.filter Entry.isPlain).map fun e => e.partition ((e.offset + sector) % sectorValues)).filter (Fits d) ++
        (entries.filter Entry.isLink).flatMap calls) := by
  induction entries with
  | nil => simp
  | cons e entries ih =>
    rw [List.flatMap_cons]
    by_cases link : e.isLink
    · have plain : e.isPlain = false := by
        simp only [Entry.isLink,Bool.and_eq_true] at link
        simp [Entry.isPlain,link]
      rw [List.filter_cons_of_neg (by simp [plain]),List.filter_cons_of_pos link,List.flatMap_cons,added,if_pos link]
      exact (ih.append_left _).trans (List.perm_append_comm_assoc _ _ _)
    · rw [List.filter_cons_of_neg link]
      by_cases plain : e.isPlain
      · rw [List.filter_cons_of_pos plain,List.map_cons,← List.singleton_append,List.filter_append,List.append_assoc,
          added_plain plain]
        exact ih.append_left _
      · rw [List.filter_cons_of_neg plain,added,if_neg link,if_neg plain]
        exact ih

/-- In a call for a link the plain entries of the one table are found again, moved. -/
theorem readPartitionTable_link (valid : d.Valid) (ends : Ends d e) (fuel : Nat) (s : Scan) :
    ∃ s', readPartitionTable d (fuel + 2) e.offset e.offset s = some s' ∧
      s'.partitions.Perm (s.partitions ++ if d.size ≤ e.offset then [] else d.moved e.offset) := by
  rcases ends with past | ⟨later,past⟩
  · refine ⟨_,readPartitionTable_past past,?_⟩
    simp [past,Scan.print,Scan.partitions]
  · by_cases outside : d.size ≤ e.offset
    · refine ⟨_,readPartitionTable_past outside,?_⟩
      simp [outside,Scan.print,Scan.partitions]
    · have returns : ∀ f ∈ (d.table 0).partitions, f.isLink → ∀ s, ∃ s',
          readPartitionTable d (fuel + 1) (linked e.offset e.offset f).1 (linked e.offset e.offset f).2 s = some s' ∧
            s'.partitions.Perm (s.partitions ++ []) := by
        intro f member link s
        have target : linked e.offset e.offset f = ((f.offset + e.offset) % sectorValues,e.offset) := by
          simp [linked,Nat.ne_of_gt later]
        rw [target]
        refine ⟨_,readPartitionTable_past (past f (List.mem_filter.mpr ⟨member,link⟩)),?_⟩
        simp [Scan.print,Scan.partitions]
      obtain ⟨s',done,more⟩ := entries_return (fun _ => []) (d.table 0).partitions (fun f => size_lt) returns s
      refine ⟨s',(readPartitionTable_entries valid (Nat.not_le.mp outside)).trans done,?_⟩
      rw [if_neg outside]
      refine more.trans (List.Perm.append_left _ ((flatMap_added _).trans ?_))
      rw [List.flatMap_eq_nil_iff.mpr fun _ _ => rfl,List.append_nil,Disk.moved]

theorem readPartitionTable_all (valid : d.Valid) (ends : ∀ e ∈ d.links, Ends d e) (fuel : Nat) (s : Scan) :
    ∃ s', readPartitionTable d (fuel + 3) 0 0 s = some s' ∧
      s'.partitions.Perm (s.partitions ++ (d.moved 0 ++
        d.links.flatMap fun e => if d.size ≤ e.offset then [] else d.moved e.offset)) := by
  have returns : ∀ e ∈ (d.table 0).partitions, e.isLink → ∀ s, ∃ s',
      readPartitionTable d (fuel + 2) (linked 0 0 e).1 (linked 0 0 e).2 s = some s' ∧
        s'.partitions.Perm (s.partitions ++ if d.size ≤ e.offset then [] else d.moved e.offset) := by
    intro e member link s
    exact readPartitionTable_link valid (ends e (List.mem_filter.mpr ⟨member,link⟩)) fuel s
  obtain ⟨s',done,more⟩ := entries_return _ (d.table 0).partitions (fun f => size_lt) returns s
  exact ⟨s',(readPartitionTable_entries valid valid.1).trans done,more.trans (List.Perm.append_left _ (flatMap_added _))⟩

/-! The chain in terms of its first table. -/

theorem named_inside (named : Named d primary sector entries ps) (first : sector = 0) (member : e ∈ entries)
    (link : e.isLink) : e.offset < d.size := by
  simp only [Entry.isLink,Bool.and_eq_true,Bool.not_eq_true'] at link
  induction named with
  | nil => exact absurd member List.not_mem_nil
  | empty unused rest ih =>
    rcases List.mem_cons.mp member with rfl | member
    · simp [link.1] at unused
    · exact ih first member
  | plain used plain rest ih =>
    rcases List.mem_cons.mp member with rfl | member
    · exact absurd link.2 plain
    · exact ih first member
  | extended used extended base target inside valid chained rest _ ih =>
    rcases List.mem_cons.mp member with rfl | member
    · rw [if_pos first] at target
      rwa [target] at inside
    · exact ih first member

/-- The plain entries of the first table and what its links name. -/
theorem named_split (named : Named d primary sector entries ps) :
    ∃ logical, Named d primary sector (entries.filter Entry.isLink) logical ∧
      ps.Perm (((entries.filter Entry.isPlain).map fun e => e.partition (sector + e.offset)) ++ logical) := by
  induction named with
  | nil => exact ⟨[],Named.nil,by simp⟩
  | empty unused rest ih =>
    obtain ⟨logical,named,same⟩ := ih
    refine ⟨logical,?_,?_⟩
    · rwa [List.filter_cons_of_neg (by simp [Entry.isLink,unused])]
    · rwa [List.filter_cons_of_neg (by simp [Entry.isPlain,unused])]
  | plain used plain rest ih =>
    obtain ⟨logical,named,same⟩ := ih
    refine ⟨logical,?_,?_⟩
    · rwa [List.filter_cons_of_neg (by simp [Entry.isLink,plain])]
    · rw [List.filter_cons_of_pos (by simp [Entry.isPlain,used,plain])]
      exact same.cons _
  | extended used extended base target inside valid chained rest _ ih =>
    obtain ⟨logical,named,same⟩ := ih
    have longer := Named.extended used extended base target inside valid chained named
    rw [← List.filter_cons_of_pos (p := Entry.isLink) (by simp [Entry.isLink,used,extended])] at longer
    refine ⟨_,longer,?_⟩
    · rw [List.filter_cons_of_neg (by simp [Entry.isPlain,extended])]
      exact (same.append_left _).trans (List.perm_append_comm_assoc _ _ _)

theorem named_join (entries : List Entry) (named : Named d primary sector (entries.filter Entry.isLink) logical) :
    ∃ ps, Named d primary sector entries ps ∧
      ps.Perm (((entries.filter Entry.isPlain).map fun e => e.partition (sector + e.offset)) ++ logical) := by
  induction entries generalizing logical with
  | nil => exact ⟨logical,named,by simp⟩
  | cons e entries ih =>
    by_cases unused : e.empty
    · rw [List.filter_cons_of_neg (by simp [Entry.isLink,unused])] at named
      obtain ⟨ps,rest,same⟩ := ih named
      refine ⟨ps,Named.empty unused rest,?_⟩
      rwa [List.filter_cons_of_neg (by simp [Entry.isPlain,unused])]
    · by_cases extended : e.extended
      · rw [List.filter_cons_of_pos (by simp [Entry.isLink,unused,extended])] at named
        cases named with
        | empty unused' => exact absurd unused' unused
        | plain _ plain => exact absurd extended plain
        | extended _ _ base target inside valid chained rest =>
          obtain ⟨ps,rest,same⟩ := ih rest
          refine ⟨_ ++ ps,Named.extended unused extended base target inside valid chained rest,?_⟩
          rw [List.filter_cons_of_neg (by simp [Entry.isPlain,extended])]
          exact (same.append_left _).trans (List.perm_append_comm_assoc _ _ _)
      · rw [List.filter_cons_of_neg (by simp [Entry.isLink,extended])] at named
        obtain ⟨ps,rest,same⟩ := ih named
        refine ⟨_ :: ps,Named.plain unused extended rest,?_⟩
        rw [List.filter_cons_of_pos (by simp [Entry.isPlain,unused,extended])]
        exact same.cons _

theorem moved_zero : d.moved 0 =
    (((d.table 0).partitions.filter Entry.isPlain).map fun e => e.partition (0 + e.offset)).filter (Fits d) := by
  rw [Disk.moved]
  congr 1
  apply List.map_congr_left
  intro e member
  rw [Nat.add_zero,Nat.zero_add,Nat.mod_eq_of_lt (offset_lt (List.mem_filter.mp member).1)]

/-- What the chain names and what the scan finds have the plain entries of the first table in
common; they differ in what the links stand for. -/
theorem perm_iff_links {ps qs logical more : List Partition} (same : ps.Perm
      ((((d.table 0).partitions.filter Entry.isPlain).map fun e => e.partition (0 + e.offset)) ++ logical))
    (found : qs.Perm (d.moved 0 ++ more)) :
    qs.Perm (ps.filter (Fits d)) ↔ (logical.filter (Fits d)).Perm more := by
  have named := same.filter (Fits d)
  rw [List.filter_append,← moved_zero] at named
  constructor
  · intro exact
    exact (List.perm_append_left_iff _).mp (named.symm.trans (exact.symm.trans found))
  · intro exact
    exact found.trans ((exact.symm.append_left _).trans named.symm)

/-- When the one table that is read is enough. Either there is no master boot record, or its
links lead to calls that end, and where a well-formed chain stands behind these links it
names what the plain entries of the master boot record name when they are moved. -/
def OneTable (d : Disk) : Prop :=
  d.Valid → (∀ e ∈ d.links, Ends d e) ∧
    ∀ logical, Named d 0 0 d.links logical →
      (logical.filter (Fits d)).Perm (d.links.flatMap fun e => d.moved e.offset)

theorem partitionScan_partitions (done : partitionScan d fuel = some s) :
    ∃ s', readPartitionTable d fuel 0 0 ⟨0,[],[]⟩ = some s' ∧ s.partitions = s'.partitions := by
  obtain ⟨s',read,rfl⟩ := Option.map_eq_some_iff.mp done
  refine ⟨s',read,?_⟩
  split <;> rfl

theorem partitionScan_of_read (read : readPartitionTable d fuel 0 0 ⟨0,[],[]⟩ = some s') :
    ∃ s, partitionScan d fuel = some s ∧ s.partitions = s'.partitions := by
  refine ⟨_,by rw [partitionScan,read]; rfl,?_⟩
  dsimp only
  split <;> rfl

theorem links_flatMap (named : Named d 0 0 d.links logical) :
    (d.links.flatMap fun e => if d.size ≤ e.offset then [] else d.moved e.offset) =
      d.links.flatMap fun e => d.moved e.offset := by
  apply List.flatMap_congr
  intro e member
  have inside := named_inside named rfl member (List.mem_filter.mp member).2
  rw [if_neg (Nat.not_le.mpr inside)]

theorem readPartitionTable_invalid (invalid : ¬d.Valid) (s : Scan) :
    ∃ s', readPartitionTable d 1 0 0 s = some s' ∧ s'.partitions = s.partitions := by
  by_cases nothing : d.size ≤ 0
  · exact ⟨_,readPartitionTable_past nothing,rfl⟩
  · have unsigned : (d.table 0).signature ≠ 0xaa55 := fun signed => invalid ⟨Nat.not_le.mp nothing,signed⟩
    exact ⟨s.print .invalidSignature,by simp [readPartitionTable,nothing,unsigned],rfl⟩

theorem partitions_start : Scan.partitions ⟨0,[],[]⟩ = [] := rfl

/-- The scan is right exactly if the table it reads is all it needs. -/
theorem partition_scan_iff (d : Disk) : Scanned d ↔ OneTable d := by
  constructor
  · rintro ⟨fuel,s,done,exact⟩ valid
    obtain ⟨s',read,same⟩ := partitionScan_partitions done
    have ends : ∀ e ∈ d.links, Ends d e := by
      intro e member
      by_contra loops
      rw [readPartitionTable_loops valid member loops] at read
      contradiction
    refine ⟨ends,fun logical named => ?_⟩
    obtain ⟨ps,all,split⟩ := named_join _ named
    obtain ⟨s₃,read₃,found⟩ := readPartitionTable_all valid ends fuel ⟨0,[],[]⟩
    have unique : s₃ = s' := by
      have more := readPartitionTable_more _ (readPartitionTable_more _ (readPartitionTable_more _ read))
      exact Option.some.inj (read₃.symm.trans more)
    rw [unique,links_flatMap named,← same,partitions_start,List.nil_append] at found
    exact (perm_iff_links split found).mp (exact ps ⟨valid,all⟩)
  · intro one
    by_cases valid : d.Valid
    · obtain ⟨ends,linked⟩ := one valid
      obtain ⟨s',read,found⟩ := readPartitionTable_all valid ends 0 ⟨0,[],[]⟩
      obtain ⟨s,done,same⟩ := partitionScan_of_read read
      refine ⟨3,s,done,fun ps chain => ?_⟩
      obtain ⟨logical,named,split⟩ := named_split chain.2
      rw [links_flatMap named,← same,partitions_start,List.nil_append] at found
      exact (perm_iff_links split found).mpr (linked logical named)
    · obtain ⟨s',read,-⟩ := readPartitionTable_invalid valid ⟨0,[],[]⟩
      obtain ⟨s,done,-⟩ := partitionScan_of_read read
      exact ⟨1,s,done,fun ps chain => absurd chain.1 valid⟩

/-- A disk with one link in its master boot record, to a table with one partition. -/
def linkedDisk : Disk where
  name := ['h','d','b']
  size := 100
  small := by decide
  bytes := fun a => (([(450,0x05),(454,10),(458,80),(510,0x55),(511,0xaa),(5570,0x83),(5574,1),(5578,5),(5630,0x55),
    (5631,0xaa)] : List (Nat × UInt8)).lookup a).getD 0

/-- The chain of the disk is well formed, but the scan of it does not return. -/
theorem linked_disk_not_scanned : Chain linkedDisk [⟨.foreign,11,5⟩] ∧ ¬Scanned linkedDisk := by
  have valid : linkedDisk.Valid := ⟨by decide,by decide⟩
  have entries : (linkedDisk.table 0).partitions = [⟨0x05,10,80⟩,⟨0,0,0⟩,⟨0,0,0⟩,⟨0,0,0⟩] := by decide
  have logical : Named linkedDisk 10 10 (linkedDisk.table 10).partitions [⟨.foreign,11,5⟩] := by
    refine Named.plain (by decide) (by decide) ?_
    exact Named.empty (by decide) (Named.empty (by decide) (Named.empty (by decide) Named.nil))
  constructor
  · refine ⟨valid,?_⟩
    have rest : Named linkedDisk 0 0 [⟨0,0,0⟩,⟨0,0,0⟩,⟨0,0,0⟩] [] :=
      Named.empty (by decide) (Named.empty (by decide) (Named.empty (by decide) Named.nil))
    rw [entries]
    exact Named.extended (e := ⟨0x05,10,80⟩) (by decide) (by decide) rfl rfl (by decide) (by decide) logical rest
  · rintro ⟨fuel,s,done,-⟩
    obtain ⟨s',read,-⟩ := partitionScan_partitions done
    have member : (⟨0x05,10,80⟩ : Entry) ∈ linkedDisk.links := by decide
    have loops : ¬Ends linkedDisk ⟨0x05,10,80⟩ := by
      rintro (past | ⟨-,past⟩)
      · exact absurd past (by decide)
      · exact absurd (past _ member) (by decide)
    rw [readPartitionTable_loops valid member loops] at read
    contradiction

end OsProj.PartitionScan
