import OsProj.ByteList

/-! The length-delimited files of hw-map-reduce/codec. A record is its length as a 64-bit
number and then its bytes; a reader is the part of the file it has not read yet. -/
namespace OsProj.Worker

open OsProj.ByteList

inductive Fault where
  | unending
  | outOfBounds
  | overflow
  | failed
  deriving DecidableEq, Repr

def lengthSize : Nat := 8

def ldwWrite (file buf : Bytes) : Bytes := file ++ (leBytes lengthSize buf.length ++ buf)

/-- The next record, or `none` for a buffer of length -1. -/
def ldrNext (file : Bytes) : Option Bytes × Bytes :=
  if file.length < lengthSize then (none,[])
  else
    let length := leValue (file.take lengthSize)
    let rest := file.drop lengthSize
    if length = 0 then (some [],rest)
    else if rest.length < length then (none,[])
    else (some (rest.take length),rest.drop length)

def countLoop : Nat → Bytes → Nat → Except Fault Nat
  | 0,_,_ => .error .unending
  | fuel + 1,file,count =>
    match ldrNext file with
    | (some _,rest) => countLoop fuel rest (count + 1)
    | (none,_) => .ok count

/-- Every record takes bytes from the file, so the loop ends. -/
def ldrCount (file : Bytes) : Except Fault Nat := countLoop (file.length + 1) file 0

def frames (bufs : List Bytes) : Bytes := bufs.flatMap fun buf => leBytes lengthSize buf.length ++ buf

def Short (buf : Bytes) : Prop := buf.length < 18446744073709551616

theorem ldwWrite_frames (bufs : List Bytes) (buf : Bytes) : ldwWrite (frames bufs) buf = frames (bufs ++ [buf]) := by
  simp [ldwWrite,frames]

theorem ldrNext_frame (short : Short buf) (rest : Bytes) :
    ldrNext (leBytes lengthSize buf.length ++ buf ++ rest) = (some buf,rest) := by
  have header : (leBytes lengthSize buf.length ++ (buf ++ rest)).take lengthSize = leBytes lengthSize buf.length :=
    List.take_left' (leBytes_length ..)
  have body : (leBytes lengthSize buf.length ++ (buf ++ rest)).drop lengthSize = buf ++ rest :=
    List.drop_left' (leBytes_length ..)
  have size : leValue (leBytes lengthSize buf.length) = buf.length := leValue_leBytes_of_lt short
  unfold ldrNext
  rw [List.append_assoc,if_neg (by simp),header,body,size]
  dsimp only
  split
  · rename_i empty
    rw [List.eq_nil_of_length_eq_zero empty]
    rfl
  · rw [if_neg (by simp),List.take_left,List.drop_left]

theorem frames_cons (buf : Bytes) (bufs : List Bytes) :
    frames (buf :: bufs) = leBytes lengthSize buf.length ++ buf ++ frames bufs := by
  simp [frames]

theorem ldrNext_frames (short : Short buf) (bufs : List Bytes) : ldrNext (frames (buf :: bufs)) = (some buf,frames bufs) := by
  rw [frames_cons,ldrNext_frame short]

/-- What reading a file gives: these records, and then none any more. -/
inductive Holds : Bytes → List Bytes → Prop
  | stop (last : ldrNext file = (none,[])) : Holds file []
  | next (first : ldrNext file = (some buf,rest)) (more : Holds rest bufs) : Holds file (buf :: bufs)

/-- A record takes its length from the file, and where there is none the rest is used up. -/
theorem ldrNext_cases (file : Bytes) :
    ldrNext file = (none,[]) ∨ ∃ buf rest, ldrNext file = (some buf,rest) ∧ rest.length + lengthSize ≤ file.length := by
  unfold ldrNext
  split
  · exact .inl rfl
  · rename_i long
    dsimp only
    split
    · exact .inr ⟨_,_,rfl,by rw [List.length_drop]; omega⟩
    · split
      · exact .inl rfl
      · exact .inr ⟨_,_,rfl,by simp only [List.length_drop]; omega⟩

theorem holds_some (file : Bytes) : ∃ bufs, Holds file bufs := by
  induction size : file.length using Nat.strong_induction_on generalizing file with
  | _ n ih =>
    rcases ldrNext_cases file with last | ⟨buf,rest,first,shorter⟩
    · exact ⟨[],.stop last⟩
    · unfold lengthSize at shorter
      obtain ⟨bufs,more⟩ := ih rest.length (by omega) rest rfl
      exact ⟨buf :: bufs,.next first more⟩

theorem Holds.length_le (holds : Holds file bufs) : lengthSize * bufs.length ≤ file.length := by
  induction holds with
  | stop _ => exact Nat.zero_le _
  | @next file buf rest bufs first _ ih =>
    rcases ldrNext_cases file with last | ⟨_,_,first',shorter⟩
    · rw [first] at last
      cases last
    · rw [first] at first'
      cases first'
      rw [List.length_cons,Nat.mul_succ]
      omega

theorem Holds.countLoop (holds : Holds file bufs) (enough : bufs.length < fuel) :
    countLoop fuel file count = .ok (count + bufs.length) := by
  induction holds generalizing fuel count with
  | stop last =>
    obtain ⟨fuel,rfl⟩ : ∃ k, fuel = k + 1 := ⟨fuel - 1,by omega⟩
    rw [Worker.countLoop,last]
    rfl
  | next first _ ih =>
    rw [List.length_cons] at enough
    obtain ⟨fuel,rfl⟩ : ∃ k, fuel = k + 1 := ⟨fuel - 1,by omega⟩
    rw [Worker.countLoop,first]
    dsimp only
    rw [ih (by omega),List.length_cons,Nat.add_assoc,Nat.add_comm 1]

theorem Holds.ldrCount (holds : Holds file bufs) : ldrCount file = .ok bufs.length := by
  have few := holds.length_le
  unfold lengthSize at few
  rw [Worker.ldrCount,holds.countLoop (by omega),Nat.zero_add]

def nexts : Nat → Bytes → List (Option Bytes)
  | 0,_ => []
  | n + 1,file => (ldrNext file).1 :: nexts n (ldrNext file).2

theorem nexts_ended (n : Nat) : nexts n [] = List.replicate n none := by
  induction n with
  | zero => rfl
  | succ n ih =>
    rw [List.replicate_succ,← ih]
    rfl

theorem Holds.nexts (holds : Holds file bufs) (n : Nat) :
    nexts n file = (bufs.take n).map some ++ List.replicate (n - bufs.length) none := by
  induction holds generalizing n with
  | stop last =>
    cases n with
    | zero => rfl
    | succ n =>
      rw [Worker.nexts,last,nexts_ended]
      rfl
  | next first _ ih =>
    cases n with
    | zero => simp [Worker.nexts]
    | succ n =>
      rw [Worker.nexts,first,ih]
      simp

theorem Holds.frames (short : ∀ buf ∈ bufs, Short buf) : Holds (frames bufs) bufs := by
  induction bufs with
  | nil => exact .stop rfl
  | cons buf bufs ih =>
    exact .next (ldrNext_frames (short buf (by simp)) bufs) (ih (fun b inside => short b (by simp [inside])))

theorem ldrCount_frames (short : ∀ buf ∈ bufs, Short buf) : ldrCount (frames bufs) = .ok bufs.length :=
  (Holds.frames short).ldrCount

/-- A record that is cut is not read at all. -/
theorem ldrNext_cut (short : Short buf) (rest : Bytes) (inside : cut < lengthSize + buf.length) :
    ldrNext ((leBytes lengthSize buf.length ++ buf ++ rest).take cut) = (none,[]) := by
  have header : (leBytes lengthSize buf.length).length = lengthSize := leBytes_length ..
  have size : leValue (leBytes lengthSize buf.length) = buf.length := leValue_leBytes_of_lt short
  unfold ldrNext
  by_cases early : cut < lengthSize
  · have part : ((leBytes lengthSize buf.length ++ buf ++ rest).take cut).length ≤ cut := List.length_take_le _ _
    rw [if_pos (by omega)]
  · obtain ⟨more,rfl⟩ : ∃ more, cut = lengthSize + more := ⟨cut - lengthSize,by omega⟩
    have split_ : (leBytes lengthSize buf.length ++ buf ++ rest).take (lengthSize + more) =
        leBytes lengthSize buf.length ++ buf.take more := by
      rw [List.append_assoc,List.take_append,List.take_of_length_le (by omega),header,Nat.add_sub_cancel_left,
        List.take_append_of_le_length (by omega)]
    rw [split_,if_neg (by simp [header]),List.take_left' header,List.drop_left' header,size]
    dsimp only
    rw [if_neg (by omega),if_pos (by simp; omega)]

/-- The records that are in a file before the cut are read, and no other. -/
theorem Holds.truncated (short : ∀ buf ∈ bufs, Short buf) (cut : Nat) :
    ∃ k ≤ bufs.length, Holds ((Worker.frames bufs).take cut) (bufs.take k) ∧ (Worker.frames (bufs.take k)).length ≤ cut ∧
      (k < bufs.length → cut < (Worker.frames (bufs.take (k + 1))).length) := by
  induction bufs generalizing cut with
  | nil => exact ⟨0,Nat.le_refl _,.stop (by simp [Worker.frames,ldrNext,lengthSize]),Nat.zero_le _,fun more => absurd more (Nat.lt_irrefl _)⟩
  | cons buf bufs ih =>
    have first := short buf (by simp)
    have size : (leBytes lengthSize buf.length ++ buf).length = lengthSize + buf.length := by simp
    by_cases inside : cut < lengthSize + buf.length
    · refine ⟨0,Nat.zero_le _,?_,Nat.zero_le _,?_⟩
      · rw [frames_cons]
        exact .stop (ldrNext_cut first _ inside)
      · intro _
        rw [List.take_succ_cons,frames_cons,List.length_append,size]
        omega
    · obtain ⟨k,few,holds,before,after⟩ := ih (fun b later => short b (by simp [later])) (cut - (lengthSize + buf.length))
      refine ⟨k + 1,Nat.succ_le_succ few,?_,?_,?_⟩
      · rw [frames_cons,List.take_append,List.take_of_length_le (by omega),size]
        exact .next (ldrNext_frame first _) holds
      · rw [List.take_succ_cons,frames_cons,List.length_append,size]
        omega
      · intro more
        rw [List.length_cons] at more
        have next := after (by omega)
        rw [List.take_succ_cons,frames_cons,List.length_append,size]
        omega

def written (bufs : List Bytes) : Bytes := bufs.foldl ldwWrite []

theorem foldl_ldwWrite (before bufs : List Bytes) : bufs.foldl ldwWrite (frames before) = frames (before ++ bufs) := by
  induction bufs generalizing before with
  | nil => rw [List.append_nil,List.foldl_nil]
  | cons buf bufs ih => rw [List.foldl_cons,ldwWrite_frames,ih,List.append_assoc,List.singleton_append]

theorem written_frames (bufs : List Bytes) : written bufs = frames bufs := foldl_ldwWrite [] bufs

/-- Reading gives back the buffers that were written, and then none for ever. From a file cut
anywhere it gives those that were written wholly before the cut. -/
theorem codec_round_trip (short : ∀ buf ∈ bufs, buf.length < 9223372036854775808) :
    (∀ n, nexts n (written bufs) = (bufs.take n).map some ++ List.replicate (n - bufs.length) none) ∧
    ldrCount (written bufs) = .ok bufs.length ∧
    ∀ cut, ∃ k ≤ bufs.length,
      (∀ n, nexts n ((written bufs).take cut) = ((bufs.take k).take n).map some ++ List.replicate (n - k) none) ∧
      ldrCount ((written bufs).take cut) = .ok k ∧
      (written (bufs.take k)).length ≤ cut ∧ (k < bufs.length → cut < (written (bufs.take (k + 1))).length) := by
  have fits : ∀ buf ∈ bufs, Short buf := fun buf inside => Nat.lt_trans (short buf inside) (by decide)
  simp only [written_frames]
  refine ⟨(Holds.frames fits).nexts,ldrCount_frames fits,?_⟩
  intro cut
  obtain ⟨k,few,holds,before,after⟩ := Holds.truncated fits cut
  have size : (bufs.take k).length = k := List.length_take_of_le few
  refine ⟨k,few,?_,?_,before,after⟩
  · intro n
    rw [holds.nexts,size]
  · rw [holds.ldrCount,size]

theorem codec_round_trip_two :
    nexts 4 (written [[1,2],[]]) = [some [1,2],some [],none,none] ∧ ldrCount (written [[1,2],[]]) = .ok 2 := by
  obtain ⟨all,count,_⟩ := codec_round_trip (show ∀ buf ∈ ([[1,2],[]] : List Bytes), buf.length < 9223372036854775808 by decide)
  exact ⟨all 4,count⟩

end OsProj.Worker
