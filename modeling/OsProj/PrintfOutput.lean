import Mathlib.Algebra.Group.Nat.Defs
import Mathlib.Tactic.SplitIfs
import OsProj.Printf

/-! What is printed does not depend on where the output goes, and `vsnprintf` stores a prefix of it. -/
namespace OsProj.Printf

/-! Output to two places, where one state determines the other. -/

section
variable {one : UInt8 → τ → τ} {two : UInt8 → σ → σ} {h : τ → σ}

theorem doIf_natural {f : τ → τ} {g : σ → σ} (same : ∀ t, h (f t) = g (h t)) (p : Bool) (t : τ) : doIf p g (h t) = h (doIf p f t) := by
  cases p with
  | false => rfl
  | true => exact (same t).symm

theorem output_dup_natural (same : ∀ ch t, h (one ch t) = two ch (h t)) (ch : UInt8) (cnt : Nat) (t : τ) :
    output_dup two ch cnt (h t) = h (output_dup one ch cnt t) := by
  induction cnt generalizing t with
  | zero => rfl
  | succ cnt ih =>
    rw [output_dup,output_dup,← same]
    exact ih _

theorem outputChars_natural (same : ∀ ch t, h (one ch t) = two ch (h t)) (string : Nat → UInt8) (cnt i : Nat) (t : τ) :
    outputChars two string cnt i (h t) = h (outputChars one string cnt i t) := by
  induction cnt generalizing i t with
  | zero => rfl
  | succ cnt ih =>
    rw [outputChars,outputChars,← same]
    exact ih ..

theorem foldl_natural (same : ∀ ch t, h (one ch t) = two ch (h t)) (buf : List UInt8) (t : τ) :
    buf.foldl (fun s ch => two ch s) (h t) = h (buf.foldl (fun t ch => one ch t) t) := by
  induction buf generalizing t with
  | nil => rfl
  | cons ch buf ih =>
    rw [List.foldl_cons,List.foldl_cons,← same]
    exact ih _

theorem format_string_natural (same : ∀ ch t, h (one ch t) = two ch (h t)) (string : Nat → UInt8) (length : Int32) (c : PrintfConversion)
    (t : τ) : format_string two string length c (h t) = h (format_string one string length c t) := by
  have pad := fun cnt t => (output_dup_natural same ' '.toUInt8 cnt t).symm
  unfold format_string
  simp only [doIf_natural (pad _),outputChars_natural same]

theorem outputInteger_natural (same : ∀ ch t, h (one ch t) = two ch (h t)) (flags : Flags) (cnt : Nat) (sign x : UInt8) (buf : List UInt8)
    (t : τ) : outputInteger two flags cnt sign x buf (h t) = h (outputInteger one flags cnt sign x buf t) := by
  have pad := fun ch t => (output_dup_natural same ch cnt t).symm
  have hex : ∀ t, h (one x (one '0'.toUInt8 t)) = two x (two '0'.toUInt8 (h t)) := fun t => by rw [same,same]
  unfold outputInteger
  simp only [doIf_natural (pad _),doIf_natural (same _),doIf_natural (g := fun s => two x (two '0'.toUInt8 s)) hex,foldl_natural same]

theorem format_integer_natural (same : ∀ ch t, h (one ch t) = two ch (h t)) (value : UInt64) (is_signed negative : Bool) (b : IntegerBase)
    (c : PrintfConversion) (t : τ) :
    format_integer two value is_signed negative b c (h t) = (format_integer one value is_signed negative b c t).map h := by
  unfold format_integer
  cases integerBuffer value b c with
  | error fault => rfl
  | ok buf => exact congrArg Except.ok (outputInteger_natural same ..)

theorem format_float_natural (same : ∀ ch t, h (one ch t) = two ch (h t)) (fpu : Fpu) (c : PrintfConversion) (d : UInt64) (t : τ) :
    format_float fpu two c d (h t) = (format_float fpu one c d t).map h := by
  unfold format_float
  simp only [format_integer_natural same]
  cases format_integer one (widen (if fpu.first d < 0 then -fpu.first d else fpu.first d)) true (fpu.negative d) base_d
      {c with precision := -1} t with
  | error fault => rfl
  | ok t =>
    simp only [Bind.bind,Except.bind,Except.map,← same]
    exact format_integer_natural same ..

theorem ite_map {f : α → β} {p : Prop} [Decidable p] {a b : Except Fault β} {a' b' : Except Fault α} (yes : a = a'.map f)
    (no : b = b'.map f) : (if p then a else b) = (if p then a' else b').map f := by
  split
  · exact yes
  · exact no

theorem convert_natural (same : ∀ ch t, h (one ch t) = two ch (h t)) (fpu : Fpu) (memory : UInt32 → UInt8)
    {first : CString → Args → τ → Except Fault τ} {second : CString → Args → σ → Except Fault σ}
    (nested : ∀ text args t, second text args (h t) = (first text args t).map h) (args : Args) (ch : UInt8) (c : PrintfConversion) (ap : Nat)
    (t : τ) : convert fpu memory two second args ch c ap (h t) =
      (convert fpu memory one first args ch c ap t).map fun r => (h r.1,r.2) := by
  have bound : ∀ (run : Except Fault τ) (next : Nat), (do return (← run.map h,next) : Except Fault (σ × Nat)) =
      (do return (← run,next) : Except Fault (τ × Nat)).map fun r => (h r.1,r.2) := fun run next => by cases run <;> rfl
  unfold convert
  simp only [format_integer_natural same,format_float_natural same,format_string_natural same,nested,bound]
  iterate 10 refine ite_map rfl ?_
  rfl

theorem vprintfLoop_natural (same : ∀ ch t, h (one ch t) = two ch (h t)) (fpu : Fpu) (memory : UInt32 → UInt8)
    {first : CString → Args → τ → Except Fault τ} {second : CString → Args → σ → Except Fault σ}
    (nested : ∀ text args t, second text args (h t) = (first text args t).map h) (format : CString) (args : Args) (fuel i ap : Nat) (t : τ) :
    vprintfLoop fpu memory two second format args fuel i ap (h t) = (vprintfLoop fpu memory one first format args fuel i ap t).map h := by
  induction fuel generalizing i ap t with
  | zero => rfl
  | succ fuel ih =>
    rw [vprintfLoop,vprintfLoop]
    cases format.charAt i with
    | error fault => rfl
    | ok ch =>
      simp only [Bind.bind,Except.bind]
      split_ifs with ended literal
      · rfl
      · rw [← same]
        exact ih ..
      · cases format.charAt (i + 1) with
        | error fault => rfl
        | ok ch =>
          simp only
          split_ifs with percent
          · rw [← same]
            exact ih ..
          · cases parse_conversion args format (i + 1) ap with
            | error fault => rfl
            | ok r =>
              obtain ⟨c,i,ap⟩ := r
              simp only
              cases format.charAt i with
              | error fault => rfl
              | ok ch =>
                simp only [convert_natural same fpu memory nested]
                cases convert fpu memory one first args ch c ap t with
                | error fault => rfl
                | ok r => exact ih ..

theorem vprintf_natural (same : ∀ ch t, h (one ch t) = two ch (h t)) (fpu : Fpu) (memory : UInt32 → UInt8) (format : CString) (args : Args)
    (t : τ) : vprintf fpu memory two format args (h t) = (vprintf fpu memory one format args t).map h :=
  vprintfLoop_natural same fpu memory
    (fun text args t => vprintfLoop_natural same fpu memory (fun _ _ _ => rfl) text args _ 0 0 t) format args _ 0 0 t

end

/-! The output as a list of characters. -/

def emit (ch : UInt8) (text : List UInt8) : List UInt8 := text ++ [ch]

def printed (fpu : Fpu) (memory : UInt32 → UInt8) (format : CString) (args : Args) : Except Fault (List UInt8) :=
  vprintf fpu memory emit format args []

def feed (output : UInt8 → σ → σ) (s : σ) (text : List UInt8) : σ := text.foldl (fun s ch => output ch s) s

theorem feed_emit (output : UInt8 → σ → σ) (s : σ) (ch : UInt8) (text : List UInt8) :
    feed output s (emit ch text) = output ch (feed output s text) := by
  rw [feed,emit,List.foldl_append]
  rfl

theorem feed_emit_text (s text : List UInt8) : feed emit s text = s ++ text := by
  induction text generalizing s with
  | nil => rw [List.append_nil]; rfl
  | cons ch text ih =>
    rw [feed,List.foldl_cons]
    exact (ih (emit ch s)).trans (List.append_assoc s [ch] text)

/-- Output to any place is the output of the printed characters in turn. -/
theorem vprintf_feed (fpu : Fpu) (memory : UInt32 → UInt8) (output : UInt8 → σ → σ) (format : CString) (args : Args) (s : σ) :
    vprintf fpu memory output format args s = (printed fpu memory format args).map (feed output s) :=
  vprintf_natural (h := feed output s) (feed_emit output s) fpu memory format args []

/-! Output to a buffer. -/

/-- The state of a buffer after some of the text: its length is counted and as much as fits is stored. -/
structure Stored (buffer : Nat → UInt8) (most : Nat) (text : List UInt8) (aux : VsnprintfAux) : Prop where
  length : aux.length = Int32.ofNat text.length
  max_length : aux.max_length.toInt = most
  p : aux.p = min text.length most
  inside : ∀ i < min text.length most, aux.buffer i = text.getD i 0
  outside : ∀ i, min text.length most ≤ i → aux.buffer i = buffer i

theorem Stored.helper {text : List UInt8} (stored : Stored buffer most text aux) (small : text.length < 2 ^ 31) (ch : UInt8) :
    Stored buffer most (emit ch text) (vsnprintf_helper ch aux) := by
  have counted : aux.length + 1 = Int32.ofNat (emit ch text).length := by
    rw [stored.length,emit,List.length_append,Int32.ofNat_add]
    rfl
  have longer : (emit ch text).length = text.length + 1 := List.length_append
  have before : ∀ i < text.length, (emit ch text).getD i 0 = text.getD i 0 := fun i inside => by
    rw [emit,List.getD_eq_getElem?_getD,List.getElem?_append_left inside,← List.getD_eq_getElem?_getD]
  have room : aux.length < aux.max_length ↔ text.length < most := by
    rw [Int32.lt_iff_toInt_lt,stored.length,stored.max_length,Int32.toInt_ofNat_of_lt small]
    omega
  have place := stored.p
  unfold vsnprintf_helper
  by_cases fits : text.length < most
  · rw [if_pos (room.mpr fits)]
    have last : (emit ch text).getD text.length 0 = ch := by simp [emit]
    refine ⟨counted,stored.max_length,?_,?_,?_⟩
    · rw [longer]
      simp only
      omega
    · intro i inside
      simp only [place,Nat.min_eq_left (Nat.le_of_lt fits)]
      by_cases at_ : i = text.length
      · rw [at_,Function.update_self,last]
      · rw [Function.update_of_ne at_,before i (by omega)]
        exact stored.inside i (by omega)
    · intro i out
      simp only
      rw [Function.update_of_ne (by omega)]
      exact stored.outside i (by omega)
  · rw [if_neg (mt room.mp fits)]
    refine ⟨counted,stored.max_length,?_,?_,?_⟩
    · simp only
      omega
    · intro i inside
      rw [before i (by omega)]
      exact stored.inside i (by omega)
    · intro i out
      exact stored.outside i (by omega)

theorem toInt_toInt32 (x : UInt32) (small : x.toNat < 2 ^ 31) : x.toInt32.toInt = x.toNat :=
  BitVec.toInt_eq_toNat_of_lt (by change 2 * x.toNat < 2 ^ 32; omega)

theorem feed_stored (stored : Stored buffer most text aux) (more : List UInt8) (small : text.length + more.length < 2 ^ 31) :
    Stored buffer most (text ++ more) (feed vsnprintf_helper aux more) := by
  induction more generalizing text aux with
  | nil => rwa [List.append_nil]
  | cons ch more ih =>
    rw [List.length_cons] at small
    have next := ih (stored.helper (by omega) ch) (by rw [emit,List.length_append]; simp only [List.length_singleton]; omega)
    rwa [emit,List.append_assoc] at next

/-- The buffer after `vsnprintf`: a prefix of the text and a terminator. -/
structure Truncated (buffer : Nat → UInt8) (buf_size : Nat) (text : List UInt8) (buffer' : Nat → UInt8) : Prop where
  inside : ∀ i < min text.length (buf_size - 1), buffer' i = text.getD i 0
  ended : buffer' (min text.length (buf_size - 1)) = 0
  outside : ∀ i, min text.length (buf_size - 1) < i → buffer' i = buffer i

theorem vsnprintf_spec (fpu : Fpu) (memory : UInt32 → UInt8) (buffer : Nat → UInt8) (args : Args)
    (all : printed fpu memory format args = .ok text) (short : text.length < 2 ^ 31) (size : buf_size.toNat ≤ 2 ^ 31) :
    ∃ buffer', vsnprintf fpu memory buffer buf_size format args = .ok (Int32.ofNat text.length,buffer') ∧
      (buf_size = 0 → buffer' = buffer) ∧ (buf_size ≠ 0 → Truncated buffer buf_size.toNat text buffer') := by
  have most : (if buf_size > 0 then (buf_size - 1).toInt32 else 0).toInt = ((buf_size.toNat - 1 : Nat) : Int) := by
    split
    · rename_i some_
      have one : (buf_size - 1).toNat = buf_size.toNat - 1 := UInt32.toNat_sub_of_le _ _ (UInt32.lt_iff_toNat_lt.mp some_)
      rw [toInt_toInt32 _ (by omega),one]
    · rename_i none
      rw [gt_iff_lt,UInt32.lt_iff_toNat_lt] at none
      change ¬ 0 < buf_size.toNat at none
      rw [show buf_size.toNat - 1 = 0 by omega]
      rfl
  have start : Stored buffer (buf_size.toNat - 1) [] ⟨0,0,if buf_size > 0 then (buf_size - 1).toInt32 else 0,buffer⟩ := by
    refine ⟨rfl,most,?_,?_,?_⟩ <;> simp
  have stored := feed_stored start text (by simpa using short)
  rw [List.nil_append] at stored
  unfold vsnprintf
  simp only
  rw [vprintf_feed,all]
  refine ⟨_,congrArg Except.ok (Prod.ext stored.length rfl),?_,?_⟩
  · intro none
    subst none
    rw [if_neg (by decide)]
    funext i
    exact stored.outside i (by simp)
  · intro some_
    have positive : buf_size > 0 := UInt32.pos_iff_ne_zero.mpr some_
    rw [if_pos positive]
    rw [stored.p]
    refine ⟨?_,Function.update_self ..,?_⟩
    · intro i inside
      rw [Function.update_of_ne (by omega)]
      exact stored.inside i inside
    · intro i out
      rw [Function.update_of_ne (by omega)]
      exact stored.outside i (by omega)

end OsProj.Printf
