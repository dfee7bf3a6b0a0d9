import OsProj.PrintfInteger

/-! Which formats are read up to their terminator and no further. -/
namespace OsProj.Printf

/-! The grammar of formats. -/

def isFlag (c : UInt8) : Bool := (({} : Flags).add c).isSome

def skipFlags (rest : List UInt8) : List UInt8 := rest.dropWhile isFlag

def skipNumber (rest : List UInt8) : List UInt8 :=
  if rest.head? = some '*'.toUInt8 then rest.tail else rest.dropWhile isdigit

def skipPrecision (rest : List UInt8) : List UInt8 :=
  if rest.head? = some '.'.toUInt8 then skipNumber rest.tail else rest

def skipType (rest : List UInt8) : List UInt8 :=
  if rest.head? = some 'h'.toUInt8 then if rest.tail.head? = some 'h'.toUInt8 then rest.tail.tail else rest.tail
  else if rest.head? = some 'j'.toUInt8 then rest.tail
  else if rest.head? = some 'l'.toUInt8 then if rest.tail.head? = some 'l'.toUInt8 then rest.tail.tail else rest.tail
  else if rest.head? = some 't'.toUInt8 then rest.tail
  else if rest.head? = some 'z'.toUInt8 then rest.tail
  else rest

def skipOptions (rest : List UInt8) : List UInt8 := skipType (skipPrecision (skipNumber (skipFlags rest)))

/-- No conversion is cut off by the end of the format. -/
inductive Closed : List UInt8 → Prop
  | done : Closed []
  | literal (other : c ≠ '%'.toUInt8) (closed : Closed rest) : Closed (c :: rest)
  | percent (closed : Closed rest) : Closed ('%'.toUInt8 :: '%'.toUInt8 :: rest)
  | conversion (other : rest.head? ≠ some '%'.toUInt8) (options : skipOptions rest = c :: rest') (closed : Closed rest') :
    Closed ('%'.toUInt8 :: rest)

theorem closed_literal (other : c ≠ '%'.toUInt8) : Closed (c :: rest) ↔ Closed rest := by
  constructor
  · intro closed
    cases closed with
    | literal _ closed => exact closed
    | percent _ => exact absurd rfl other
    | conversion _ _ _ => exact absurd rfl other
  · exact .literal other

theorem closed_percent : Closed ('%'.toUInt8 :: '%'.toUInt8 :: rest) ↔ Closed rest := by
  constructor
  · intro closed
    cases closed with
    | literal other _ => exact absurd rfl other
    | percent closed => exact closed
    | conversion other _ _ => exact absurd rfl other
  · exact .percent

theorem closed_conversion (other : rest.head? ≠ some '%'.toUInt8) :
    Closed ('%'.toUInt8 :: rest) ↔ ∃ c rest', skipOptions rest = c :: rest' ∧ Closed rest' := by
  constructor
  · intro closed
    cases closed with
    | literal other _ => exact absurd rfl other
    | percent _ => exact absurd rfl other
    | conversion _ options closed => exact ⟨_,_,options,closed⟩
  · rintro ⟨_,_,options,closed⟩
    exact .conversion other options closed

theorem skipNumber_suffix (rest : List UInt8) : skipNumber rest <:+ rest := by
  unfold skipNumber
  split
  · exact List.tail_suffix _
  · exact List.dropWhile_suffix _

theorem skipPrecision_suffix (rest : List UInt8) : skipPrecision rest <:+ rest := by
  unfold skipPrecision
  split
  · exact (skipNumber_suffix _).trans (List.tail_suffix _)
  · exact List.suffix_rfl

theorem skipType_suffix (rest : List UInt8) : skipType rest <:+ rest := by
  have once := List.tail_suffix rest
  have twice := (List.tail_suffix rest.tail).trans once
  unfold skipType
  split_ifs
  all_goals first
    | exact twice
    | exact once
    | exact List.suffix_rfl

theorem skipOptions_suffix (rest : List UInt8) : skipOptions rest <:+ rest :=
  (skipType_suffix _).trans ((skipPrecision_suffix _).trans ((skipNumber_suffix _).trans (List.dropWhile_suffix _)))

/-! The parser reads the options. -/

structure CString.At (format : CString) (i : Nat) (rest : List UInt8) : Prop where
  inside : i ≤ format.val.length
  rest : format.val.drop i = rest

section
variable {format : CString} {rest : List UInt8}

theorem CString.At.charAt (here : format.At i rest) : format.charAt i = .ok (rest.headD 0) := by
  rw [CString.charAt,if_pos here.inside,← here.rest]
  simp [List.getD_eq_getElem?_getD, List.headD_eq_head?_getD, List.head?_drop]

theorem CString.At.next (here : format.At i (c :: rest)) : format.At (i + 1) rest := by
  have shorter : i < format.val.length := by
    by_contra last
    have nothing := here.rest
    rw [List.drop_eq_nil_of_le (by omega)] at nothing
    cases nothing
  refine ⟨shorter,?_⟩
  rw [← List.drop_drop,here.rest]
  rfl

theorem CString.At.nonzero (here : format.At i (c :: rest)) : c ≠ 0 := by
  intro zero
  subst zero
  apply format.property
  exact List.mem_of_mem_drop (here.rest ▸ List.mem_cons_self ..)

theorem CString.At.length (here : format.At i rest) : i + rest.length = format.val.length := by
  have := here.inside
  rw [← here.rest,List.length_drop]
  omega

theorem add_isSome (flags : Flags) (c : UInt8) : (flags.add c).isSome = isFlag c := by
  unfold isFlag Flags.add
  split_ifs <;> rfl

theorem parseFlags_skips (here : format.At i rest) (flags : Flags) (rounds : rest.length < fuel) :
    ∃ flags' i', parseFlags fuel format i flags = .ok (flags',i') ∧ format.At i' (skipFlags rest) := by
  induction fuel generalizing i rest flags with
  | zero => omega
  | succ fuel ih =>
    rw [parseFlags,here.charAt]
    simp only [Bind.bind,Except.bind]
    have known := add_isSome flags (rest.headD 0)
    cases added : flags.add (rest.headD 0) with
    | none =>
      rw [added] at known
      refine ⟨flags,i,rfl,?_⟩
      cases rest with
      | nil => exact here
      | cons c rest =>
        rw [skipFlags,List.dropWhile_cons_of_neg (by simpa using known)]
        exact here
    | some flags' =>
      rw [added] at known
      cases rest with
      | nil =>
        change true = isFlag 0 at known
        exact absurd known (by decide)
      | cons c rest =>
        rw [skipFlags,List.dropWhile_cons_of_pos (by simpa using known.symm)]
        exact ih here.next flags' (by rw [List.length_cons] at rounds; omega)

theorem parseDigits_skips (here : format.At i rest) (value : Int32) (rounds : rest.length < fuel) :
    ∃ value' i', parseDigits fuel format i value = .ok (value',i') ∧ format.At i' (rest.dropWhile isdigit) := by
  induction fuel generalizing i rest value with
  | zero => omega
  | succ fuel ih =>
    rw [parseDigits,here.charAt]
    simp only [Bind.bind,Except.bind]
    cases rest with
    | nil => exact ⟨value,i,rfl,here⟩
    | cons c rest =>
      rw [List.headD_cons]
      by_cases digit : isdigit c = true
      · rw [if_pos digit,List.dropWhile_cons_of_pos digit]
        exact ih here.next _ (by rw [List.length_cons] at rounds; omega)
      · rw [if_neg digit,List.dropWhile_cons_of_neg digit]
        exact ⟨value,i,rfl,here⟩

/-- A character other than the terminator is the head of the rest. -/
theorem headD_eq_iff (some_ : c ≠ 0) : rest.headD 0 = c ↔ rest.head? = some c := by
  cases rest with
  | nil => simp [some_.symm]
  | cons d rest => simp

theorem CString.At.tail (here : format.At i rest) (head : rest.head? = some c) : format.At (i + 1) rest.tail := by
  cases rest with
  | nil => cases head
  | cons d rest => exact here.next

theorem parseNumber_skips (here : format.At i rest) (args : Args) (ap : Nat) :
    ∃ value i' ap', parseNumber args format i ap = .ok (value,i',ap') ∧ format.At i' (skipNumber rest) := by
  unfold parseNumber skipNumber
  rw [here.charAt]
  simp only [Bind.bind,Except.bind,headD_eq_iff (show '*'.toUInt8 ≠ 0 by decide)]
  split
  · rename_i star
    exact ⟨_,_,_,rfl,here.tail star⟩
  · obtain ⟨value,i',run,there⟩ := parseDigits_skips here 0 (show rest.length < format.val.length + 1 by have := here.length; omega)
    rw [run]
    exact ⟨value,i',ap,rfl,there⟩

theorem parsePrecision_skips (here : format.At i rest) (args : Args) (ap : Nat) :
    ∃ precision i' ap', parsePrecision args format i ap = .ok (precision,i',ap') ∧ format.At i' (skipPrecision rest) := by
  unfold parsePrecision skipPrecision
  rw [here.charAt]
  simp only [Bind.bind,Except.bind,headD_eq_iff (show '.'.toUInt8 ≠ 0 by decide)]
  split
  · rename_i dot
    obtain ⟨value,i',ap',run,there⟩ := parseNumber_skips (here.tail dot) args ap
    rw [run]
    exact ⟨_,i',ap',rfl,there⟩
  · exact ⟨_,i,ap,rfl,here⟩

theorem parseType_skips (here : format.At i rest) : ∃ type i', parseType format i = .ok (type,i') ∧ format.At i' (skipType rest) := by
  have letter : ∀ c, c ≠ 0 → ∀ twice once : ArgType, rest.head? = some c →
      ∃ type i', (do if (← format.charAt (i + 1)) = c then return (twice,i + 1 + 1) else return (once,i + 1) : Except Fault (ArgType × Nat)) =
        .ok (type,i') ∧ format.At i' (if rest.tail.head? = some c then rest.tail.tail else rest.tail) := by
    intro c some_ twice once head
    rw [(here.tail head).charAt]
    simp only [Bind.bind,Except.bind,headD_eq_iff some_]
    split
    · exact ⟨twice,i + 1 + 1,rfl,(here.tail head).tail ‹_›⟩
    · exact ⟨once,i + 1,rfl,here.tail head⟩
  unfold parseType skipType
  rw [here.charAt]
  have zero : 'h'.toUInt8 ≠ 0 ∧ 'j'.toUInt8 ≠ 0 ∧ 'l'.toUInt8 ≠ 0 ∧ 't'.toUInt8 ≠ 0 ∧ 'z'.toUInt8 ≠ 0 := by decide
  simp only [Bind.bind,Except.bind,headD_eq_iff zero.1,headD_eq_iff zero.2.1,headD_eq_iff zero.2.2.1,headD_eq_iff zero.2.2.2.1,
    headD_eq_iff zero.2.2.2.2]
  by_cases h : rest.head? = some 'h'.toUInt8
  · rw [if_pos h,if_pos h]
    exact letter _ zero.1 .char .short h
  rw [if_neg h,if_neg h]
  by_cases j : rest.head? = some 'j'.toUInt8
  · rw [if_pos j,if_pos j]
    exact ⟨.intmax,i + 1,rfl,here.tail j⟩
  rw [if_neg j,if_neg j]
  by_cases l : rest.head? = some 'l'.toUInt8
  · rw [if_pos l,if_pos l]
    exact letter _ zero.2.2.1 .longlong .long l
  rw [if_neg l,if_neg l]
  by_cases t : rest.head? = some 't'.toUInt8
  · rw [if_pos t,if_pos t]
    exact ⟨.ptrdifft,i + 1,rfl,here.tail t⟩
  rw [if_neg t,if_neg t]
  by_cases z : rest.head? = some 'z'.toUInt8
  · rw [if_pos z,if_pos z]
    exact ⟨.sizet,i + 1,rfl,here.tail z⟩
  rw [if_neg z,if_neg z]
  exact ⟨.int,i,rfl,here⟩

/-- The parser ends behind the options, whatever the arguments are. -/
theorem parse_conversion_skips (here : format.At i rest) (args : Args) (ap : Nat) :
    ∃ c i' ap', parse_conversion args format i ap = .ok (c,i',ap') ∧ format.At i' (skipOptions rest) := by
  obtain ⟨flags,i₁,first,there⟩ := parseFlags_skips here {} (show rest.length < format.val.length + 1 by have := here.length; omega)
  obtain ⟨width,i₂,ap₂,second,there⟩ := parseNumber_skips there args ap
  obtain ⟨precision,i₃,ap₃,third,there⟩ := parsePrecision_skips there args ap₂
  obtain ⟨type,i₄,fourth,there⟩ := parseType_skips there
  unfold parse_conversion
  simp only [first,second,third,fourth,Bind.bind,Except.bind]
  exact ⟨_,i₄,ap₃,rfl,there⟩

end

section
variable (fpu : Fpu) (memory : UInt32 → UInt8) {σ : Type} (output : UInt8 → σ → σ)

/-- The texts for what is not supported contain no such conversion. -/
theorem plainVprintf_texts (args : Args) (s : σ) :
    (∃ s', plainVprintf fpu memory output noKernelText args s = .ok s') ∧
      ∃ s', plainVprintf fpu memory output noConversionText args s = .ok s' :=
  ⟨⟨_,rfl⟩,⟨_,rfl⟩⟩

theorem format_integer_runs (member : b ∈ bases) (value : UInt64) (is_signed negative : Bool)
    (c : PrintfConversion) (s : σ) : ∃ s', format_integer output value is_signed negative b c s = .ok s' := by
  obtain ⟨_,_,_,_,run⟩ := format_integer_spec member value is_signed negative c
  exact ⟨_,run output s⟩

theorem format_float_runs (c : PrintfConversion) (d : UInt64) (s : σ) : ∃ s', format_float fpu output c d s = .ok s' := by
  unfold format_float
  have decimal : base_d ∈ bases := List.mem_cons_self ..
  simp only
  obtain ⟨s₁,first⟩ := format_integer_runs output decimal (widen (if fpu.first d < 0 then -fpu.first d else fpu.first d)) true
    (fpu.negative d) {c with precision := -1} s
  rw [first]
  exact format_integer_runs output decimal ..

theorem ite_runs {p : Prop} [Decidable p] {a b : Except Fault α} (yes : ∃ r, a = .ok r) (no : ∃ r, b = .ok r) :
    ∃ r, (if p then a else b) = .ok r := by
  split
  · exact yes
  · exact no

theorem convert_runs (args : Args) (ch : UInt8) (c : PrintfConversion) (ap : Nat) (s : σ) :
    ∃ r, convert fpu memory output (plainVprintf fpu memory output) args ch c ap s = .ok r := by
  have paired : ∀ {run : Except Fault σ} (next : Nat), (∃ s', run = .ok s') →
      ∃ r, (do return (← run,next) : Except Fault (σ × Nat)) = .ok r := by
    rintro run next ⟨s',rfl⟩
    exact ⟨(s',next),rfl⟩
  have integer : ∀ b ∈ bases, ∀ value is_signed negative c next,
      ∃ r, (do return (← format_integer output value is_signed negative b c s,next) : Except Fault (σ × Nat)) = .ok r :=
    fun b member value is_signed negative c next => paired next (format_integer_runs output member ..)
  have texts := plainVprintf_texts fpu memory output (fun _ => ch.toInt8.toInt32.toUInt32) s
  unfold convert
  refine ite_runs (integer base_d (by simp [bases]) ..) ?_
  refine ite_runs (integer base_o (by simp [bases]) ..) ?_
  refine ite_runs (integer base_d (by simp [bases]) ..) ?_
  refine ite_runs (integer base_x (by simp [bases]) ..) ?_
  refine ite_runs (integer base_X (by simp [bases]) ..) ?_
  refine ite_runs ⟨_,rfl⟩ (ite_runs ⟨_,rfl⟩ ?_)
  refine ite_runs (integer base_x (by simp [bases]) ..) ?_
  refine ite_runs (paired _ (format_float_runs ..)) ?_
  exact ite_runs (paired _ texts.1) (paired _ texts.2)

/-- The loop ends at the terminator of a closed format, and passes that of any other one. -/
theorem vprintfLoop_scans {format : CString} (here : format.At i rest) (args : Args) (ap : Nat) (s : σ) (rounds : rest.length < fuel) :
    Closed rest ∧ (∃ s', vprintfLoop fpu memory output (plainVprintf fpu memory output) format args fuel i ap s = .ok s') ∨
      ¬Closed rest ∧ vprintfLoop fpu memory output (plainVprintf fpu memory output) format args fuel i ap s = .error .outside := by
  induction fuel generalizing i rest ap s with
  | zero => omega
  | succ fuel ih =>
    rw [vprintfLoop,here.charAt]
    simp only [Bind.bind,Except.bind]
    cases rest with
    | nil => exact .inl ⟨.done,s,rfl⟩
    | cons c rest =>
      rw [List.length_cons] at rounds
      rw [List.headD_cons,if_neg here.nonzero]
      by_cases percent : c = '%'.toUInt8
      · subst percent
        rw [if_neg (by simp),here.next.charAt]
        simp only [headD_eq_iff (show '%'.toUInt8 ≠ 0 by decide)]
        by_cases again : rest.head? = some '%'.toUInt8
        · rw [if_pos again]
          obtain ⟨rest,rfl⟩ := List.head?_eq_some_iff.mp again
          rw [List.length_cons] at rounds
          rw [closed_percent]
          exact ih here.next.next ap _ (by omega)
        · rw [if_neg again]
          obtain ⟨cv,j,ap',parsed,there⟩ := parse_conversion_skips here.next args ap
          obtain ⟨r,converted⟩ := convert_runs fpu memory output args ((skipOptions rest).headD 0) cv ap' s
          have shorter := (skipOptions_suffix rest).length_le
          simp only [parsed,there.charAt,converted]
          rw [closed_conversion again]
          cases left : skipOptions rest with
          | nil =>
            -- the loop steps over the terminator
            rw [left] at there
            have last := there.length
            rw [List.length_nil] at last
            obtain ⟨fuel,rfl⟩ : ∃ n, fuel = n + 1 := ⟨fuel - 1,by omega⟩
            refine .inr ⟨?_,?_⟩
            · rintro ⟨_,_,some_,_⟩
              cases some_
            rw [vprintfLoop,CString.charAt,if_neg (by omega)]
            rfl
          | cons d rest' =>
            rw [left] at there shorter
            rw [List.length_cons] at shorter
            have one : (∃ c rest'', d :: rest' = c :: rest'' ∧ Closed rest'') ↔ Closed rest' := by
              constructor
              · rintro ⟨_,_,same,closed⟩
                cases same
                exact closed
              · exact fun closed => ⟨d,rest',rfl,closed⟩
            rw [one]
            exact ih there.next r.2 r.1 (by omega)
      · rw [if_pos percent]
        rw [closed_literal percent]
        exact ih here.next ap (output c s) (by omega)

theorem vprintf_scans (format : CString) (args : Args) (s : σ) :
    Closed format.val ∧ (∃ s', vprintf fpu memory output format args s = .ok s') ∨
      ¬Closed format.val ∧ vprintf fpu memory output format args s = .error .outside :=
  vprintfLoop_scans fpu memory output ⟨Nat.zero_le _,rfl⟩ args 0 s (Nat.lt_succ_self _)

/-- The format is read up to its terminator exactly where it is closed, and behind it otherwise. The
parser never reads behind it. -/
theorem vprintf_stays_iff_closed (format : CString) (args : Args) (s : σ) :
    ((∃ s', vprintf fpu memory output format args s = .ok s') ↔ Closed format.val) ∧
    (vprintf fpu memory output format args s = .error .outside ↔ ¬Closed format.val) ∧
    ∀ i ap, i ≤ format.val.length →
      ∃ c i' ap', parse_conversion args format i ap = .ok (c,i',ap') ∧ i' ≤ format.val.length := by
  refine ⟨?_,?_,?_⟩
  · rcases vprintf_scans fpu memory output format args s with ⟨closed,runs⟩ | ⟨opened,fails⟩
    · exact ⟨fun _ => closed,fun _ => runs⟩
    · refine ⟨fun ⟨s',run⟩ => ?_,fun closed => absurd closed opened⟩
      rw [fails] at run
      cases run
  · rcases vprintf_scans fpu memory output format args s with ⟨closed,s',run⟩ | ⟨opened,fails⟩
    · rw [run]
      exact ⟨fun fails => (nomatch fails),fun opened => absurd closed opened⟩
    · exact ⟨fun _ => opened,fun _ => fails⟩
  · intro i ap inside
    have here : format.At i (format.val.drop i) := ⟨inside,rfl⟩
    obtain ⟨c,i',ap',run,there⟩ := parse_conversion_skips here args ap
    exact ⟨c,i',ap',run,there.inside⟩

end

def zeroFpu : Fpu := ⟨fun _ => 0,fun _ _ _ => 0,fun _ => false⟩

def percent : CString := ⟨['%'.toUInt8],by decide⟩

def percentD : CString := ⟨['%'.toUInt8,'d'.toUInt8],by decide⟩

theorem vprintf_stays_iff_closed_percentD :
    ((∃ s', vprintf zeroFpu (fun _ => 0) emit percentD (fun _ => 7) [] = .ok s') ↔ Closed percentD.val) ∧
    (vprintf zeroFpu (fun _ => 0) emit percentD (fun _ => 7) [] = .error .outside ↔ ¬Closed percentD.val) ∧
    ∃ c i' ap', parse_conversion (fun _ => 7) percentD 1 0 = .ok (c,i',ap') ∧ i' ≤ 2 :=
  ⟨(vprintf_stays_iff_closed zeroFpu (fun _ => 0) emit percentD (fun _ => 7) []).1,
    (vprintf_stays_iff_closed zeroFpu (fun _ => 0) emit percentD (fun _ => 7) []).2.1,
    (vprintf_stays_iff_closed zeroFpu (fun _ => 0) emit percentD (fun _ => 7) []).2.2 1 0 (by decide)⟩

/-- The format `%` is read behind its terminator. -/
theorem not_vprintf_stays : ¬∀ (fpu : Fpu) (memory : UInt32 → UInt8) (format : CString) (args : Args) (text : List UInt8),
    ∃ text', vprintf fpu memory emit format args text = .ok text' := by
  intro all
  obtain ⟨text',run⟩ := all zeroFpu (fun _ => 0) percent (fun _ => 0) []
  rw [show vprintf zeroFpu (fun _ => 0) emit percent (fun _ => 0) [] = .error .outside by rfl] at run
  cases run

/-- The returned length is that of all that is printed for any size of the buffer, which holds as
much of it as fits. -/
theorem vsnprintf_truncates (fpu : Fpu) (memory : UInt32 → UInt8) (format : CString) (args : Args) (closed : Closed format.val) :
    ∃ text, printed fpu memory format args = .ok text ∧ (text.length < 2 ^ 31 → ∀ (buffer : Nat → UInt8) (buf_size : UInt32),
      buf_size.toNat ≤ 2 ^ 31 → ∃ n buffer', vsnprintf fpu memory buffer buf_size format args = .ok (n,buffer') ∧ n.toInt = text.length ∧
        (buf_size = 0 → buffer' = buffer) ∧ (buf_size ≠ 0 → Truncated buffer buf_size.toNat text buffer')) := by
  rcases vprintf_scans fpu memory emit format args [] with ⟨_,text,all⟩ | ⟨opened,_⟩
  · refine ⟨text,all,fun short buffer buf_size size => ?_⟩
    obtain ⟨buffer',run,none,some_⟩ := vsnprintf_spec fpu memory buffer args all short size
    exact ⟨_,buffer',run,Int32.toInt_ofNat_of_lt short,none,some_⟩
  · exact absurd closed opened

theorem vsnprintf_truncates_percentD :
    ∃ n buffer', vsnprintf zeroFpu (fun _ => 0) (fun _ => 1) 3 percentD (fun _ => 1234) = .ok (n,buffer') ∧ n.toInt = 4 ∧
      Truncated (fun _ => 1) 3 [49,50,51,52] buffer' := by
  obtain ⟨text,all,stores⟩ := vsnprintf_truncates zeroFpu (fun _ => 0) percentD (fun _ => 1234) (.conversion (by decide) rfl .done)
  rw [show printed zeroFpu (fun _ => 0) percentD (fun _ => 1234) = .ok [49,50,51,52] by rfl] at all
  cases all
  obtain ⟨n,buffer',run,length,_,some_⟩ := stores (by decide) (fun _ => 1) 3 (by decide)
  exact ⟨n,buffer',run,length,some_ (by decide)⟩

end OsProj.Printf
