import Mathlib.Data.List.Basic

/-! The keyboard of devices/kbd.c: scancodes to characters, under the keys that are held. -/
namespace OsProj.Keyboard

structure Kbd where
  leftShift : Bool
  rightShift : Bool
  leftAlt : Bool
  rightAlt : Bool
  leftCtrl : Bool
  rightCtrl : Bool
  capsLock : Bool
  keyCnt : Int
  deriving DecidableEq, Repr

def boot : Kbd := ⟨false,false,false,false,false,false,false,0⟩

abbrev Keymap := List (Nat × List Char)

def invariantKeymap : Keymap :=
  [(0x01,['\x1b']),(0x0e,['\x08']),(0x0f,"\tQWERTYUIOP".toList),(0x1c,['\r']),(0x1e,"ASDFGHJKL".toList),
    (0x2c,"ZXCVBNM".toList),(0x37,['*']),(0x39,[' ']),(0x53,['\x7f'])]

def unshiftedKeymap : Keymap :=
  [(0x02,"1234567890-=".toList),(0x1a,['[',']']),(0x27,[';','\x27','\x60']),(0x2b,['\\']),(0x33,[',','.','/'])]

def shiftedKeymap : Keymap :=
  [(0x02,"!@#$%^&*()_+".toList),(0x1a,['\x7b','\x7d']),(0x27,[':','\x22','~']),(0x2b,['|']),(0x33,['<','>','?'])]

def mapKey (k : Keymap) (scancode : Nat) : Option UInt8 :=
  k.findSome? fun (first,chars) =>
    if first ≤ scancode then (chars[scancode - first]?).map fun c => c.toNat.toUInt8 else none

def tolower (c : UInt8) : UInt8 := if 65 ≤ c ∧ c ≤ 90 then c - 65 + 97 else c

inductive ShiftKey where
  | leftShift
  | rightShift
  | leftAlt
  | rightAlt
  | leftCtrl
  | rightCtrl
  deriving DecidableEq, Repr

def shiftKeys : List (Nat × ShiftKey) :=
  [(0x2a,.leftShift),(0x36,.rightShift),(0x38,.leftAlt),(0xe038,.rightAlt),(0x1d,.leftCtrl),(0xe01d,.rightCtrl)]

def Kbd.held (k : Kbd) : ShiftKey → Bool
  | .leftShift => k.leftShift
  | .rightShift => k.rightShift
  | .leftAlt => k.leftAlt
  | .rightAlt => k.rightAlt
  | .leftCtrl => k.leftCtrl
  | .rightCtrl => k.rightCtrl

def Kbd.hold (k : Kbd) (key : ShiftKey) (held : Bool) : Kbd :=
  match key with
  | .leftShift => { k with leftShift := held }
  | .rightShift => { k with rightShift := held }
  | .leftAlt => { k with leftAlt := held }
  | .rightAlt => { k with rightAlt := held }
  | .leftCtrl => { k with leftCtrl := held }
  | .rightCtrl => { k with rightCtrl := held }

/-- The scancode of an interrupt; its second byte is read behind the prefix only. -/
def scancode (first second : UInt8) : Nat :=
  if first = 0xe0 then 0xe000 ||| second.toNat else first.toNat

def released (code : Nat) : Bool := code &&& 0x80 ≠ 0

/-- The code without the bit for the release of a key. -/
def keyOf (code : Nat) : Nat := code &&& 0xffffff7f

def Kbd.shift (k : Kbd) : Bool := k.leftShift || k.rightShift

def Kbd.alt (k : Kbd) : Bool := k.leftAlt || k.rightAlt

def Kbd.ctrl (k : Kbd) : Bool := k.leftCtrl || k.rightCtrl

/-- The character of a key, before the modifiers are applied to it. -/
def lookup (k : Kbd) (code : Nat) : Option UInt8 :=
  (mapKey invariantKeymap code).or (mapKey (if k.shift then shiftedKeymap else unshiftedKeymap) code)

def modify (k : Kbd) (c : UInt8) : UInt8 :=
  let c := if k.ctrl && 0x40 ≤ c && c < 0x60 then c - 0x40 else if k.shift = k.capsLock then tolower c else c
  if k.alt then c + 0x80 else c

inductive Effect where
  | reboot
  | char (c : UInt8)
  | state (k : Kbd)
  deriving DecidableEq, Repr

/-- What the interrupt handler does up to the test of the buffer. -/
def interpret (k : Kbd) (first second : UInt8) : Effect :=
  let code := scancode first second
  let release := released code
  let code := keyOf code
  if code = 0x3a then .state (if release then k else { k with capsLock := !k.capsLock })
  else
    match lookup k code with
    | some c =>
      if release then .state k
      else if c = 0x7f && k.ctrl && k.alt then .reboot
      else .char (modify k c)
    | none =>
      match shiftKeys.find? fun entry => entry.1 = code with
      | some entry => .state (k.hold entry.2 !release)
      | none => .state k

abbrev Interrupts := List (UInt8 × UInt8)

/-- The state behind an interrupt, but for the count. -/
def Effect.kbd (k : Kbd) : Effect → Kbd
  | state k' => k'
  | _ => k

def run : Interrupts → Kbd
  | [] => boot
  | (first,second) :: before => (interpret (run before) first second).kbd (run before)

def ShiftKey.code : ShiftKey → Nat
  | leftShift => 0x2a
  | rightShift => 0x36
  | leftAlt => 0x38
  | rightAlt => 0xe038
  | leftCtrl => 0x1d
  | rightCtrl => 0xe01d

def Held (key : ShiftKey) : Interrupts → Bool
  | [] => false
  | (first,second) :: before =>
    if keyOf (scancode first second) = key.code then !released (scancode first second) else Held key before

def capsPresses (interrupts : Interrupts) : Nat :=
  interrupts.countP fun i => keyOf (scancode i.1 i.2) = 0x3a && !released (scancode i.1 i.2)

section
variable {k : Kbd} {code : Nat}

theorem hold_held (k : Kbd) (key other : ShiftKey) (held : Bool) :
    (k.hold key held).held other = if other = key then held else k.held other := by
  cases key <;> cases other <;> rfl

theorem hold_capsLock (k : Kbd) (key : ShiftKey) (held : Bool) : (k.hold key held).capsLock = k.capsLock := by
  cases key <;> rfl

/-- The keys whose state is kept have no characters. -/
theorem lookup_shiftKey (k : Kbd) (key : ShiftKey) : lookup k key.code = none := by
  unfold lookup
  cases key <;> cases k.shift <;> decide

theorem find_shiftKey (key : ShiftKey) : shiftKeys.find? (fun entry => entry.1 = key.code) = some (key.code,key) := by
  cases key <;> decide

theorem find_other (found : shiftKeys.find? (fun entry => entry.1 = code) = some entry) : entry.2.code = code := by
  have member := List.mem_of_find?_eq_some found
  have here : entry.1 = code := by simpa using List.find?_some found
  rw [← here]
  clear found here
  revert entry
  decide

/-- What an interrupt changes. -/
theorem interpret_kbd (k : Kbd) (first second : UInt8) (key : ShiftKey) :
    ((interpret k first second).kbd k).held key =
        (if keyOf (scancode first second) = key.code then !released (scancode first second) else k.held key) ∧
      ((interpret k first second).kbd k).capsLock =
        if keyOf (scancode first second) = 0x3a ∧ released (scancode first second) = false then !k.capsLock else k.capsLock := by
  unfold interpret
  dsimp only
  by_cases caps : keyOf (scancode first second) = 0x3a
  · have other : 0x3a ≠ key.code := by cases key <;> decide
    rw [if_pos caps]
    simp only [Effect.kbd,caps,if_neg other,true_and]
    cases released (scancode first second) <;> exact ⟨by cases key <;> rfl,rfl⟩
  rw [if_neg caps,if_neg (fun both : _ ∧ _ => caps both.1)]
  cases found : lookup k (keyOf (scancode first second)) with
  | some c =>
    have other : keyOf (scancode first second) ≠ key.code := by
      intro same
      rw [same,lookup_shiftKey] at found
      cases found
    rw [if_neg other]
    dsimp only
    split
    · exact ⟨rfl,rfl⟩
    · split <;> exact ⟨rfl,rfl⟩
  | none =>
    dsimp only
    cases entry : shiftKeys.find? fun entry => decide (entry.1 = keyOf (scancode first second)) with
    | none =>
      have other : keyOf (scancode first second) ≠ key.code := by
        intro same
        rw [same,find_shiftKey] at entry
        cases entry
      exact ⟨(if_neg other).symm,rfl⟩
    | some pair =>
      have code := find_other entry
      refine ⟨?_,hold_capsLock ..⟩
      rw [Effect.kbd,hold_held]
      by_cases same : key = pair.2
      · rw [if_pos same,if_pos (by rw [same,code])]
      · rw [if_neg same,if_neg]
        intro equal
        have both : pair.2.code = key.code := code.trans equal
        revert both same
        cases key <;> cases pair.2 <;> decide

def letters : List (UInt8 × Char) :=
  [(0x1e,'A'),(0x30,'B'),(0x2e,'C'),(0x20,'D'),(0x12,'E'),(0x21,'F'),(0x22,'G'),(0x23,'H'),(0x17,'I'),(0x24,'J'),(0x25,'K'),
    (0x26,'L'),(0x32,'M'),(0x31,'N'),(0x18,'O'),(0x19,'P'),(0x10,'Q'),(0x13,'R'),(0x1f,'S'),(0x14,'T'),(0x16,'U'),(0x2f,'V'),
    (0x11,'W'),(0x2d,'X'),(0x15,'Y'),(0x2c,'Z')]

theorem letters_mapped : ∀ letter ∈ letters, letter.1 ≠ 0xe0 ∧ released letter.1.toNat = false ∧ keyOf letter.1.toNat ≠ 0x3a ∧
    mapKey invariantKeymap (keyOf letter.1.toNat) = some letter.2.toNat.toUInt8 ∧ 65 ≤ letter.2.toNat.toUInt8 ∧
      letter.2.toNat.toUInt8 ≤ 90 := by decide

def typed (ctrl shift capsLock alt : Bool) (letter : Char) : UInt8 :=
  let c := letter.toNat.toUInt8
  let c := if ctrl then c - 64 else if shift = capsLock then c + 32 else c
  if alt then c + 128 else c

theorem interpret_letter (k : Kbd) (second : UInt8) (member : letter ∈ letters) :
    interpret k letter.1 second = .char (typed k.ctrl k.shift k.capsLock k.alt letter.2) := by
  obtain ⟨plain,pressed,other,mapped,low,high⟩ := letters_mapped letter member
  have code : scancode letter.1 second = letter.1.toNat := if_neg plain
  have found : lookup k (keyOf letter.1.toNat) = some letter.2.toNat.toUInt8 := by rw [lookup,mapped]; rfl
  have notDelete : letter.2.toNat.toUInt8 ≠ 0x7f := by
    intro same
    rw [same] at high
    exact absurd high (by decide)
  have lower : tolower letter.2.toNat.toUInt8 = letter.2.toNat.toUInt8 + 32 := by
    rw [tolower,if_pos ⟨low,high⟩,UInt8.sub_eq_add_neg,UInt8.add_assoc]
    rfl
  have range : (0x40 ≤ letter.2.toNat.toUInt8 && letter.2.toNat.toUInt8 < 0x60) = true := by
    rw [Bool.and_eq_true,decide_eq_true_iff,decide_eq_true_iff]
    exact ⟨UInt8.le_trans (by decide) low,UInt8.lt_of_le_of_lt high (by decide)⟩
  unfold interpret
  dsimp only
  rw [code,if_neg other,found]
  dsimp only
  rw [pressed,if_neg (by decide),if_neg (by simp [notDelete])]
  simp only [Keyboard.modify,typed,lower,Bool.and_assoc,range,Bool.and_true]

/-- Whatever was pressed and released before, the driver knows which of the keys are held and whether Caps Lock
is on, and a letter has the case and the control or high bit that they give it. -/
theorem keys_tracked (interrupts : Interrupts) :
    (∀ key, (run interrupts).held key = Held key interrupts) ∧
    (run interrupts).capsLock = decide (capsPresses interrupts % 2 = 1) ∧
    ∀ letter ∈ letters, ∀ second, interpret (run interrupts) letter.1 second =
      .char (typed (Held .leftCtrl interrupts || Held .rightCtrl interrupts) (Held .leftShift interrupts || Held .rightShift interrupts)
        (capsPresses interrupts % 2 = 1) (Held .leftAlt interrupts || Held .rightAlt interrupts) letter.2) := by
  have tracked : (∀ key, (run interrupts).held key = Held key interrupts) ∧
      (run interrupts).capsLock = decide (capsPresses interrupts % 2 = 1) := by
    induction interrupts with
    | nil => exact ⟨fun key => by cases key <;> rfl,rfl⟩
    | cons i before ih =>
      obtain ⟨first,second⟩ := i
      constructor
      · intro key
        rw [run,(interpret_kbd _ first second key).1,Held,ih.1 key]
      · have counted : capsPresses ((first,second) :: before) = capsPresses before +
            if keyOf (scancode first second) = 0x3a ∧ released (scancode first second) = false then 1 else 0 := by
          simp [capsPresses,List.countP_cons]
        rw [run,(interpret_kbd _ first second .leftShift).2,ih.2,counted]
        split
        · rw [← decide_not,decide_eq_decide]
          omega
        · rw [Nat.add_zero]
  refine ⟨tracked.1,tracked.2,?_⟩
  intro letter member second
  rw [interpret_letter _ second member,tracked.2,← tracked.1,← tracked.1,← tracked.1,← tracked.1,← tracked.1,← tracked.1]
  rfl

end

end OsProj.Keyboard
