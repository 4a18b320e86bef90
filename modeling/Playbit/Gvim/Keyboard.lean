import Mathlib.Algebra.Order.BigOperators.Group.List
import Mathlib.Algebra.Order.Group.Nat
import Mathlib.Data.Int.Notation
import Playbit.Machine.Block
import Playbit.Machine.Run

/-!
# Keys

The UI thread sends a copy of the text that a key has produced to the Vim thread, where the bytes go
into Vim's input buffer one by one.  A byte is first converted to an `int`, and this depends on
whether the plain `char` of the platform is signed.  Where it is, the bytes of characters outside of
ASCII become negative and pass the test `ch < 0x80`.  Where it is not (aarch64), they do not pass
it, and a byte with the value of `CSI` is taken for the key `K_CSI`.

The copy is made with `strndup`, which stops at a zero, but the length stays that of the text.

A special key is sent under Vim's name for it (`processKeyboard_special`).  A text reaches Vim on
every platform iff it is ASCII and has no zero in it, except at its end (`textReachesVim_iff`);
`e_acute_lost` is a letter that is lost where `char` is unsigned.
-/

namespace Gvim

/-! ### The codes of keys -/

/-- The keys that the source names. -/
inductive PBKey
  | upArrow | downArrow | leftArrow | rightArrow
  | f1 | f2 | f3 | f4 | f5 | f6 | f7 | f8 | f9 | f10 | f11 | f12
  | f13 | f14 | f15 | f16 | f17 | f18 | f19 | f20 | f21 | f22 | f23 | f24
  | actionHelp | backspace | insert | delete | home | «end» | pageUp | pageDown
  | numAdd | numSubtract | numDivide | numMultiply | numEnter | numDecimal
  | num0 | num1 | num2 | num3 | num4 | num5 | num6 | num7 | num8 | num9
  | space | tab | escape | enter
  | a | z | one | zero | hyphen | equals | comma | slash | punctuation1 | punctuation5

/-- An entry of `special_keys`. -/
structure SpecialKey where
  keySym : ℕ
  vimCode0 : UInt8
  vimCode1 : UInt8

/-- `special_keys`, without the marker at its end. -/
def specialKeys (code : PBKey → ℕ) : List SpecialKey :=
  let key (k : PBKey) (c₀ c₁ : Char) : SpecialKey := ⟨code k, c₀.toUInt8, c₁.toUInt8⟩
  [key .upArrow 'k' 'u', key .downArrow 'k' 'd', key .leftArrow 'k' 'l', key .rightArrow 'k' 'r',
    key .f1 'k' '1', key .f2 'k' '2', key .f3 'k' '3', key .f4 'k' '4', key .f5 'k' '5',
    key .f6 'k' '6', key .f7 'k' '7', key .f8 'k' '8', key .f9 'k' '9', key .f10 'k' ';',
    key .f11 'F' '1', key .f12 'F' '2', key .f13 'F' '3', key .f14 'F' '4', key .f15 'F' '5',
    key .f16 'F' '6', key .f17 'F' '7', key .f18 'F' '8', key .f19 'F' '9', key .f20 'F' 'A',
    key .f21 'F' 'B', key .f22 'F' 'C', key .f23 'F' 'D', key .f24 'F' 'E',
    key .actionHelp '%' '1', key .backspace 'k' 'b', key .insert 'k' 'I', key .delete 'k' 'D',
    key .home 'k' 'h', key .end '@' '7', key .pageUp 'k' 'P', key .pageDown 'k' 'N',
    key .numAdd 'K' '6', key .numSubtract 'K' '7', key .numDivide 'K' '8',
    key .numMultiply 'K' '9', key .numEnter 'K' 'A', key .numDecimal 'K' 'B',
    key .num0 'K' 'C', key .num1 'K' 'D', key .num2 'K' 'E', key .num3 'K' 'F',
    key .num4 'K' 'G', key .num5 'K' 'H', key .num6 'K' 'I', key .num7 'K' 'J',
    key .num8 'K' 'K', key .num9 'K' 'L',
    -- keys that are used with any modifier
    key .space ' ' '\x00', key .tab '\t' '\x00', key .escape '\x1b' '\x00',
    key .enter '\n' '\x00']

/-- The loop over `special_keys`, which ends at a `key_sym` of zero. -/
def findSpecialKey (code : PBKey → ℕ) (mappedCode : ℕ) : Option SpecialKey :=
  ((specialKeys code).takeWhile (·.keySym ≠ 0)).find? (·.keySym = mappedCode)

/-! ### Vim -/

def csi : UInt8 := 0x9B

def ksExtra : UInt8 := 253

def ksModifier : UInt8 := 252

def modMaskShift : ℕ := 0x02

def modMaskCtrl : ℕ := 0x04

def modMaskAlt : ℕ := 0x08

/-- `TERMCAP2KEY` -/
def termcap2Key (a b : UInt8) : ℤ :=
  -(a.toNat + b.toNat * 256)

/-- `TO_SPECIAL` -/
def toSpecial (a b : UInt8) : ℤ :=
  if a = 254 then 0x80 else if a = 255 then termcap2Key 255 0x58 else termcap2Key a b

/-- `K_SECOND` -/
def kSecond (key : ℤ) : UInt8 :=
  if key = 0x80 then 254 else if key = 0 then 255 else UInt8.ofInt (-key)

/-- `K_THIRD` -/
def kThird (key : ℤ) : UInt8 :=
  if key = 0x80 ∨ key = 0 then 0x58 else UInt8.ofInt (-key / 256)

/-- What `ProcessEventToVim` uses of Vim.  Without modifiers these functions do nothing. -/
structure VimKeys where
  /-- `KE_CSI` -/
  keCsi : UInt8
  simplifyKey : ℤ → ℕ → ℤ × ℕ
  mayRemoveShiftModifier : ℕ → ℤ → ℕ
  extractModifiers : ℤ → ℕ → ℤ × ℕ
  simplifyKey_zero : ∀ key, simplifyKey key 0 = (key, 0)
  mayRemoveShiftModifier_zero : ∀ key, mayRemoveShiftModifier 0 key = 0
  extractModifiers_zero : ∀ key, extractModifiers key 0 = (key, 0)

/-- What the processing of a key changes. -/
structure VimInput where
  inputBuf : List UInt8 := []
  didGetChars : Bool := false
  deriving DecidableEq

/-- `add_to_input_buf` -/
def VimInput.addToInputBuf (input : VimInput) (s : List UInt8) : VimInput :=
  { input with inputBuf := input.inputBuf ++ s }

namespace VimKeys

variable (vim : VimKeys)

/-- `K_CSI` -/
def kCsi : ℤ := termcap2Key ksExtra vim.keCsi

/-- A byte in the input buffer: `CSI` is followed by the other two bytes of `K_CSI`. -/
def escaped (b : UInt8) : List UInt8 :=
  if b = csi then [csi, ksExtra, vim.keCsi] else [b]

/-- `add_to_input_buf_csi`, for one byte. -/
def addToInputBufCsi (input : VimInput) (b : UInt8) : VimInput :=
  input.addToInputBuf (vim.escaped b)

end VimKeys

/-! ### The UI thread -/

/-- `keyboard.modifiers`: the three that the source names, and whether there is any other. -/
structure Modifiers where
  sys : Bool := false
  shift : Bool := false
  alt : Bool := false
  other : Bool := false
  deriving DecidableEq

/-- `PBMsg_KEY_DOWN` -/
structure KeyMessage where
  mappedCode : ℕ
  modifiers : Modifiers := {}
  text : List UInt8 := []

/-- `EVENT_KEYBOARD`, with the block that `text` points to and the length `keyboard.text.len`. -/
structure KeyEvent where
  mappedCode : ℕ
  modifiers : Modifiers
  text : List UInt8
  len : ℕ

/-- `TextAreaMessage` for `PBMsg_KEY_DOWN`. -/
def keyDown (message : KeyMessage) : KeyEvent where
  mappedCode := message.mappedCode
  modifiers := message.modifiers
  text := Block.strndup message.text
  len := message.text.length

/-! ### The Vim thread -/

/-- Whether plain `char` is signed. -/
inductive CharSign
  /-- On x86_64. -/
  | signed
  /-- On aarch64. -/
  | unsigned
  deriving DecidableEq

/-- The conversion of a `char` to an `int`. -/
def CharSign.toInt : CharSign → UInt8 → ℤ
  | signed, b => if b.toNat < 0x80 then b.toNat else b.toNat - 0x100
  | unsigned, b => b.toNat

/-- `modifiers` at the start. -/
def Modifiers.toVim (m : Modifiers) : ℕ :=
  (if m.sys then modMaskCtrl else 0) ||| (if m.shift then modMaskShift else 0) |||
    (if m.alt then modMaskAlt else 0)

/-- `if (modifiers) { … }` -/
def VimInput.addModifiers (input : VimInput) (modifiers : ℕ) : VimInput :=
  if modifiers ≠ 0 then input.addToInputBuf [csi, ksModifier, UInt8.ofNat modifiers] else input

section

variable (vim : VimKeys)

/-- The body of the loop over `special_keys`, for the key that was found. -/
def sendSpecialKey (special : SpecialKey) (modifiers : ℕ) (input : VimInput) : VimInput :=
  let key : ℤ :=
    if special.vimCode1 = 0 then special.vimCode0.toNat
    else toSpecial special.vimCode0 special.vimCode1
  let (key, modifiers) := vim.simplifyKey key modifiers
  let key := if key = csi.toNat then vim.kCsi else key
  let input := input.addModifiers modifiers
  if key < 0 then { input.addToInputBuf [csi, kSecond key, kThird key] with didGetChars := true }
  else if key < 0x80 then
    { vim.addToInputBufCsi input (UInt8.ofInt key) with didGetChars := true }
  else input

/-- The body of the loop over the text. -/
def sendByte (sign : CharSign) (s : ℕ × VimInput) (b : UInt8) : ℕ × VimInput :=
  let (ch, modifiers) := vim.simplifyKey (sign.toInt b) s.1
  let modifiers := vim.mayRemoveShiftModifier modifiers ch
  let (ch, modifiers) := vim.extractModifiers ch modifiers
  let ch := if ch = csi.toNat then vim.kCsi else ch
  let input := s.2.addModifiers modifiers
  if ch < 0x80 then
    (modifiers, { vim.addToInputBufCsi input (UInt8.ofInt ch) with didGetChars := true })
  else (modifiers, input)

/-- The loop over the text, with a check of the accesses. -/
def sendText (sign : CharSign) (text : List UInt8) (len modifiers : ℕ) (input : VimInput) :
    Option (ℕ × VimInput) :=
  (List.range len).foldlM (fun s i => text[i]?.map (sendByte vim sign s)) (modifiers, input)

end

/-- An access to a string literal, which has a zero at its end. -/
def literalAt (s : String) (i : ℕ) : Option UInt8 :=
  (s.toList.map Char.toUInt8 ++ [0])[i]?

/-- The character for a key that is held with `SYS` or `ALT`, or zero. -/
def manualCharacter (code : PBKey → ℕ) (mappedCode : ℕ) (shift : Bool) : Option UInt8 :=
  let between (first last : PBKey) : Bool := code first ≤ mappedCode && mappedCode ≤ code last
  if between .a .z then
    some (UInt8.ofNat ((if shift then 'A' else 'a').toNat + mappedCode - code .a))
  else if between .one .zero then
    literalAt (if shift then "!@#$%^&*()" else "1234567890") (mappedCode - code .one)
  else if mappedCode = code .space then some 0x20
  else if between .hyphen .equals then
    literalAt (if shift then "_+\x7b\x7d" else "-=[]") (mappedCode - code .hyphen)
  else if between .comma .slash then
    literalAt (if shift then "<>?" else ",./") (mappedCode - code .comma)
  else if between .punctuation1 .punctuation5 then
    literalAt (if shift then "| :\"~" else "\\ ;'`") (mappedCode - code .punctuation1)
  else some 0

/-- The text and its length, after the mapping by hand for keys that are held with `SYS` or `ALT`
and have no text. -/
def mapManually (code : PBKey → ℕ) (event : KeyEvent) : Option (List UInt8 × ℕ) :=
  let m := event.modifiers
  if event.len = 0 ∧ m.other = false ∧ (m.sys || m.alt) = true then
    (manualCharacter code event.mappedCode m.shift).map fun c =>
      if c = 0 then (event.text, event.len) else ([c], 1)
  else some (event.text, event.len)

/-- `ProcessEventToVim` for `EVENT_KEYBOARD`, or none if it accesses memory outside of a text. -/
def processKeyboard (vim : VimKeys) (code : PBKey → ℕ) (sign : CharSign) (event : KeyEvent)
    (input : VimInput) : Option VimInput :=
  match findSpecialKey code event.mappedCode with
  | some special => some (sendSpecialKey vim special event.modifiers.toVim input)
  | none =>
    (mapManually code event).bind fun (text, len) =>
      (sendText vim sign text len event.modifiers.toVim input).map Prod.snd

/-! ### What is to reach Vim -/

/-- Bytes for Vim to read. -/
def VimInput.feed (input : VimInput) (bytes : List UInt8) : VimInput where
  inputBuf := input.inputBuf ++ bytes
  didGetChars := input.didGetChars || !bytes.isEmpty

/-- The bytes of the text are added to the input buffer, whatever the platform. -/
def TextReachesVim (vim : VimKeys) (code : PBKey → ℕ) (message : KeyMessage) : Prop :=
  ∀ sign input, processKeyboard vim code sign (keyDown message) input =
    some (input.feed (message.text.flatMap vim.escaped))

/-- What is added for a byte of the text. -/
def VimKeys.sent (vim : VimKeys) : CharSign → UInt8 → List UInt8
  | .signed, b => vim.escaped b
  | .unsigned, b => if b = csi then [3] else if b.toNat < 0x80 then [b] else []

/-! ### Steps -/

theorem VimInput.feed_nil (input : VimInput) : input.feed [] = input := by
  simp [feed]

theorem VimInput.feed_feed (input : VimInput) (s t : List UInt8) :
    (input.feed s).feed t = input.feed (s ++ t) := by
  cases s <;> simp [feed]

theorem ofInt_eq {x : ℤ} {b : UInt8} (h : x % 256 = b.toNat) : UInt8.ofInt x = b := by
  rw [UInt8.ofInt, show x % 2 ^ 8 = b.toNat from h, Int.toNat_natCast, UInt8.ofNat_toNat]

theorem CharSign.toInt_emod (sign : CharSign) (b : UInt8) : sign.toInt b % 256 = b.toNat := by
  have := b.toNat_lt
  cases sign with
  | signed =>
    rw [toInt]
    split_ifs <;> omega
  | unsigned =>
    rw [toInt]
    omega

variable (vim : VimKeys) {code : PBKey → ℕ}

theorem VimKeys.escaped_ne_nil (b : UInt8) : vim.escaped b ≠ [] := by
  unfold VimKeys.escaped
  split_ifs <;> simp

theorem addToInputBufCsi_eq (input : VimInput) (b : UInt8) :
    { vim.addToInputBufCsi input b with didGetChars := true } = input.feed (vim.escaped b) := by
  simp [VimKeys.addToInputBufCsi, VimInput.addToInputBuf, VimInput.feed, vim.escaped_ne_nil]

theorem kCsi_emod : vim.kCsi % 256 = 3 := by
  have : ksExtra.toNat = 253 := rfl
  unfold VimKeys.kCsi termcap2Key
  omega

theorem kCsi_neg : vim.kCsi < 0 := by
  have : ksExtra.toNat = 253 := rfl
  unfold VimKeys.kCsi termcap2Key
  omega

theorem VimKeys.escaped_of_lt {b : UInt8} (h : b.toNat < 0x80) : vim.escaped b = [b] := by
  refine if_neg ?_
  rintro rfl
  exact absurd h (by decide)

/-! ### Special keys -/

theorem ascii_of_mem_specialKeys {special : SpecialKey} (h : special ∈ specialKeys code) :
    special.vimCode0.toNat < 0x80 ∧ special.vimCode1.toNat < 0x80 := by
  have hall : (specialKeys code).all fun special =>
      special.vimCode0.toNat < 0x80 && special.vimCode1.toNat < 0x80 := rfl
  simpa using List.all_eq_true.1 hall special h

theorem toSpecial_eq {a : UInt8} (h : a.toNat < 0x80) (b : UInt8) :
    toSpecial a b = -(a.toNat + b.toNat * 256) := by
  have h254 : a ≠ 254 := by
    rintro rfl
    exact absurd h (by decide)
  have h255 : a ≠ 255 := by
    rintro rfl
    exact absurd h (by decide)
  rw [toSpecial, if_neg h254, if_neg h255, termcap2Key]

/-- **A special key is sent under Vim's name for it**: as `CSI` and the two characters of its
termcap name, or as a character. -/
theorem processKeyboard_special (sign : CharSign) {event : KeyEvent} {special : SpecialKey}
    (input : VimInput) (hfind : findSpecialKey code event.mappedCode = some special)
    (hmod : event.modifiers = {}) :
    processKeyboard vim code sign event input = some (input.feed
      (if special.vimCode1 = 0 then [special.vimCode0]
        else [csi, special.vimCode0, special.vimCode1])) := by
  obtain ⟨h₀, h₁⟩ := ascii_of_mem_specialKeys
    ((List.takeWhile_sublist _).subset (List.mem_of_find?_eq_some hfind))
  have hcsi : csi.toNat = 0x9B := rfl
  have hvim : event.modifiers.toVim = 0 := by
    rw [hmod]
    rfl
  rw [processKeyboard, hfind]
  simp only [hvim, sendSpecialKey, vim.simplifyKey_zero, VimInput.addModifiers, ne_eq,
    not_true_eq_false, if_false, Option.some.injEq]
  by_cases hzero : special.vimCode1 = 0
  · have hbyte : UInt8.ofInt (special.vimCode0.toNat : ℤ) = special.vimCode0 :=
      ofInt_eq (by omega)
    have hne : (special.vimCode0.toNat : ℤ) ≠ csi.toNat := by omega
    have hlow : (special.vimCode0.toNat : ℤ) < 0x80 := by omega
    rw [if_pos hzero, if_pos hzero, if_neg hne, if_neg (Int.natCast_nonneg _).not_gt, if_pos hlow,
      hbyte, addToInputBufCsi_eq, vim.escaped_of_lt h₀]
  · have hpos : 0 < special.vimCode1.toNat :=
      Nat.pos_of_ne_zero fun h => hzero (UInt8.toNat_inj.1 h)
    set key := toSpecial special.vimCode0 special.vimCode1 with hkey
    rw [toSpecial_eq h₀] at hkey
    have hsecond : kSecond key = special.vimCode0 := by
      rw [kSecond, if_neg (by omega), if_neg (by omega)]
      exact ofInt_eq (by omega)
    have hthird : kThird key = special.vimCode1 := by
      rw [kThird, if_neg (by omega)]
      exact ofInt_eq (by omega)
    have hne : key ≠ csi.toNat := by omega
    have hneg : key < 0 := by omega
    rw [if_neg hzero, if_neg hzero, if_neg hne, if_pos hneg, hsecond, hthird]
    simp [VimInput.addToInputBuf, VimInput.feed]

/-! ### Texts -/

theorem sendByte_zero (sign : CharSign) (input : VimInput) (b : UInt8) :
    sendByte vim sign (0, input) b = (0, input.feed (vim.sent sign b)) := by
  have hbyte : UInt8.ofInt (sign.toInt b) = b := ofInt_eq (sign.toInt_emod b)
  have hcsi : csi.toNat = 0x9B := rfl
  have hlt := b.toNat_lt
  unfold sendByte
  simp only [vim.simplifyKey_zero, vim.mayRemoveShiftModifier_zero, vim.extractModifiers_zero,
    VimInput.addModifiers, ne_eq, not_true_eq_false, if_false]
  cases sign with
  | signed =>
    -- the conversion never gives the value of `CSI`
    have hch : CharSign.signed.toInt b < 0x80 ∧ CharSign.signed.toInt b ≠ csi.toNat := by
      rw [CharSign.toInt]
      split_ifs <;> omega
    rw [if_neg hch.2, if_pos hch.1, hbyte, addToInputBufCsi_eq]
    rfl
  | unsigned =>
    have hch : CharSign.unsigned.toInt b = b.toNat := rfl
    rw [hch] at hbyte ⊢
    rw [VimKeys.sent]
    by_cases hb : b = csi
    · have hthree : UInt8.ofInt vim.kCsi = 3 := ofInt_eq (kCsi_emod vim)
      have hlow : vim.kCsi < 0x80 := (kCsi_neg vim).trans (by decide)
      rw [if_pos (congrArg (fun b : UInt8 => (b.toNat : ℤ)) hb), if_pos hlow, hthree,
        addToInputBufCsi_eq, if_pos hb]
      rfl
    · have hne : (b.toNat : ℤ) ≠ csi.toNat := fun h => hb (UInt8.toNat_inj.1 (by omega))
      rw [if_neg hne, if_neg hb]
      split_ifs with hsmall hsmall'
      · rw [hbyte, addToInputBufCsi_eq, vim.escaped_of_lt hsmall']
      · omega
      · omega
      · rw [VimInput.feed_nil]

theorem foldl_sendByte (sign : CharSign) (text : List UInt8) (input : VimInput) :
    text.foldl (sendByte vim sign) (0, input) =
      (0, input.feed (text.flatMap (vim.sent sign))) := by
  induction text generalizing input with
  | nil => rw [List.foldl_nil, List.flatMap_nil, VimInput.feed_nil]
  | cons b text ih =>
    rw [List.foldl_cons, sendByte_zero, ih, VimInput.feed_feed, List.flatMap_cons]

theorem sendText_eq (sign : CharSign) (text : List UInt8) (len modifiers : ℕ) (input : VimInput) :
    sendText vim sign text len modifiers input =
      if len ≤ text.length then
        some ((text.take len).foldl (sendByte vim sign) (modifiers, input))
      else none := by
  unfold sendText
  induction len with
  | zero => rfl
  | succ len ih =>
    rw [List.range_succ, List.foldlM_append, ih]
    rcases Nat.lt_trichotomy len text.length with hlt | heq | hgt
    · rw [if_pos hlt.le, if_pos (Nat.succ_le_of_lt hlt), List.take_add_one,
        List.getElem?_eq_getElem hlt, List.foldl_append]
      simp [List.getElem?_eq_getElem hlt]
    · rw [if_pos heq.le, if_neg (by omega)]
      simp [List.getElem?_eq_none heq.ge]
    · rw [if_neg (by omega), if_neg (by omega)]
      rfl

/-- **What becomes of a text**, for each platform. -/
theorem processKeyboard_text (sign : CharSign) {message : KeyMessage} (input : VimInput)
    (hmod : message.modifiers = {})
    (hkey : ∀ special ∈ specialKeys code, special.keySym ≠ message.mappedCode) :
    processKeyboard vim code sign (keyDown message) input =
      if 0 ∈ message.text.dropLast then none
      else some (input.feed (message.text.flatMap (vim.sent sign))) := by
  have hfind : findSpecialKey code message.mappedCode = none := by
    refine List.find?_eq_none.2 fun special hmem => ?_
    simpa using hkey special ((List.takeWhile_sublist _).subset hmem)
  have hmap : mapManually code (keyDown message) =
      some (Block.strndup message.text, message.text.length) := by
    rw [mapManually, if_neg (by simp [keyDown, hmod])]
    rfl
  have hvim : message.modifiers.toVim = 0 := by
    rw [hmod]
    rfl
  rw [processKeyboard, show (keyDown message).mappedCode = message.mappedCode from rfl, hfind]
  simp only [hmap, Option.bind_some]
  rw [show (keyDown message).modifiers.toVim = 0 from hvim, sendText_eq]
  split_ifs with hle hzero hzero
  · exact absurd (Block.length_strndup_lt hzero) (Nat.not_lt.2 hle)
  · rw [Block.take_strndup hzero, foldl_sendByte, Option.map_some]
  · rfl
  · refine absurd ?_ hle
    conv_lhs => rw [← Block.take_strndup hzero]
    exact List.length_take_le' _ _

/-! ### Both platforms -/

theorem VimKeys.length_sent_le (sign : CharSign) (b : UInt8) :
    (vim.sent sign b).length ≤ (vim.escaped b).length := by
  cases sign with
  | signed => exact Nat.le_refl _
  | unsigned =>
    rw [VimKeys.sent, VimKeys.escaped]
    split_ifs <;> simp

theorem VimKeys.length_sent_lt {b : UInt8} (h : 0x80 ≤ b.toNat) :
    (vim.sent .unsigned b).length < (vim.escaped b).length := by
  rw [VimKeys.sent, VimKeys.escaped]
  split_ifs
  · simp
  · omega
  · simp

theorem VimKeys.sent_of_lt {b : UInt8} (h : b.toNat < 0x80) (sign : CharSign) :
    vim.sent sign b = vim.escaped b := by
  have hb : b ≠ csi := by
    rintro rfl
    exact absurd h (by decide)
  cases sign with
  | signed => rfl
  | unsigned => rw [VimKeys.sent, vim.escaped_of_lt h, if_neg hb, if_pos h]

/-- A text with a character outside of ASCII does not arrive where `char` is unsigned. -/
theorem VimKeys.flatMap_sent_ne {text : List UInt8} {b : UInt8} (hmem : b ∈ text)
    (h : 0x80 ≤ b.toNat) : text.flatMap (vim.sent .unsigned) ≠ text.flatMap vim.escaped := by
  intro heq
  have hlt : (text.map fun b => (vim.sent .unsigned b).length).sum <
      (text.map fun b => (vim.escaped b).length).sum :=
    List.sum_lt_sum _ _ (fun b _ => vim.length_sent_le .unsigned b)
      ⟨b, hmem, vim.length_sent_lt h⟩
  rw [← List.length_flatMap, ← List.length_flatMap, heq] at hlt
  exact Nat.lt_irrefl _ hlt

section

variable {message : KeyMessage} (hmod : message.modifiers = {})
  (hkey : ∀ special ∈ specialKeys code, special.keySym ≠ message.mappedCode)

include hmod hkey

theorem processKeyboard_signed_iff :
    (∀ input, processKeyboard vim code .signed (keyDown message) input =
      some (input.feed (message.text.flatMap vim.escaped))) ↔ 0 ∉ message.text.dropLast := by
  simp only [processKeyboard_text vim _ _ hmod hkey]
  constructor
  · intro h hmem
    have hnone := h {}
    rw [if_pos hmem] at hnone
    cases hnone
  · intro hzero input
    rw [if_neg hzero]
    rfl

/-- **A typed text reaches Vim on every platform** iff it is ASCII and has no zero in it, except at
its end. -/
theorem textReachesVim_iff : TextReachesVim vim code message ↔
    (∀ b ∈ message.text, b.toNat < 0x80) ∧ 0 ∉ message.text.dropLast := by
  constructor
  · intro h
    have hzero := (processKeyboard_signed_iff vim hmod hkey).1 (h .signed)
    refine ⟨fun b hb => Nat.lt_of_not_le fun hge => ?_, hzero⟩
    have hfeed := h .unsigned {}
    rw [processKeyboard_text vim _ _ hmod hkey, if_neg hzero] at hfeed
    exact vim.flatMap_sent_ne hb hge (congrArg VimInput.inputBuf (Option.some.inj hfeed))
  · rintro ⟨hascii, hzero⟩ sign input
    rw [processKeyboard_text vim _ _ hmod hkey, if_neg hzero,
      List.flatMap_congr fun b hb => vim.sent_of_lt (hascii b hb) sign]

end

/-- Functions that do nothing, for runs. -/
def plainVim : VimKeys where
  keCsi := 81
  simplifyKey key modifiers := (key, modifiers)
  mayRemoveShiftModifier modifiers _ := modifiers
  extractModifiers key modifiers := (key, modifiers)
  simplifyKey_zero _ := rfl
  mayRemoveShiftModifier_zero _ := rfl
  extractModifiers_zero _ := rfl

/-- Codes that count the keys from one on. -/
def sampleCode (key : PBKey) : ℕ := key.ctorIdx + 1

/-- The text `hi`, from a key that is not in the table. -/
theorem hi_reaches_vim : TextReachesVim plainVim sampleCode
    { mappedCode := 100, text := [0x68, 0x69] } :=
  (textReachesVim_iff plainVim rfl (by decide)).2 ⟨by simp, by decide⟩

/-- The letter é: it reaches Vim where `char` is signed, and is lost where it is not. -/
theorem e_acute_lost :
    (∀ special ∈ specialKeys sampleCode, special.keySym ≠ 100) ∧
    processKeyboard plainVim sampleCode .signed
      (keyDown { mappedCode := 100, text := [0xC3, 0xA9] }) {} =
        some { inputBuf := [0xC3, 0xA9], didGetChars := true } ∧
    processKeyboard plainVim sampleCode .unsigned
      (keyDown { mappedCode := 100, text := [0xC3, 0xA9] }) {} = some {} ∧
    ¬ TextReachesVim plainVim sampleCode { mappedCode := 100, text := [0xC3, 0xA9] } := by
  refine ⟨by decide, by decide, by decide, fun h => ?_⟩
  exact absurd (h .unsigned {}) (by decide)

end Gvim
