import Playbit.Machine.Block
import Playbit.Python.Text

/-!
# The texts of a dialog

`gui_mch_dialog` packs the title, the message and the labels of the buttons into one block of memory
for `EVENT_DIALOG`, each with a zero at its end.  The UI thread takes the block apart in place: the
labels are pointers into it.  It goes through the labels byte by byte and deletes every `&`, which
marks the letter behind it as the access key of the button, by moving the rest of the block.

If every `&` marks a character (`IsButtons`), the texts and access keys that the UI thread finds are
those that were sent (`dialogSurvives`).  The loop is followed label by label (`scan_label`).
-/

namespace Gvim

def lineFeed : UInt8 := 0x0A

def ampersand : UInt8 := 0x26

/-! ### Vim -/

/-- `gui_mch_dialog`, as far as the request: the block that `EVENT_DIALOG` carries. -/
def guiMchDialog (garbage : ℕ → UInt8) (title message buttons : List UInt8) :
    Option (List UInt8) :=
  let text := Block.realloc []
    (title.length + 1 + message.length + 1 + buttons.length + 1) garbage
  (Block.strcpy text 0 title).bind fun text =>
    (Block.strcpy text (title.length + 1) message).bind fun text =>
      Block.strcpy text (title.length + 1 + message.length + 1) buttons

/-! ### The UI thread -/

/-- `PBStr`, with a pointer into the block of the event or none. -/
structure PBStr where
  ptr : Option ℕ := none
  len : ℕ := 0

/-- The bytes of a string. -/
def PBStr.read (block : List UInt8) (s : PBStr) : Option (List UInt8) :=
  s.ptr.bind fun p => Block.read block p s.len

/-- The label and the access key of a button, which is zero for none. -/
structure AlertButton where
  label : PBStr := {}
  accessKey : ℕ := 0

/-- `PBAlertConfiguration` -/
structure AlertConfiguration where
  message : PBStr
  description : PBStr
  primaryButton : AlertButton := {}
  secondaryButton : AlertButton := {}
  tertiaryButton : AlertButton := {}

namespace AlertConfiguration

/-- The button with a number. -/
def button (config : AlertConfiguration) : ℕ → Option AlertButton
  | 0 => some config.primaryButton
  | 1 => some config.secondaryButton
  | 2 => some config.tertiaryButton
  | _ => none

/-- Assign to the fields of the button with a number. -/
def modifyButton (config : AlertConfiguration) (n : ℕ) (f : AlertButton → AlertButton) :
    AlertConfiguration :=
  match n with
  | 0 => { config with primaryButton := f config.primaryButton }
  | 1 => { config with secondaryButton := f config.secondaryButton }
  | 2 => { config with tertiaryButton := f config.tertiaryButton }
  | _ => config

theorem button_modifyButton (config : AlertConfiguration) (n : ℕ) (f : AlertButton → AlertButton)
    (k : ℕ) : (config.modifyButton n f).button k =
      if k = n then (config.button k).map f else config.button k := by
  match n, k with
  | 0, 0 | 0, 1 | 0, 2 | 1, 0 | 1, 1 | 1, 2 | 2, 0 | 2, 1 | 2, 2 => rfl
  | 0, _ + 3 | 1, _ + 3 | 2, _ + 3 => simp [button]
  | n + 3, 0 | n + 3, 1 | n + 3, 2 => simp [button, modifyButton]
  | n + 3, k + 3 => simp [button]

@[simp]
theorem message_modifyButton (config : AlertConfiguration) (n : ℕ) (f : AlertButton → AlertButton) :
    (config.modifyButton n f).message = config.message := by
  unfold modifyButton
  split <;> rfl

@[simp]
theorem description_modifyButton (config : AlertConfiguration) (n : ℕ)
    (f : AlertButton → AlertButton) :
    (config.modifyButton n f).description = config.description := by
  unfold modifyButton
  split <;> rfl

theorem modifyButton_modifyButton (config : AlertConfiguration) (n : ℕ)
    (f g : AlertButton → AlertButton) :
    (config.modifyButton n f).modifyButton n g = config.modifyButton n fun b => g (f b) := by
  match n with
  | 0 | 1 | 2 | _ + 3 => rfl

theorem modifyButton_id (config : AlertConfiguration) (n : ℕ) :
    config.modifyButton n id = config := by
  match n with
  | 0 | 1 | 2 | _ + 3 => rfl

end AlertConfiguration

/-- The code of a letter's key, or zero for other characters.  `keyA` is the code of `PBKey_A`. -/
def accessKeyOf (keyA : ℕ) (b : UInt8) : ℕ :=
  if 0x61 ≤ b ∧ b ≤ 0x7A then keyA + b.toNat - 0x61
  else if 0x41 ≤ b ∧ b ≤ 0x5A then keyA + b.toNat - 0x41
  else 0

/-- The variables of the loop for `EVENT_DIALOG`. -/
structure DialogScan where
  text : List UInt8
  /-- A pointer into the text. -/
  buttons : ℕ
  n : ℕ := 0
  latchAccessKey : Bool := false
  config : AlertConfiguration

namespace DialogScan

/-- A newline: the next label starts behind it. -/
def nextButton (s : DialogScan) : Bool × DialogScan :=
  if s.n + 1 = 3 then (false, { s with n := s.n + 1 })
  else
    (true, { s with
      n := s.n + 1
      buttons := s.buttons + 1
      config := s.config.modifyButton (s.n + 1) fun b =>
        { b with label := { b.label with ptr := some (s.buttons + 1) } } })

/-- A byte of a label, and the access key of its button if the byte is marked. -/
def labelByte (keyA : ℕ) (s : DialogScan) (b : UInt8) : DialogScan :=
  let config :=
    if s.latchAccessKey ∧ accessKeyOf keyA b ≠ 0 then
      s.config.modifyButton s.n fun button => { button with accessKey := accessKeyOf keyA b }
    else s.config
  { s with
    latchAccessKey := false
    buttons := s.buttons + 1
    config := config.modifyButton s.n fun button =>
      { button with label := { button.label with len := button.label.len + 1 } } }

/-- One round of the loop, with whether it goes on. -/
def step (keyA : ℕ) (s : DialogScan) : Option (Bool × DialogScan) :=
  (s.text[s.buttons]?).bind fun b =>
    if b = 0 then some (false, s)
    else if b = lineFeed then some s.nextButton
    else if b = ampersand then
      (Block.strlen s.text s.buttons).bind fun len =>
        if 2 ≤ len then
          (Block.deleteFirst s.text s.buttons).map fun text =>
            (true, { s with text := text, latchAccessKey := true })
        else some (true, s.labelByte keyA b)
    else some (true, s.labelByte keyA b)

/-- The loop. -/
def scan (keyA : ℕ) : ℕ → DialogScan → Option DialogScan
  | 0, _ => none
  | fuel + 1, s =>
    match s.step keyA with
    | none => none
    | some (false, s') => some s'
    | some (true, s') => scan keyA fuel s'

end DialogScan

/-- `ProcessEventToUI` for `EVENT_DIALOG`, as far as `PBAlertAdd`. -/
def processDialog (keyA fuel : ℕ) (text : List UInt8) : Option DialogScan :=
  (Block.strlen text 0).bind fun messageLen =>
    (Block.strlen text (messageLen + 1)).bind fun descriptionLen =>
      let buttons := messageLen + 1 + descriptionLen + 1
      DialogScan.scan keyA fuel
        { text := text
          buttons := buttons
          config :=
            { message := ⟨some 0, messageLen⟩
              description := ⟨some (messageLen + 1), descriptionLen⟩
              primaryButton := { label := ⟨some buttons, 0⟩ } } }

/-! ### What is to be found -/

/-- Every `&` is followed by a character other than `&` and a newline. -/
def MarksCharacters (buttons : List UInt8) : Prop :=
  ∀ l₁ l₂, buttons = l₁ ++ ampersand :: l₂ →
    ∃ b l₃, l₂ = b :: l₃ ∧ b ≠ ampersand ∧ b ≠ lineFeed

/-- The labels of at most three buttons. -/
structure IsButtons (buttons : List UInt8) : Prop where
  no_nul : 0 ∉ buttons
  length_le : (buttons.splitOn lineFeed).length ≤ 3
  marks : MarksCharacters buttons

/-- A label without the marks. -/
def cleaned (label : List UInt8) : List UInt8 := label.filter (· ≠ ampersand)

/-- An ASCII letter. -/
def IsLetter (b : UInt8) : Prop := (0x61 ≤ b ∧ b ≤ 0x7A) ∨ (0x41 ≤ b ∧ b ≤ 0x5A)

instance decidableIsLetter (b : UInt8) : Decidable (IsLetter b) := by
  unfold IsLetter
  infer_instance

/-- The letters that are marked. -/
def markedLetters : List UInt8 → List UInt8
  | a :: b :: l =>
    if a = ampersand ∧ IsLetter b then b :: markedLetters (b :: l) else markedLetters (b :: l)
  | _ => []

/-- The access key of a label: the last letter that is marked, if there is one. -/
def labelAccessKey (keyA : ℕ) (label : List UInt8) : ℕ :=
  ((markedLetters label).getLast?.map (accessKeyOf keyA)).getD 0

/-- The button shows a label, with its access key. -/
structure AlertButton.IsFor (keyA : ℕ) (block label : List UInt8) (button : AlertButton) :
    Prop where
  label_eq : button.label.read block = some (cleaned label)
  accessKey_eq : button.accessKey = labelAccessKey keyA label

/-- The alert shows the texts that the block holds. -/
structure DialogScan.IsFor (keyA : ℕ) (title message buttons : List UInt8) (s : DialogScan) :
    Prop where
  message_eq : s.config.message.read s.text = some title
  description_eq : s.config.description.read s.text = some message
  buttons_eq : ∀ i label, (buttons.splitOn lineFeed)[i]? = some label →
    ∃ button, s.config.button i = some button ∧ button.IsFor keyA s.text label

/-- The texts of a dialog get through. -/
def DialogSurvives (keyA : ℕ) (garbage : ℕ → UInt8) (title message buttons : List UInt8) : Prop :=
  ∃ text, guiMchDialog garbage title message buttons = some text ∧
    ∃ s, (∀ fuel > buttons.length, processDialog keyA fuel text = some s) ∧
      s.IsFor keyA title message buttons

/-! ### Labels -/

theorem marksCharacters_cons_iff {a : UInt8} {l : List UInt8} :
    MarksCharacters (a :: l) ↔
      (a = ampersand → ∃ b l₃, l = b :: l₃ ∧ b ≠ ampersand ∧ b ≠ lineFeed) ∧
        MarksCharacters l := by
  constructor
  · intro h
    exact ⟨fun ha => h [] l (by rw [ha]; rfl),
      fun l₁ l₂ heq => h (a :: l₁) l₂ (congrArg (List.cons a) heq)⟩
  · rintro ⟨ha, hl⟩ l₁ l₂ heq
    cases l₁ with
    | nil =>
      cases heq
      exact ha rfl
    | cons c l₁ =>
      cases heq
      exact hl l₁ l₂ rfl

/-- A byte that is neither a zero, a newline nor an `&`. -/
def IsPlain (b : UInt8) : Prop := b ≠ 0 ∧ b ≠ lineFeed ∧ b ≠ ampersand

/-- A label, as the loop goes through it: byte by byte, or with a mark before the byte. -/
inductive IsLabel : List UInt8 → Prop
  | nil : IsLabel []
  | byte {b : UInt8} {l : List UInt8} (hb : IsPlain b) (hl : IsLabel l) : IsLabel (b :: l)
  | marked {b : UInt8} {l : List UInt8} (hb : IsPlain b) (hl : IsLabel l) :
    IsLabel (ampersand :: b :: l)

theorem accessKeyOf_ne_zero_iff {keyA : ℕ} (hkey : 0 < keyA) {b : UInt8} :
    accessKeyOf keyA b ≠ 0 ↔ IsLetter b := by
  unfold accessKeyOf IsLetter
  by_cases hlower : 0x61 ≤ b ∧ b ≤ 0x7A
  · have hle : 0x61 ≤ b.toNat := UInt8.le_iff_toNat_le.1 hlower.1
    rw [if_pos hlower]
    exact iff_of_true (by omega) (.inl hlower)
  · rw [if_neg hlower]
    by_cases hupper : 0x41 ≤ b ∧ b ≤ 0x5A
    · have hle : 0x41 ≤ b.toNat := UInt8.le_iff_toNat_le.1 hupper.1
      rw [if_pos hupper]
      exact iff_of_true (by omega) (.inr hupper)
    · rw [if_neg hupper]
      exact iff_of_false (fun h => h rfl) (not_or.2 ⟨hlower, hupper⟩)

theorem cleaned_cons_of_plain {b : UInt8} (hb : IsPlain b) (l : List UInt8) :
    cleaned (b :: l) = b :: cleaned l := List.filter_cons_of_pos (decide_eq_true hb.2.2)

theorem cleaned_marked {b : UInt8} (hb : IsPlain b) (l : List UInt8) :
    cleaned (ampersand :: b :: l) = b :: cleaned l := by
  rw [cleaned, List.filter_cons_of_neg (by simp)]
  exact cleaned_cons_of_plain hb l

theorem markedLetters_cons_of_plain {b : UInt8} (hb : IsPlain b) (l : List UInt8) :
    markedLetters (b :: l) = markedLetters l := by
  cases l with
  | nil => rfl
  | cons c l => simp [markedLetters, hb.2.2]

theorem markedLetters_marked {b : UInt8} (hb : IsPlain b) (l : List UInt8) :
    markedLetters (ampersand :: b :: l) =
      if IsLetter b then b :: markedLetters l else markedLetters l := by
  rw [markedLetters, markedLetters_cons_of_plain hb]
  simp

theorem IsLabel.zero_notMem {l : List UInt8} (h : IsLabel l) : 0 ∉ l := by
  induction h with
  | nil => simp
  | byte hb _ ih => simp [hb.1.symm, ih]
  | marked hb _ ih =>
    have hamp : (0 : UInt8) ≠ ampersand := by decide
    simp [hb.1.symm, ih, hamp]

/-- A part of the labels that ends with them or at a newline is a label. -/
theorem isLabel_of_marks {l rest : List UInt8} (h : MarksCharacters (l ++ rest)) (hnul : 0 ∉ l)
    (hline : lineFeed ∉ l) (hrest : rest = [] ∨ ∃ t, rest = lineFeed :: t) : IsLabel l := by
  induction hn : l.length using Nat.strong_induction_on generalizing l with
  | _ n ih =>
    cases l with
    | nil => exact .nil
    | cons a l =>
      rw [List.mem_cons, not_or] at hnul hline
      rw [List.length_cons] at hn
      by_cases ha : a = ampersand
      · subst ha
        obtain ⟨hmark, h⟩ := marksCharacters_cons_iff.1 h
        obtain ⟨b, l₃, hl₃, hamp, hfeed⟩ := hmark rfl
        cases l with
        | nil =>
          rcases hrest with rfl | ⟨t, rfl⟩
          · cases hl₃
          · cases hl₃
            contradiction
        | cons b' l =>
          cases hl₃
          rw [List.mem_cons, not_or] at hnul hline
          exact .marked ⟨Ne.symm hnul.2.1, hfeed, hamp⟩
            (ih l.length (by rw [← hn, List.length_cons]; omega) (marksCharacters_cons_iff.1 h).2
              hnul.2.2 hline.2.2 rfl)
      · exact .byte ⟨Ne.symm hnul.1, Ne.symm hline.1, ha⟩
          (ih l.length (by omega) (marksCharacters_cons_iff.1 h).2 hnul.2 hline.2 rfl)

/-! ### The loop -/

namespace DialogScan

variable {keyA : ℕ} {s : DialogScan} {base rest junk : List UInt8} {b : UInt8}

/-- The text of the state: what the loop is done with, and what is still to come. -/
structure At (s : DialogScan) (base rest junk : List UInt8) : Prop where
  text_eq : s.text = base ++ (rest ++ 0 :: junk)
  buttons_eq : s.buttons = base.length

theorem At.getElem? (h : s.At base (b :: rest) junk) : s.text[s.buttons]? = some b := by
  rw [h.text_eq, h.buttons_eq]
  simp

theorem step_of_plain (keyA : ℕ) (h : s.At base (b :: rest) junk) (hb : IsPlain b) :
    s.step keyA = some (true, s.labelByte keyA b) ∧
      (s.labelByte keyA b).At (base ++ [b]) rest junk := by
  refine ⟨?_, ?_, ?_⟩
  · rw [step, h.getElem?, Option.bind_some, if_neg hb.1, if_neg hb.2.1, if_neg hb.2.2]
  · exact h.text_eq.trans (by simp)
  · change s.buttons + 1 = _
    rw [h.buttons_eq, List.length_append, List.length_singleton]

/-- The mark is deleted, and the byte behind it moves to its place. -/
theorem step_of_mark (keyA : ℕ) (h : s.At base (ampersand :: b :: rest) junk) (hb : b ≠ 0)
    (hrest : 0 ∉ rest) :
    ∃ s', s.step keyA = some (true, s') ∧ s'.At base (b :: rest) (0 :: junk) ∧
      s' = { s with text := s'.text, latchAccessKey := true } := by
  have hbr : 0 ∉ b :: rest := List.not_mem_cons_of_ne_of_not_mem hb.symm hrest
  have hamp : ampersand ≠ 0 := by decide
  have hmark : 0 ∉ ampersand :: b :: rest := List.not_mem_cons_of_ne_of_not_mem hamp.symm hbr
  have hlen : Block.strlen s.text s.buttons = some (ampersand :: b :: rest).length := by
    rw [h.text_eq, h.buttons_eq]
    exact Block.strlen_append base hmark junk
  have hdelete : Block.deleteFirst s.text s.buttons =
      some (base ++ (b :: rest ++ 0 :: 0 :: junk)) := by
    rw [h.text_eq, h.buttons_eq]
    exact Block.deleteFirst_append base hamp hbr junk
  refine ⟨{ s with text := base ++ (b :: rest ++ 0 :: 0 :: junk), latchAccessKey := true }, ?_,
    ⟨rfl, h.buttons_eq⟩, rfl⟩
  rw [step, h.getElem?, Option.bind_some, if_neg hamp, if_neg (by decide), if_pos rfl, hlen,
    Option.bind_some, if_pos (by simp), hdelete, Option.map_some]

theorem step_of_end (h : s.At base [] junk) : s.step keyA = some (false, s) := by
  have hget : s.text[s.buttons]? = some 0 := by
    rw [h.text_eq, h.buttons_eq]
    simp
  rw [step, hget, Option.bind_some, if_pos rfl]

theorem step_of_lineFeed (keyA : ℕ) (h : s.At base (lineFeed :: rest) junk) (hn : s.n < 2) :
    ∃ s', s.step keyA = some (true, s') ∧ s'.At (base ++ [lineFeed]) rest junk ∧
      s'.n = s.n + 1 ∧ s'.latchAccessKey = s.latchAccessKey ∧
      s'.config = s.config.modifyButton (s.n + 1) fun b =>
        { b with label := { b.label with ptr := some (base ++ [lineFeed]).length } } := by
  refine ⟨s.nextButton.2, ?_, ?_⟩
  · rw [step, h.getElem?, Option.bind_some, if_neg (by decide), if_pos rfl]
    unfold nextButton
    rw [if_neg (by omega)]
  · unfold nextButton
    rw [if_neg (by omega)]
    refine ⟨⟨h.text_eq.trans (by simp), ?_⟩, rfl, rfl, ?_⟩
    · change s.buttons + 1 = _
      rw [h.buttons_eq, List.length_append, List.length_singleton]
    · rw [List.length_append, List.length_singleton, ← h.buttons_eq]

theorem scan_succ {s' : DialogScan} (h : s.step keyA = some (true, s')) (fuel : ℕ) :
    scan keyA (fuel + 1) s = scan keyA fuel s' := by
  rw [scan, h]

/-- What a label adds to its button. -/
def addLabel (keyA : ℕ) (label : List UInt8) (button : AlertButton) : AlertButton where
  label := { button.label with len := button.label.len + (cleaned label).length }
  accessKey :=
    ((markedLetters label).getLast?.map (accessKeyOf keyA)).getD button.accessKey

/-- What a byte of a label adds to it. -/
def addByte (keyA : ℕ) (marked : Bool) (b : UInt8) (button : AlertButton) : AlertButton where
  label := { button.label with len := button.label.len + 1 }
  accessKey := if marked ∧ IsLetter b then accessKeyOf keyA b else button.accessKey

theorem config_labelByte (hkey : 0 < keyA) (s : DialogScan) (b : UInt8) :
    (s.labelByte keyA b).config = s.config.modifyButton s.n (addByte keyA s.latchAccessKey b) := by
  unfold labelByte addByte
  simp only [accessKeyOf_ne_zero_iff hkey]
  split_ifs
  · rw [AlertConfiguration.modifyButton_modifyButton]
  · rfl

theorem addLabel_cons_of_plain (keyA : ℕ) {b : UInt8} (hb : IsPlain b) (l : List UInt8)
    (button : AlertButton) :
    addLabel keyA (b :: l) button = addLabel keyA l (addByte keyA false b button) := by
  unfold addLabel addByte
  rw [cleaned_cons_of_plain hb, markedLetters_cons_of_plain hb, List.length_cons,
    Nat.add_comm (cleaned l).length, ← Nat.add_assoc]
  simp

theorem addLabel_marked (keyA : ℕ) {b : UInt8} (hb : IsPlain b) (l : List UInt8)
    (button : AlertButton) :
    addLabel keyA (ampersand :: b :: l) button = addLabel keyA l (addByte keyA true b button) := by
  unfold addLabel addByte
  rw [cleaned_marked hb, markedLetters_marked hb, List.length_cons,
    Nat.add_comm (cleaned l).length, ← Nat.add_assoc]
  by_cases hletter : IsLetter b
  · simp only [hletter, if_true, and_self, AlertButton.mk.injEq, true_and]
    -- the last letter of the rest goes before this one
    cases hl : markedLetters l with
    | nil => rfl
    | cons c ls => rw [List.getLast?_cons_cons]; simp [List.getLast?_eq_some_getLast]
  · simp [hletter]

/-- **What the loop makes of one label**: it is done with the label, without its marks, and the
button has its length and access key. -/
theorem scan_label (hkey : 0 < keyA) {label : List UInt8} (hlabel : IsLabel label)
    (h : s.At base (label ++ rest) junk) (hrest : 0 ∉ rest) (hlatch : s.latchAccessKey = false) :
    ∃ s' junk', (∀ fuel, scan keyA (label.length + fuel) s = scan keyA fuel s') ∧
      s'.At (base ++ cleaned label) rest junk' ∧ s'.n = s.n ∧ s'.latchAccessKey = false ∧
      s'.config = s.config.modifyButton s.n (addLabel keyA label) := by
  induction hlabel generalizing s base junk with
  | nil =>
    have hat : s.At (base ++ []) rest junk := by rwa [List.append_nil]
    have hid : addLabel keyA [] = id := rfl
    refine ⟨s, junk, fun fuel => by rw [List.length_nil, Nat.zero_add], hat, rfl, hlatch, ?_⟩
    rw [hid, AlertConfiguration.modifyButton_id]
  | @byte b label hb hlabel ih =>
    obtain ⟨hstep, hat⟩ := step_of_plain keyA h hb
    obtain ⟨s', junk', hscan, hat', hn, hlatch', hconfig⟩ := ih hat rfl
    refine ⟨s', junk', fun fuel => ?_, ?_, hn, hlatch', ?_⟩
    · rw [List.length_cons, Nat.add_right_comm, scan_succ hstep, hscan]
    · rw [cleaned_cons_of_plain hb, ← List.singleton_append, ← List.append_assoc]
      exact hat'
    · rw [hconfig, config_labelByte hkey, hlatch]
      refine (AlertConfiguration.modifyButton_modifyButton _ _ _ _).trans ?_
      congr 1
      funext button
      exact (addLabel_cons_of_plain keyA hb label button).symm
  | @marked b label hb hlabel ih =>
    have hzero : 0 ∉ label ++ rest := fun hm =>
      (List.mem_append.1 hm).elim hlabel.zero_notMem hrest
    obtain ⟨s₁, hstep₁, hat₁, hs₁⟩ := step_of_mark keyA h hb.1 hzero
    obtain ⟨hstep₂, hat₂⟩ := step_of_plain keyA hat₁ hb
    obtain ⟨s', junk', hscan, hat', hn, hlatch', hconfig⟩ := ih hat₂ rfl
    refine ⟨s', junk', fun fuel => ?_, ?_, ?_, hlatch', ?_⟩
    · rw [List.length_cons, List.length_cons, Nat.add_right_comm, scan_succ hstep₁,
        Nat.add_right_comm, scan_succ hstep₂, hscan]
    · rw [cleaned_marked hb, ← List.singleton_append, ← List.append_assoc]
      exact hat'
    · rw [hn, hs₁]
      rfl
    · have hconfig₁ : (s₁.labelByte keyA b).config =
          s.config.modifyButton s.n (addByte keyA true b) := by
        rw [config_labelByte hkey, hs₁]
      rw [hconfig, hconfig₁, show (s₁.labelByte keyA b).n = s.n by rw [hs₁]; rfl]
      refine (AlertConfiguration.modifyButton_modifyButton _ _ _ _).trans ?_
      congr 1
      funext button
      exact (addLabel_marked keyA hb label button).symm

theorem isFor_addLabel (keyA : ℕ) (label : List UInt8) {block : List UInt8}
    (h : base ++ cleaned label <+: block) :
    (addLabel keyA label { label := ⟨some base.length, 0⟩ }).IsFor keyA block label := by
  refine ⟨?_, rfl⟩
  have hread : Block.read (base ++ (cleaned label ++ [])) base.length (cleaned label).length =
      some (cleaned label) := Block.read_append base (cleaned label) []
  rw [List.append_nil] at hread
  rw [PBStr.read]
  change Block.read block base.length (0 + (cleaned label).length) = _
  rw [Nat.zero_add]
  exact Block.read_of_isPrefix h hread

/-- What the loop has found when it ends in `s'` after it came to these labels in `s`: their
buttons, from number `s.n` on. -/
structure Finds (keyA : ℕ) (s : DialogScan) (base : List UInt8) (labels : List (List UInt8))
    (s' : DialogScan) : Prop where
  text : base <+: s'.text
  kept : ∀ k < s.n, s'.config.button k = s.config.button k
  message : s'.config.message = s.config.message
  description : s'.config.description = s.config.description
  buttons : ∀ i l, labels[i]? = some l →
    ∃ button, s'.config.button (s.n + i) = some button ∧ button.IsFor keyA s'.text l

theorem finds_last {s' : DialogScan} {label : List UInt8}
    (htext : base ++ cleaned label <+: s'.text)
    (hconfig : s'.config = s.config.modifyButton s.n (addLabel keyA label))
    (hbutton : s.config.button s.n = some { label := ⟨some base.length, 0⟩ }) :
    Finds keyA s base [label] s' where
  text := (List.prefix_append _ _).trans htext
  kept k hk := by
    rw [hconfig, AlertConfiguration.button_modifyButton, if_neg (Nat.ne_of_lt hk)]
  message := by rw [hconfig, AlertConfiguration.message_modifyButton]
  description := by rw [hconfig, AlertConfiguration.description_modifyButton]
  buttons i l hl := by
    cases i with
    | succ i => cases hl
    | zero =>
      cases hl
      refine ⟨_, ?_, isFor_addLabel keyA label htext⟩
      rw [hconfig, Nat.add_zero, AlertConfiguration.button_modifyButton, if_pos rfl, hbutton,
        Option.map_some]

/-- What a label and the newline behind it do to the buttons: the next one starts at `start`. -/
def lineConfig (keyA : ℕ) (config : AlertConfiguration) (n : ℕ) (label : List UInt8)
    (start : ℕ) : AlertConfiguration :=
  (config.modifyButton n (addLabel keyA label)).modifyButton (n + 1) fun button =>
    { button with label := { button.label with ptr := some start } }

section LineConfig

variable {config : AlertConfiguration} {n start : ℕ} {label : List UInt8} {button : AlertButton}

theorem button_lineConfig_self (h : config.button n = some button) :
    (lineConfig keyA config n label start).button n = some (addLabel keyA label button) := by
  rw [lineConfig, AlertConfiguration.button_modifyButton, if_neg (by omega),
    AlertConfiguration.button_modifyButton, if_pos rfl, h, Option.map_some]

theorem button_lineConfig_succ (h : config.button (n + 1) = some {}) :
    (lineConfig keyA config n label start).button (n + 1) =
      some { label := ⟨some start, 0⟩ } := by
  rw [lineConfig, AlertConfiguration.button_modifyButton, if_pos rfl,
    AlertConfiguration.button_modifyButton, if_neg (by omega), h]
  rfl

theorem button_lineConfig_of_ne {k : ℕ} (h : k ≠ n) (h' : k ≠ n + 1) :
    (lineConfig keyA config n label start).button k = config.button k := by
  rw [lineConfig, AlertConfiguration.button_modifyButton, if_neg h',
    AlertConfiguration.button_modifyButton, if_neg h]

end LineConfig

theorem scan_line (hkey : 0 < keyA) {label : List UInt8} (hlabel : IsLabel label)
    (h : s.At base (label ++ lineFeed :: rest) junk) (hrest : 0 ∉ lineFeed :: rest)
    (hlatch : s.latchAccessKey = false) (hn : s.n < 2) :
    ∃ s' junk', (∀ fuel, scan keyA (label.length + (fuel + 1)) s = scan keyA fuel s') ∧
      s'.At (base ++ cleaned label ++ [lineFeed]) rest junk' ∧ s'.n = s.n + 1 ∧
      s'.latchAccessKey = false ∧ s'.config =
        lineConfig keyA s.config s.n label (base ++ cleaned label ++ [lineFeed]).length := by
  obtain ⟨s₁, junk₁, hscan, hat₁, hn₁, hlatch₁, hconfig₁⟩ :=
    scan_label hkey hlabel h hrest hlatch
  obtain ⟨s₂, hstep, hat₂, hn₂, hlatch₂, hconfig₂⟩ := step_of_lineFeed keyA hat₁ (by omega)
  rw [hn₁] at hn₂ hconfig₂
  rw [hconfig₁] at hconfig₂
  refine ⟨s₂, junk₁, fun fuel => ?_, hat₂, hn₂, hlatch₂.trans hlatch₁, hconfig₂⟩
  rw [hscan, scan_succ hstep]

theorem Finds.cons {s₂ s' : DialogScan} {label : List UInt8} {labels : List (List UInt8)}
    {start : ℕ} (h : Finds keyA s₂ (base ++ cleaned label ++ [lineFeed]) labels s')
    (hn : s₂.n = s.n + 1) (hconfig : s₂.config = lineConfig keyA s.config s.n label start)
    (hbutton : s.config.button s.n = some { label := ⟨some base.length, 0⟩ }) :
    Finds keyA s base (label :: labels) s' := by
  have htext : base ++ cleaned label <+: s'.text := (List.prefix_append _ _).trans h.text
  refine ⟨(List.prefix_append _ _).trans htext, fun k hk => ?_, ?_, ?_, fun i l hl => ?_⟩
  · rw [h.kept k (by omega), hconfig, button_lineConfig_of_ne (by omega) (by omega)]
  · rw [h.message, hconfig, lineConfig, AlertConfiguration.message_modifyButton,
      AlertConfiguration.message_modifyButton]
  · rw [h.description, hconfig, lineConfig, AlertConfiguration.description_modifyButton,
      AlertConfiguration.description_modifyButton]
  · cases i with
    | zero =>
      cases hl
      refine ⟨_, ?_, isFor_addLabel keyA label htext⟩
      rw [Nat.add_zero, h.kept s.n (by omega), hconfig, button_lineConfig_self hbutton]
    | succ i =>
      obtain ⟨button, hbutton', hfor⟩ := h.buttons i l hl
      rw [hn, Nat.add_right_comm] at hbutton'
      exact ⟨button, hbutton', hfor⟩

/-- **What the loop makes of the labels**, which are separated by newlines. -/
theorem scan_labels (hkey : 0 < keyA) {label : List UInt8} {labels : List (List UInt8)}
    (hlabels : ∀ l ∈ label :: labels, IsLabel l)
    (h : s.At base ([lineFeed].intercalate (label :: labels)) junk)
    (hzero : 0 ∉ [lineFeed].intercalate (label :: labels)) (hlatch : s.latchAccessKey = false)
    (hn : s.n + labels.length ≤ 2)
    (hbutton : s.config.button s.n = some { label := ⟨some base.length, 0⟩ })
    (hfresh : ∀ k > s.n, k ≤ 2 → s.config.button k = some {}) :
    ∃ s', (∀ fuel > ([lineFeed].intercalate (label :: labels)).length,
      scan keyA fuel s = some s') ∧ Finds keyA s base (label :: labels) s' := by
  induction labels generalizing label s base junk with
  | nil =>
    rw [List.intercalate_singleton] at h ⊢
    rw [← List.append_nil label] at h
    obtain ⟨s', junk', hscan, hat, -, -, hconfig⟩ :=
      scan_label hkey (hlabels label List.mem_cons_self) h List.not_mem_nil hlatch
    refine ⟨s', fun fuel hfuel => ?_, finds_last ⟨_, hat.text_eq.symm⟩ hconfig hbutton⟩
    obtain ⟨d, rfl⟩ := Nat.exists_eq_add_of_lt hfuel
    rw [Nat.add_assoc, hscan, scan, step_of_end hat]
  | cons label₂ labels ih =>
    rw [List.intercalate_cons_cons, List.append_assoc, List.singleton_append] at h hzero ⊢
    rw [List.length_cons] at hn
    have hzero₂ : 0 ∉ lineFeed :: [lineFeed].intercalate (label₂ :: labels) := fun hm =>
      hzero (List.mem_append_right _ hm)
    obtain ⟨s₂, junk₂, hscan, hat, hn₂, hlatch₂, hconfig⟩ :=
      scan_line hkey (hlabels label List.mem_cons_self) h hzero₂ hlatch (by omega)
    have hbutton₂ : s₂.config.button s₂.n =
        some { label := ⟨some (base ++ cleaned label ++ [lineFeed]).length, 0⟩ } := by
      rw [hconfig, hn₂]
      exact button_lineConfig_succ (hfresh (s.n + 1) (by omega) (by omega))
    have hfresh₂ : ∀ k > s₂.n, k ≤ 2 → s₂.config.button k = some {} := by
      intro k hk hk'
      rw [hconfig, button_lineConfig_of_ne (by omega) (by omega)]
      exact hfresh k (by omega) hk'
    obtain ⟨s', hscan', hfinds⟩ := ih (fun l hl => hlabels l (.tail _ hl)) hat
      (fun hm => hzero₂ (.tail _ hm)) hlatch₂ (by omega) hbutton₂ hfresh₂
    refine ⟨s', fun fuel hfuel => ?_, hfinds.cons hn₂ hconfig hbutton⟩
    rw [List.length_append, List.length_cons] at hfuel
    obtain ⟨d, rfl⟩ := Nat.exists_eq_add_of_le (show label.length + 1 ≤ fuel by omega)
    rw [Nat.add_assoc, Nat.add_comm 1 d, hscan, hscan' d (by omega)]

end DialogScan

/-! ### The whole dialog -/

theorem exists_append_of_mem_labels {labels : List (List UInt8)} {l : List UInt8}
    (h : l ∈ labels) : ∃ before rest, [lineFeed].intercalate labels = before ++ (l ++ rest) ∧
      (rest = [] ∨ ∃ t, rest = lineFeed :: t) := by
  induction labels with
  | nil => cases h
  | cons label labels ih =>
    cases labels with
    | nil =>
      cases List.mem_singleton.1 h
      exact ⟨[], [], by simp, .inl rfl⟩
    | cons label₂ labels =>
      rw [List.intercalate_cons_cons, List.append_assoc, List.singleton_append]
      rcases List.mem_cons.1 h with rfl | h
      · exact ⟨[], _, rfl, .inr ⟨_, rfl⟩⟩
      · obtain ⟨before, rest, heq, hrest⟩ := ih h
        exact ⟨label ++ lineFeed :: before, rest, by rw [heq]; simp, hrest⟩

theorem isLabel_of_mem {buttons l : List UInt8} (h : IsButtons buttons)
    (hl : l ∈ buttons.splitOn lineFeed) : IsLabel l := by
  obtain ⟨before, rest, heq, hrest⟩ := exists_append_of_mem_labels hl
  rw [List.intercalate_splitOn] at heq
  have hnul := h.no_nul
  rw [heq, List.mem_append, List.mem_append, not_or, not_or] at hnul
  refine isLabel_of_marks (fun l₁ l₂ heq' => ?_) hnul.2.1 ?_ hrest
  · exact h.marks (before ++ l₁) l₂ (by rw [heq, heq', List.append_assoc])
  · exact Python.notMem_of_mem_splitOn hl

theorem guiMchDialog_eq (garbage : ℕ → UInt8) (title message buttons : List UInt8) :
    guiMchDialog garbage title message buttons =
      some (title ++ 0 :: (message ++ 0 :: (buttons ++ [0]))) := by
  -- the parts of the new block that the three strings are copied to
  obtain ⟨a, b, c, hblock, ha, hb, hc⟩ : ∃ a b c : List UInt8, Block.realloc []
      (title.length + 1 + message.length + 1 + buttons.length + 1) garbage = a ++ (b ++ c) ∧
      a.length = (title ++ [0]).length ∧ b.length = (message ++ [0]).length ∧
      c.length = (buttons ++ [0]).length := by
    have hlen := Block.length_realloc []
      (title.length + 1 + message.length + 1 + buttons.length + 1) garbage
    refine ⟨_, _, _, (List.take_append_drop (title.length + 1) _).symm.trans
      (congrArg _ (List.take_append_drop (message.length + 1) _).symm), ?_, ?_, ?_⟩ <;>
    simp only [List.length_take, List.length_drop, List.length_append, List.length_singleton] <;>
    omega
  have htitle : Block.strcpy (a ++ (b ++ c)) 0 title = some (title ++ [0] ++ (b ++ c)) :=
    Block.memcpy_append [] ha (b ++ c)
  have hmessage : Block.strcpy (title ++ [0] ++ (b ++ c)) (title.length + 1) message =
      some (title ++ [0] ++ (message ++ [0]) ++ c) := by
    have h := Block.memcpy_append (title ++ [0]) hb c
    rwa [List.length_append, ← List.append_assoc _ (message ++ [0])] at h
  have hbuttons : Block.strcpy (title ++ [0] ++ (message ++ [0]) ++ c)
      (title.length + 1 + message.length + 1) buttons =
      some (title ++ [0] ++ (message ++ [0]) ++ (buttons ++ [0])) := by
    have h := Block.memcpy_append (title ++ [0] ++ (message ++ [0])) hc []
    rwa [List.append_nil, List.append_nil, List.length_append, List.length_append,
      List.length_append] at h
  rw [guiMchDialog, hblock, htitle, Option.bind_some, hmessage, Option.bind_some, hbuttons]
  simp

/-- The block up to the labels. -/
def dialogBase (title message : List UInt8) : List UInt8 := title ++ 0 :: (message ++ [0])

theorem length_dialogBase (title message : List UInt8) :
    (dialogBase title message).length = title.length + 1 + message.length + 1 := by
  simp only [dialogBase, List.length_append, List.length_cons, List.length_nil]
  omega

/-- Where the loop over the labels starts. -/
def dialogStart (title message text : List UInt8) : DialogScan where
  text := text
  buttons := title.length + 1 + message.length + 1
  config :=
    { message := ⟨some 0, title.length⟩
      description := ⟨some (title.length + 1), message.length⟩
      primaryButton := { label := ⟨some (title.length + 1 + message.length + 1), 0⟩ } }

/-- The title and the message are found by their lengths. -/
theorem processDialog_eq_scan {title message : List UInt8} (htitle : 0 ∉ title)
    (hmessage : 0 ∉ message) (keyA fuel : ℕ) (rest : List UInt8) :
    processDialog keyA fuel (dialogBase title message ++ rest) =
      (dialogStart title message (dialogBase title message ++ rest)).scan keyA fuel := by
  have h₁ : Block.strlen (dialogBase title message ++ rest) 0 = some title.length := by
    have h := Block.strlen_append [] htitle (message ++ 0 :: rest)
    simpa [dialogBase] using h
  have h₂ : Block.strlen (dialogBase title message ++ rest) (title.length + 1) =
      some message.length := by
    have h := Block.strlen_append (title ++ [0]) hmessage rest
    simpa [dialogBase] using h
  rw [processDialog, h₁, Option.bind_some, h₂, Option.bind_some]
  rfl

/-- **The texts of a dialog survive the pipe.** -/
theorem dialogSurvives {keyA : ℕ} (hkey : 0 < keyA) (garbage : ℕ → UInt8)
    {title message buttons : List UInt8} (htitle : 0 ∉ title) (hmessage : 0 ∉ message)
    (hbuttons : IsButtons buttons) : DialogSurvives keyA garbage title message buttons := by
  have htext : title ++ 0 :: (message ++ 0 :: (buttons ++ [0])) =
      dialogBase title message ++ (buttons ++ [0]) := by simp [dialogBase]
  have hpack := guiMchDialog_eq garbage title message buttons
  refine ⟨dialogBase title message ++ (buttons ++ [0]), hpack.trans (congrArg some htext), ?_⟩
  obtain ⟨label, labels, hlabels⟩ :=
    List.exists_cons_of_ne_nil (List.splitOn_ne_nil lineFeed buttons)
  have hjoin : [lineFeed].intercalate (label :: labels) = buttons := by
    rw [← hlabels, List.intercalate_splitOn]
  have hle := hbuttons.length_le
  rw [hlabels, List.length_cons] at hle
  have hbase := length_dialogBase title message
  let start := dialogStart title message (dialogBase title message ++ (buttons ++ [0]))
  have hat : start.At (dialogBase title message) ([lineFeed].intercalate (label :: labels)) [] :=
    ⟨by rw [hjoin]; rfl, hbase.symm⟩
  have hcount : start.n + labels.length ≤ 2 := by
    simp only [start, dialogStart]
    omega
  obtain ⟨s', hscan, hfinds⟩ :=
    DialogScan.scan_labels hkey (fun l hl => isLabel_of_mem hbuttons (hlabels ▸ hl)) hat
      (hjoin ▸ hbuttons.no_nul) rfl hcount (by rw [hbase]; rfl) fun k hk hk' => by
        match k, hk, hk' with
        | 1, _, _ | 2, _, _ => rfl
  rw [hjoin] at hscan
  refine ⟨s', fun fuel hfuel => ?_, ?_, ?_, fun i l hl => ?_⟩
  · rw [processDialog_eq_scan htitle hmessage]
    exact hscan fuel hfuel
  · rw [hfinds.message]
    exact Block.read_of_isPrefix hfinds.text (Block.read_append [] title _)
  · rw [hfinds.description]
    have h := Block.read_append (title ++ [0]) message [0]
    refine Block.read_of_isPrefix hfinds.text ?_
    simpa [start, dialogStart, dialogBase] using h
  · rw [hlabels] at hl
    obtain ⟨button, hbutton, hfor⟩ := hfinds.buttons i l hl
    refine ⟨button, ?_, hfor⟩
    rwa [show start.n + i = i from Nat.zero_add i] at hbutton

/-- The code of `PBKey_A` in the samples. -/
def sampleKeyA : ℕ := 4

/-- The labels `&Save` and `S&ave &As…`. -/
def saveButtons : List UInt8 :=
  [0x26, 0x53, 0x61, 0x76, 0x65, 0x0A, 0x53, 0x26, 0x61, 0x76, 0x65, 0x20, 0x26, 0x41, 0x73]

theorem saveButtons_survive : 0 < sampleKeyA ∧ IsButtons saveButtons ∧
    DialogSurvives sampleKeyA (fun _ => 0) [0x48, 0x69] [] saveButtons := by
  have hbuttons : IsButtons saveButtons := by
    refine ⟨by decide, by decide, ?_⟩
    have hnil : MarksCharacters [] := fun l₁ l₂ heq => by simp at heq
    simp [saveButtons, marksCharacters_cons_iff, ampersand, lineFeed, hnil]
  exact ⟨by decide, hbuttons, dialogSurvives (by decide) _ (by decide) (by decide) hbuttons⟩

example : cleaned [0x53, 0x26, 0x61, 0x76, 0x65] = [0x53, 0x61, 0x76, 0x65] := by decide

end Gvim
