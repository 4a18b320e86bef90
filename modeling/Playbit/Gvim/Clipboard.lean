import Playbit.Gvim.DialogText
import Playbit.Machine.Run

/-!
# The clipboard

Vim publishes a selection as an item of the clipboard with its text and, as data of a type of its
own, the kind of the selection.  When it reads the clipboard it joins the texts of several items,
in a buffer that is doubled as often as needed.  For a single item it takes the kind from the tag
that Vim has left.  Without a tag the kind should depend on whether the text has a newline in it,
but the arguments of `memchr` are in the wrong order: what is searched for is a byte with the value
of the text's length, and it is searched for in the first ten bytes.

Joining is right, and stays within the buffer (`foldlM_addItem`).  The clipboard is read as it
should (`InterpretsFaithfully`) iff for a single text without a tag the search happens to be right
(`interpretsFaithfully_iff`); `newline_missed` is a text for which it is not.
-/

namespace Gvim

/-- The kinds of selections, `MCHAR`, `MLINE` and `MBLOCK`. -/
inductive MotionType
  | mchar
  | mline
  | mblock
  deriving DecidableEq

/-- An item of the clipboard. -/
structure ClipboardItem where
  /-- `text/plain` -/
  textPlain : Option (List UInt8)
  /-- `application/x-playbit-vim-visual-type` -/
  visualType : Option (List UInt8) := none
  deriving DecidableEq

/-- What `clip_yank_selection` is called with. -/
abbrev Yank := MotionType × List UInt8

/-! ### Writing -/

/-- `typeCharacter` -/
def MotionType.typeCharacter : MotionType → UInt8
  | mblock => 0x42
  | mchar => 0x43
  | mline => 0x4C

/-- `clip_mch_set_selection`: what it writes to the clipboard, for what `clip_convert_selection` has
returned. -/
def clipMchSetSelection : Option Yank → Option (List ClipboardItem)
  | none => none
  | some (type, text) =>
    some [{ textPlain := some text, visualType := some [type.typeCharacter] }]

/-! ### Reading -/

/-- `while (need > allocated) { allocated *= 2; }` -/
def doubled (need : ℕ) : ℕ → ℕ → Option ℕ
  | 0, _ => none
  | fuel + 1, allocated =>
    if allocated < need then doubled need fuel (allocated * 2) else some allocated

/-- The buffer for several texts. -/
structure Combined where
  allocated : ℕ
  position : ℕ
  combined : List UInt8

/-- Make room for a text and a newline. -/
def Combined.reserve (garbage : ℕ → UInt8) (fuel : ℕ) (c : Combined) (len : ℕ) :
    Option Combined :=
  if c.allocated < c.position + len + 1 then
    (doubled (c.position + len + 1) fuel c.allocated).map fun allocated =>
      { c with allocated := allocated, combined := Block.realloc c.combined allocated garbage }
  else some c

/-- One pass of the loop over the items. -/
def Combined.addItem (garbage : ℕ → UInt8) (fuel : ℕ) (c : Combined) (item : ClipboardItem) :
    Option Combined :=
  match item.textPlain with
  | none => some c
  | some text =>
    (c.reserve garbage fuel text.length).bind fun c =>
      (Block.memcpy c.combined c.position text).bind fun combined =>
        (Block.store combined (c.position + text.length) lineFeed).map fun combined =>
          { c with combined := combined, position := c.position + text.length + 1 }

/-- `memchr(s, c, n)`, which reads byte by byte and stops where it finds `c`. -/
def memchr (s : List UInt8) (c : UInt8) (n : ℕ) : Option Bool :=
  if c ∈ s.take n then some true else if n ≤ s.length then some false else none

/-- The kind that the tag of an item says, or none for `MAUTO`. -/
def ClipboardItem.tag (item : ClipboardItem) : Option MotionType :=
  match item.visualType with
  | some [0x4C] => some .mline
  | some [0x43] => some .mchar
  | some [0x42] => some .mblock
  | _ => none

/-- The kind of a text without a tag: `memchr(result.ptr, result.len, '\n')`. -/
def autoType (text : List UInt8) : Option MotionType :=
  (memchr text (UInt8.ofNat text.length) lineFeed.toNat).map fun found =>
    if found then .mline else .mchar

/-- The branch for a single item. -/
def requestItem (item : ClipboardItem) : Option (Option Yank) :=
  match item.textPlain with
  | none => some none
  | some text =>
    match item.tag with
    | some type => some (some (type, text))
    | none => (autoType text).map fun type => some (type, text)

/-- `clip_mch_request_selection`: what is yanked, unless there is no clipboard or no text. -/
def clipMchRequestSelection (garbage : ℕ → UInt8) (fuel : ℕ) :
    Option (List ClipboardItem) → Option (Option Yank)
  | none => some none
  | some items =>
    if 1 < items.length then
      (items.foldlM (Combined.addItem garbage fuel) ⟨1, 0, Block.realloc [] 1 garbage⟩).bind
        fun c => (Block.read c.combined 0 c.position).map fun text => some (.mline, text)
    else (items.head?.map requestItem).getD (some none)

/-! ### What is to be read -/

/-- The call comes to an end without an access outside of a buffer, and yanks this. -/
def Yanks (items : Option (List ClipboardItem)) (r : Option Yank) : Prop :=
  ∀ garbage, ∃ n, ∀ fuel ≥ n, clipMchRequestSelection garbage fuel items = some r

/-- The texts, each with a newline behind it. -/
def joinedTexts (items : List ClipboardItem) : List UInt8 :=
  items.flatMap fun item => (item.textPlain.map (· ++ [lineFeed])).getD []

/-- What is to be read from a clipboard with these items. -/
structure InterpretsFaithfully (items : List ClipboardItem) : Prop where
  several : 1 < items.length → Yanks (some items) (some (.mline, joinedTexts items))
  tagged : ∀ item type, items = [item] → item.tag = some type →
    Yanks (some items) (item.textPlain.map fun text => (type, text))
  untagged : ∀ item, items = [item] → item.tag = none →
    Yanks (some items) (item.textPlain.map fun text =>
      (if lineFeed ∈ text then .mline else .mchar, text))
  published : ∀ yank, Yanks (clipMchSetSelection (some yank)) (some yank)

/-- The search for a byte with the value of the length, in the first ten bytes, comes to the same
as the search for a newline. -/
def SearchIsRight (text : List UInt8) : Prop :=
  if lineFeed ∈ text then UInt8.ofNat text.length ∈ text.take 10
  else UInt8.ofNat text.length ∉ text.take 10 ∧ 10 ≤ text.length

instance decidableSearchIsRight (text : List UInt8) : Decidable (SearchIsRight text) := by
  unfold SearchIsRight
  infer_instance

/-! ### Several items -/

theorem doubled_spec (need : ℕ) {fuel allocated : ℕ} (h : 0 < allocated)
    (hfuel : need ≤ fuel + allocated) :
    ∃ n, doubled need (fuel + 1) allocated = some n ∧ need ≤ n ∧ allocated ≤ n := by
  induction fuel generalizing allocated with
  | zero => exact ⟨allocated, if_neg (by omega), by omega, Nat.le_refl _⟩
  | succ fuel ih =>
    rw [doubled]
    split_ifs with hlt
    · obtain ⟨n, hn, hneed, hle⟩ := @ih (allocated * 2) (by omega) (by omega)
      exact ⟨n, hn, hneed, by omega⟩
    · exact ⟨allocated, rfl, by omega, Nat.le_refl _⟩

namespace Combined

/-- The buffer starts with the texts so far. -/
structure Holds (c : Combined) (out : List UInt8) : Prop where
  length_eq : c.combined.length = c.allocated
  allocated_pos : 0 < c.allocated
  position_eq : c.position = out.length
  out_eq : out <+: c.combined

variable {c : Combined} {out : List UInt8} (garbage : ℕ → UInt8) {fuel : ℕ}

theorem Holds.reserve (h : c.Holds out) {len : ℕ} (hfuel : out.length + len + 1 < fuel) :
    ∃ c', c.reserve garbage fuel len = some c' ∧ c'.Holds out ∧
      out.length + len + 1 ≤ c'.allocated := by
  unfold Combined.reserve
  rw [h.position_eq]
  split_ifs with hlt
  · obtain ⟨fuel, rfl⟩ := Nat.exists_eq_add_one_of_ne_zero (Nat.ne_zero_of_lt hfuel)
    have hle : out.length + len + 1 ≤ fuel + c.allocated := by omega
    obtain ⟨n, hn, hneed, hle⟩ := doubled_spec (out.length + len + 1) h.allocated_pos hle
    obtain ⟨rest, hrealloc, -⟩ :=
      Block.realloc_eq_append (h.length_eq.trans_le hle) garbage
    refine ⟨⟨n, out.length, Block.realloc c.combined n garbage⟩, by rw [hn, Option.map_some],
      ⟨Block.length_realloc _ _ _, Nat.lt_of_lt_of_le h.allocated_pos hle, rfl, ?_⟩, hneed⟩
    rw [hrealloc]
    exact h.out_eq.trans (List.prefix_append _ _)
  · exact ⟨c, rfl, h, by omega⟩

theorem Holds.addItem (h : c.Holds out) (item : ClipboardItem)
    (hfuel : (out ++ joinedTexts [item]).length < fuel) :
    ∃ c', c.addItem garbage fuel item = some c' ∧ c'.Holds (out ++ joinedTexts [item]) := by
  cases htext : item.textPlain with
  | none =>
    refine ⟨c, by rw [Combined.addItem, htext], ?_⟩
    simpa [joinedTexts, htext] using h
  | some text =>
    have hjoined : joinedTexts [item] = text ++ [lineFeed] := by simp [joinedTexts, htext]
    rw [hjoined, List.length_append, List.length_append, List.length_singleton] at hfuel
    have hlarge : out.length + text.length + 1 < fuel := by omega
    obtain ⟨c₁, hreserve, h₁, hroom⟩ := h.reserve garbage hlarge
    -- what the text and the newline are written over
    obtain ⟨rest, hrest⟩ := h₁.out_eq
    have hlen : text.length < rest.length := by
      have := congrArg List.length hrest
      rw [List.length_append, h₁.length_eq] at this
      omega
    obtain ⟨old, x, post, hold, rfl⟩ := Block.exists_split hlen
    have hcopy : Block.memcpy c₁.combined c₁.position text =
        some (out ++ (text ++ x :: post)) := by
      rw [← hrest, h₁.position_eq]
      exact Block.memcpy_append out hold (x :: post)
    have hstore : Block.store (out ++ (text ++ x :: post)) (c₁.position + text.length) lineFeed =
        some (out ++ text ++ lineFeed :: post) := by
      have := Block.store_append (out ++ text) x lineFeed post
      rwa [List.length_append, List.append_assoc, ← h₁.position_eq] at this
    refine ⟨{ c₁ with
      combined := out ++ text ++ lineFeed :: post
      position := c₁.position + text.length + 1 }, ?_, ?_, h₁.allocated_pos, ?_, ?_⟩
    · rw [Combined.addItem, htext]
      simp only
      rw [hreserve, Option.bind_some, hcopy, Option.bind_some, hstore, Option.map_some]
    · rw [← h₁.length_eq, ← hrest]
      simp [hold]
    · rw [hjoined, h₁.position_eq]
      simp [Nat.add_assoc]
    · rw [hjoined]
      exact ⟨post, by simp⟩

end Combined

theorem joinedTexts_append (items items' : List ClipboardItem) :
    joinedTexts (items ++ items') = joinedTexts items ++ joinedTexts items' :=
  List.flatMap_append

/-- **The texts of several items are joined**, within the buffer. -/
theorem foldlM_addItem (garbage : ℕ → UInt8) (items : List ClipboardItem) {fuel : ℕ}
    (hfuel : (joinedTexts items).length < fuel) :
    ∃ c, items.foldlM (Combined.addItem garbage fuel) ⟨1, 0, Block.realloc [] 1 garbage⟩ = some c ∧
      c.Holds (joinedTexts items) := by
  have h₀ : Combined.Holds ⟨1, 0, Block.realloc [] 1 garbage⟩ (joinedTexts []) :=
    ⟨Block.length_realloc _ _ _, Nat.one_pos, rfl, List.nil_prefix⟩
  refine Machine.foldlM_rule items (f := Combined.addItem garbage fuel)
    (I := fun l c => c.Holds (joinedTexts l)) h₀ fun l₁ item l₂ c hl hc => ?_
  have hle : (joinedTexts (l₁ ++ [item])).length ≤ (joinedTexts items).length := by
    rw [hl, List.append_cons l₁ item l₂, joinedTexts_append (l₁ ++ [item]), List.length_append]
    exact Nat.le_add_right _ _
  rw [joinedTexts_append] at hle ⊢
  exact hc.addItem garbage item (Nat.lt_of_le_of_lt hle hfuel)

theorem yanks_several {items : List ClipboardItem} (h : 1 < items.length) :
    Yanks (some items) (some (.mline, joinedTexts items)) := by
  intro garbage
  refine ⟨(joinedTexts items).length + 1, fun fuel hfuel => ?_⟩
  obtain ⟨c, hc, hholds⟩ := foldlM_addItem garbage items hfuel
  have hread : Block.read c.combined 0 c.position = some (joinedTexts items) := by
    obtain ⟨rest, hrest⟩ := hholds.out_eq
    rw [← hrest, hholds.position_eq]
    exact Block.read_append [] (joinedTexts items) rest
  rw [clipMchRequestSelection, if_pos h, hc, Option.bind_some, hread, Option.map_some]

/-! ### A single item -/

theorem yanks_singleton_iff {item : ClipboardItem} {r : Option Yank} :
    Yanks (some [item]) r ↔ requestItem item = some r := by
  have hrequest : ∀ garbage fuel,
      clipMchRequestSelection garbage fuel (some [item]) = requestItem item := by
    intro garbage fuel
    rw [clipMchRequestSelection, if_neg (by simp)]
    rfl
  constructor
  · intro h
    obtain ⟨n, hn⟩ := h fun _ => 0
    exact (hrequest _ _).symm.trans (hn n le_rfl)
  · intro h garbage
    exact ⟨0, fun fuel _ => (hrequest garbage fuel).trans h⟩

theorem yanks_tagged {item : ClipboardItem} {type : MotionType} (h : item.tag = some type) :
    Yanks (some [item]) (item.textPlain.map fun text => (type, text)) := by
  rw [yanks_singleton_iff, requestItem, h]
  cases item.textPlain <;> rfl

theorem yanks_published (yank : Yank) : Yanks (clipMchSetSelection (some yank)) (some yank) := by
  obtain ⟨type, text⟩ := yank
  have htag : ClipboardItem.tag ⟨some text, some [type.typeCharacter]⟩ = some type := by
    cases type <;> rfl
  exact yanks_tagged htag

theorem autoType_eq_iff (text : List UInt8) :
    autoType text = some (if lineFeed ∈ text then .mline else .mchar) ↔ SearchIsRight text := by
  unfold autoType memchr SearchIsRight
  have hten : lineFeed.toNat = 10 := rfl
  rw [hten]
  by_cases hfound : UInt8.ofNat text.length ∈ text.take 10
  · by_cases hline : lineFeed ∈ text <;> simp [hfound, hline]
  · by_cases hlen : 10 ≤ text.length
    · by_cases hline : lineFeed ∈ text <;> simp [hfound, hline, hlen]
    · by_cases hline : lineFeed ∈ text <;> simp [hfound, hline, hlen]

theorem yanks_untagged_iff {item : ClipboardItem} (h : item.tag = none) :
    Yanks (some [item]) (item.textPlain.map fun text =>
      (if lineFeed ∈ text then .mline else .mchar, text)) ↔
      ∀ text ∈ item.textPlain, SearchIsRight text := by
  rw [yanks_singleton_iff, requestItem, h]
  cases item.textPlain with
  | none => simp
  | some text =>
    simp only [Option.map_some, Option.mem_some_iff, forall_eq', ← autoType_eq_iff]
    cases autoType text <;> simp

/-- **The clipboard is read as it should** iff for a single text without a tag the search happens
to be right. -/
theorem interpretsFaithfully_iff (items : List ClipboardItem) :
    InterpretsFaithfully items ↔
      ∀ item text, items = [item] → item.tag = none → item.textPlain = some text →
        SearchIsRight text := by
  constructor
  · rintro h item text rfl htag htext
    exact (yanks_untagged_iff htag).1 (h.untagged item rfl htag) text htext
  · intro h
    exact
      { several := yanks_several
        tagged := by
          rintro item type rfl htag
          exact yanks_tagged htag
        untagged := by
          rintro item rfl htag
          exact (yanks_untagged_iff htag).2 fun text htext => h item text rfl htag htext
        published := yanks_published }

/-- The twelve bytes `hello world` and a newline. -/
def helloWorld : List UInt8 :=
  [0x68, 0x65, 0x6C, 0x6C, 0x6F, 0x20, 0x77, 0x6F, 0x72, 0x6C, 0x64, 0x0A]

/-- A line that is taken for a part of a line. -/
theorem newline_missed : lineFeed ∈ helloWorld ∧
    Yanks (some [{ textPlain := some helloWorld }]) (some (.mchar, helloWorld)) ∧
    ¬ InterpretsFaithfully [{ textPlain := some helloWorld }] := by
  refine ⟨by decide, yanks_singleton_iff.2 (by decide), fun h => ?_⟩
  have hyank := yanks_singleton_iff.1 (h.untagged _ rfl rfl)
  exact absurd hyank (by decide)

end Gvim
