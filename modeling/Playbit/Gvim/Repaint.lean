import Playbit.Gvim.Picture

/-!
# Repainting what has changed

`ProcessEventToUI` does not paint.  It tells the system with `REPAINT` which cells are to be painted
again, and `TextAreaMessage` is called later with the painter clipped to these.  What is on the
display elsewhere stays.  So the display is right only if everything that looks different after an
event is in a region that the event repaints.

An event that writes cells repaints these, and with them the cursor that it hides.  The texts that
are drawn for the other cells of the row may have changed too, but not what is seen of them as long
as every cell holds a character of one column (`UI.ground_of_narrow`).  A character of two columns
of which one is overwritten leaves the rest of its run where it was (the example after
`Display.shows_picture`).  `EVENT_CURSOR` repaints only the cell that the cursor is going to be in:
the cursor has to be hidden before it is moved, or it is left behind (`Display.cursor_left_behind`),
and must not be larger than a cell.

Under these conditions (`UI.Repainted`) an event repaints all that looks different
(`UI.processEventToUI_repaints`), and over every run the display shows after a paint what painting
everything would show (`Display.shows_picture`).
-/

namespace Gvim

variable {γ : Type*}

/-! ### Regions -/

/-- What is to be painted again. -/
inductive Region
  /-- `PBElementRepaintAll`. -/
  | all
  /-- `REPAINT`. -/
  | cells (row col numRows numCols : ℤ)
  deriving DecidableEq

/-- The positions of a region. -/
def Region.Contains : Region → ℤ × ℤ → Prop
  | all, _ => True
  | cells row col numRows numCols, p =>
    (row ≤ p.1 ∧ p.1 < row + numRows) ∧ col ≤ p.2 ∧ p.2 < col + numCols

instance Region.decidableContains : (g : Region) → (p : ℤ × ℤ) → Decidable (g.Contains p)
  | all, _ => isTrue trivial
  | cells row col numRows numCols, p =>
    inferInstanceAs (Decidable ((row ≤ p.1 ∧ p.1 < row + numRows) ∧ col ≤ p.2 ∧
      p.2 < col + numCols))

namespace UI

variable (drawTransp : Flags)

/-- The column after the last character of `EVENT_TEXT`. -/
def textEnd (ui : UI) (row col : ℤ) (flags : Flags) (array : List TextCharacter) : ℤ :=
  (array.foldl (writeCharacter drawTransp row flags) (ui, col)).2

/-- What `ProcessEventToUI` wants to be painted again. -/
def repaints (ui : UI) : UIEvent → List Region
  | .text row col flags array =>
    [.cells row col 1 (ui.textEnd drawTransp row col flags array - col)]
  | .resize m => if ui.metrics ≠ m then [.all] else []
  | .clear row1 col1 row2 col2 => [.cells row1 col1 (row2 - row1 + 1) (col2 - col1 + 1)]
  | .delete row n left right bottom => [.cells row left (bottom - n - row + 1) (right - left + 1)]
  | .insert row n left right bottom =>
    [.cells (row + n) left (bottom - n - row + 1) (right - left + 1)]
  | .cursor column row .. => [.cells row column 1 1]
  | .ncolor .. => [.all]
  | .recolor .. | .invert .. | .title | .dialog | .browse | .flush => []

end UI

/-! ### Pictures -/

/-- The cursor, where it is and how it is drawn: its outline, or filled. -/
structure Cursor where
  column : ℤ
  row : ℤ
  width : ℤ
  height : ℤ
  color : Color
  state : ℤ
  deriving DecidableEq

namespace Cursor

/-- The cell that the cursor is in. -/
def cell (c : Cursor) : ℤ × ℤ := (c.row, c.column)

/-- Some of the cursor is drawn in the cell. -/
def On (c : Cursor) (m : Metrics) (p : ℤ × ℤ) : Prop :=
  (c.state = 1 ∨ c.state = 2) ∧
  (c.column * m.charWidth < (p.2 + 1) * m.charWidth ∧
    p.2 * m.charWidth < c.column * m.charWidth + c.width) ∧
  c.row * m.charHeight < (p.1 + 1) * m.charHeight ∧
    p.1 * m.charHeight < c.row * m.charHeight + c.height

instance decidableOn (c : Cursor) (m : Metrics) (p : ℤ × ℤ) : Decidable (c.On m p) := by
  unfold On
  infer_instance

/-- The cursor is not drawn beyond its cell. -/
def Fits (c : Cursor) (m : Metrics) : Prop := ∀ p, c.On m p → p = c.cell

theorem not_on_of_hidden {c : Cursor} (h : c.state = 0) (m : Metrics) (p : ℤ × ℤ) :
    ¬ c.On m p := by
  rintro ⟨hstate, -⟩
  omega

theorem fits_of_hidden {c : Cursor} (h : c.state = 0) (m : Metrics) : c.Fits m := fun p hon =>
  absurd hon (not_on_of_hidden h m p)

theorem fits_of_le {c : Cursor} {m : Metrics} (hpos : 0 < m.charWidth ∧ 0 < m.charHeight)
    (hwidth : c.width ≤ m.charWidth) (hheight : c.height ≤ m.charHeight) : c.Fits m := by
  -- in units of the size of a character
  have hone : ∀ {a b d size : ℤ}, 0 < size → d ≤ size → a * size < (b + 1) * size →
      b * size < a * size + d → b = a := by
    intro a b d size hsize hd hlt hlt'
    have hab := Int.lt_of_mul_lt_mul_right hlt (Int.le_of_lt hsize)
    have hba : b * size < (a + 1) * size := by
      rw [Int.add_mul, Int.one_mul]
      omega
    have hba := Int.lt_of_mul_lt_mul_right hba (Int.le_of_lt hsize)
    omega
  rintro ⟨y, x⟩ ⟨-, ⟨hleft, hright⟩, htop, hbottom⟩
  exact Prod.ext (hone hpos.2 hheight htop hbottom) (hone hpos.1 hwidth hleft hright)

end Cursor

/-- What is painted at a position: what the texts leave there, and the cursor over it. -/
structure Picture (γ : Type*) where
  ground : Ground γ
  cursor : Option Cursor
  deriving DecidableEq

namespace UI

def cursor (ui : UI) : Cursor :=
  ⟨ui.uiCursorColumn, ui.uiCursorRow, ui.uiCursorWidth, ui.uiCursorHeight, ui.uiCursorColor,
    ui.uiCursorState⟩

/-- What `TextAreaMessage` paints, in the rows that are not clipped away. -/
def picture (layout : TextLayout γ) (nonEmpty : ℤ → Bool) (ui : UI) (p : ℤ × ℤ) : Picture γ where
  ground := ui.ground layout nonEmpty p
  cursor := if ui.cursor.On ui.metrics p then some ui.cursor else none

/-- When an event is repainted completely: a cursor that is moved is not visible elsewhere and fits
in its cell, counts of lines are not negative, and characters take one column. -/
def Repainted (narrow : Set (List UInt8)) (ui : UI) : UIEvent → Prop
  | .cursor column row width height color state =>
    (∀ p, ui.cursor.On ui.metrics p → p = (row, column)) ∧
      Cursor.Fits ⟨column, row, width, height, solid color, state⟩ ui.metrics
  | e => e.Counted ∧ e.Narrow narrow

end UI

/-! ### The display -/

/-- The UI thread and what is on the display. -/
structure Display (γ : Type*) where
  ui : UI
  /-- `gui.textArea` has been created. -/
  textArea : Bool := false
  /-- What was last painted at each position. -/
  shown : ℤ × ℤ → Picture γ
  /-- What is to be painted again. -/
  pending : List Region := []

inductive DisplayAction
  /-- The window is created, and with it the text area. -/
  | create
  /-- `ProcessEventToUI`. -/
  | event (memory : ℕ → UICell) (e : UIEvent)
  /-- `PBMsg_CUSTOM_PAINT`.  The system may want to have more painted than it was told, and says
  which rows are not clipped away. -/
  | paint (exposed : List Region) (nonEmpty : ℤ → Bool)

namespace Display

/-- One step. -/
def next (layout : TextLayout γ) (drawTransp : Flags) :
    DisplayAction → Display γ → Option (Display γ)
  | .create, s => if s.textArea then none else some { s with textArea := true, pending := [.all] }
  | .event memory e, s =>
    some { s with
      ui := s.ui.processEventToUI drawTransp memory e
      pending := if s.textArea then s.pending ++ s.ui.repaints drawTransp e else s.pending }
  | .paint exposed nonEmpty, s =>
    if s.textArea then
      some { s with
        shown := fun p =>
          if ∃ g ∈ s.pending ++ exposed, g.Contains p then s.ui.picture layout nonEmpty p
          else s.shown p
        pending := [] }
    else none

/-- The condition on events, and on the system: a row with a cell to be painted is not clipped
away. -/
def Repainted (narrow : Set (List UInt8)) : DisplayAction → Display γ → Prop
  | .create, _ => True
  | .event _ e, s => s.ui.Repainted narrow e
  | .paint exposed nonEmpty, s =>
    ∀ p, s.ui.metrics.Inside p → (∃ g ∈ s.pending ++ exposed, g.Contains p) →
      nonEmpty p.1 = true

/-- What is not going to be painted again is as it should be. -/
structure UpToDate (layout : TextLayout γ) (narrow : Set (List UInt8)) (s : Display γ) : Prop where
  cursorFits : s.ui.cursor.Fits s.ui.metrics
  narrow : s.ui.Narrow narrow
  shown : s.textArea = true → ∀ p, (∀ g ∈ s.pending, ¬ g.Contains p) →
    s.shown p = s.ui.picture layout (fun _ => true) p

end Display

/-! ### What the loops change -/

namespace UI

variable {S : ℤ × ℤ → Prop} {ui ui' ui'' : UI} {p : ℤ × ℤ} {layout : TextLayout γ}
  {narrow : Set (List UInt8)}

/-- The texts may be others, but what is seen of them is not. -/
theorem ground_congr (hlayout : layout.Monospaced narrow) (h : ui.Narrow narrow)
    (h' : ui'.Narrow narrow) (hshown : ui'.shown p = ui.shown p)
    (hback : ui'.uiBackPixel = ui.uiBackPixel) :
    ui'.ground layout (fun _ => true) p = ui.ground layout (fun _ => true) p := by
  rw [ground_of_narrow hlayout h fun _ => rfl, ground_of_narrow hlayout h' fun _ => rfl, hshown,
    hback]

/-- Only cells in `S` are written, and the cursor is hidden only in these. -/
structure ChangesOnly (S : ℤ × ℤ → Prop) (ui ui' : UI) : Prop where
  canvas : ui'.canvas = ui.canvas
  cursor : ui'.cursor = ui.cursor ∨ ui'.cursor = { ui.cursor with state := 0 } ∧ S ui.cursor.cell
  shown : ∀ p, ¬ S p → ui'.shown p = ui.shown p

namespace ChangesOnly

theorem refl (S : ℤ × ℤ → Prop) (ui : UI) : ChangesOnly S ui ui := ⟨rfl, .inl rfl, fun _ _ => rfl⟩

theorem trans (h : ChangesOnly S ui ui') (h' : ChangesOnly S ui' ui'') :
    ChangesOnly S ui ui'' where
  canvas := h'.canvas.trans h.canvas
  cursor := by
    rcases h.cursor with heq | ⟨heq, hS⟩
    · rw [← heq]
      exact h'.cursor
    · rcases h'.cursor with heq' | ⟨heq', -⟩
      · exact .inr ⟨heq'.trans heq, hS⟩
      · refine .inr ⟨heq'.trans ?_, hS⟩
        rw [heq]
  shown := fun p hp => (h'.shown p hp).trans (h.shown p hp)

theorem foldl {ι : Type} {l : List ι} {step : UI → ι → UI}
    (h : ∀ i ∈ l, ∀ ui, ChangesOnly S ui (step ui i)) (ui : UI) :
    ChangesOnly S ui (l.foldl step ui) :=
  Machine.foldl_rule (I := fun _ => ChangesOnly S ui) (refl S ui) fun _ i _ ui' hl h' =>
    h'.trans (h i (by simp [hl]) ui')

theorem updateCell (hp : ui.metrics.Inside p) (hS : S p) (f : UICell → UICell) :
    ChangesOnly S ui (ui.updateCell p f) := by
  refine ⟨rfl, .inl rfl, fun q hq => ?_⟩
  have hne : q ≠ p := by
    rintro rfl
    exact hq hS
  rw [UI.shown, UI.shown, cell_updateCell hp, Function.update_of_ne hne]

theorem copyCell (hp : ui.metrics.Inside p) (hS : S p) (q : ℤ × ℤ) :
    ChangesOnly S ui (ui.copyCell p q) := by
  unfold UI.copyCell
  split
  · exact updateCell hp hS _
  · exact refl S ui

theorem hideCursorAt (hS : S p) (ui : UI) : ChangesOnly S ui (ui.hideCursorAt p) := by
  unfold UI.hideCursorAt
  split_ifs with hp
  · refine ⟨rfl, .inr ⟨rfl, ?_⟩, fun _ _ => rfl⟩
    rwa [UI.cursor, Cursor.cell, ← hp.1, ← hp.2]
  · exact refl S ui

/-- What is not among the written cells is painted as before. -/
theorem picture_eq (h : ChangesOnly S ui ui') (hlayout : layout.Monospaced narrow)
    (hnarrow : ui.Narrow narrow) (hnarrow' : ui'.Narrow narrow)
    (hfits : ui.cursor.Fits ui.metrics) (hp : ¬ S p) :
    ui'.picture layout (fun _ => true) p = ui.picture layout (fun _ => true) p := by
  obtain ⟨hmetrics, -, -, hback⟩ := eq_of_canvas h.canvas
  have hmetrics : ui'.metrics = ui.metrics := hmetrics
  unfold picture
  rw [ground_congr hlayout hnarrow hnarrow' (h.shown p hp) hback, hmetrics]
  rcases h.cursor with heq | ⟨heq, hS⟩
  · rw [heq]
  · -- the cursor was drawn in its own cell only, which is one of those that are written
    have hoff : ¬ ui.cursor.On ui.metrics p := fun hon => hp (hfits p hon ▸ hS)
    have hoff' : ¬ ui'.cursor.On ui.metrics p := Cursor.not_on_of_hidden (by rw [heq]) _ p
    rw [if_neg hoff, if_neg hoff']

theorem cursorFits (h : ChangesOnly S ui ui') (hfits : ui.cursor.Fits ui.metrics) :
    ui'.cursor.Fits ui'.metrics := by
  have hmetrics : ui'.metrics = ui.metrics := (eq_of_canvas h.canvas).1
  rw [hmetrics]
  rcases h.cursor with heq | ⟨heq, -⟩
  · rwa [heq]
  · exact Cursor.fits_of_hidden (by rw [heq]) _

end ChangesOnly

/-! ### Events -/

variable (drawTransp : Flags)

/-- The counter of the columns does not depend on what is written. -/
theorem textEnd_cons (ui : UI) (row col : ℤ) (flags : Flags) (c : TextCharacter)
    (cs : List TextCharacter) :
    ui.textEnd drawTransp row col flags (c :: cs) =
      (writeCharacter drawTransp row flags (ui, col) c).1.textEnd drawTransp row
        (col + c.widthInCells.toNat) flags cs := by
  have hcount : (writeCharacter drawTransp row flags (ui, col) c).2 =
      col + c.widthInCells.toNat := by
    rw [writeCharacter, foldl_range_counter (fun (ui : UI) k x =>
      ui.writeCell drawTransp row flags (x, if k = 0 then c.utf8Bytes else {}))]
  rw [textEnd, textEnd, List.foldl_cons, ← hcount]

theorem le_textEnd (ui : UI) (row col : ℤ) (flags : Flags) (cs : List TextCharacter) :
    col ≤ ui.textEnd drawTransp row col flags cs := by
  induction cs generalizing ui col with
  | nil => exact Int.le_refl col
  | cons c cs ih =>
    rw [textEnd_cons]
    have hle := ih (writeCharacter drawTransp row flags (ui, col) c).1
      (col + c.widthInCells.toNat)
    omega

theorem lt_textEnd (ui : UI) (row : ℤ) {col : ℤ} (flags : Flags) {cs : List TextCharacter}
    {i : ℤ × Bytes4} (hi : i ∈ textCells col cs) :
    i.1 < ui.textEnd drawTransp row col flags cs := by
  induction cs generalizing ui col with
  | nil => cases hi
  | cons c cs ih =>
    rw [textEnd_cons]
    rcases List.mem_append.1 hi with hi | hi
    · obtain ⟨k, hk, rfl⟩ := List.mem_map.1 hi
      have hlt := List.mem_range.1 hk
      have hle := le_textEnd drawTransp (writeCharacter drawTransp row flags (ui, col) c).1 row
        (col + c.widthInCells.toNat) flags cs
      show col + k < _
      omega
    · exact ih _ hi

theorem text_changesOnly (ui : UI) (row col : ℤ) (flags : Flags) (array : List TextCharacter) :
    ChangesOnly
      (Region.cells row col 1 (ui.textEnd drawTransp row col flags array - col)).Contains ui
      (ui.text drawTransp row col flags array) := by
  rw [text_eq_foldl]
  refine ChangesOnly.foldl (fun i hi ui' => ?_) ui
  have hle := le_of_mem_textCells hi
  have hlt := lt_textEnd drawTransp ui row flags hi
  have hS : (Region.cells row col 1
      (ui.textEnd drawTransp row col flags array - col)).Contains (row, i.1) :=
    ⟨⟨by simp, by simp⟩, hle, by simp only; omega⟩
  unfold writeCell
  split_ifs with hp
  · exact (ChangesOnly.updateCell hp hS _).trans (.hideCursorAt hS _)
  · exact .updateCell hp hS _
  · exact .refl _ ui'

theorem foldl_rect_changesOnly {r : Rect} {l : List (ℤ × ℤ)} {step : UI → ℤ × ℤ → UI}
    (hl : ∀ p ∈ l, r.Contains p)
    (hstep : ∀ (S : ℤ × ℤ → Prop) (ui : UI) (p : ℤ × ℤ), S p → ChangesOnly S ui (step ui p))
    (ui : UI) :
    ChangesOnly
      (Region.cells r.top r.left (r.bottom - r.top + 1) (r.right - r.left + 1)).Contains ui
      (l.foldl step ui) := by
  refine ChangesOnly.foldl (fun p hp ui' => hstep _ ui' p ?_) ui
  obtain ⟨⟨htop, hbottom⟩, hleft, hright⟩ := hl p hp
  exact ⟨⟨htop, by omega⟩, hleft, by omega⟩

theorem clear_changesOnly (ui : UI) (row1 col1 row2 col2 : ℤ) :
    ChangesOnly (Region.cells row1 col1 (row2 - row1 + 1) (col2 - col1 + 1)).Contains ui
      (ui.clear row1 col1 row2 col2) := by
  rw [clear, ← InPlace.foldl_product clearCell]
  refine foldl_rect_changesOnly (r := ⟨row1, col1, row2, col2⟩)
    (fun p hp => Shows.mem_product_forRange.1 hp) (fun S ui p hS => ?_) ui
  unfold clearCell
  split_ifs with hp
  · exact (ChangesOnly.updateCell hp hS _).trans (.hideCursorAt hS _)
  · exact .refl S ui

theorem delete_changesOnly {n : ℤ} (hn : 0 ≤ n) (ui : UI) (row left right bottom : ℤ) :
    ChangesOnly (Region.cells row left (bottom - n - row + 1) (right - left + 1)).Contains ui
      (ui.delete row n left right bottom) := by
  rw [delete, ← InPlace.foldl_product (deleteCell n)]
  refine foldl_rect_changesOnly (r := ⟨row, left, bottom - n, right⟩)
    (fun p hp => Shows.mem_product_forRange.1 hp) (fun S ui p hS => ?_) ui
  unfold deleteCell
  split_ifs with hp
  · exact .refl S ui
  · have hin : ui.metrics.Inside p := by
      unfold Metrics.Inside InGrid
      omega
    exact (ChangesOnly.copyCell hin hS _).trans (.hideCursorAt hS _)

theorem insert_changesOnly {n : ℤ} (hn : 0 ≤ n) (ui : UI) (row left right bottom : ℤ) :
    ChangesOnly
      (Region.cells (row + n) left (bottom - n - row + 1) (right - left + 1)).Contains ui
      (ui.insert row n left right bottom) := by
  rw [insert, ← InPlace.foldl_product (insertCell n)]
  have hrows : bottom - n - row + 1 = bottom - (row + n) + 1 := by omega
  rw [hrows]
  refine foldl_rect_changesOnly (r := ⟨row + n, left, bottom, right⟩)
    (fun p hp => ?_) (fun S ui p hS => ?_) ui
  · obtain ⟨hrow, hcol⟩ := List.pair_mem_product.1 hp
    exact Shows.mem_product_forRange.1 (List.pair_mem_product.2 ⟨List.mem_reverse.1 hrow, hcol⟩)
  · unfold insertCell
    split_ifs with hp
    · exact .refl S ui
    · have hin : ui.metrics.Inside p := by
        unfold Metrics.Inside InGrid
        omega
      exact (ChangesOnly.copyCell hin hS _).trans (.hideCursorAt hS _)

theorem narrow_of_repainted {e : UIEvent} (h : ui.Repainted narrow e) :
    e.Counted ∧ e.Narrow narrow := by
  cases e with
  | cursor => exact ⟨trivial, trivial⟩
  | _ => exact h

/-- **What an event does not repaint looks as before**, and the cursor still fits in its cell. -/
theorem processEventToUI_repaints (hlayout : layout.Monospaced narrow) (memory : ℕ → UICell)
    {e : UIEvent} (hnarrow : ui.Narrow narrow) (hfits : ui.cursor.Fits ui.metrics)
    (he : ui.Repainted narrow e) :
    let ui' := ui.processEventToUI drawTransp memory e
    ui'.cursor.Fits ui'.metrics ∧ ∀ p, (∀ g ∈ ui.repaints drawTransp e, ¬ g.Contains p) →
      ui'.picture layout (fun _ => true) p = ui.picture layout (fun _ => true) p := by
  obtain ⟨hcounted, hevent⟩ := narrow_of_repainted he
  have hnarrow' := hnarrow.processEventToUI hlayout.blank hcounted hevent drawTransp memory
  -- an event that changes one region only
  have hone : ∀ {g : Region} {ui' : UI}, ui'.Narrow narrow → ChangesOnly g.Contains ui ui' →
      ui'.cursor.Fits ui'.metrics ∧ ∀ p, (∀ g' ∈ [g], ¬ g'.Contains p) →
        ui'.picture layout (fun _ => true) p = ui.picture layout (fun _ => true) p :=
    fun hnarrow' h => ⟨h.cursorFits hfits, fun p hp =>
      h.picture_eq hlayout hnarrow hnarrow' hfits (hp _ List.mem_cons_self)⟩
  cases e with
  | text row col flags array =>
    exact hone hnarrow' (text_changesOnly drawTransp ui row col flags array)
  | clear row1 col1 row2 col2 => exact hone hnarrow' (clear_changesOnly ui row1 col1 row2 col2)
  | delete row n left right bottom =>
    exact hone hnarrow' (delete_changesOnly he.1 ui row left right bottom)
  | insert row n left right bottom =>
    exact hone hnarrow' (insert_changesOnly he.1 ui row left right bottom)
  | resize m =>
    by_cases hm : ui.metrics = m
    · have hsame : ui.processEventToUI drawTransp memory (.resize m) = ui := if_neg (not_not.2 hm)
      rw [hsame]
      exact ⟨hfits, fun _ _ => rfl⟩
    · have hall : ui.repaints drawTransp (.resize m) = [.all] := if_pos hm
      have hstate : (ui.processEventToUI drawTransp memory (.resize m)).cursor.state = 0 := by
        show (ui.resize memory m).cursor.state = 0
        rw [resize, if_pos hm]
        rfl
      exact ⟨Cursor.fits_of_hidden hstate _, fun p hp =>
        absurd trivial (hp .all (hall ▸ List.mem_cons_self))⟩
  | cursor column row width height color state =>
    refine ⟨he.2, fun p hp => ?_⟩
    have hne : p ≠ (row, column) := by
      rintro rfl
      exact hp _ List.mem_cons_self ⟨⟨by simp, by simp⟩, by simp, by simp⟩
    -- neither the old cursor nor the new one is drawn anywhere else
    have hold : ¬ ui.cursor.On ui.metrics p := fun hon => hne (he.1 p hon)
    have hnew : ¬ Cursor.On ⟨column, row, width, height, solid color, state⟩ ui.metrics p :=
      fun hon => hne (he.2 p hon)
    unfold picture
    rw [ground_congr hlayout hnarrow hnarrow' rfl rfl, if_neg hold]
    exact congrArg (Picture.mk _) (if_neg hnew)
  | ncolor norm back =>
    exact ⟨hfits, fun p hp => absurd trivial (hp .all List.mem_cons_self)⟩
  | recolor bg fg sp =>
    refine ⟨hfits, fun p _ => ?_⟩
    unfold picture
    rw [ground_congr hlayout hnarrow hnarrow' rfl rfl]
    rfl
  | invert | title | dialog | browse | flush => exact ⟨hfits, fun _ _ => rfl⟩

end UI

/-! ### Runs -/

namespace Display

variable {drawTransp : Flags} {layout : TextLayout γ} {narrow : Set (List UInt8)}
  {s s' : Display γ}

theorem UpToDate.next {a : DisplayAction} (h : s.UpToDate layout narrow)
    (hlayout : layout.Monospaced narrow) (ha : Repainted narrow a s)
    (hnext : next layout drawTransp a s = some s') : s'.UpToDate layout narrow := by
  cases a with
  | create =>
    simp only [Display.next] at hnext
    split_ifs at hnext
    cases hnext
    exact ⟨h.cursorFits, h.narrow, fun _ p hp => absurd trivial (hp .all List.mem_cons_self)⟩
  | event memory e =>
    cases hnext
    obtain ⟨hfits, hsame⟩ :=
      UI.processEventToUI_repaints drawTransp hlayout memory h.narrow h.cursorFits ha
    obtain ⟨hcounted, hevent⟩ := UI.narrow_of_repainted ha
    refine ⟨hfits, h.narrow.processEventToUI hlayout.blank hcounted hevent _ _,
      fun harea p hp => ?_⟩
    have harea : s.textArea = true := harea
    rw [harea] at hp
    show s.shown p = _
    rw [h.shown harea p fun g hg => hp g (List.mem_append_left _ hg),
      hsame p fun g hg => hp g (List.mem_append_right _ hg)]
  | paint exposed nonEmpty =>
    simp only [Display.next] at hnext
    split_ifs at hnext with harea
    cases hnext
    refine ⟨h.cursorFits, h.narrow, fun _ p _ => ?_⟩
    show (if _ then _ else _) = _
    split_ifs with hp
    · -- what is painted does not depend on which other rows are clipped away
      unfold UI.picture
      rw [UI.ground_of_narrow hlayout h.narrow fun hin => ha p hin hp,
        UI.ground_of_narrow hlayout h.narrow fun _ => rfl]
    · exact h.shown harea p fun g hg hcon => hp ⟨g, List.mem_append_left _ hg, hcon⟩

theorem next_paint {exposed : List Region} {nonEmpty : ℤ → Bool}
    (h : next layout drawTransp (.paint exposed nonEmpty) s = some s') :
    s.textArea = true ∧ s'.textArea = true ∧ s'.ui = s.ui ∧ s'.pending = [] := by
  simp only [Display.next] at h
  split_ifs at h with harea
  cases h
  exact ⟨harea, harea, rfl, rfl⟩

/-- **After a paint the display shows what painting everything would show**, and at any time it does
so where nothing is to be painted again. -/
theorem shows_picture {as : List DisplayAction} (hlayout : layout.Monospaced narrow)
    (hs : s.textArea = false) (hnarrow : s.ui.Narrow narrow)
    (hfits : s.ui.cursor.Fits s.ui.metrics)
    (h : Machine.Along (next layout drawTransp) (Repainted narrow) s as s') :
    s'.UpToDate layout narrow ∧ ∀ exposed nonEmpty s'',
      Repainted narrow (.paint exposed nonEmpty) s' →
      next layout drawTransp (.paint exposed nonEmpty) s' = some s'' →
      s''.shown = s'.ui.picture layout fun _ => true := by
  have hdate : s'.UpToDate layout narrow := by
    refine h.invariant (I := UpToDate layout narrow) ⟨hfits, hnarrow, fun harea => ?_⟩
      fun a s s' hs ha hnext => hs.next hlayout ha hnext
    rw [hs] at harea
    cases harea
  refine ⟨hdate, fun exposed nonEmpty s'' ha hpaint => ?_⟩
  obtain ⟨-, harea, hui, hpending⟩ := next_paint hpaint
  have hdate' : s''.UpToDate layout narrow := hdate.next hlayout ha hpaint
  funext p
  rw [hdate'.shown harea p (by simp [hpending]), hui]

/-- **A cursor that is moved while it is visible is left behind**, until the system has its cell
painted again. -/
theorem cursor_left_behind {memory : ℕ → UICell} {column row width height : ℤ} {color : Color}
    {state : ℤ} {nonEmpty : ℤ → Bool} {s₁ s₂ : Display γ} {p : ℤ × ℤ}
    (h : s.UpToDate layout narrow) (harea : s.textArea = true) (hpending : s.pending = [])
    (hon : s.ui.cursor.On s.ui.metrics p) (hp : p ≠ (row, column))
    (hfits : Cursor.Fits ⟨column, row, width, height, solid color, state⟩ s.ui.metrics)
    (hmove : next layout drawTransp
      (.event memory (.cursor column row width height color state)) s = some s₁)
    (hpaint : next layout drawTransp (.paint [] nonEmpty) s₁ = some s₂) :
    (s₂.shown p).cursor = some s.ui.cursor ∧
      (s₂.ui.picture layout (fun _ => true) p).cursor = none := by
  cases hmove
  obtain ⟨-, -, hui, -⟩ := next_paint hpaint
  have hout : ¬ (Region.cells row column 1 1).Contains p := by
    rintro ⟨⟨hrow, hrow'⟩, hcol, hcol'⟩
    exact hp (Prod.ext (by omega) (by omega))
  constructor
  · have hshown : s₂.shown p = s.shown p := by
      simp only [Display.next, harea, if_true, hpending] at hpaint
      cases hpaint
      refine if_neg ?_
      rintro ⟨g, hg, hcon⟩
      have hg : g = .cells row column 1 1 := by simpa [UI.repaints] using hg
      exact hout (hg ▸ hcon)
    rw [hshown, h.shown harea p (by simp [hpending])]
    exact if_pos hon
  · rw [hui]
    exact if_neg fun hon' => hp (hfits p hon')

/-- A display without a window. -/
def unopened : Display UInt8 where
  ui := ⟨⟨0, 0, 0, 0, 0⟩, Grid.ofFn 0 0 fun _ => {}, 0, 0, 0, 0, 0, 0, 0, 0, 0, 0, 0⟩
  shown := fun _ => ⟨⟨0, none⟩, none⟩

/-- The cursor is drawn in the second of three cells, hidden by a text over it, and drawn in the
third. -/
def hiddenAndMoved (memory : ℕ → UICell) : List DisplayAction :=
  [.event memory (.resize ⟨8, 16, 12, 1, 3⟩), .create,
    .event memory (.cursor 1 0 8 16 0 1),
    .event memory (.text 0 1 0 [⟨{ b0 := 0x61 }, 1⟩]),
    .event memory (.cursor 2 0 8 16 0 1)]

theorem shows_picture_hiddenAndMoved :
    unopened.textArea = false ∧ unopened.ui.cursor.Fits unopened.ui.metrics ∧
      ∃ s', Machine.Along (next bytesLayout 0) (Repainted narrowBytes) unopened
          (hiddenAndMoved fun _ => {}) s' ∧
        s'.UpToDate bytesLayout narrowBytes ∧ ∀ exposed nonEmpty s'',
          Repainted narrowBytes (.paint exposed nonEmpty) s' →
          next bytesLayout 0 (.paint exposed nonEmpty) s' = some s'' →
          s''.shown = s'.ui.picture bytesLayout fun _ => true := by
  have hfits : unopened.ui.cursor.Fits unopened.ui.metrics := Cursor.fits_of_hidden rfl _
  obtain ⟨s', h⟩ : ∃ s', Machine.Along (next bytesLayout 0) (Repainted narrowBytes) unopened
      (hiddenAndMoved fun _ => {}) s' := by
    refine ⟨_, .cons ⟨trivial, trivial⟩ rfl <| .cons trivial rfl <| .cons ⟨?_, ?_⟩ rfl <|
      .cons ⟨trivial, ?_⟩ rfl <| .cons ⟨?_, ?_⟩ rfl <| .nil _⟩
    · exact fun p hon => absurd hon (Cursor.not_on_of_hidden rfl _ p)
    · exact Cursor.fits_of_le (by decide) (by decide) (by decide)
    · exact List.forall_mem_singleton.2 ⟨rfl, 0x61, by decide, rfl⟩
    · exact fun p hon => absurd hon (Cursor.not_on_of_hidden rfl _ p)
    · exact Cursor.fits_of_le (by decide) (by decide) (by decide)
  exact ⟨rfl, hfits, s', h,
    shows_picture monospaced_bytesLayout rfl (UI.narrow_of_no_rows (by decide) _) hfits h⟩

-- `x` is written over the first half of a `W`: `c` should move to the left with the text that it is
-- in, but only the column of `x` is painted again
example : (List.foldlM (fun s a => next bytesLayout 0 a s) unopened
      [.event (fun _ => {}) (.resize ⟨8, 16, 12, 1, 3⟩), .create,
        .event (fun _ => {}) (.text 0 0 0 [⟨{ b0 := 0x57 }, 2⟩, ⟨{ b0 := 0x63 }, 1⟩]),
        .paint [] (fun _ => true), .event (fun _ => {}) (.text 0 0 0 [⟨{ b0 := 0x78 }, 1⟩]),
        .paint [] (fun _ => true)]).map (fun s =>
      ([0, 1, 2].map fun x => (s.shown (0, x)).ground.glyph.map Prod.fst,
        [0, 1, 2].map fun x =>
          (s.ui.picture bytesLayout (fun _ => true) (0, x)).ground.glyph.map Prod.fst)) =
    some ([some 0x78, some 0x57, some 0x63], [some 0x78, some 0x63, none]) := by decide

end Display

end Gvim
