import Playbit.Gvim.Grid

/-!
# The UI thread

The state of the UI thread, and `ProcessEventToUI`, which changes it as the events say that Vim has
written to the pipe `eventsToUI`.  Titles, dialogs and repainting are not part of this state.

What the assignments in its loops do to the cells is `UI.cell_updateCell` and `UI.cell_copyCell`.
-/

namespace Gvim

/-- The size of the grid and of its characters. -/
structure Metrics where
  charWidth : ℤ
  charHeight : ℤ
  fontSize : ℤ
  numRows : ℤ
  numCols : ℤ
  deriving DecidableEq

/-- A position of the grid. -/
def Metrics.Inside (m : Metrics) (p : ℤ × ℤ) : Prop := InGrid m.numRows m.numCols p

instance decidableInside (m : Metrics) (p : ℤ × ℤ) : Decidable (m.Inside p) :=
  decidableInGrid m.numRows m.numCols p

/-- The events that Vim writes, `EVENT_…` for the UI.  The contents of titles and dialogs are left
out. -/
inductive UIEvent
  | text (row col : ℤ) (flags : Flags) (array : List TextCharacter)
  | resize (metrics : Metrics)
  | clear (row1 col1 row2 col2 : ℤ)
  | delete (row numLines scrollLeft scrollRight scrollBottom : ℤ)
  | insert (row numLines scrollLeft scrollRight scrollBottom : ℤ)
  | invert (r c nr nc : ℤ)
  | cursor (column row width height : ℤ) (color : Color) (state : ℤ)
  | recolor (bg fg sp : Color)
  | ncolor (norm back : Color)
  | title
  | dialog
  | browse
  | flush
  deriving DecidableEq

/-- What the UI thread keeps about the screen. -/
structure UI where
  metrics : Metrics
  grid : Grid metrics.numRows metrics.numCols
  uiFgColor : Color
  uiBgColor : Color
  uiSpColor : Color
  uiNormPixel : Color
  uiBackPixel : Color
  uiCursorColumn : ℤ
  uiCursorRow : ℤ
  uiCursorWidth : ℤ
  uiCursorHeight : ℤ
  uiCursorColor : Color
  uiCursorState : ℤ

namespace UI

/-- The cell at a row and column. -/
def cell (ui : UI) (p : ℤ × ℤ) : Option UICell := ui.grid.cell p

/-- Assign to fields of `uiCells[y * uiNumCols + x]`. -/
def updateCell (ui : UI) (p : ℤ × ℤ) (f : UICell → UICell) : UI :=
  { ui with grid := ui.grid.modify p f }

/-- `uiCells[y * uiNumCols + x] = uiCells[y' * uiNumCols + x']`, for positions in the grid. -/
def copyCell (ui : UI) (p q : ℤ × ℤ) : UI :=
  match ui.cell q with
  | some c => ui.updateCell p fun _ => c
  | none => ui

/-- The cursor is gone when its cell is written. -/
def hideCursorAt (ui : UI) (p : ℤ × ℤ) : UI :=
  if p.2 = ui.uiCursorColumn ∧ p.1 = ui.uiCursorRow then { ui with uiCursorState := 0 } else ui

/-! ### The events -/

/-- Write one of the cells of a character. -/
def writeCell (drawTransp : Flags) (row : ℤ) (flags : Flags) (ui : UI) (c : ℤ × Bytes4) : UI :=
  if ui.metrics.Inside (row, c.1) then
    let ui' := ui.updateCell (row, c.1) fun _ =>
      { utf8Bytes := c.2, flags := flags
        foreground := ui.uiFgColor, background := ui.uiBgColor }
    if flags &&& drawTransp = 0 then ui'.hideCursorAt (row, c.1) else ui'
  else ui

/-- The inner loop of `EVENT_TEXT`, from column `s.2` on.  The first cell of a character holds its
bytes, the others none. -/
def writeCharacter (drawTransp : Flags) (row : ℤ) (flags : Flags) (s : UI × ℤ)
    (c : TextCharacter) : UI × ℤ :=
  (List.range c.widthInCells.toNat).foldl
    (fun s k =>
      (s.1.writeCell drawTransp row flags (s.2, if k = 0 then c.utf8Bytes else {}), s.2 + 1)) s

/-- `EVENT_TEXT`. -/
def text (drawTransp : Flags) (ui : UI) (row col : ℤ) (flags : Flags)
    (array : List TextCharacter) : UI :=
  (array.foldl (writeCharacter drawTransp row flags) (ui, col)).1

/-- A cell that is assigned `' '` and a NUL; the last two of its bytes stay. -/
def blankCell (fg bg : Color) (c : UICell) : UICell :=
  { foreground := fg, background := bg, flags := 0
    utf8Bytes := { c.utf8Bytes with b0 := 0x20, b1 := 0 } }

/-- `EVENT_RESIZE`.  `memory` is what the new part of the array holds after `realloc`. -/
def resize (memory : ℕ → UICell) (ui : UI) (m : Metrics) : UI :=
  if ui.metrics ≠ m then
    { ui with
      metrics := m
      grid := Grid.ofFn m.numRows m.numCols fun j =>
        blankCell ui.uiFgColor ui.uiBgColor ((ui.grid.cells[j]?).getD (memory j))
      uiCursorState := 0 }
  else ui

/-- One pass of the loops of `EVENT_CLEAR`. -/
def clearCell (ui : UI) (p : ℤ × ℤ) : UI :=
  if ui.metrics.Inside p then
    (ui.updateCell p (blankCell ui.uiFgColor ui.uiBackPixel)).hideCursorAt p
  else ui

/-- `EVENT_CLEAR`. -/
def clear (ui : UI) (row1 col1 row2 col2 : ℤ) : UI :=
  (forRange row1 row2).foldl
    (fun ui y => (forRange col1 col2).foldl (fun ui x => ui.clearCell (y, x)) ui) ui

/-- One pass of the loops of `EVENT_DELETE`. -/
def deleteCell (numLines : ℤ) (ui : UI) (p : ℤ × ℤ) : UI :=
  if p.1 < 0 ∨ p.2 < 0 ∨ ui.metrics.numRows ≤ p.1 + numLines ∨ ui.metrics.numCols ≤ p.2 then ui
  else (ui.copyCell p (p.1 + numLines, p.2)).hideCursorAt p

/-- `EVENT_DELETE`. -/
def delete (ui : UI) (row numLines scrollLeft scrollRight scrollBottom : ℤ) : UI :=
  (forRange row (scrollBottom - numLines)).foldl
    (fun ui y =>
      (forRange scrollLeft scrollRight).foldl (fun ui x => ui.deleteCell numLines (y, x)) ui) ui

/-- One pass of the loops of `EVENT_INSERT`. -/
def insertCell (numLines : ℤ) (ui : UI) (p : ℤ × ℤ) : UI :=
  if p.1 - numLines < 0 ∨ p.2 < 0 ∨ ui.metrics.numRows ≤ p.1 ∨ ui.metrics.numCols ≤ p.2 then ui
  else (ui.copyCell p (p.1 - numLines, p.2)).hideCursorAt p

/-- `EVENT_INSERT`: the rows from the last to the first. -/
def insert (ui : UI) (row numLines scrollLeft scrollRight scrollBottom : ℤ) : UI :=
  (forRange (row + numLines) scrollBottom).reverse.foldl
    (fun ui y =>
      (forRange scrollLeft scrollRight).foldl (fun ui x => ui.insertCell numLines (y, x)) ui) ui

/-- `ProcessEventToUI`.  `drawTransp` is the constant `DRAW_TRANSP` of Vim. -/
def processEventToUI (drawTransp : Flags) (memory : ℕ → UICell) (ui : UI) : UIEvent → UI
  | .text row col flags array => ui.text drawTransp row col flags array
  | .resize m => ui.resize memory m
  | .clear row1 col1 row2 col2 => ui.clear row1 col1 row2 col2
  | .delete row numLines left right bottom => ui.delete row numLines left right bottom
  | .insert row numLines left right bottom => ui.insert row numLines left right bottom
  | .cursor column row width height color state =>
    { ui with
      uiCursorColumn := column, uiCursorRow := row, uiCursorWidth := width
      uiCursorHeight := height, uiCursorColor := solid color, uiCursorState := state }
  | .recolor bg fg sp =>
    { ui with uiBgColor := solid bg, uiFgColor := solid fg, uiSpColor := solid sp }
  | .ncolor norm back => { ui with uiNormPixel := solid norm, uiBackPixel := solid back }
  | .invert .. | .title | .dialog | .browse | .flush => ui

/-! ### Assignments -/

theorem cell_updateCell {ui : UI} {p : ℤ × ℤ} (hp : ui.metrics.Inside p) (f : UICell → UICell) :
    (ui.updateCell p f).cell = Function.update ui.cell p ((ui.cell p).map f) :=
  ui.grid.cell_modify hp f

theorem cell_copyCell {ui : UI} {p q : ℤ × ℤ} (hp : ui.metrics.Inside p)
    (hq : ui.metrics.Inside q) :
    (ui.copyCell p q).cell = Function.update ui.cell p (ui.cell q) := by
  obtain ⟨c, hc⟩ := ui.grid.exists_cell hq
  obtain ⟨d, hd⟩ := ui.grid.exists_cell hp
  have hcq : ui.cell q = some c := hc
  have hdp : ui.cell p = some d := hd
  unfold copyCell
  rw [hcq]
  rw [cell_updateCell hp, hdp, Option.map_some]

@[simp]
theorem cell_hideCursorAt (ui : UI) (p : ℤ × ℤ) : (ui.hideCursorAt p).cell = ui.cell := by
  unfold hideCursorAt
  split
  · rfl
  · rfl

theorem cell_of_not_inside {ui : UI} {p : ℤ × ℤ} (hp : ¬ ui.metrics.Inside p) :
    ui.cell p = none := if_neg hp

end UI

end Gvim
