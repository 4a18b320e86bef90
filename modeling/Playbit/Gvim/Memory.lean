import Mathlib.Tactic.Simps.Basic
import Playbit.Gvim.Screen
import Playbit.Machine.Block
import Playbit.Machine.Run

/-!
# The memory of the UI thread

`gui.uiCells` and `gui.uiRowBuffer` are plain arrays: nothing but the tests in `ProcessEventToUI`
keeps an access to a cell within the grid, and nothing but `realloc` in `EVENT_RESIZE` keeps the
arrays as large as the grid.  Here `ProcessEventToUI` is modelled once more with these arrays, and
with accesses that fail when they are outside of the grid or of the array.

None of them fails, and the arrays hold the grid that `UI.processEventToUI` leaves
(`RawUI.processEventToUI_raw`).
-/

namespace Gvim

/-- The fields `ui…` of `gui`. -/
structure RawUI where
  metrics : Metrics := ⟨0, 0, 0, 0, 0⟩
  uiCells : List UICell := []
  uiRowBuffer : List UInt8 := []
  uiFgColor : Color := 0
  uiBgColor : Color := 0
  uiSpColor : Color := 0
  uiNormPixel : Color := 0
  uiBackPixel : Color := 0
  uiCursorColumn : ℤ := 0
  uiCursorRow : ℤ := 0
  uiCursorWidth : ℤ := 0
  uiCursorHeight : ℤ := 0
  uiCursorColor : Color := 0
  uiCursorState : ℤ := 0

/-- What the parts of arrays hold that `realloc` adds. -/
structure Garbage where
  cells : ℕ → UICell
  bytes : ℕ → UInt8

namespace RawUI

/-- An index of a cell of the grid. -/
def ValidIndex (r : RawUI) (j : ℤ) : Prop :=
  (0 ≤ j ∧ j < r.metrics.numRows * r.metrics.numCols) ∧ j < r.uiCells.length

instance decidableValidIndex (r : RawUI) (j : ℤ) : Decidable (r.ValidIndex j) := by
  unfold ValidIndex
  infer_instance

/-- Read `uiCells[j]`. -/
def load (r : RawUI) (j : ℤ) : Option UICell :=
  if r.ValidIndex j then r.uiCells[j.toNat]? else none

/-- Assign to fields of `uiCells[j]`. -/
def modify (r : RawUI) (j : ℤ) (f : UICell → UICell) : Option RawUI :=
  if r.ValidIndex j then some { r with uiCells := r.uiCells.modify j.toNat f } else none

/-- `y * gui.uiNumCols + x` -/
def index (r : RawUI) (p : ℤ × ℤ) : ℤ := p.1 * r.metrics.numCols + p.2

def hideCursorAt (r : RawUI) (p : ℤ × ℤ) : RawUI :=
  if p.2 = r.uiCursorColumn ∧ p.1 = r.uiCursorRow then { r with uiCursorState := 0 } else r

/-! ### The events -/

/-- Write one of the cells of a character. -/
def writeCell (drawTransp : Flags) (row : ℤ) (flags : Flags) (r : RawUI) (c : ℤ × Bytes4) :
    Option RawUI :=
  if row < 0 ∨ c.1 < 0 ∨ r.metrics.numRows ≤ row ∨ r.metrics.numCols ≤ c.1 then some r
  else
    (r.modify (r.index (row, c.1)) fun _ =>
      { utf8Bytes := c.2, flags := flags
        foreground := r.uiFgColor, background := r.uiBgColor }).map fun r' =>
      if flags &&& drawTransp = 0 then r'.hideCursorAt (row, c.1) else r'

/-- The inner loop of `EVENT_TEXT`, from column `s.2` on. -/
def writeCharacter (drawTransp : Flags) (row : ℤ) (flags : Flags) (s : RawUI × ℤ)
    (c : TextCharacter) : Option (RawUI × ℤ) :=
  (List.range c.widthInCells.toNat).foldlM
    (fun s k =>
      (s.1.writeCell drawTransp row flags (s.2, if k = 0 then c.utf8Bytes else {})).map
        fun r => (r, s.2 + 1)) s

/-- `EVENT_TEXT`. -/
def text (drawTransp : Flags) (r : RawUI) (row col : ℤ) (flags : Flags)
    (array : List TextCharacter) : Option RawUI :=
  (array.foldlM (writeCharacter drawTransp row flags) (r, col)).map (·.1)

/-- The loop of `EVENT_RESIZE`. -/
def blankCells (r : RawUI) : Option RawUI :=
  (forRange 0 (r.metrics.numRows * r.metrics.numCols - 1)).foldlM
    (fun r j => r.modify j (UI.blankCell r.uiFgColor r.uiBgColor)) r

/-- `EVENT_RESIZE`. -/
def resize (garbage : Garbage) (r : RawUI) (m : Metrics) : Option RawUI :=
  if r.metrics ≠ m then
    blankCells { r with
      metrics := m
      uiCells := Block.realloc r.uiCells (m.numRows * m.numCols).toNat garbage.cells
      uiRowBuffer := Block.realloc r.uiRowBuffer (m.numCols * 4).toNat garbage.bytes
      uiCursorState := 0 }
  else some r

/-- One pass of the loops of `EVENT_CLEAR`. -/
def clearCell (r : RawUI) (p : ℤ × ℤ) : Option RawUI :=
  if p.1 < 0 ∨ p.2 < 0 ∨ r.metrics.numRows ≤ p.1 ∨ r.metrics.numCols ≤ p.2 then some r
  else
    (r.modify (r.index p) (UI.blankCell r.uiFgColor r.uiBackPixel)).map fun r' => r'.hideCursorAt p

/-- `EVENT_CLEAR`. -/
def clear (r : RawUI) (row1 col1 row2 col2 : ℤ) : Option RawUI :=
  (forRange row1 row2).foldlM
    (fun r y => (forRange col1 col2).foldlM (fun r x => r.clearCell (y, x)) r) r

/-- `uiCells[…] = uiCells[…]` -/
def copyCell (r : RawUI) (p q : ℤ × ℤ) : Option RawUI :=
  (r.load (r.index q)).bind fun c => r.modify (r.index p) fun _ => c

/-- One pass of the loops of `EVENT_DELETE`. -/
def deleteCell (numLines : ℤ) (r : RawUI) (p : ℤ × ℤ) : Option RawUI :=
  if p.1 < 0 ∨ p.2 < 0 ∨ r.metrics.numRows ≤ p.1 + numLines ∨ r.metrics.numCols ≤ p.2 then some r
  else (r.copyCell p (p.1 + numLines, p.2)).map fun r' => r'.hideCursorAt p

/-- `EVENT_DELETE`. -/
def delete (r : RawUI) (row numLines scrollLeft scrollRight scrollBottom : ℤ) : Option RawUI :=
  (forRange row (scrollBottom - numLines)).foldlM
    (fun r y =>
      (forRange scrollLeft scrollRight).foldlM (fun r x => r.deleteCell numLines (y, x)) r) r

/-- One pass of the loops of `EVENT_INSERT`. -/
def insertCell (numLines : ℤ) (r : RawUI) (p : ℤ × ℤ) : Option RawUI :=
  if p.1 - numLines < 0 ∨ p.2 < 0 ∨ r.metrics.numRows ≤ p.1 ∨ r.metrics.numCols ≤ p.2 then some r
  else (r.copyCell p (p.1 - numLines, p.2)).map fun r' => r'.hideCursorAt p

/-- `EVENT_INSERT`. -/
def insert (r : RawUI) (row numLines scrollLeft scrollRight scrollBottom : ℤ) : Option RawUI :=
  (forRange (row + numLines) scrollBottom).reverse.foldlM
    (fun r y =>
      (forRange scrollLeft scrollRight).foldlM (fun r x => r.insertCell numLines (y, x)) r) r

/-- `ProcessEventToUI`. -/
def processEventToUI (drawTransp : Flags) (garbage : Garbage) (r : RawUI) :
    UIEvent → Option RawUI
  | .text row col flags array => r.text drawTransp row col flags array
  | .resize m => r.resize garbage m
  | .clear row1 col1 row2 col2 => r.clear row1 col1 row2 col2
  | .delete row numLines left right bottom => r.delete row numLines left right bottom
  | .insert row numLines left right bottom => r.insert row numLines left right bottom
  | .cursor column row width height color state =>
    some { r with
      uiCursorColumn := column, uiCursorRow := row, uiCursorWidth := width
      uiCursorHeight := height, uiCursorColor := solid color, uiCursorState := state }
  | .recolor bg fg sp =>
    some { r with uiBgColor := solid bg, uiFgColor := solid fg, uiSpColor := solid sp }
  | .ncolor norm back => some { r with uiNormPixel := solid norm, uiBackPixel := solid back }
  | .invert .. | .title | .dialog | .browse | .flush => some r

end RawUI

/-! ### Grids in memory -/

/-- The state of the UI thread with its grid in memory. -/
@[simps]
def UI.raw (ui : UI) (rowBuffer : List UInt8) : RawUI where
  metrics := ui.metrics
  uiCells := ui.grid.cells
  uiRowBuffer := rowBuffer
  uiFgColor := ui.uiFgColor
  uiBgColor := ui.uiBgColor
  uiSpColor := ui.uiSpColor
  uiNormPixel := ui.uiNormPixel
  uiBackPixel := ui.uiBackPixel
  uiCursorColumn := ui.uiCursorColumn
  uiCursorRow := ui.uiCursorRow
  uiCursorWidth := ui.uiCursorWidth
  uiCursorHeight := ui.uiCursorHeight
  uiCursorColor := ui.uiCursorColor
  uiCursorState := ui.uiCursorState

namespace RawUI

variable {ui : UI} {buf : List UInt8} {p q : ℤ × ℤ}

theorem validIndex_raw (h : ui.metrics.Inside p) :
    (ui.raw buf).ValidIndex ((ui.raw buf).index p) := by
  have hlt := cellIndex_lt h
  have hnonneg : 0 ≤ p.1 * ui.metrics.numCols + p.2 :=
    Int.add_nonneg (Int.mul_nonneg h.1 (by have := h.2.1; have := h.2.2.2; omega)) h.2.1
  have hlen : (ui.raw buf).uiCells.length = (ui.metrics.numRows * ui.metrics.numCols).toNat :=
    ui.grid.length_cells
  unfold ValidIndex
  rw [hlen]
  change (0 ≤ p.1 * ui.metrics.numCols + p.2 ∧
    p.1 * ui.metrics.numCols + p.2 < ui.metrics.numRows * ui.metrics.numCols) ∧ _ < _
  unfold cellIndex at hlt
  change _ ∧ p.1 * ui.metrics.numCols + p.2 < _
  omega

theorem load_raw (h : ui.metrics.Inside p) :
    (ui.raw buf).load ((ui.raw buf).index p) = ui.cell p := by
  rw [load, if_pos (validIndex_raw h)]
  exact (if_pos h).symm

theorem modify_raw (h : ui.metrics.Inside p) (f : UICell → UICell) :
    (ui.raw buf).modify ((ui.raw buf).index p) f = some ((ui.updateCell p f).raw buf) :=
  if_pos (validIndex_raw h)

theorem hideCursorAt_raw (ui : UI) (p : ℤ × ℤ) :
    (ui.raw buf).hideCursorAt p = (ui.hideCursorAt p).raw buf := by
  unfold RawUI.hideCursorAt UI.hideCursorAt
  rw [UI.raw_uiCursorColumn, UI.raw_uiCursorRow]
  by_cases h : p.2 = ui.uiCursorColumn ∧ p.1 = ui.uiCursorRow
  · rw [if_pos h, if_pos h]
    rfl
  · rw [if_neg h, if_neg h]

theorem copyCell_raw (hp : ui.metrics.Inside p) (hq : ui.metrics.Inside q) :
    (ui.raw buf).copyCell p q = some ((ui.copyCell p q).raw buf) := by
  obtain ⟨c, hc⟩ := ui.grid.exists_cell hq
  have hcell : ui.cell q = some c := hc
  rw [copyCell, load_raw hq, UI.copyCell, hcell]
  exact modify_raw hp _

theorem not_inside_iff {m : Metrics} {y x : ℤ} :
    (y < 0 ∨ x < 0 ∨ m.numRows ≤ y ∨ m.numCols ≤ x) ↔ ¬ m.Inside (y, x) := by
  unfold Metrics.Inside InGrid
  omega

theorem writeCell_raw (drawTransp : Flags) (row : ℤ) (flags : Flags) (ui : UI) (c : ℤ × Bytes4) :
    (ui.raw buf).writeCell drawTransp row flags c =
      some ((ui.writeCell drawTransp row flags c).raw buf) := by
  unfold RawUI.writeCell UI.writeCell
  simp only [UI.raw_metrics, not_inside_iff]
  by_cases h : ui.metrics.Inside (row, c.1)
  · rw [if_neg (not_not.2 h), if_pos h, modify_raw h, Option.map_some]
    split_ifs
    · rw [hideCursorAt_raw]
      rfl
    · rfl
  · rw [if_pos h, if_neg h]

theorem text_raw (drawTransp : Flags) (ui : UI) (row col : ℤ) (flags : Flags)
    (array : List TextCharacter) :
    (ui.raw buf).text drawTransp row col flags array =
      some ((ui.text drawTransp row col flags array).raw buf) := by
  have hchar : ∀ c ∈ array, ∀ s : UI × ℤ,
      writeCharacter drawTransp row flags (s.1.raw buf, s.2) c =
        some ((UI.writeCharacter drawTransp row flags s c).1.raw buf,
          (UI.writeCharacter drawTransp row flags s c).2) := by
    intro c _ s
    refine Machine.foldlM_simulates (φ := fun s : UI × ℤ => (s.1.raw buf, s.2)) ?_ s
    intro k _ s
    rw [writeCell_raw, Option.map_some]
  have hloop := Machine.foldlM_simulates (φ := fun s : UI × ℤ => (s.1.raw buf, s.2)) hchar (ui, col)
  rw [RawUI.text, hloop]
  rfl

theorem clearCell_raw (ui : UI) (p : ℤ × ℤ) :
    (ui.raw buf).clearCell p = some ((ui.clearCell p).raw buf) := by
  unfold RawUI.clearCell UI.clearCell
  simp only [UI.raw_metrics, not_inside_iff]
  by_cases h : ui.metrics.Inside p
  · rw [if_neg (not_not.2 h), if_pos h, modify_raw h, Option.map_some, hideCursorAt_raw]
    rfl
  · rw [if_pos h, if_neg h]

theorem deleteCell_raw {n : ℤ} (hn : 0 ≤ n) (ui : UI) (p : ℤ × ℤ) :
    (ui.raw buf).deleteCell n p = some ((ui.deleteCell n p).raw buf) := by
  unfold RawUI.deleteCell UI.deleteCell
  simp only [UI.raw_metrics]
  by_cases h : p.1 < 0 ∨ p.2 < 0 ∨ ui.metrics.numRows ≤ p.1 + n ∨ ui.metrics.numCols ≤ p.2
  · rw [if_pos h, if_pos h]
  · have hp : ui.metrics.Inside p := not_not.1 fun hp => h (by have := not_inside_iff.2 hp; omega)
    have hq : ui.metrics.Inside (p.1 + n, p.2) :=
      not_not.1 fun hq => h (by have := not_inside_iff.2 hq; omega)
    rw [if_neg h, if_neg h, copyCell_raw hp hq, Option.map_some, hideCursorAt_raw]

theorem insertCell_raw {n : ℤ} (hn : 0 ≤ n) (ui : UI) (p : ℤ × ℤ) :
    (ui.raw buf).insertCell n p = some ((ui.insertCell n p).raw buf) := by
  unfold RawUI.insertCell UI.insertCell
  simp only [UI.raw_metrics]
  by_cases h : p.1 - n < 0 ∨ p.2 < 0 ∨ ui.metrics.numRows ≤ p.1 ∨ ui.metrics.numCols ≤ p.2
  · rw [if_pos h, if_pos h]
  · have hp : ui.metrics.Inside p := not_not.1 fun hp => h (by have := not_inside_iff.2 hp; omega)
    have hq : ui.metrics.Inside (p.1 - n, p.2) :=
      not_not.1 fun hq => h (by have := not_inside_iff.2 hq; omega)
    rw [if_neg h, if_neg h, copyCell_raw hp hq, Option.map_some, hideCursorAt_raw]

/-- A loop over rows and columns whose passes do not fail. -/
theorem foldlM_raw {step : RawUI → ℤ × ℤ → Option RawUI} {step' : UI → ℤ × ℤ → UI}
    (h : ∀ ui p, step (ui.raw buf) p = some ((step' ui p).raw buf)) (ys xs : List ℤ) (ui : UI) :
    ys.foldlM (fun r y => xs.foldlM (fun r x => step r (y, x)) r) (ui.raw buf) =
      some ((ys.foldl (fun ui y => xs.foldl (fun ui x => step' ui (y, x)) ui) ui).raw buf) := by
  refine Machine.foldlM_simulates (φ := fun ui : UI => ui.raw buf) (fun y _ ui => ?_) ui
  exact Machine.foldlM_simulates (φ := fun ui : UI => ui.raw buf) (fun x _ ui => h ui (y, x)) ui

/-! ### Resizing -/

/-- The cells after the loop has come to the index `n`. -/
theorem getElem?_foldl_modify (f : UICell → UICell) (cells : List UICell) (n i : ℕ) :
    ((List.range n).foldl (fun cells j => cells.modify j f) cells)[i]? =
      if i < n then (cells[i]?).map f else cells[i]? := by
  induction n with
  | zero => rfl
  | succ n ih =>
    rw [List.range_succ, List.foldl_append, List.foldl_cons, List.foldl_nil, List.getElem?_modify,
      ih]
    by_cases hi : i = n
    · subst hi
      simp
    · have hiff : i < n + 1 ↔ i < n := by omega
      simp [Ne.symm hi, hiff]

theorem foldl_modify_eq_map (f : UICell → UICell) (cells : List UICell) :
    (List.range cells.length).foldl (fun cells j => cells.modify j f) cells = cells.map f := by
  refine List.ext_getElem? fun i => ?_
  rw [getElem?_foldl_modify, List.getElem?_map]
  split_ifs with hi
  · rfl
  · rw [List.getElem?_eq_none (Nat.le_of_not_lt hi)]
    rfl

/-- The loop of `EVENT_RESIZE` goes through all cells of the new array. -/
theorem blankCells_eq {r : RawUI}
    (h : r.uiCells.length = (r.metrics.numRows * r.metrics.numCols).toNat) :
    r.blankCells =
      some { r with uiCells := r.uiCells.map (UI.blankCell r.uiFgColor r.uiBgColor) } := by
  have hrange : forRange 0 (r.metrics.numRows * r.metrics.numCols - 1) =
      (List.range r.uiCells.length).map fun k : ℕ => (k : ℤ) := by
    unfold forRange
    rw [h, show r.metrics.numRows * r.metrics.numCols - 1 + 1 - 0 =
      r.metrics.numRows * r.metrics.numCols by omega]
    exact List.map_congr_left fun k _ => Int.zero_add _
  -- the array keeps its length, so that all indices stay valid
  have key : ∀ l : List ℕ, (∀ k ∈ l, k < r.uiCells.length) → ∀ cells : List UICell,
      cells.length = r.uiCells.length →
      (l.map fun k : ℕ => (k : ℤ)).foldlM
          (fun r j => r.modify j (UI.blankCell r.uiFgColor r.uiBgColor))
          { r with uiCells := cells } =
        some { r with
          uiCells := l.foldl (fun cells j =>
            cells.modify j (UI.blankCell r.uiFgColor r.uiBgColor)) cells } := by
    intro l
    induction l with
    | nil => exact fun _ _ _ => rfl
    | cons k l ih =>
      intro hl cells hcells
      have hk := hl k List.mem_cons_self
      have hvalid : ValidIndex { r with uiCells := cells } k := by
        unfold ValidIndex
        simp only
        omega
      rw [List.map_cons, List.foldlM_cons, modify, if_pos hvalid, Option.bind_eq_bind,
        Option.bind_some]
      exact ih (fun i hi => hl i (.tail _ hi)) _ (by rw [List.length_modify, hcells])
  rw [blankCells, hrange]
  refine (key _ (fun k hk => List.mem_range.1 hk) r.uiCells rfl).trans ?_
  rw [foldl_modify_eq_map]

theorem resize_raw (garbage : Garbage) (ui : UI) (m : Metrics) :
    (ui.raw buf).resize garbage m = some ((ui.resize garbage.cells m).raw
      (if ui.metrics ≠ m then Block.realloc buf (m.numCols * 4).toNat garbage.bytes else buf)) := by
  unfold RawUI.resize UI.resize
  rw [UI.raw_metrics]
  by_cases h : ui.metrics = m
  · rw [if_neg (not_not.2 h), if_neg (not_not.2 h), if_neg (not_not.2 h)]
  · rw [if_pos h, if_pos h, if_pos h, blankCells_eq (Block.length_realloc _ _ _)]
    congr 1
    unfold Block.realloc UI.raw Grid.ofFn
    rw [List.map_map]
    rfl

theorem metrics_processEventToUI (drawTransp : Flags) (memory : ℕ → UICell) (ui : UI) {e : UIEvent}
    (he : e.Counted) (hresize : ∀ m, e ≠ .resize m) :
    (ui.processEventToUI drawTransp memory e).metrics = ui.metrics := by
  have hshows := Shows.self ui (blankView 0 0)
  have hcanvas := (hshows.processEventToUI drawTransp memory he).canvas
  refine (congrArg Canvas.metrics hcanvas).trans ?_
  cases e with
  | resize m => exact absurd rfl (hresize m)
  | _ => rfl

/-- The row buffer after an event. -/
def rowBufferAfter (garbage : Garbage) (ui : UI) (buf : List UInt8) : UIEvent → List UInt8
  | .resize m =>
    if ui.metrics ≠ m then Block.realloc buf (m.numCols * 4).toNat garbage.bytes else buf
  | _ => buf

/-- **No access of `ProcessEventToUI` fails**, and the arrays hold the grid that it leaves. -/
theorem processEventToUI_raw (drawTransp : Flags) (garbage : Garbage) (ui : UI) {e : UIEvent}
    (he : e.Counted) : (ui.raw buf).processEventToUI drawTransp garbage e =
      some ((ui.processEventToUI drawTransp garbage.cells e).raw
        (rowBufferAfter garbage ui buf e)) := by
  cases e with
  | text row col flags array => exact text_raw drawTransp ui row col flags array
  | resize m => exact resize_raw garbage ui m
  | clear row1 col1 row2 col2 => exact foldlM_raw clearCell_raw _ _ ui
  | delete row n left right bottom => exact foldlM_raw (deleteCell_raw he) _ _ ui
  | insert row n left right bottom => exact foldlM_raw (insertCell_raw he) _ _ ui
  | _ => rfl

theorem length_rowBufferAfter (drawTransp : Flags) (garbage : Garbage) {ui : UI} {e : UIEvent}
    (he : e.Counted) (h : buf.length = (ui.metrics.numCols * 4).toNat) :
    (rowBufferAfter garbage ui buf e).length =
      ((ui.processEventToUI drawTransp garbage.cells e).metrics.numCols * 4).toNat := by
  cases e with
  | resize m =>
    change (if ui.metrics ≠ m then _ else _ : List UInt8).length =
      ((ui.resize garbage.cells m).metrics.numCols * 4).toNat
    unfold UI.resize
    split_ifs with hne
    · exact Block.length_realloc _ _ _
    · exact h
  | _ =>
    rw [metrics_processEventToUI drawTransp garbage.cells ui he (by simp)]
    exact h

end RawUI

end Gvim
