import Playbit.Gvim.UI
import Playbit.Machine.InPlace

/-!
# The reference screen

What the UI thread's grid is meant to show: a screen with a cell at every position, on which each
operation happens at once.  Text is written into its cells, rectangles are blanked, and rows are
moved without regard to the order in which the UI thread copies them.

That the loops of `ProcessEventToUI` are these operations is `Shows.processEventToUI`.
-/

namespace Gvim

/-! ### Operations -/

/-- What a cell looks like: the bytes after the first NUL do not matter. -/
structure CellView where
  text : List UInt8
  flags : Flags
  foreground : Color
  background : Color
  deriving DecidableEq

def UICell.view (c : UICell) : CellView :=
  ⟨c.utf8Bytes.text, c.flags, c.foreground, c.background⟩

/-- The size of the grid, and the colours that cells are written with. -/
structure Canvas where
  metrics : Metrics
  fgColor : Color
  bgColor : Color
  backPixel : Color

structure Screen extends Canvas where
  cell : ℤ × ℤ → CellView

/-- Rows `top` to `bottom` of the columns `left` to `right`. -/
structure Rect where
  top : ℤ
  left : ℤ
  bottom : ℤ
  right : ℤ

def Rect.Contains (r : Rect) (p : ℤ × ℤ) : Prop :=
  (r.top ≤ p.1 ∧ p.1 ≤ r.bottom) ∧ r.left ≤ p.2 ∧ p.2 ≤ r.right

instance decidableContains (r : Rect) (p : ℤ × ℤ) : Decidable (r.Contains p) := by
  unfold Rect.Contains
  infer_instance

/-- A character with its width, as a screen shows it. -/
def TextCharacter.view (c : TextCharacter) : List UInt8 × ℤ := (c.utf8Bytes.text, c.widthInCells)

/-- What column `x'` gets of characters that are written from column `x` on. -/
def charAt : List (List UInt8 × ℤ) → ℤ → ℤ → Option (List UInt8)
  | [], _, _ => none
  | (t, w) :: cs, x, x' =>
    if x ≤ x' ∧ x' < x + w then some (if x' = x then t else []) else charAt cs (x + w.toNat) x'

/-- A blank. -/
def blankView (fg bg : Color) : CellView := ⟨[0x20], 0, fg, bg⟩

namespace Screen

/-- Write each character into its cells, clipped to the grid. -/
def write (S : Screen) (row col : ℤ) (flags : Flags) (cs : List (List UInt8 × ℤ)) : Screen :=
  { S with
    cell := fun p =>
      if p.1 = row ∧ S.metrics.Inside p then
        match charAt cs col p.2 with
        | some t => ⟨t, flags, S.fgColor, S.bgColor⟩
        | none => S.cell p
      else S.cell p }

/-- Start from a blank grid when the size has changed. -/
def recreate (S : Screen) (m : Metrics) : Screen :=
  if S.metrics = m then S
  else { S with metrics := m, cell := fun _ => blankView S.fgColor S.bgColor }

/-- Blank a rectangle. -/
def blank (S : Screen) (r : Rect) : Screen :=
  { S with
    cell := fun p => if r.Contains p then blankView S.fgColor S.backPixel else S.cell p }

/-- Each cell of a rectangle becomes the one that was `d` rows below it. -/
def shift (S : Screen) (r : Rect) (d : ℤ) : Screen :=
  { S with cell := fun p => if r.Contains p then S.cell (p.1 + d, p.2) else S.cell p }

/-- The position `d` rows below, if both are in the grid. -/
def clippedSource (m : Metrics) (d : ℤ) (p : ℤ × ℤ) : ℤ × ℤ :=
  if m.Inside p ∧ m.Inside (p.1 + d, p.2) then (p.1 + d, p.2) else p

theorem inside_clippedSource {m : Metrics} (d : ℤ) {p : ℤ × ℤ} (hp : m.Inside p) :
    m.Inside (clippedSource m d p) := by
  unfold clippedSource
  split_ifs with hclip
  · exact hclip.2
  · exact hp

/-- `shift` on the part of a rectangle that is in the grid with the cells it is to become. -/
def shiftClipped (S : Screen) (r : Rect) (d : ℤ) : Screen :=
  { S with
    cell := fun p => if r.Contains p then S.cell (clippedSource S.metrics d p) else S.cell p }

theorem cell_blank (S : Screen) (r : Rect) (p : ℤ × ℤ) :
    (S.blank r).cell p = if r.Contains p then blankView S.fgColor S.backPixel else S.cell p := rfl

theorem cell_shiftClipped (S : Screen) (r : Rect) (d : ℤ) (p : ℤ × ℤ) :
    (S.shiftClipped r d).cell p =
      if r.Contains p then S.cell (clippedSource S.metrics d p) else S.cell p := rfl

theorem shiftClipped_eq_shift {S : Screen} {r : Rect} {d : ℤ}
    (h : ∀ p, r.Contains p → S.metrics.Inside p ∧ S.metrics.Inside (p.1 + d, p.2)) :
    S.shiftClipped r d = S.shift r d := by
  unfold shiftClipped shift
  congr 1
  funext p
  split
  · rename_i hp
    rw [clippedSource, if_pos (h p hp)]
  · rfl

/-- What an event does. -/
def apply (S : Screen) : UIEvent → Screen
  | .text row col flags array => S.write row col flags (array.map TextCharacter.view)
  | .resize m => S.recreate m
  | .clear row1 col1 row2 col2 => S.blank ⟨row1, col1, row2, col2⟩
  | .delete row n left right bottom => S.shiftClipped ⟨row, left, bottom - n, right⟩ n
  | .insert row n left right bottom => S.shiftClipped ⟨row + n, left, bottom, right⟩ (-n)
  | .recolor bg fg _ => { S with bgColor := solid bg, fgColor := solid fg }
  | .ncolor _ back => { S with backPixel := solid back }
  | .invert .. | .cursor .. | .title | .dialog | .browse | .flush => S

end Screen

/-- The count of lines of an event is not negative. -/
def UIEvent.Counted : UIEvent → Prop
  | .delete _ n _ _ _ | .insert _ n _ _ _ => 0 ≤ n
  | _ => True

/-! ### The cells of the UI thread -/

namespace UI

def canvas (ui : UI) : Canvas := ⟨ui.metrics, ui.uiFgColor, ui.uiBgColor, ui.uiBackPixel⟩

/-- What the cell at a position looks like. -/
def shown (ui : UI) (p : ℤ × ℤ) : Option CellView := (ui.cell p).map UICell.view

theorem eq_of_canvas {ui : UI} {C : Canvas} (h : ui.canvas = C) :
    ui.metrics = C.metrics ∧ ui.uiFgColor = C.fgColor ∧ ui.uiBgColor = C.bgColor ∧
      ui.uiBackPixel = C.backPixel := by
  subst h
  exact ⟨rfl, rfl, rfl, rfl⟩

@[simp]
theorem canvas_updateCell (ui : UI) (p : ℤ × ℤ) (f : UICell → UICell) :
    (ui.updateCell p f).canvas = ui.canvas := rfl

@[simp]
theorem canvas_hideCursorAt (ui : UI) (p : ℤ × ℤ) : (ui.hideCursorAt p).canvas = ui.canvas := by
  unfold hideCursorAt
  split
  · rfl
  · rfl

@[simp]
theorem canvas_copyCell (ui : UI) (p q : ℤ × ℤ) : (ui.copyCell p q).canvas = ui.canvas := by
  unfold copyCell
  split
  · rfl
  · rfl

@[simp]
theorem shown_hideCursorAt (ui : UI) (p : ℤ × ℤ) : (ui.hideCursorAt p).shown = ui.shown := by
  funext q
  rw [shown, shown, cell_hideCursorAt]

theorem shown_of_not_inside {ui : UI} {p : ℤ × ℤ} (hp : ¬ ui.metrics.Inside p) :
    ui.shown p = none := by
  rw [shown, cell_of_not_inside hp, Option.map_none]

/-- The loops skip what is outside of the grid, where there is nothing to assign to. -/
theorem update_shown_of_not_inside {ui : UI} {p : ℤ × ℤ} (hp : ¬ ui.metrics.Inside p)
    (f : CellView → CellView) :
    Function.update ui.shown p ((ui.shown p).map f) = ui.shown := by
  rw [shown_of_not_inside hp, Option.map_none, ← shown_of_not_inside hp, Function.update_eq_self]

theorem shown_updateCell {ui : UI} {p : ℤ × ℤ} (hp : ui.metrics.Inside p) {f : UICell → UICell}
    {v : CellView} (hf : ∀ c, (f c).view = v) :
    (ui.updateCell p f).shown = Function.update ui.shown p ((ui.shown p).map fun _ => v) := by
  funext q
  rw [shown, cell_updateCell hp]
  by_cases hq : q = p
  · subst hq
    rw [Function.update_self, Function.update_self, shown, Option.map_map, Option.map_map]
    congr 1
    funext c
    exact hf c
  · rw [Function.update_of_ne hq, Function.update_of_ne hq, shown]

theorem shown_copyCell {ui : UI} {p q : ℤ × ℤ} (hp : ui.metrics.Inside p)
    (hq : ui.metrics.Inside q) :
    (ui.copyCell p q).shown = Function.update ui.shown p (ui.shown q) := by
  funext k
  rw [shown, cell_copyCell hp hq]
  by_cases hk : k = p
  · rw [hk, Function.update_self, Function.update_self, shown]
  · rw [Function.update_of_ne hk, Function.update_of_ne hk, shown]

/-! ### One pass of each loop -/

variable (drawTransp : Flags) (row : ℤ) (flags : Flags)

@[simp]
theorem canvas_writeCell (ui : UI) (c : ℤ × Bytes4) :
    (ui.writeCell drawTransp row flags c).canvas = ui.canvas := by
  unfold writeCell
  split_ifs <;> simp

@[simp]
theorem canvas_clearCell (ui : UI) (p : ℤ × ℤ) : (ui.clearCell p).canvas = ui.canvas := by
  unfold clearCell
  split_ifs <;> simp

@[simp]
theorem canvas_deleteCell (n : ℤ) (ui : UI) (p : ℤ × ℤ) :
    (ui.deleteCell n p).canvas = ui.canvas := by
  unfold deleteCell
  split_ifs <;> simp

@[simp]
theorem canvas_insertCell (n : ℤ) (ui : UI) (p : ℤ × ℤ) :
    (ui.insertCell n p).canvas = ui.canvas := by
  unfold insertCell
  split_ifs <;> simp

theorem shown_writeCell (ui : UI) (c : ℤ × Bytes4) :
    (ui.writeCell drawTransp row flags c).shown = Function.update ui.shown (row, c.1)
      ((ui.shown (row, c.1)).map fun _ => ⟨c.2.text, flags, ui.uiFgColor, ui.uiBgColor⟩) := by
  unfold writeCell
  by_cases hp : ui.metrics.Inside (row, c.1)
  · have hupdate := shown_updateCell hp (f := fun _ =>
      { utf8Bytes := c.2, flags := flags
        foreground := ui.uiFgColor, background := ui.uiBgColor }) fun _ => rfl
    rw [if_pos hp]
    split_ifs
    · rw [shown_hideCursorAt, hupdate]
      rfl
    · rw [hupdate]
      rfl
  · rw [if_neg hp, update_shown_of_not_inside hp]

theorem view_blankCell (fg bg : Color) (c : UICell) : (blankCell fg bg c).view = blankView fg bg :=
  rfl

theorem shown_clearCell (ui : UI) (p : ℤ × ℤ) :
    (ui.clearCell p).shown = Function.update ui.shown p
      ((ui.shown p).map fun _ => blankView ui.uiFgColor ui.uiBackPixel) := by
  unfold clearCell
  by_cases hp : ui.metrics.Inside p
  · rw [if_pos hp, shown_hideCursorAt, shown_updateCell hp (view_blankCell _ _)]
  · rw [if_neg hp, update_shown_of_not_inside hp]

theorem shown_clipped {ui : UI} {p : ℤ × ℤ} {d : ℤ} {skip : Prop} [Decidable skip]
    (hskip : ¬ skip ↔ ui.metrics.Inside p ∧ ui.metrics.Inside (p.1 + d, p.2)) :
    (if skip then ui else (ui.copyCell p (p.1 + d, p.2)).hideCursorAt p).shown =
      Function.update ui.shown p (ui.shown (Screen.clippedSource ui.metrics d p)) := by
  unfold Screen.clippedSource
  by_cases h : skip
  · rw [if_pos h, if_neg (fun hin => hskip.2 hin h), Function.update_eq_self]
  · obtain ⟨hp, hq⟩ := hskip.1 h
    rw [if_neg h, if_pos ⟨hp, hq⟩, shown_hideCursorAt, shown_copyCell hp hq]

theorem shown_deleteCell {n : ℤ} (hn : 0 ≤ n) (ui : UI) (p : ℤ × ℤ) :
    (ui.deleteCell n p).shown =
      Function.update ui.shown p (ui.shown (Screen.clippedSource ui.metrics n p)) := by
  refine shown_clipped ?_
  unfold Metrics.Inside InGrid
  omega

theorem shown_insertCell {n : ℤ} (hn : 0 ≤ n) (ui : UI) (p : ℤ × ℤ) :
    (ui.insertCell n p).shown =
      Function.update ui.shown p (ui.shown (Screen.clippedSource ui.metrics (-n) p)) := by
  refine shown_clipped ?_
  unfold Metrics.Inside InGrid
  omega

end UI

/-! ### The cells of a text -/

/-- The columns that `EVENT_TEXT` writes, with the bytes. -/
def textCells : ℤ → List TextCharacter → List (ℤ × Bytes4)
  | _, [] => []
  | x, c :: cs =>
    (List.range c.widthInCells.toNat).map
        (fun k : ℕ => (x + k, if k = 0 then c.utf8Bytes else {})) ++
      textCells (x + c.widthInCells.toNat) cs

theorem foldl_range_counter {σ : Type*} (step : σ → ℕ → ℤ → σ) (n : ℕ) (s : σ × ℤ) :
    (List.range n).foldl (fun s k => (step s.1 k s.2, s.2 + 1)) s =
      ((List.range n).foldl (fun t (k : ℕ) => step t k (s.2 + k)) s.1, s.2 + n) := by
  induction n with
  | zero => simp
  | succ n ih =>
    rw [List.range_succ, List.foldl_append, List.foldl_append, ih]
    simp [Int.add_assoc]

theorem text_eq_foldl (drawTransp : Flags) (ui : UI) (row col : ℤ) (flags : Flags)
    (array : List TextCharacter) :
    ui.text drawTransp row col flags array =
      (textCells col array).foldl (UI.writeCell drawTransp row flags) ui := by
  unfold UI.text
  induction array generalizing ui col with
  | nil => rfl
  | cons c cs ih =>
    have hcount := foldl_range_counter (fun (ui : UI) k x =>
      ui.writeCell drawTransp row flags (x, if k = 0 then c.utf8Bytes else {}))
      c.widthInCells.toNat (ui, col)
    rw [List.foldl_cons, textCells, List.foldl_append, List.foldl_map, ← ih, UI.writeCharacter,
      hcount]

theorem le_of_mem_textCells {cs : List TextCharacter} {x : ℤ} {i : ℤ × Bytes4}
    (hi : i ∈ textCells x cs) : x ≤ i.1 := by
  induction cs generalizing x with
  | nil => cases hi
  | cons c cs ih =>
    rcases List.mem_append.1 hi with hi | hi
    · obtain ⟨k, -, rfl⟩ := List.mem_map.1 hi
      show x ≤ x + k
      omega
    · have := ih hi
      omega

theorem pairwise_textCells (cs : List TextCharacter) (x : ℤ) :
    (textCells x cs).Pairwise fun i j => i.1 < j.1 := by
  induction cs generalizing x with
  | nil => exact List.Pairwise.nil
  | cons c cs ih =>
    rw [textCells, List.pairwise_append, List.pairwise_map]
    refine ⟨List.pairwise_lt_range.imp fun h => by omega, ih _, fun i hi j hj => ?_⟩
    obtain ⟨k, hk, rfl⟩ := List.mem_map.1 hi
    have hle := le_of_mem_textCells hj
    have hlt := List.mem_range.1 hk
    show x + k < j.1
    omega

theorem charAt_of_mem {cs : List TextCharacter} {x : ℤ} {i : ℤ × Bytes4}
    (hi : i ∈ textCells x cs) : charAt (cs.map TextCharacter.view) x i.1 = some i.2.text := by
  induction cs generalizing x with
  | nil => cases hi
  | cons c cs ih =>
    rw [List.map_cons, TextCharacter.view, charAt]
    rcases List.mem_append.1 hi with hi | hi
    · obtain ⟨k, hk, rfl⟩ := List.mem_map.1 hi
      have hlt := List.mem_range.1 hk
      rw [if_pos (by constructor <;> simp only <;> omega)]
      rcases Nat.eq_zero_or_pos k with rfl | hpos
      · simp
      · have hne : k ≠ 0 := by omega
        simp [hne, Bytes4.text]
    · have hle := le_of_mem_textCells hi
      rw [if_neg (by omega), ih hi]

theorem charAt_of_forall_ne {cs : List TextCharacter} {x x' : ℤ}
    (h : ∀ i ∈ textCells x cs, i.1 ≠ x') : charAt (cs.map TextCharacter.view) x x' = none := by
  induction cs generalizing x with
  | nil => rfl
  | cons c cs ih =>
    have hout : ¬ (x ≤ x' ∧ x' < x + c.widthInCells) := by
      rintro ⟨hle, hlt⟩
      refine h (x + (x' - x).toNat, _) (List.mem_append_left _ (List.mem_map.2
        ⟨(x' - x).toNat, List.mem_range.2 (by omega), rfl⟩)) ?_
      show x + ((x' - x).toNat : ℤ) = x'
      omega
    rw [List.map_cons, TextCharacter.view, charAt, if_neg hout]
    exact ih fun i hi => h i (List.mem_append_right _ hi)

/-! ### The grid shows the screen -/

/-- The grid of the UI thread holds the cells of the screen. -/
structure Shows (ui : UI) (S : Screen) : Prop where
  canvas : ui.canvas = S.toCanvas
  shown : ∀ p, S.metrics.Inside p → ui.shown p = some (S.cell p)

namespace Shows

variable {ui : UI} {S S' : Screen}

/-- The screen that a grid shows, with anything outside of it. -/
theorem self (ui : UI) (v : CellView) : Shows ui ⟨ui.canvas, fun p => (ui.shown p).getD v⟩ := by
  refine ⟨rfl, fun p hp => ?_⟩
  obtain ⟨c, hc⟩ := ui.grid.exists_cell hp
  have hshown : ui.shown p = some c.view := congrArg (Option.map UICell.view) hc
  show ui.shown p = some ((ui.shown p).getD v)
  rw [hshown, Option.getD_some]

/-- **A loop that assigns in place is a simultaneous operation**: it is enough to know what the
screen has at the positions the loop writes, in terms of the cells before the loop. -/
theorem foldl {ι : Type} {l : List ι} {step : UI → ι → UI} (h : Shows ui S)
    (dst src : ι → ℤ × ℤ) (value : ι → Option CellView → Option CellView)
    (hcanvas : ∀ ui i, (step ui i).canvas = ui.canvas)
    (hstep : ∀ ui', ui'.canvas = S.toCanvas → ∀ i ∈ l,
      (step ui' i).shown = InPlace.assign dst src value ui'.shown i)
    (hl : l.Pairwise fun i j => dst i ≠ dst j ∧ dst i ≠ src j) (hS : S'.toCanvas = S.toCanvas)
    (hmem : ∀ i ∈ l, S.metrics.Inside (dst i) →
      value i (ui.shown (src i)) = some (S'.cell (dst i)))
    (hother : ∀ p, (∀ i ∈ l, dst i ≠ p) → S'.cell p = S.cell p) : Shows (l.foldl step ui) S' := by
  obtain ⟨htable, hframe⟩ := InPlace.foldl_simulates hcanvas fun ui' hui' =>
    hstep ui' (hui'.trans h.canvas)
  refine ⟨hframe.trans (h.canvas.trans hS.symm), fun p hp => ?_⟩
  have hp : S.metrics.Inside p := by rwa [show S'.metrics = S.metrics from
    congrArg Canvas.metrics hS] at hp
  rw [htable]
  by_cases hex : ∃ i ∈ l, dst i = p
  · obtain ⟨i, hi, rfl⟩ := hex
    rw [InPlace.foldl_update_of_mem hl hi, hmem i hi hp]
  · have hne : ∀ i ∈ l, dst i ≠ p := fun i hi heq => hex ⟨i, hi, heq⟩
    rw [InPlace.foldl_update_of_forall_ne hne, h.shown p hp, hother p hne]

theorem text (h : Shows ui S) (drawTransp : Flags) (row col : ℤ) (flags : Flags)
    (array : List TextCharacter) :
    Shows (ui.text drawTransp row col flags array)
      (S.write row col flags (array.map TextCharacter.view)) := by
  rw [text_eq_foldl]
  refine h.foldl (fun i => (row, i.1)) (fun i => (row, i.1))
    (fun i o => o.map fun _ => ⟨i.2.text, flags, S.fgColor, S.bgColor⟩)
    (UI.canvas_writeCell _ _ _) (fun ui' hui' i _ => ?_)
    ((pairwise_textCells array col).imp fun {i j} hij => ?_) rfl (fun i hi hp => ?_) fun p hp => ?_
  · obtain ⟨-, hfg, hbg, -⟩ := UI.eq_of_canvas hui'
    rw [UI.shown_writeCell, InPlace.assign, hfg, hbg]
  · have hne : (row, i.1) ≠ (row, j.1) := fun heq => by
      rw [(Prod.mk.inj heq).2] at hij
      omega
    exact ⟨hne, hne⟩
  · rw [h.shown _ hp, Option.map_some, Screen.write]
    simp only [hp, and_self, if_true, charAt_of_mem hi]
  · rw [Screen.write]
    by_cases hrow : p.1 = row ∧ S.metrics.Inside p
    · have hnone : charAt (array.map TextCharacter.view) col p.2 = none :=
        charAt_of_forall_ne fun i hi heq => hp i hi (Prod.ext hrow.1.symm heq)
      simp only [hrow, and_self, if_true, hnone]
    · simp only [hrow, if_false]

theorem resize (h : Shows ui S) (memory : ℕ → UICell) (m : Metrics) :
    Shows (ui.resize memory m) (S.recreate m) := by
  obtain ⟨hm, hfg, hbg, hback⟩ := UI.eq_of_canvas h.canvas
  unfold UI.resize Screen.recreate
  by_cases hne : ui.metrics = m
  · rw [if_neg (not_not.2 hne), if_pos (hm ▸ hne)]
    exact h
  · rw [if_pos hne, if_neg (hm ▸ hne)]
    refine ⟨?_, fun p hp => ?_⟩
    · show Canvas.mk m ui.uiFgColor ui.uiBgColor ui.uiBackPixel = ⟨m, _, _, _⟩
      rw [hfg, hbg, hback]
    · show ((Grid.ofFn m.numRows m.numCols _).cell p).map UICell.view = _
      rw [Grid.cell_ofFn hp, Option.map_some, UI.view_blankCell, hfg, hbg]

/-- The positions that a loop over rows and columns goes through. -/
theorem mem_product_forRange {r : Rect} {p : ℤ × ℤ} :
    p ∈ forRange r.top r.bottom ×ˢ forRange r.left r.right ↔ r.Contains p := by
  obtain ⟨y, x⟩ := p
  exact List.pair_mem_product.trans (and_congr mem_forRange mem_forRange)

theorem clear (h : Shows ui S) (row1 col1 row2 col2 : ℤ) :
    Shows (ui.clear row1 col1 row2 col2) (S.blank ⟨row1, col1, row2, col2⟩) := by
  rw [UI.clear, ← InPlace.foldl_product UI.clearCell]
  refine h.foldl id id (fun _ o => o.map fun _ => blankView S.fgColor S.backPixel)
    UI.canvas_clearCell (fun ui' hui' p _ => ?_)
    ((InPlace.pairwise_product (pairwise_forRange _ _) (pairwise_forRange _ _)).imp
      fun {p q} hpq => ?_) rfl (fun p hp hin => ?_) fun p hp => ?_
  · obtain ⟨-, hfg, -, hback⟩ := UI.eq_of_canvas hui'
    rw [UI.shown_clearCell, InPlace.assign, hfg, hback]
    rfl
  · have hne : p ≠ q := by
      rintro rfl
      omega
    exact ⟨hne, hne⟩
  · have hr := (mem_product_forRange (r := ⟨row1, col1, row2, col2⟩)).1 hp
    show (ui.shown p).map _ = some ((S.blank _).cell p)
    rw [h.shown p hin, Option.map_some, Screen.cell_blank, if_pos hr]
  · have hr : ¬ Rect.Contains ⟨row1, col1, row2, col2⟩ p := fun hr =>
      hp p (mem_product_forRange.2 hr) rfl
    rw [Screen.cell_blank, if_neg hr]

/-- **Rows are copied in an order that overwrites none before it is read**: the condition on `l`. -/
theorem shiftClipped {l : List (ℤ × ℤ)} {r : Rect} {d : ℤ} {step : UI → ℤ × ℤ → UI}
    (h : Shows ui S) (hcanvas : ∀ ui p, (step ui p).canvas = ui.canvas)
    (hstep : ∀ ui p, (step ui p).shown =
      Function.update ui.shown p (ui.shown (Screen.clippedSource ui.metrics d p)))
    (hr : ∀ p, p ∈ l ↔ r.Contains p) (hl : l.Pairwise fun p q => p ≠ q ∧ p ≠ (q.1 + d, q.2)) :
    Shows (l.foldl step ui) (S.shiftClipped r d) := by
  refine h.foldl id (Screen.clippedSource S.metrics d) (fun _ o => o) hcanvas
    (fun ui' hui' p _ => ?_) (hl.imp fun {p q} hpq => ?_) rfl (fun p hp hin => ?_)
    fun p hp => ?_
  · rw [hstep, (UI.eq_of_canvas hui').1]
    rfl
  · refine ⟨hpq.1, ?_⟩
    unfold Screen.clippedSource
    split_ifs
    · exact hpq.2
    · exact hpq.1
  · show _ = some ((S.shiftClipped r d).cell p)
    have hsource := Screen.inside_clippedSource d (p := p) hin
    rw [h.shown _ hsource, Screen.cell_shiftClipped, if_pos ((hr p).1 hp)]
  · rw [Screen.cell_shiftClipped, if_neg fun hc => hp p ((hr p).2 hc) rfl]

theorem delete (h : Shows ui S) {n : ℤ} (hn : 0 ≤ n) (row left right bottom : ℤ) :
    Shows (ui.delete row n left right bottom)
      (S.shiftClipped ⟨row, left, bottom - n, right⟩ n) := by
  rw [UI.delete, ← InPlace.foldl_product (UI.deleteCell n)]
  refine h.shiftClipped (UI.canvas_deleteCell n) (UI.shown_deleteCell hn)
    (fun _ => mem_product_forRange (r := ⟨row, left, bottom - n, right⟩))
    ((InPlace.pairwise_product (pairwise_forRange _ _) (pairwise_forRange _ _)).imp
      fun {p q} hpq => ?_)
  -- from the top down: the rows that are still to be read are below
  constructor
  · rintro rfl
    omega
  · rintro rfl
    simp only at hpq
    omega

theorem insert (h : Shows ui S) {n : ℤ} (hn : 0 ≤ n) (row left right bottom : ℤ) :
    Shows (ui.insert row n left right bottom)
      (S.shiftClipped ⟨row + n, left, bottom, right⟩ (-n)) := by
  rw [UI.insert, ← InPlace.foldl_product (UI.insertCell n)]
  refine h.shiftClipped (UI.canvas_insertCell n) (UI.shown_insertCell hn) (fun p => ?_)
    ((InPlace.pairwise_product (List.pairwise_reverse.2 (pairwise_forRange _ _))
      (pairwise_forRange _ _)).imp fun {p q} hpq => ?_)
  · obtain ⟨y, x⟩ := p
    exact List.pair_mem_product.trans
      (and_congr (List.mem_reverse.trans mem_forRange) mem_forRange)
  · -- from the bottom up: the rows that are still to be read are above
    constructor
    · rintro rfl
      omega
    · rintro rfl
      simp only at hpq
      omega

/-- **The loops of `ProcessEventToUI` are the operations on the screen.** -/
theorem processEventToUI (h : Shows ui S) (drawTransp : Flags) (memory : ℕ → UICell) {e : UIEvent}
    (he : e.Counted) : Shows (ui.processEventToUI drawTransp memory e) (S.apply e) := by
  obtain ⟨hm, hfg, hbg, hback⟩ := UI.eq_of_canvas h.canvas
  cases e with
  | text row col flags array => exact h.text drawTransp row col flags array
  | resize m => exact h.resize memory m
  | clear row1 col1 row2 col2 => exact h.clear row1 col1 row2 col2
  | delete row n left right bottom => exact h.delete he row left right bottom
  | insert row n left right bottom => exact h.insert he row left right bottom
  | recolor bg fg sp =>
    refine ⟨?_, h.shown⟩
    show Canvas.mk ui.metrics (solid fg) (solid bg) ui.uiBackPixel = ⟨S.metrics, _, _, S.backPixel⟩
    rw [hm, hback]
  | ncolor norm back =>
    refine ⟨?_, h.shown⟩
    show Canvas.mk ui.metrics ui.uiFgColor ui.uiBgColor (solid back) = ⟨S.metrics, _, _, _⟩
    rw [hm, hfg, hbg]
  | invert | cursor | title | dialog | browse | flush => exact ⟨h.canvas, h.shown⟩

end Shows

end Gvim
