import Playbit.Gvim.Paint
import Playbit.Gvim.Screen
import Playbit.Machine.ListLemmas

/-!
# What is painted in a column

`TextAreaMessage` does not draw cells but texts: each run of cells with the same colours and flags
is one text, which is drawn from the first column of the run, and it is the system that lays it out.
So what is seen in a column depends on all cells of its run.  Where one of them holds no character,
or one that takes two columns, the characters after it are not drawn in the columns of their cells.

`UI.ground` is what the texts of `RawUI.paint` leave at each position, for any way in which the
system lays out texts; `UIMemory.paint_plans` says that these are the texts that are drawn, whatever
was in the row buffer before.  If every cell holds a character of one column, then each position
shows the cell that is there (`UI.ground_of_narrow`), and events that write only such characters
keep this (`UI.Narrow.processEventToUI`).
-/

namespace Gvim

variable {γ : Type*}

/-! ### Layouts -/

/-- How the system lays out a text: the glyph in each column, counted from the start of the text. -/
structure TextLayout (γ : Type*) where
  glyph : List UInt8 → ℕ → Option γ

/-- The characters in `narrow` take one column each, so that texts of them are laid out character by
character, as in a monospaced font.  A blank is one of them. -/
structure TextLayout.Monospaced (layout : TextLayout γ) (narrow : Set (List UInt8)) : Prop where
  blank : [0x20] ∈ narrow
  glyph_flatten : ∀ {chars : List (List UInt8)}, (∀ c ∈ chars, c ∈ narrow) → ∀ k,
    layout.glyph chars.flatten k = chars[k]?.bind fun c => layout.glyph c 0

/-- A font in which every byte is a character of one column, except for `W`, which takes two. -/
def bytesLayout : TextLayout UInt8 where
  glyph := fun text k => (text.flatMap fun b => if b = 0x57 then [b, b] else [b])[k]?

def narrowBytes : Set (List UInt8) := {c | ∃ b, b ≠ 0x57 ∧ c = [b]}

theorem monospaced_bytesLayout : bytesLayout.Monospaced narrowBytes where
  blank := ⟨0x20, by decide, rfl⟩
  glyph_flatten := by
    intro chars h k
    induction chars generalizing k with
    | nil => rfl
    | cons c chars ih =>
      obtain ⟨⟨b, hb, rfl⟩, hchars⟩ := List.forall_mem_cons.1 h
      have ih := ih hchars
      cases k with
      | zero => simp [bytesLayout, hb]
      | succ k => simpa [bytesLayout, hb] using ih k

/-- A background, and the glyph over it in its colour. -/
structure Ground (γ : Type*) where
  background : Color
  glyph : Option (γ × Color)
  deriving DecidableEq

/-- A cell whose character is drawn in its column. -/
def CellView.ground (layout : TextLayout γ) (v : CellView) : Ground γ :=
  ⟨v.background, (layout.glyph v.text 0).map (·, v.foreground)⟩

/-! ### Texts -/

/-- The text shows at a position.  Beyond its span the background of the next text is drawn over it,
but the last one of a row can reach out of the grid. -/
def TextPlan.ShowsAt (cols : ℤ) (p : ℤ × ℤ) (plan : TextPlan) : Prop :=
  plan.row = p.1 ∧ plan.start ≤ p.2 ∧ (p.2 < plan.stop ∨ plan.stop = cols)

instance decidableShowsAt (cols : ℤ) (p : ℤ × ℤ) : DecidablePred (TextPlan.ShowsAt cols p) :=
  fun plan => inferInstanceAs (Decidable (plan.row = p.1 ∧ plan.start ≤ p.2 ∧
    (p.2 < plan.stop ∨ plan.stop = cols)))

namespace UI

/-- The grid with a row buffer. -/
def withRowBuffer (ui : UI) : UIMemory :=
  { ui with
    uiRowBuffer := List.replicate (ui.metrics.numCols * 4).toNat 0
    length_uiRowBuffer := List.length_replicate }

/-- The texts that `TextAreaMessage` draws. -/
def plans (ui : UI) (nonEmpty : ℤ → Bool) : List TextPlan :=
  (ui.withRowBuffer.raw.paint nonEmpty).elim [] Painting.plans

/-- What `TextAreaMessage` leaves at a position: the two rectangles of `clearColor` around the grid,
and over them the texts with their backgrounds. -/
def ground (layout : TextLayout γ) (nonEmpty : ℤ → Bool) (ui : UI) (p : ℤ × ℤ) : Ground γ :=
  match (ui.plans nonEmpty).find? (TextPlan.ShowsAt ui.metrics.numCols p) with
  | none => ⟨ui.uiBackPixel, none⟩
  | some plan =>
    ⟨if p.2 < plan.stop then plan.background else ui.uiBackPixel,
      (layout.glyph plan.text (p.2 - plan.start).toNat).map (·, plan.foreground)⟩

/-- Every cell holds a character of one column. -/
def Narrow (narrow : Set (List UInt8)) (ui : UI) : Prop :=
  ∀ p v, ui.shown p = some v → v.text ∈ narrow

end UI

/-! ### The texts are those of the grid -/

namespace UIMemory

variable {u : UIMemory} {row : ℤ} {plans : List TextPlan}

/-- The text of a span. -/
def planOf (u : UIMemory) (row : ℤ) (s : ℤ × ℤ) : TextPlan where
  row := row
  start := s.1
  stop := s.2
  text := u.textOf row s.1 s.2
  foreground := ((u.attributesAt row s.1).getD (0, 0, 0)).1
  background := ((u.attributesAt row s.1).getD (0, 0, 0)).2.1

theorem eq_planOf {plan : TextPlan} (h : plan.ShowsSpan u row) :
    plan = u.planOf row plan.span := by
  obtain ⟨rfl, htext, flags, hcolors⟩ := h
  rw [planOf, TextPlan.span, hcolors, ← htext]
  rfl

theorem map_planOf (h : CoversRow u row plans) :
    (plans.map TextPlan.span).map (u.planOf row) = plans := by
  rw [List.map_map]
  exact (List.map_congr_left fun plan hplan => (eq_planOf (h.shows plan hplan)).symm).trans
    (List.map_id' plans)

/-- The colours and flags determine the spans, and the spans the texts. -/
theorem coversRow_unique {plans' : List TextPlan} (h : CoversRow u row plans)
    (h' : CoversRow u row plans') : plans = plans' := by
  rw [← map_planOf h, ← map_planOf h', h.runs.unique h'.runs]

theorem plans_spec (u : UIMemory) (hcols : 1 ≤ u.metrics.numCols) (nonEmpty : ℤ → Bool) :
    ∃ blocks, u.toUI.plans nonEmpty = blocks.flatten ∧
      List.Forall₂ (CoversRow u) ((forRange 0 (u.metrics.numRows - 1)).filter nonEmpty) blocks := by
  obtain ⟨s, hs, -, -, blocks, hplans, hblocks⟩ :=
    paintRows_spec (u := u.toUI.withRowBuffer) hcols nonEmpty (Int.le_refl u.metrics.numRows)
  have hpaint : u.toUI.withRowBuffer.raw.paint nonEmpty = some s := hs
  refine ⟨blocks, by rw [UI.plans, hpaint, Option.elim_some, hplans], ?_⟩
  exact hblocks.imp fun row plans h => ⟨h.runs, fun plan hplan =>
    ⟨(h.shows plan hplan).row_eq, (h.shows plan hplan).text_eq, (h.shows plan hplan).colors_eq⟩⟩

/-- **What is in the row buffer before does not matter.** -/
theorem paint_plans (u : UIMemory) (hcols : 1 ≤ u.metrics.numCols) (nonEmpty : ℤ → Bool) :
    ∃ s, u.raw.paint nonEmpty = some s ∧ s.plans = u.toUI.plans nonEmpty := by
  obtain ⟨s, hs, -, -, blocks, hplans, hblocks⟩ :=
    paintRows_spec hcols nonEmpty (Int.le_refl u.metrics.numRows)
  obtain ⟨blocks', hplans', hblocks'⟩ := u.plans_spec hcols nonEmpty
  have hunique : blocks = blocks' :=
    List.right_unique_forall₂' (R := CoversRow u) (fun _ _ _ h h' => coversRow_unique h h') hblocks
      hblocks'
  exact ⟨s, hs, by rw [hplans, hplans', hunique]⟩

/-- In a grid without columns the loop draws nothing, or fails at the first cell. -/
theorem paintColumns_eq_self (hcols : u.metrics.numCols ≤ 0) {s s' : Painting}
    (h : u.raw.paintColumns row s = some s') : s' = s := by
  rcases Int.lt_or_eq_of_le hcols with hlt | hzero
  · have hnil : forRange 0 u.raw.metrics.numCols = [] := forRange_eq_nil hlt
    rw [RawUI.paintColumns, hnil] at h
    cases h
    rfl
  · have hzero : u.raw.metrics.numCols = 0 := hzero
    have hlen : u.raw.uiCells.length = (u.raw.metrics.numRows * u.raw.metrics.numCols).toNat :=
      u.grid.length_cells
    rw [hzero, Int.mul_zero] at hlen
    have hload : ∀ j, u.raw.load j = none := fun j => by
      rw [RawUI.load, List.length_eq_zero_iff.1 hlen, List.getElem?_nil, ite_self]
    have hflush : u.raw.flush row (s, 0) 0 = none := by
      rw [RawUI.flush, hload, Option.map_none, ite_self]
    have hfail : u.raw.paintColumn row (s, 0) 0 = none := by
      rw [RawUI.paintColumn, RawUI.endsSpan, if_pos hzero.symm, Option.bind_some, if_pos rfl,
        hflush]
      rfl
    have hone : forRange 0 u.raw.metrics.numCols = [0] := by
      rw [hzero]
      rfl
    rw [RawUI.paintColumns, hone, List.foldlM_cons, hfail] at h
    cases h

theorem plans_eq_nil (hcols : u.metrics.numCols ≤ 0) (nonEmpty : ℤ → Bool) :
    u.toUI.plans nonEmpty = [] := by
  have hrows : ∀ rows s s', List.foldlM (u.toUI.withRowBuffer.raw.paintRow nonEmpty) s rows =
      some s' → s' = s := by
    intro rows
    induction rows with
    | nil =>
      intro s s' h
      cases h
      rfl
    | cons row rows ih =>
      intro s s' h
      obtain ⟨s₁, hs₁, h⟩ := Option.bind_eq_some_iff.1 h
      rw [ih s₁ s' h]
      rw [RawUI.paintRow] at hs₁
      split_ifs at hs₁
      · exact paintColumns_eq_self hcols hs₁
      · cases hs₁
        rfl
  unfold UI.plans
  cases h : u.toUI.withRowBuffer.raw.paint nonEmpty with
  | none => rfl
  | some s => rw [Option.elim_some, hrows _ _ _ h]

end UIMemory

/-! ### Cells of one column -/

namespace UI

variable {ui : UI} {nonEmpty : ℤ → Bool} {narrow : Set (List UInt8)} {layout : TextLayout γ}
  {plan : TextPlan} {p : ℤ × ℤ}

theorem shown_withRowBuffer (hp : ui.metrics.Inside p) : ∃ v, ui.shown p = some v ∧
    ui.withRowBuffer.bytesAt p.1 p.2 = v.text ∧
    ui.withRowBuffer.attributesAt p.1 p.2 = some (v.foreground, v.background, v.flags) := by
  obtain ⟨c, hc⟩ := ui.grid.exists_cell hp
  have hcell : ui.withRowBuffer.cell p = some c := hc
  exact ⟨c.view, congrArg (Option.map UICell.view) hc,
    congrArg (fun o => (o.map fun c : UICell => c.utf8Bytes.text).getD []) hcell,
    congrArg (Option.map UICell.attributes) hcell⟩

theorem glyph_textOf (hlayout : layout.Monospaced narrow) (hnarrow : ui.Narrow narrow)
    {row start stop : ℤ} (hrow : 0 ≤ row ∧ row < ui.metrics.numRows) (hstart : 0 ≤ start)
    (hstop : stop ≤ ui.metrics.numCols) {x : ℤ} (hx : start ≤ x) :
    layout.glyph (ui.withRowBuffer.textOf row start stop) (x - start).toNat =
      if x < stop then layout.glyph (ui.withRowBuffer.bytesAt row x) 0 else none := by
  have hchars : ∀ c ∈ (forRange start (stop - 1)).map (ui.withRowBuffer.bytesAt row),
      c ∈ narrow := by
    intro c hc
    obtain ⟨x', hx', rfl⟩ := List.mem_map.1 hc
    obtain ⟨hle, hlt⟩ := mem_forRange.1 hx'
    obtain ⟨v, hv, hbytes, -⟩ :=
      ui.shown_withRowBuffer (p := (row, x')) ⟨hrow.1, by omega, hrow.2, by omega⟩
    rw [hbytes]
    exact hnarrow _ v hv
  rw [UIMemory.textOf, List.flatMap_def, hlayout.glyph_flatten hchars, List.getElem?_map, forRange,
    List.getElem?_map]
  split_ifs with hlt
  · rw [List.getElem?_range (by omega), Option.map_some, Option.map_some, Option.bind_some,
      show start + ((x - start).toNat : ℤ) = x by omega]
  · rw [List.getElem?_eq_none (by rw [List.length_range]; omega)]
    rfl

/-- The texts that are drawn, where they are and what they show. -/
theorem mem_plans (h : plan ∈ ui.plans nonEmpty) :
    ∃ row, (0 ≤ row ∧ row < ui.metrics.numRows) ∧ plan.ShowsSpan ui.withRowBuffer row ∧
      (0 ≤ plan.start ∧ plan.stop ≤ ui.metrics.numCols) ∧
      ∀ x, plan.start ≤ x → x < plan.stop →
        ui.withRowBuffer.attributesAt row x = ui.withRowBuffer.attributesAt row plan.start := by
  by_cases hcols : 1 ≤ ui.metrics.numCols
  · obtain ⟨blocks, hplans, hblocks⟩ := ui.withRowBuffer.plans_spec hcols nonEmpty
    have hplans : ui.plans nonEmpty = blocks.flatten := hplans
    rw [hplans] at h
    obtain ⟨block, hblock, hplan⟩ := List.mem_flatten.1 h
    obtain ⟨row, hrow, hcovers⟩ := (Machine.exists_of_forall₂ hblocks).2 block hblock
    obtain ⟨hle, hlt⟩ := mem_forRange.1 (List.mem_filter.1 hrow).1
    have hlt : row ≤ ui.metrics.numRows - 1 := hlt
    have hspan := List.mem_map_of_mem (f := TextPlan.span) hplan
    exact ⟨row, ⟨hle, by omega⟩, hcovers.shows plan hplan, hcovers.runs.within.2 _ hspan,
      hcovers.runs.equal _ hspan⟩
  · have hnil := UIMemory.plans_eq_nil (u := ui.withRowBuffer) (Int.not_lt.1 hcols) nonEmpty
    have hnil : ui.plans nonEmpty = [] := hnil
    rw [hnil] at h
    cases h

/-- Every cell of a row that is painted is in one of its texts. -/
theorem exists_plan (hp : ui.metrics.Inside p) (hrow : nonEmpty p.1 = true) :
    ∃ plan ∈ ui.plans nonEmpty, plan.ShowsAt ui.metrics.numCols p := by
  obtain ⟨hy, hx, hy', hx'⟩ := hp
  obtain ⟨blocks, hplans, hblocks⟩ :=
    ui.withRowBuffer.plans_spec (show 1 ≤ ui.metrics.numCols by omega) nonEmpty
  have hplans : ui.plans nonEmpty = blocks.flatten := hplans
  have hmem : p.1 ∈ (forRange 0 (ui.withRowBuffer.metrics.numRows - 1)).filter nonEmpty :=
    List.mem_filter.2 ⟨mem_forRange.2 ⟨hy, Int.le_sub_one_of_lt hy'⟩, hrow⟩
  obtain ⟨block, hblock, hcovers⟩ := (Machine.exists_of_forall₂ hblocks).1 p.1 hmem
  obtain ⟨t, ht, hle, hlt⟩ := hcovers.runs.exists_span ⟨hx, hx'⟩
  obtain ⟨plan, hplan, rfl⟩ := List.mem_map.1 ht
  exact ⟨plan, hplans ▸ List.mem_flatten.2 ⟨block, hblock, hplan⟩,
    (hcovers.shows plan hplan).row_eq, hle, .inl hlt⟩

/-- **Each position shows its own cell** if every cell holds a character of one column, and the
background colour is around the grid. -/
theorem ground_of_narrow (hlayout : layout.Monospaced narrow) (hnarrow : ui.Narrow narrow)
    (hrow : ui.metrics.Inside p → nonEmpty p.1 = true) :
    ui.ground layout nonEmpty p =
      ((ui.shown p).map (CellView.ground layout)).getD ⟨ui.uiBackPixel, none⟩ := by
  unfold ground
  cases hfind : (ui.plans nonEmpty).find? (TextPlan.ShowsAt ui.metrics.numCols p) with
  | none =>
    have hout : ¬ ui.metrics.Inside p := fun hp => by
      obtain ⟨plan, hplan, hat⟩ := exists_plan hp (hrow hp)
      exact List.find?_eq_none.1 hfind plan hplan (by simpa using hat)
    rw [shown_of_not_inside hout]
    rfl
  | some plan =>
    obtain ⟨row, hrows, ⟨rfl, htext, flags, hcolors⟩, ⟨hstart, hstop⟩, hequal⟩ :=
      mem_plans (List.mem_of_find?_eq_some hfind)
    have hat : plan.ShowsAt ui.metrics.numCols p := by simpa using List.find?_some hfind
    obtain ⟨hp, hle, hspan⟩ := hat
    have hglyph := glyph_textOf hlayout hnarrow hrows hstart hstop hle
    simp only [htext, hglyph]
    by_cases hin : p.2 < plan.stop
    · -- the text has the colours of the cell
      obtain ⟨v, hv, hbytes, hattr⟩ := ui.shown_withRowBuffer (p := (plan.row, p.2))
        ⟨hrows.1, by omega, hrows.2, by omega⟩
      have hattr' := (hequal p.2 hle hin).trans hcolors
      rw [hattr, Option.some_inj, Prod.mk.injEq, Prod.mk.injEq] at hattr'
      have hv : ui.shown p = some v := by rw [← hv, hp]
      rw [if_pos hin, if_pos hin, hbytes, hv, ← hattr'.1, ← hattr'.2.1]
      rfl
    · have hout : ¬ ui.metrics.Inside p := fun hp => by
        have := hp.2.2.2
        omega
      rw [if_neg hin, if_neg hin, shown_of_not_inside hout]
      rfl

end UI

/-! ### Events -/

theorem UI.narrow_of_no_rows {ui : UI} (h : ui.metrics.numRows ≤ 0) (narrow : Set (List UInt8)) :
    ui.Narrow narrow := by
  intro p v hv
  have hout : ¬ ui.metrics.Inside p := fun hp => by
    have hle := hp.1
    have hlt := hp.2.2.1
    omega
  rw [UI.shown_of_not_inside hout] at hv
  cases hv

/-- The event writes characters of one column only. -/
def UIEvent.Narrow (narrow : Set (List UInt8)) : UIEvent → Prop
  | .text _ _ _ array => ∀ c ∈ array, c.widthInCells = 1 ∧ c.utf8Bytes.text ∈ narrow
  | _ => True

/-- Every cell of the screen holds a character of one column. -/
def Screen.Narrow (narrow : Set (List UInt8)) (S : Screen) : Prop :=
  ∀ p, S.metrics.Inside p → (S.cell p).text ∈ narrow

theorem mem_of_charAt {narrow : Set (List UInt8)} {cs : List TextCharacter}
    (h : ∀ c ∈ cs, c.widthInCells = 1 ∧ c.utf8Bytes.text ∈ narrow) {x x' : ℤ} {t : List UInt8}
    (ht : charAt (cs.map TextCharacter.view) x x' = some t) : t ∈ narrow := by
  induction cs generalizing x with
  | nil => cases ht
  | cons c cs ih =>
    obtain ⟨⟨hwidth, hc⟩, hcs⟩ := List.forall_mem_cons.1 h
    rw [List.map_cons, TextCharacter.view, charAt, hwidth] at ht
    by_cases hx : x ≤ x' ∧ x' < x + 1
    · have hxx : x' = x := by omega
      rw [if_pos hx, if_pos hxx] at ht
      cases ht
      exact hc
    · rw [if_neg hx] at ht
      exact ih hcs ht

/-- Blanks are written, or the characters of a text, or cells are copied. -/
theorem Screen.Narrow.apply {narrow : Set (List UInt8)} {S : Screen} (h : S.Narrow narrow)
    (hblank : [0x20] ∈ narrow) {e : UIEvent} (he : e.Narrow narrow) :
    (S.apply e).Narrow narrow := by
  have hshift : ∀ r d, (S.shiftClipped r d).Narrow narrow := by
    intro r d p hp
    rw [cell_shiftClipped]
    split_ifs
    · exact h _ (inside_clippedSource d hp)
    · exact h p hp
  cases e with
  | text row col flags array =>
    intro p hp
    show (if _ then _ else _ : CellView).text ∈ narrow
    split_ifs with hrow
    · cases hchar : charAt (array.map TextCharacter.view) col p.2 with
      | none => exact h p hp
      | some t => exact mem_of_charAt he hchar
    · exact h p hp
  | resize m =>
    rw [Screen.apply, recreate]
    split_ifs
    · exact h
    · exact fun p _ => hblank
  | clear row1 col1 row2 col2 =>
    intro p hp
    rw [Screen.apply, cell_blank]
    split_ifs
    · exact hblank
    · exact h p hp
  | delete row n left right bottom => exact hshift _ _
  | insert row n left right bottom => exact hshift _ _
  | recolor | ncolor | invert | cursor | title | dialog | browse | flush => exact h

theorem Shows.narrow {narrow : Set (List UInt8)} {ui : UI} {S : Screen} (h : Shows ui S)
    (hS : S.Narrow narrow) : ui.Narrow narrow := by
  intro p v hv
  have hp : S.metrics.Inside p := by
    rw [← (UI.eq_of_canvas h.canvas).1]
    by_contra hout
    rw [UI.shown_of_not_inside hout] at hv
    cases hv
  have hcell := (h.shown p hp).symm.trans hv
  rw [← Option.some_inj.1 hcell]
  exact hS p hp

/-- An event keeps that every cell holds a character of one column. -/
theorem UI.Narrow.processEventToUI {narrow : Set (List UInt8)} {ui : UI} (h : ui.Narrow narrow)
    (hblank : [0x20] ∈ narrow) {e : UIEvent} (hcounted : e.Counted) (he : e.Narrow narrow)
    (drawTransp : Flags) (memory : ℕ → UICell) :
    (ui.processEventToUI drawTransp memory e).Narrow narrow := by
  have hshows := Shows.self ui (blankView 0 0)
  have hscreen : Screen.Narrow narrow ⟨ui.canvas, fun p => (ui.shown p).getD (blankView 0 0)⟩ :=
    fun p hp => h p _ (hshows.shown p hp)
  exact (hshows.processEventToUI drawTransp memory hcounted).narrow (hscreen.apply hblank he)

end Gvim
