import Playbit.Gvim.Memory
import Playbit.Machine.Runs

/-!
# Painting

`TextAreaMessage` paints the grid row by row.  Cells next to each other that have the same colours
and flags are drawn as one text, which is gathered in `uiRowBuffer`.  The loop over the columns goes
one step beyond the last, where it draws what is left, and rows that are clipped away are skipped.

The texts of a row are its maximal runs (`UIMemory.paintColumns_spec`), and each row that is not
clipped away is covered by its texts (`UIMemory.paints_rows`).  Over every sequence of events and
repaints no access is outside of the grid or the row buffer (`RawUI.run_safe`).
-/

namespace Gvim

/-! ### The loops -/

/-- What `TextAreaMessage` compares. -/
def UICell.attributes (c : UICell) : Color × Color × Flags := (c.foreground, c.background, c.flags)

/-- A call of `PBTextPlanCreate`, with the span and the colours that its text is drawn with. -/
structure TextPlan where
  row : ℤ
  start : ℤ
  stop : ℤ
  text : List UInt8
  foreground : Color
  background : Color
  deriving DecidableEq

def TextPlan.span (p : TextPlan) : ℤ × ℤ := (p.start, p.stop)

/-- The variables of the loops, and what has been drawn. -/
structure Painting where
  uiRowBuffer : List UInt8
  bytesInBuffer : ℕ := 0
  plans : List TextPlan := []

/-- `gui.uiRowBuffer[bytesInBuffer++] = …`, which fails beyond four bytes for each column. -/
def Painting.put (cols : ℤ) (s : Painting) (b : UInt8) : Option Painting :=
  if (s.bytesInBuffer : ℤ) < 4 * cols ∧ s.bytesInBuffer < s.uiRowBuffer.length then
    some { s with
      uiRowBuffer := s.uiRowBuffer.set s.bytesInBuffer b
      bytesInBuffer := s.bytesInBuffer + 1 }
  else none

namespace RawUI

variable (r : RawUI) (row : ℤ)

/-- The condition under which a text is drawn: the cells are not read beyond the last column. -/
def endsSpan (start j : ℤ) : Option Bool :=
  if j = r.metrics.numCols then some true
  else
    (r.load (r.index (row, j))).bind fun jCell =>
      (r.load (r.index (row, start))).map fun startCell =>
        decide (jCell.attributes ≠ startCell.attributes)

/-- Draw the text from column `s.2` to `j`. -/
def flush (s : Painting × ℤ) (j : ℤ) : Option (Painting × ℤ) :=
  if s.1.bytesInBuffer ≤ s.1.uiRowBuffer.length then
    (r.load (r.index (row, s.2))).map fun startCell =>
      ({ s.1 with
        bytesInBuffer := 0
        plans := s.1.plans ++ [⟨row, s.2, j, s.1.uiRowBuffer.take s.1.bytesInBuffer,
          startCell.foreground, startCell.background⟩] }, j)
  else none

/-- Add the bytes of the cell in column `j` to the row buffer. -/
def gather (s : Painting × ℤ) (j : ℤ) : Option (Painting × ℤ) :=
  if j < r.metrics.numCols then
    (r.load (r.index (row, j))).bind fun jCell =>
      (jCell.utf8Bytes.text.foldlM (Painting.put r.metrics.numCols) s.1).map (·, s.2)
  else some s

/-- One pass of the loop over the columns, where `s.2` is `start`. -/
def paintColumn (s : Painting × ℤ) (j : ℤ) : Option (Painting × ℤ) :=
  (r.endsSpan row s.2 j).bind fun ends =>
    (if ends then r.flush row s j else some s).bind fun s => r.gather row s j

/-- The loop over the columns. -/
def paintColumns (s : Painting) : Option Painting :=
  ((forRange 0 r.metrics.numCols).foldlM (r.paintColumn row) (s, 0)).map (·.1)

/-- One pass of the loop over the rows.  `nonEmpty` says which rows are not clipped away. -/
def paintRow (nonEmpty : ℤ → Bool) (s : Painting) (row : ℤ) : Option Painting :=
  if nonEmpty row then r.paintColumns row s else some s

/-- The loop over the rows, as far as the given one. -/
def paintRows (nonEmpty : ℤ → Bool) (rows : ℤ) : Option Painting :=
  (forRange 0 (rows - 1)).foldlM (r.paintRow nonEmpty) { uiRowBuffer := r.uiRowBuffer }

/-- `TextAreaMessage` for `PBMsg_CUSTOM_PAINT`. -/
def paint (nonEmpty : ℤ → Bool) : Option Painting := r.paintRows nonEmpty r.metrics.numRows

end RawUI

/-! ### What is painted -/

/-- A grid in memory, with a row buffer of four bytes for each column. -/
structure UIMemory extends UI where
  uiRowBuffer : List UInt8
  length_uiRowBuffer : uiRowBuffer.length = (metrics.numCols * 4).toNat

namespace UIMemory

/-- The arrays. -/
def raw (u : UIMemory) : RawUI := u.toUI.raw u.uiRowBuffer

/-- The colours and flags in a row. -/
def attributesAt (u : UIMemory) (row x : ℤ) : Option (Color × Color × Flags) :=
  (u.cell (row, x)).map UICell.attributes

/-- The bytes of a cell up to the first NUL. -/
def bytesAt (u : UIMemory) (row x : ℤ) : List UInt8 :=
  ((u.cell (row, x)).map fun c => c.utf8Bytes.text).getD []

/-- The bytes of the cells from `start` to `stop`. -/
def textOf (u : UIMemory) (row start stop : ℤ) : List UInt8 :=
  (forRange start (stop - 1)).flatMap (u.bytesAt row)

end UIMemory

/-- A text shows the cells of its span, in their colours. -/
structure TextPlan.ShowsSpan (u : UIMemory) (row : ℤ) (p : TextPlan) : Prop where
  row_eq : p.row = row
  text_eq : p.text = u.textOf row p.start p.stop
  colors_eq : ∃ flags, u.attributesAt row p.start = some (p.foreground, p.background, flags)

/-- The spans of the texts are the maximal runs of cells with the same colours and flags. -/
structure CoversRow (u : UIMemory) (row : ℤ) (plans : List TextPlan) : Prop where
  runs : MaximalRuns (u.attributesAt row) 0 u.metrics.numCols (plans.map TextPlan.span)
  shows : ∀ p ∈ plans, p.ShowsSpan u row

/-! ### The row buffer -/

theorem Bytes4.length_text_le (b : Bytes4) : b.text.length ≤ 4 :=
  (List.takeWhile_prefix _).length_le

theorem Painting.foldlM_put {cols : ℤ} (bytes : List UInt8) {s : Painting}
    (hlen : s.uiRowBuffer.length = (cols * 4).toNat)
    (hroom : ((s.bytesInBuffer + bytes.length : ℕ) : ℤ) ≤ 4 * cols) :
    ∃ buf : List UInt8, buf.length = s.uiRowBuffer.length ∧
      buf.take (s.bytesInBuffer + bytes.length) = s.uiRowBuffer.take s.bytesInBuffer ++ bytes ∧
      bytes.foldlM (Painting.put cols) s = some { s with
        uiRowBuffer := buf, bytesInBuffer := s.bytesInBuffer + bytes.length } := by
  induction bytes generalizing s with
  | nil => exact ⟨s.uiRowBuffer, rfl, by simp, rfl⟩
  | cons b bytes ih =>
    rw [List.length_cons] at hroom
    have hlt : s.bytesInBuffer < s.uiRowBuffer.length := by omega
    have hput : Painting.put cols s b = some { s with
        uiRowBuffer := s.uiRowBuffer.set s.bytesInBuffer b
        bytesInBuffer := s.bytesInBuffer + 1 } := if_pos ⟨by omega, hlt⟩
    obtain ⟨buf, hbuf, htake, hfold⟩ := @ih { s with
        uiRowBuffer := s.uiRowBuffer.set s.bytesInBuffer b
        bytesInBuffer := s.bytesInBuffer + 1 } (by simpa using hlen) (by simp only; omega)
    have hset : (s.uiRowBuffer.set s.bytesInBuffer b).take (s.bytesInBuffer + 1) =
        s.uiRowBuffer.take s.bytesInBuffer ++ [b] := by
      rw [List.take_add_one, List.take_set_of_le (Nat.le_refl _), List.getElem?_set_self hlt]
      rfl
    refine ⟨buf, by simpa using hbuf, ?_, ?_⟩
    · rw [List.length_cons, Nat.add_comm bytes.length, ← Nat.add_assoc, htake, hset,
        List.append_assoc]
      rfl
    · rw [List.foldlM_cons, hput, List.length_cons, Nat.add_comm bytes.length, ← Nat.add_assoc]
      exact hfold

/-! ### The columns of a row -/

namespace UIMemory

variable {u : UIMemory} {row : ℤ}

theorem textOf_self (u : UIMemory) (row x : ℤ) : u.textOf row x x = [] := by
  rw [textOf, forRange_eq_nil (by omega)]
  rfl

theorem textOf_succ (u : UIMemory) {row start j : ℤ} (h : start ≤ j) :
    u.textOf row start (j + 1) = u.textOf row start j ++ u.bytesAt row j := by
  rw [textOf, Int.add_sub_cancel, forRange_concat h, List.flatMap_append, textOf]
  simp

theorem length_bytesAt_le (u : UIMemory) (row x : ℤ) : (u.bytesAt row x).length ≤ 4 := by
  unfold bytesAt
  cases u.cell (row, x) with
  | none => simp
  | some c => exact c.utf8Bytes.length_text_le

theorem length_textOf_le (u : UIMemory) (row : ℤ) {start j : ℤ} (h : start ≤ j) :
    ((u.textOf row start j).length : ℤ) ≤ 4 * (j - start) := by
  have hcells : ∀ xs : List ℤ, (xs.flatMap (u.bytesAt row)).length ≤ 4 * xs.length := by
    intro xs
    induction xs with
    | nil => simp
    | cons x xs ih =>
      have hx := u.length_bytesAt_le row x
      rw [List.flatMap_cons, List.length_append, List.length_cons]
      omega
  have hlen := hcells (forRange start (j - 1))
  rw [length_forRange] at hlen
  unfold textOf
  omega

theorem load_eq (hrow : 0 ≤ row ∧ row < u.metrics.numRows) {x : ℤ}
    (hx : 0 ≤ x ∧ x < u.metrics.numCols) :
    ∃ c, u.cell (row, x) = some c ∧ u.raw.load (u.raw.index (row, x)) = some c := by
  have hin : u.metrics.Inside (row, x) := ⟨hrow.1, hx.1, hrow.2, hx.2⟩
  obtain ⟨c, hc⟩ := u.grid.exists_cell hin
  exact ⟨c, hc, (RawUI.load_raw hin).trans hc⟩

/-- What the loop over the columns keeps, before the pass for column `j`: the texts drawn so far end
at `start`, where the run begins that the cells up to `j` belong to, and the bytes of these are in
the row buffer. -/
structure ColumnInv (u : UIMemory) (row : ℤ) (before : List TextPlan) (j : ℤ)
    (s : Painting × ℤ) : Prop where
  length_eq : s.1.uiRowBuffer.length = (u.metrics.numCols * 4).toNat
  start_nonneg : 0 ≤ s.2
  start_le : s.2 ≤ j
  equal : ∀ x, s.2 ≤ x → x < j → u.attributesAt row x = u.attributesAt row s.2
  bytes_eq : s.1.bytesInBuffer = (u.textOf row s.2 j).length
  buffer_eq : s.1.uiRowBuffer.take s.1.bytesInBuffer = u.textOf row s.2 j
  plans : ∃ plans, s.1.plans = before ++ plans ∧
    MaximalRuns (u.attributesAt row) 0 s.2 (plans.map TextPlan.span) ∧
    (∀ p ∈ plans, p.ShowsSpan u row) ∧
    ∀ t ∈ (plans.map TextPlan.span).getLast?, u.attributesAt row t.1 ≠ u.attributesAt row s.2

theorem flush_spec {before : List TextPlan} {j : ℤ} {s : Painting × ℤ}
    (h : ColumnInv u row before j s) (hrow : 0 ≤ row ∧ row < u.metrics.numRows)
    (hlt : s.2 < j) (hj : j ≤ u.metrics.numCols) : ∃ s' : Painting,
      u.raw.flush row s j = some (s', j) ∧ s'.bytesInBuffer = 0 ∧
      s'.uiRowBuffer = s.1.uiRowBuffer ∧ ∃ plans, s'.plans = before ++ plans ∧
        MaximalRuns (u.attributesAt row) 0 j (plans.map TextPlan.span) ∧
        (∀ p ∈ plans, p.ShowsSpan u row) ∧
        ∀ t ∈ (plans.map TextPlan.span).getLast?,
          u.attributesAt row t.1 = u.attributesAt row s.2 := by
  obtain ⟨c, hc, hload⟩ := load_eq hrow ⟨h.start_nonneg, Int.lt_of_lt_of_le hlt hj⟩
  have hbytes : s.1.bytesInBuffer ≤ s.1.uiRowBuffer.length := by
    have htake := congrArg List.length h.buffer_eq
    rw [List.length_take, ← h.bytes_eq] at htake
    omega
  obtain ⟨plans, hplans, hruns, hshows, hcut⟩ := h.plans
  let plan : TextPlan :=
    ⟨row, s.2, j, s.1.uiRowBuffer.take s.1.bytesInBuffer, c.foreground, c.background⟩
  have hshow : plan.ShowsSpan u row :=
    ⟨rfl, h.buffer_eq, c.flags, congrArg (Option.map UICell.attributes) hc⟩
  refine ⟨{ s.1 with bytesInBuffer := 0, plans := s.1.plans ++ [plan] }, ?_, rfl, rfl,
    plans ++ [plan], ?_, ?_, ?_, ?_⟩
  · rw [RawUI.flush, if_pos hbytes, hload]
    rfl
  · rw [hplans, List.append_assoc]
  · rw [List.map_append]
    exact hruns.snoc hlt h.equal hcut
  · intro p hp
    rcases List.mem_append.1 hp with hp | hp
    · exact hshows p hp
    · rw [List.mem_singleton.1 hp]
      exact hshow
  · intro t ht
    rw [List.map_append, List.map_singleton, List.getLast?_concat] at ht
    cases ht
    rfl

theorem gather_spec {before : List TextPlan} {j : ℤ} {s : Painting × ℤ}
    (h : ColumnInv u row before j s) (hrow : 0 ≤ row ∧ row < u.metrics.numRows)
    (hj : 0 ≤ j ∧ j < u.metrics.numCols)
    (hequal : u.attributesAt row j = u.attributesAt row s.2) :
    ∃ s', u.raw.gather row s j = some s' ∧ ColumnInv u row before (j + 1) s' ∧ s'.2 < j + 1 := by
  obtain ⟨c, hc, hload⟩ := load_eq hrow hj
  have hbytes : u.bytesAt row j = c.utf8Bytes.text := by rw [bytesAt, hc]; rfl
  have hroom := u.length_textOf_le row h.start_le
  have hfour := c.utf8Bytes.length_text_le
  have hstart := h.start_nonneg
  obtain ⟨buf, hbuf, htake, hfold⟩ := Painting.foldlM_put
    c.utf8Bytes.text h.length_eq (by rw [h.bytes_eq]; push_cast; omega)
  have hle := h.start_le
  refine ⟨({ s.1 with
    uiRowBuffer := buf, bytesInBuffer := s.1.bytesInBuffer + c.utf8Bytes.text.length }, s.2),
    ?_, ?_, Int.lt_add_one_of_le hle⟩
  · rw [RawUI.gather, if_pos (show j < u.raw.metrics.numCols from hj.2), hload, Option.bind_some]
    exact congrArg (Option.map _) hfold
  · refine ⟨hbuf.trans h.length_eq, hstart, Int.le_add_one hle, fun x hx hxj => ?_, ?_, ?_,
      h.plans⟩
    · rcases Int.lt_or_eq_of_le (Int.le_of_lt_add_one hxj) with hlt | rfl
      · exact h.equal x hx hlt
      · exact hequal
    · rw [u.textOf_succ h.start_le, List.length_append, ← h.bytes_eq, hbytes]
    · rw [u.textOf_succ h.start_le, ← h.buffer_eq, hbytes]
      exact htake

theorem ColumnInv.paintColumn {before : List TextPlan} {j : ℤ} {s : Painting × ℤ}
    (h : ColumnInv u row before j s) (hrow : 0 ≤ row ∧ row < u.metrics.numRows)
    (hj : 0 ≤ j ∧ j < u.metrics.numCols) :
    ∃ s', u.raw.paintColumn row s j = some s' ∧ ColumnInv u row before (j + 1) s' ∧
      s'.2 < j + 1 := by
  have hstart := h.start_le
  obtain ⟨c, hc, hload⟩ := load_eq hrow hj
  obtain ⟨d, hd, hloadStart⟩ := load_eq hrow ⟨h.start_nonneg, Int.lt_of_le_of_lt hstart hj.2⟩
  have hends : u.raw.endsSpan row s.2 j = some (decide (c.attributes ≠ d.attributes)) := by
    rw [RawUI.endsSpan, if_neg (show j ≠ u.raw.metrics.numCols from Int.ne_of_lt hj.2), hload,
      hloadStart]
    rfl
  have hattr : u.attributesAt row j = some c.attributes := congrArg _ hc
  have hattrStart : u.attributesAt row s.2 = some d.attributes := congrArg _ hd
  rw [RawUI.paintColumn, hends, Option.bind_some]
  by_cases heq : c.attributes = d.attributes
  · rw [if_neg (by simp [heq]), Option.bind_some]
    exact gather_spec h hrow hj (by rw [hattr, hattrStart, heq])
  · -- the cell starts a run of its own
    have hcut : u.attributesAt row j ≠ u.attributesAt row s.2 := by
      rw [hattr, hattrStart]
      exact fun hsome => heq (Option.some.inj hsome)
    have hlt : s.2 < j := by
      rcases Int.lt_or_eq_of_le hstart with hlt | heq
      · exact hlt
      · exact absurd (by rw [heq]) hcut
    obtain ⟨s', hflush, hbytes, hbuf, plans, hplans, hruns, hshows, hlast⟩ :=
      flush_spec h hrow hlt (Int.le_of_lt hj.2)
    rw [if_pos (by simp [heq]), hflush, Option.bind_some]
    have hinv : ColumnInv u row before j (s', j) :=
      { length_eq := hbuf ▸ h.length_eq
        start_nonneg := hj.1
        start_le := Int.le_refl j
        equal := fun x hx hxj => absurd hxj (Int.not_lt.2 hx)
        bytes_eq := by rw [hbytes, textOf_self]; rfl
        buffer_eq := by rw [hbytes, textOf_self]; rfl
        plans := ⟨plans, hplans, hruns, hshows, fun t ht => by
          rw [hlast t ht]
          exact hcut.symm⟩ }
    exact gather_spec hinv hrow hj rfl

/-! ### Rows -/

/-- **The texts of a row are its maximal runs**, and the row buffer is empty again at its end. -/
theorem paintColumns_spec {s : Painting} (hcols : 1 ≤ u.metrics.numCols)
    (hrow : 0 ≤ row ∧ row < u.metrics.numRows) (hbytes : s.bytesInBuffer = 0)
    (hlen : s.uiRowBuffer.length = (u.metrics.numCols * 4).toNat) :
    ∃ s', u.raw.paintColumns row s = some s' ∧ s'.bytesInBuffer = 0 ∧
      s'.uiRowBuffer.length = (u.metrics.numCols * 4).toNat ∧
      ∃ plans, s'.plans = s.plans ++ plans ∧ CoversRow u row plans := by
  have h₀ : ColumnInv u row s.plans 0 (s, 0) :=
    { length_eq := hlen
      start_nonneg := Int.le_refl 0
      start_le := Int.le_refl 0
      equal := fun x hx hxj => absurd hxj (Int.not_lt.2 hx)
      bytes_eq := by rw [hbytes, textOf_self]; rfl
      buffer_eq := by rw [hbytes, textOf_self]; rfl
      plans := ⟨[], by simp, .nil _ _, by simp, by simp⟩ }
  obtain ⟨s₁, hs₁, hinv, hlt⟩ := Machine.foldlM_rule (forRange 0 (u.metrics.numCols - 1))
    (f := u.raw.paintColumn row) (s := (s, 0))
    (I := fun l s' => ColumnInv u row s.plans l.length s' ∧ (0 < l.length → s'.2 < l.length))
    ⟨h₀, fun h => absurd h (Nat.lt_irrefl 0)⟩ fun l₁ j l₂ s' hl hs' => by
      obtain ⟨hj, hle⟩ := eq_of_forRange_eq_append hl
      rw [Int.zero_add] at hj
      subst hj
      obtain ⟨s'', hs'', hinv, hlt⟩ := hs'.1.paintColumn hrow ⟨by omega, by omega⟩
      refine ⟨s'', hs'', ?_⟩
      rw [List.length_append, List.length_singleton]
      exact ⟨by exact_mod_cast hinv, fun _ => by exact_mod_cast hlt⟩
  have hlength : (((forRange 0 (u.metrics.numCols - 1)).length : ℕ) : ℤ) = u.metrics.numCols := by
    rw [length_forRange]
    omega
  rw [hlength] at hinv
  have hstart : s₁.2 < u.metrics.numCols := by
    have := hlt (by omega)
    omega
  -- the last pass is beyond the last column
  obtain ⟨s', hflush, hbytes', hbuf, plans, hplans, hruns, hshows, -⟩ :=
    flush_spec hinv hrow hstart (Int.le_refl _)
  have hlast : u.raw.paintColumn row s₁ u.metrics.numCols = some (s', u.metrics.numCols) := by
    have hends : u.raw.endsSpan row s₁.2 u.metrics.numCols = some true := if_pos rfl
    rw [RawUI.paintColumn, hends, Option.bind_some, if_pos rfl, hflush, Option.bind_some]
    exact if_neg (Int.lt_irrefl _)
  refine ⟨s', ?_, hbytes', hbuf ▸ hinv.length_eq, plans, hplans, hruns, hshows⟩
  rw [RawUI.paintColumns, show u.raw.metrics.numCols = u.metrics.numCols from rfl,
    forRange_concat (by omega), List.foldlM_append, hs₁, pure_bind, List.foldlM_cons, hlast]
  rfl

/-- What painting does to a grid: the counter of bytes is zero at the start of every row, and each
row that is not clipped away is covered by the texts that are drawn for it, one row after the
other. -/
structure PaintsRows (u : UIMemory) (nonEmpty : ℤ → Bool) : Prop where
  counter : ∀ row ≤ u.metrics.numRows, ∃ s, u.raw.paintRows nonEmpty row = some s ∧
    s.bytesInBuffer = 0
  covers : ∃ s blocks, u.raw.paint nonEmpty = some s ∧ s.plans = blocks.flatten ∧
    List.Forall₂ (CoversRow u) ((forRange 0 (u.metrics.numRows - 1)).filter nonEmpty) blocks

theorem paintRows_spec (hcols : 1 ≤ u.metrics.numCols) (nonEmpty : ℤ → Bool) {rows : ℤ}
    (hrows : rows ≤ u.metrics.numRows) : ∃ s, u.raw.paintRows nonEmpty rows = some s ∧
      s.bytesInBuffer = 0 ∧ s.uiRowBuffer.length = (u.metrics.numCols * 4).toNat ∧
      ∃ blocks, s.plans = blocks.flatten ∧
        List.Forall₂ (CoversRow u) ((forRange 0 (rows - 1)).filter nonEmpty) blocks := by
  refine Machine.foldlM_rule (forRange 0 (rows - 1)) (f := u.raw.paintRow nonEmpty)
    (s := { uiRowBuffer := u.uiRowBuffer })
    (I := fun l s => s.bytesInBuffer = 0 ∧
      s.uiRowBuffer.length = (u.metrics.numCols * 4).toNat ∧
      ∃ blocks, s.plans = blocks.flatten ∧
        List.Forall₂ (CoversRow u) (l.filter nonEmpty) blocks)
    ⟨rfl, u.length_uiRowBuffer, [], rfl, .nil⟩ ?_
  rintro l₁ row l₂ s hl ⟨hbytes, hlen, blocks, hplans, hblocks⟩
  obtain ⟨hnonneg, hlt⟩ := mem_forRange.1 (hl ▸ List.mem_append_right _ List.mem_cons_self)
  rw [List.filter_append, List.filter_singleton, RawUI.paintRow]
  cases hclip : nonEmpty row with
  | false => exact ⟨s, rfl, hbytes, hlen, blocks, hplans, by simpa using hblocks⟩
  | true =>
    obtain ⟨s', hs', hbytes', hlen', plans, hplans', hcovers⟩ :=
      paintColumns_spec hcols ⟨hnonneg, by omega⟩ hbytes hlen
    refine ⟨s', hs', hbytes', hlen', blocks ++ [plans], ?_, ?_⟩
    · rw [hplans', hplans, List.flatten_append, List.flatten_singleton]
    · exact List.rel_append hblocks (.cons hcovers .nil)

/-- **Each row that is not clipped away is covered by its texts.** -/
theorem paints_rows (u : UIMemory) (hcols : 1 ≤ u.metrics.numCols) (nonEmpty : ℤ → Bool) :
    u.PaintsRows nonEmpty where
  counter := by
    intro row hrow
    obtain ⟨s, hs, hbytes, -⟩ := paintRows_spec hcols nonEmpty hrow
    exact ⟨s, hs, hbytes⟩
  covers := by
    obtain ⟨s, hs, -, -, blocks, hplans, hblocks⟩ :=
      paintRows_spec hcols nonEmpty (Int.le_refl u.metrics.numRows)
    exact ⟨s, blocks, hs, hplans, hblocks⟩

end UIMemory

/-- A grid of one row, with two cells in one colour and a third in another. -/
def abcRow : UIMemory where
  metrics := ⟨8, 16, 12, 1, 3⟩
  grid := ⟨[{ utf8Bytes := { b0 := 0x61 } }, { utf8Bytes := { b0 := 0xc3, b1 := 0xa9 } },
    { utf8Bytes := { b0 := 0x63 }, foreground := 1 }], rfl⟩
  uiFgColor := 0
  uiBgColor := 0
  uiSpColor := 0
  uiNormPixel := 0
  uiBackPixel := 0
  uiCursorColumn := 0
  uiCursorRow := 0
  uiCursorWidth := 0
  uiCursorHeight := 0
  uiCursorColor := 0
  uiCursorState := 0
  uiRowBuffer := List.replicate 12 0
  length_uiRowBuffer := rfl

theorem paints_abcRow : 1 ≤ abcRow.metrics.numCols ∧ abcRow.PaintsRows fun _ => true :=
  ⟨by decide, UIMemory.paints_rows abcRow (by decide) fun _ => true⟩

example : (abcRow.raw.paint fun _ => true).map (·.plans.map fun p => (p.span, p.text)) =
    some [((0, 2), [0x61, 0xc3, 0xa9]), ((2, 3), [0x63])] := by decide

/-! ### Runs of the UI thread -/

/-- What the UI thread does with the grid. -/
inductive UIAction
  | event (garbage : Garbage) (e : UIEvent)
  /-- The rows that are not clipped away are painted. -/
  | paint (nonEmpty : ℤ → Bool)

/-- What Vim guarantees: counts of lines are not negative, and a grid has rows and columns. -/
def UIAction.Guaranteed : UIAction → Prop
  | .event _ (.resize m) => 1 ≤ m.numRows ∧ 1 ≤ m.numCols
  | .event _ e => e.Counted
  | .paint _ => True

namespace RawUI

/-- One action.  It fails when there is an access outside of the grid or the row buffer. -/
def next (drawTransp : Flags) (r : RawUI) : UIAction → Option RawUI
  | .event garbage e => r.processEventToUI drawTransp garbage e
  | .paint nonEmpty => (r.paint nonEmpty).map fun s => { r with uiRowBuffer := s.uiRowBuffer }

/-- The arrays have the size of the grid. -/
structure Sized (r : RawUI) : Prop where
  cells : (r.uiCells.length : ℤ) = r.metrics.numRows * r.metrics.numCols
  rowBuffer : 4 * r.metrics.numCols ≤ r.uiRowBuffer.length

/-- The arrays hold a grid, which is empty or has rows and columns. -/
def HoldsGrid (r : RawUI) : Prop :=
  ∃ u : UIMemory, r = u.raw ∧
    (u.metrics.numRows = 0 ∧ u.metrics.numCols = 0 ∨
      1 ≤ u.metrics.numRows ∧ 1 ≤ u.metrics.numCols)

theorem HoldsGrid.sized {r : RawUI} (h : r.HoldsGrid) : r.Sized := by
  obtain ⟨u, rfl, hsize⟩ := h
  have hcells : u.raw.uiCells.length = (u.metrics.numRows * u.metrics.numCols).toNat :=
    u.grid.length_cells
  have hbuf : u.raw.uiRowBuffer.length = (u.metrics.numCols * 4).toNat := u.length_uiRowBuffer
  have hnonneg : 0 ≤ u.metrics.numRows * u.metrics.numCols :=
    Int.mul_nonneg (by omega) (by omega)
  refine ⟨?_, ?_⟩
  · rw [hcells, Int.toNat_of_nonneg hnonneg]
    rfl
  · rw [hbuf]
    change 4 * u.metrics.numCols ≤ _
    omega

theorem holdsGrid_initial : HoldsGrid {} := by
  let ui : UI := ⟨⟨0, 0, 0, 0, 0⟩, ⟨[], rfl⟩, 0, 0, 0, 0, 0, 0, 0, 0, 0, 0, 0⟩
  exact ⟨{ ui with uiRowBuffer := [], length_uiRowBuffer := rfl }, rfl, .inl ⟨rfl, rfl⟩⟩

theorem UIAction.Guaranteed.counted {garbage : Garbage} {e : UIEvent}
    (h : UIAction.Guaranteed (.event garbage e)) : e.Counted := by
  cases e with
  | resize m => trivial
  | _ => exact h

theorem HoldsGrid.event {r : RawUI} (h : r.HoldsGrid) (drawTransp : Flags) {garbage : Garbage}
    {e : UIEvent} (he : UIAction.Guaranteed (.event garbage e)) :
    ∃ r', r.next drawTransp (.event garbage e) = some r' ∧ r'.HoldsGrid := by
  obtain ⟨u, rfl, hsize⟩ := h
  have hcounted := UIAction.Guaranteed.counted he
  let ui' := u.toUI.processEventToUI drawTransp garbage.cells e
  let u' : UIMemory := { ui' with
    uiRowBuffer := rowBufferAfter garbage u.toUI u.uiRowBuffer e
    length_uiRowBuffer := length_rowBufferAfter drawTransp garbage hcounted u.length_uiRowBuffer }
  refine ⟨u'.raw, processEventToUI_raw drawTransp garbage u.toUI hcounted, u', rfl, ?_⟩
  change ui'.metrics.numRows = 0 ∧ ui'.metrics.numCols = 0 ∨
    1 ≤ ui'.metrics.numRows ∧ 1 ≤ ui'.metrics.numCols
  by_cases hresize : ∃ m, e = .resize m
  · obtain ⟨m, rfl⟩ := hresize
    change (u.toUI.resize garbage.cells m).metrics.numRows = 0 ∧
      (u.toUI.resize garbage.cells m).metrics.numCols = 0 ∨
      1 ≤ (u.toUI.resize garbage.cells m).metrics.numRows ∧
      1 ≤ (u.toUI.resize garbage.cells m).metrics.numCols
    unfold UI.resize
    split_ifs
    · exact .inr he
    · exact hsize
  · have hmetrics : ui'.metrics = u.metrics :=
      metrics_processEventToUI drawTransp garbage.cells u.toUI hcounted fun m hm => hresize ⟨m, hm⟩
    rw [hmetrics]
    exact hsize

theorem HoldsGrid.paint {r : RawUI} (h : r.HoldsGrid) (drawTransp : Flags) (nonEmpty : ℤ → Bool) :
    ∃ r', r.next drawTransp (.paint nonEmpty) = some r' ∧ r'.HoldsGrid := by
  obtain ⟨u, rfl, hsize⟩ := h
  have hpaint : ∃ s, u.raw.paint nonEmpty = some s ∧
      s.uiRowBuffer.length = (u.metrics.numCols * 4).toNat := by
    rcases hsize with ⟨hrows, -⟩ | ⟨-, hcols⟩
    · -- there are no rows to paint
      refine ⟨{ uiRowBuffer := u.uiRowBuffer }, ?_, u.length_uiRowBuffer⟩
      have hnone : u.raw.metrics.numRows - 1 < 0 := by
        change u.metrics.numRows - 1 < 0
        omega
      rw [RawUI.paint, RawUI.paintRows, forRange_eq_nil hnone]
      rfl
    · obtain ⟨s, hs, -, hlen, -⟩ :=
        UIMemory.paintRows_spec hcols nonEmpty (Int.le_refl u.metrics.numRows)
      exact ⟨s, hs, hlen⟩
  obtain ⟨s, hs, hlen⟩ := hpaint
  let u' : UIMemory := { u with uiRowBuffer := s.uiRowBuffer, length_uiRowBuffer := hlen }
  exact ⟨u'.raw, by rw [RawUI.next, hs]; rfl, u', rfl, hsize⟩

/-- **No access is outside of the grid or the row buffer**, and the arrays have the size of the
grid, over every sequence of events and repaints. -/
theorem run_safe (drawTransp : Flags) (as : List UIAction) (h : ∀ a ∈ as, a.Guaranteed) :
    ∃ r, as.foldlM (next drawTransp) {} = some r ∧ r.Sized := by
  obtain ⟨r, hr, hgrid⟩ := Machine.foldlM_rule as (f := next drawTransp) (s := {})
    (I := fun _ r => r.HoldsGrid) holdsGrid_initial fun l₁ a l₂ r hl hr => by
      have ha := h a (by simp [hl])
      cases a with
      | event garbage e => exact hr.event drawTransp ha
      | paint nonEmpty => exact hr.paint drawTransp nonEmpty
  exact ⟨r, hr, hgrid.sized⟩

/-- Text and deleted lines that reach beyond a grid of two rows and three columns. -/
def clippedActions (garbage : Garbage) : List UIAction :=
  [.paint fun _ => true,
    .event garbage (.resize ⟨8, 16, 12, 2, 3⟩),
    .event garbage (.text 1 (-1) 0 [⟨{ b0 := 0x61 }, 7⟩]),
    .event garbage (.delete (-4) 1 (-1) 9 9),
    .paint fun _ => true]

theorem clippedActions_safe :
    let as := clippedActions ⟨fun _ => {}, fun _ => 0⟩
    (∀ a ∈ as, a.Guaranteed) ∧ ∃ r, as.foldlM (next 0) {} = some r ∧ r.Sized := by
  intro as
  have h : ∀ a ∈ as, a.Guaranteed := by
    simp [as, clippedActions, UIAction.Guaranteed, UIEvent.Counted]
  exact ⟨h, run_safe 0 as h⟩

end RawUI

end Gvim
