import Mathlib.Data.Int.Notation
import Mathlib.Data.List.Basic
import Mathlib.Data.UInt
import Mathlib.Logic.Function.Basic

/-!
# The grid of the UI thread

The UI thread keeps the screen of Vim as an array of cells, one row after the other.  A cell holds a
character, or nothing where the character to its left is wide, with its colours and flags.

A `Grid` carries that its array has a cell for each row and column, and an assignment changes the
cell at its position and no other (`Grid.cell_modify`).
-/

namespace Gvim

/-! ### Cells -/

abbrev Color := UInt32

abbrev Flags := UInt32

/-- `0xFF000000 | color`. -/
def solid (c : Color) : Color := 0xFF000000 ||| c

/-- `char utf8Bytes[4]`. -/
structure Bytes4 where
  b0 : UInt8 := 0
  b1 : UInt8 := 0
  b2 : UInt8 := 0
  b3 : UInt8 := 0
  deriving DecidableEq

/-- The bytes up to the first NUL. -/
def Bytes4.text (b : Bytes4) : List UInt8 := [b.b0, b.b1, b.b2, b.b3].takeWhile (· ≠ 0)

/-- `UICell`. -/
structure UICell where
  foreground : Color := 0
  background : Color := 0
  flags : Flags := 0
  utf8Bytes : Bytes4 := {}
  deriving DecidableEq

/-- `TextCharacter`. -/
structure TextCharacter where
  utf8Bytes : Bytes4
  widthInCells : ℤ
  deriving DecidableEq

/-- The values of a loop `for (i = lo; i <= hi; i++)`. -/
def forRange (lo hi : ℤ) : List ℤ := (List.range (hi + 1 - lo).toNat).map fun k : ℕ => lo + k

theorem mem_forRange {lo hi i : ℤ} : i ∈ forRange lo hi ↔ lo ≤ i ∧ i ≤ hi := by
  simp only [forRange, List.mem_map, List.mem_range]
  constructor
  · rintro ⟨k, hk, rfl⟩
    omega
  · rintro ⟨hlo, hhi⟩
    exact ⟨(i - lo).toNat, by omega, by omega⟩

/-- The value of a pass, by the number of passes before. -/
theorem eq_of_forRange_eq_append {lo hi i : ℤ} {l₁ l₂ : List ℤ}
    (h : forRange lo hi = l₁ ++ i :: l₂) : i = lo + l₁.length ∧ i ≤ hi := by
  have hle : i ≤ hi := (mem_forRange.1 (h ▸ List.mem_append_right _ List.mem_cons_self)).2
  have hget : (forRange lo hi)[l₁.length]? = some i := by rw [h]; simp
  rw [forRange, List.getElem?_map, Option.map_eq_some_iff] at hget
  obtain ⟨k, hk, rfl⟩ := hget
  have hlt := (List.getElem?_eq_some_iff.1 hk).1
  rw [List.length_range] at hlt
  rw [List.getElem?_range hlt] at hk
  cases hk
  exact ⟨rfl, hle⟩

theorem length_forRange (lo hi : ℤ) : (forRange lo hi).length = (hi + 1 - lo).toNat := by
  rw [forRange, List.length_map, List.length_range]

theorem forRange_eq_nil {lo hi : ℤ} (h : hi < lo) : forRange lo hi = [] := by
  rw [forRange, show (hi + 1 - lo).toNat = 0 by omega]
  rfl

theorem forRange_concat {lo hi : ℤ} (h : lo ≤ hi) :
    forRange lo hi = forRange lo (hi - 1) ++ [hi] := by
  have hlen : (hi + 1 - lo).toNat = (hi - 1 + 1 - lo).toNat + 1 := by omega
  rw [forRange, hlen, List.range_succ, List.map_append, forRange]
  congr 1
  simp only [List.map_cons, List.map_nil, List.cons.injEq, and_true]
  omega

theorem pairwise_forRange (lo hi : ℤ) : (forRange lo hi).Pairwise (· < ·) := by
  rw [forRange, List.pairwise_map]
  exact List.pairwise_lt_range.imp fun h => by omega

/-! ### The array -/

/-- A position in a grid of `rows` and `cols`. -/
def InGrid (rows cols : ℤ) (p : ℤ × ℤ) : Prop := 0 ≤ p.1 ∧ 0 ≤ p.2 ∧ p.1 < rows ∧ p.2 < cols

instance decidableInGrid (rows cols : ℤ) (p : ℤ × ℤ) : Decidable (InGrid rows cols p) := by
  unfold InGrid
  infer_instance

/-- `y * gui.uiNumCols + x`. -/
def cellIndex (cols : ℤ) (p : ℤ × ℤ) : ℕ := (p.1 * cols + p.2).toNat

theorem cellIndex_lt {rows cols : ℤ} {p : ℤ × ℤ} (h : InGrid rows cols p) :
    cellIndex cols p < (rows * cols).toNat := by
  obtain ⟨hy, hx, hrow, hcol⟩ := h
  have hmul : (p.1 + 1) * cols ≤ rows * cols :=
    Int.mul_le_mul_of_nonneg_right (by omega) (by omega)
  have hpos : 0 ≤ p.1 * cols := Int.mul_nonneg hy (by omega)
  rw [Int.add_mul, Int.one_mul] at hmul
  unfold cellIndex
  omega

theorem cellIndex_inj {rows cols : ℤ} {p q : ℤ × ℤ} (hp : InGrid rows cols p)
    (hq : InGrid rows cols q) (h : cellIndex cols p = cellIndex cols q) : p = q := by
  obtain ⟨hy, hx, -, hcol⟩ := hp
  obtain ⟨hy', hx', -, hcol'⟩ := hq
  have hpos : 0 ≤ p.1 * cols := Int.mul_nonneg hy (by omega)
  have hpos' : 0 ≤ q.1 * cols := Int.mul_nonneg hy' (by omega)
  have heq : p.1 * cols + p.2 = q.1 * cols + q.2 := by
    unfold cellIndex at h
    omega
  have hrow : ∀ y x : ℤ, 0 ≤ x → x < cols → (y * cols + x) / cols = y := by
    intro y x hx hcol
    rw [Int.add_comm, Int.add_mul_ediv_right _ _ (by omega), Int.ediv_eq_zero_of_lt hx hcol,
      Int.zero_add]
  have hy : p.1 = q.1 := by rw [← hrow p.1 p.2 hx hcol, heq, hrow q.1 q.2 hx' hcol']
  refine Prod.ext hy ?_
  rw [hy] at heq
  omega

/-- `uiCells`. -/
structure Grid (rows cols : ℤ) where
  cells : List UICell
  length_cells : cells.length = (rows * cols).toNat

namespace Grid

variable {rows cols : ℤ}

/-- The cell at a position. -/
def cell (G : Grid rows cols) (p : ℤ × ℤ) : Option UICell :=
  if InGrid rows cols p then G.cells[cellIndex cols p]? else none

/-- The grid with the given cells, in the order of the array. -/
def ofFn (rows cols : ℤ) (f : ℕ → UICell) : Grid rows cols :=
  ⟨(List.range (rows * cols).toNat).map f, by rw [List.length_map, List.length_range]⟩

/-- Change the cell at a position. -/
def modify (G : Grid rows cols) (p : ℤ × ℤ) (f : UICell → UICell) : Grid rows cols :=
  ⟨G.cells.modify (cellIndex cols p) f, by rw [List.length_modify, G.length_cells]⟩

theorem cell_ofFn {p : ℤ × ℤ} (hp : InGrid rows cols p) (f : ℕ → UICell) :
    (ofFn rows cols f).cell p = some (f (cellIndex cols p)) := by
  rw [cell, if_pos hp, ofFn, List.getElem?_map, List.getElem?_range (cellIndex_lt hp),
    Option.map_some]

theorem exists_cell (G : Grid rows cols) {p : ℤ × ℤ} (hp : InGrid rows cols p) :
    ∃ c, G.cell p = some c := by
  have hlt : cellIndex cols p < G.cells.length := by
    rw [G.length_cells]
    exact cellIndex_lt hp
  exact ⟨G.cells[cellIndex cols p], by rw [cell, if_pos hp, List.getElem?_eq_getElem hlt]⟩

theorem cell_modify (G : Grid rows cols) {p : ℤ × ℤ} (hp : InGrid rows cols p)
    (f : UICell → UICell) : (G.modify p f).cell = Function.update G.cell p ((G.cell p).map f) := by
  funext q
  by_cases hq : InGrid rows cols q
  · by_cases hpq : q = p
    · subst hpq
      rw [Function.update_self, cell, cell, if_pos hq, if_pos hq, modify, List.getElem?_modify]
      simp
    · have hne : cellIndex cols p ≠ cellIndex cols q := fun h => hpq (cellIndex_inj hq hp h.symm)
      rw [Function.update_of_ne hpq, cell, cell, if_pos hq, if_pos hq, modify, List.getElem?_modify]
      simp [hne]
  · have hpq : q ≠ p := fun h => hq (h ▸ hp)
    rw [Function.update_of_ne hpq, cell, cell, if_neg hq, if_neg hq]

end Grid

end Gvim
