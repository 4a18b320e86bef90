import Playbit.Machine.Lines
import Playbit.Posix.Printf

/-!
# The words of a loop

A script that goes over the lines of a command with `for f in $(...)` does not get the lines, but
the words that the shell splits the output into, with patterns replaced by the files they match.
When the lines have been through `xargs` before, quotes and backslashes have been taken out of them;
a line with a quote that is not closed ends `xargs`.

Lines of simple words stay as they are in all three (`xargs_lines`, `lines_lines`, `fields_lines`).
-/

namespace Posix

def tab : UInt8 := 0x09

def singleQuote : UInt8 := 0x27

def doubleQuote : UInt8 := 0x22

/-- White space in `IFS`, which is also what separates the arguments of `xargs`. -/
def isBlank (b : UInt8) : Bool := b = space || b = tab || b = newline

/-! ### Arguments -/

/-- Where the reading of the input is. -/
inductive QuoteMode
  | plain
  /-- After a quote of this kind. -/
  | quoted (quote : UInt8)
  /-- After a backslash. -/
  | escape
  /-- A quote was not closed. -/
  | unmatched
  deriving DecidableEq

/-- What `xargs` has read. -/
structure ArgScan where
  mode : QuoteMode := .plain
  /-- The argument that is being read. -/
  current : Option Bytes := none
  args : List Bytes := []

/-- Go on with an argument, or start one. -/
def ArgScan.push (s : ArgScan) (mode : QuoteMode) (bytes : Bytes) : ArgScan :=
  { s with mode := mode, current := some (s.current.getD [] ++ bytes) }

/-- The next byte of the input. -/
def scanArg (s : ArgScan) (b : UInt8) : ArgScan :=
  match s.mode with
  | .plain =>
    if isBlank b then { s with current := none, args := s.args ++ s.current.toList }
    else if b = singleQuote ∨ b = doubleQuote then s.push (.quoted b) []
    else if b = backslash then s.push .escape []
    else s.push .plain [b]
  | .quoted quote =>
    if b = quote then { s with mode := .plain }
    else if b = newline then { s with mode := .unmatched }
    else s.push (.quoted quote) [b]
  | .escape => s.push .plain [b]
  | .unmatched => s

/-- The arguments that `xargs` makes of its input, up to a quote that is not closed. -/
def xargs (input : Bytes) : List Bytes :=
  let s := input.foldl scanArg {}
  if s.mode = .plain then s.args ++ s.current.toList else s.args

/-! ### Words -/

/-- The lines of a text, of which the last may have no newline. -/
def lines (t : Bytes) : List Bytes :=
  (Lines.linesOf newline t).map (Lines.content newline)

/-- Field splitting. -/
def fields (t : Bytes) : List Bytes := (t.splitOnP isBlank).filter (· ≠ [])

/-- Pathname expansion, where `glob` says what becomes of a pattern. -/
def expandPath (glob : Bytes → List Bytes) (w : Bytes) : List Bytes :=
  if w.any (· ∈ ascii "*?[\\") then glob w else [w]

/-! ### Simple words -/

/-- The bytes that something is done to. -/
def specialBytes : Bytes := ascii " \t\n'\"\\*?["

/-- A word that nothing is done to. -/
structure IsSimple (w : Bytes) : Prop where
  ne_nil : w ≠ []
  noSpecial : ∀ b ∈ w, b ∉ specialBytes

instance decidableIsSimple (w : Bytes) : Decidable (IsSimple w) :=
  decidable_of_iff (w ≠ [] ∧ w.all (· ∉ specialBytes) = true)
    ⟨fun h => ⟨h.1, by simpa using h.2⟩, fun h => ⟨h.1, by simpa using h.2⟩⟩

variable {w : Bytes} {ws : List Bytes}

theorem isBlank_eq_false {b : UInt8} (hb : b ∉ specialBytes) : isBlank b = false := by
  by_contra hblank
  rw [Bool.not_eq_false, isBlank, Bool.or_eq_true, Bool.or_eq_true, decide_eq_true_iff,
    decide_eq_true_iff, decide_eq_true_iff] at hblank
  rcases hblank with (rfl | rfl) | rfl <;> exact hb (by decide)

theorem IsSimple.newline_notMem (h : IsSimple w) : newline ∉ w := fun hb =>
  h.noSpecial _ hb (by decide)

theorem IsSimple.backslash_notMem (h : IsSimple w) : backslash ∉ w := fun hb =>
  h.noSpecial _ hb (by decide)

theorem scanArg_plain (current : Option Bytes) (args : List Bytes) {b : UInt8}
    (hb : b ∉ specialBytes) :
    scanArg ⟨.plain, current, args⟩ b = ⟨.plain, some (current.getD [] ++ [b]), args⟩ := by
  have hquote : ¬ (b = singleQuote ∨ b = doubleQuote) := by
    rintro (rfl | rfl) <;> exact hb (by decide)
  have hback : b ≠ backslash := by
    rintro rfl
    exact hb (by decide)
  rw [scanArg]
  simp only [isBlank_eq_false hb, Bool.false_eq_true, if_false, if_neg hquote, if_neg hback]
  rfl

theorem foldl_scanArg_simple (hw : ∀ b ∈ w, b ∉ specialBytes) (current : Bytes)
    (args : List Bytes) :
    w.foldl scanArg ⟨.plain, some current, args⟩ = ⟨.plain, some (current ++ w), args⟩ := by
  induction w generalizing current with
  | nil => rw [List.foldl_nil, List.append_nil]
  | cons b w ih =>
    rw [List.forall_mem_cons] at hw
    rw [List.foldl_cons, scanArg_plain _ _ hw.1, ih hw.2]
    simp

theorem foldl_scanArg_line (h : IsSimple w) (args : List Bytes) :
    (w ++ [newline]).foldl scanArg ⟨.plain, none, args⟩ = ⟨.plain, none, args ++ [w]⟩ := by
  obtain ⟨b, w, rfl⟩ := List.exists_cons_of_ne_nil h.ne_nil
  have hw := List.forall_mem_cons.1 h.noSpecial
  have hword : (b :: w).foldl scanArg ⟨.plain, none, args⟩ = ⟨.plain, some (b :: w), args⟩ := by
    rw [List.foldl_cons, scanArg_plain _ _ hw.1, foldl_scanArg_simple hw.2]
    rfl
  rw [List.foldl_append, hword]
  rfl

theorem foldl_scanArg_lines (h : ∀ w ∈ ws, IsSimple w) (args : List Bytes) :
    (ws.flatMap (· ++ [newline])).foldl scanArg ⟨.plain, none, args⟩ =
      ⟨.plain, none, args ++ ws⟩ := by
  induction ws generalizing args with
  | nil => simp
  | cons w ws ih =>
    rw [List.forall_mem_cons] at h
    rw [List.flatMap_cons, List.foldl_append, foldl_scanArg_line h.1, ih h.2]
    simp

/-- **Lines of simple words are the arguments of `xargs`.** -/
theorem xargs_lines (h : ∀ w ∈ ws, IsSimple w) : xargs (ws.flatMap (· ++ [newline])) = ws := by
  rw [xargs, show ({} : ArgScan) = ⟨.plain, none, []⟩ from rfl, foldl_scanArg_lines h]
  simp

theorem lines_lines (h : ∀ w ∈ ws, newline ∉ w) : lines (ws.flatMap (· ++ [newline])) = ws := by
  induction ws with
  | nil => rfl
  | cons w ws ih =>
    rw [List.forall_mem_cons] at h
    rw [List.flatMap_cons, List.append_assoc, List.singleton_append, lines,
      Lines.linesOf_line h.1, List.map_cons, Lines.content_line h.1, ← lines, ih h.2]

/-- **Lines of simple words are the words of a loop.** -/
theorem fields_lines (h : ∀ w ∈ ws, IsSimple w) : fields (ws.flatMap (· ++ [newline])) = ws := by
  induction ws with
  | nil => rfl
  | cons w ws ih =>
    rw [List.forall_mem_cons] at h
    have hword : w.splitOnP isBlank = [w] :=
      List.splitOnP_eq_singleton fun b hb => isBlank_eq_false (h.1.noSpecial b hb)
    rw [List.flatMap_cons, List.append_assoc, List.singleton_append, fields,
      List.splitOnP_append_cons _ _ (by decide), hword, List.filter_append, ← fields, ih h.2]
    simp [h.1.ne_nil]

theorem expandPath_of_isSimple (h : IsSimple w) (glob : Bytes → List Bytes) :
    expandPath glob w = [w] := by
  refine if_neg fun hany => ?_
  obtain ⟨b, hb, hpattern⟩ := List.any_eq_true.1 hany
  have hall : (ascii "*?[\\").all (· ∈ specialBytes) = true := rfl
  have hspecial := List.all_eq_true.1 hall b (of_decide_eq_true hpattern)
  exact h.noSpecial b hb (of_decide_eq_true hspecial)

end Posix
