import Mathlib.Data.List.DropRight
import Playbit.Machine.Lines

/-!
# Text as Python reads it

Strings are lists of code points.  The functions here are the string methods and the
text-file reading of Python that line-oriented state files are read with: white space in the
sense of `str.isspace`, `str.rstrip()`, `str.split(None, 1)`, and the lines of a file opened in
text mode with universal newlines.

A text that starts with a line is split after it (`lines_cons`), and a word and a text with no white
space at its ends, separated by a blank, are split into the two (`splitOnce_field`).
-/

namespace Python

/-- A Python string. -/
abbrev Text := List Char

instance instLawfulBEqText : LawfulBEq Text := inferInstance

/-- `str.isspace` for one code point. -/
def isSpace (c : Char) : Bool :=
  let n := c.toNat
  (0x09 ≤ n && n ≤ 0x0D) || (0x1C ≤ n && n ≤ 0x20) || n == 0x85 || n == 0xA0 || n == 0x1680 ||
    (0x2000 ≤ n && n ≤ 0x200A) || n == 0x2028 || n == 0x2029 || n == 0x202F || n == 0x205F ||
    n == 0x3000

/-- A text with no white space in it. -/
def Unspaced (t : Text) : Prop := ∀ c ∈ t, isSpace c = false

instance (t : Text) : Decidable (Unspaced t) := List.decidableBAll _ t

/-- A non-empty text with no white space in it. -/
def IsWord (t : Text) : Prop := t ≠ [] ∧ Unspaced t

instance (t : Text) : Decidable (IsWord t) := inferInstanceAs (Decidable (_ ∧ _))

/-- `str.lstrip()`. -/
def lstrip (t : Text) : Text := t.dropWhile isSpace

/-- `str.rstrip()`. -/
def rstrip (t : Text) : Text := t.rdropWhile isSpace

/-- `str.strip()`. -/
def strip (t : Text) : Text := rstrip (lstrip t)

/-- `t.strip(c)` for a single character. -/
def stripChar (c : Char) (t : Text) : Text := (t.dropWhile (· == c)).rdropWhile (· == c)

/-- A non-empty text within a line, with no white space at its ends. -/
structure IsField (t : Text) : Prop where
  ne_nil : t ≠ []
  lstrip_eq : lstrip t = t
  rstrip_eq : rstrip t = t
  no_newline : '\n' ∉ t ∧ '\r' ∉ t

/-- `str.split(None, 1)`: at most one split, at the first run of white space. -/
def splitOnce (t : Text) : List Text :=
  let u := lstrip t
  if u = [] then []
  else
    let rest := lstrip (u.dropWhile (!isSpace ·))
    if rest = [] then [u.takeWhile (!isSpace ·)] else [u.takeWhile (!isSpace ·), rest]

/-- `str.split(sep, maxsplit)` for a separator of one code point. -/
def splitMax (sep : Char) : ℕ → Text → List Text
  | 0, t => [t]
  | n + 1, t =>
    if sep ∈ t then t.takeWhile (· ≠ sep) :: splitMax sep n (t.dropWhile (· ≠ sep)).tail else [t]

/-- `str.replace(old, new)` for a text `old` that is not empty, by at most `n` steps. -/
def replaceFuel (old new : Text) : ℕ → Text → Text
  | 0, t => t
  | _ + 1, [] => []
  | n + 1, c :: t =>
    if old <+: c :: t then new ++ replaceFuel old new n ((c :: t).drop old.length)
    else c :: replaceFuel old new n t

/-- `str.replace(old, new)` for a text `old` that is not empty. -/
def replace (old new t : Text) : Text := replaceFuel old new t.length t

/-- The characters that `shlex.quote` does not quote. -/
def shlexSafe (c : Char) : Bool :=
  c.isAlphanum || c ∈ ['_', '@', '%', '+', '=', ':', ',', '.', '/', '-']

/-- `shlex.quote`. -/
def shlexQuote (t : Text) : Text :=
  if t = [] then ['\'', '\'']
  else if t.all shlexSafe then t
  else '\'' :: (replace ['\''] ['\'', '"', '\'', '"', '\''] t ++ ['\''])

/-- Universal newlines: what reading in text mode makes of `\r\n` and `\r`. -/
def universalNewlines : Text → Text
  | [] => []
  | '\r' :: '\n' :: t => '\n' :: universalNewlines t
  | '\r' :: t => '\n' :: universalNewlines t
  | c :: t => c :: universalNewlines t

/-- The lines of a file read in text mode. -/
def lines (t : Text) : List Text := Lines.linesOf '\n' (universalNewlines t)

@[simp] theorem lines_nil : lines [] = [] := rfl

/-! ### Words -/

theorem Unspaced.append {t u : Text} (ht : Unspaced t) (hu : Unspaced u) : Unspaced (t ++ u) :=
  fun c hc => (List.mem_append.1 hc).elim (ht c) (hu c)

theorem Unspaced.no_newline {t : Text} (h : Unspaced t) : '\n' ∉ t ∧ '\r' ∉ t :=
  ⟨fun hc => absurd (h _ hc) (by decide), fun hc => absurd (h _ hc) (by decide)⟩

theorem Unspaced.lstrip_append {t : Text} (h : IsWord t) (u : Text) :
    lstrip (t ++ u) = t ++ u := by
  obtain ⟨hne, hsp⟩ := h
  cases t with
  | nil => exact absurd rfl hne
  | cons c t => simp [lstrip, hsp c (by simp)]

theorem IsWord.lstrip_eq {t : Text} (h : IsWord t) : lstrip t = t := by
  simpa using Unspaced.lstrip_append h []

theorem rstrip_append_word {t u : Text} (h : IsWord u) : rstrip (t ++ u) = t ++ u := by
  obtain ⟨hne, hsp⟩ := h
  obtain ⟨v, c, rfl⟩ : ∃ v c, u = v ++ [c] := by
    rcases List.eq_nil_or_concat u with h | ⟨v, c, h⟩
    · exact absurd h hne
    · exact ⟨v, c, by simpa using h⟩
  rw [← List.append_assoc]
  exact List.rdropWhile_concat_neg _ _ _ (by simp [hsp c (by simp)])

theorem rstrip_newline (t : Text) : rstrip (t ++ ['\n']) = rstrip t :=
  List.rdropWhile_concat_pos _ _ _ (by decide)

theorem IsWord.rstrip_eq {t : Text} (h : IsWord t) : rstrip t = t := by
  simpa using rstrip_append_word (t := []) h

theorem IsWord.strip_eq {t : Text} (h : IsWord t) : strip t = t := by
  rw [strip, h.lstrip_eq, h.rstrip_eq]

theorem IsWord.isField {t : Text} (h : IsWord t) : IsField t :=
  ⟨h.1, h.lstrip_eq, h.rstrip_eq, h.2.no_newline⟩

theorem rstrip_append_field {t u : Text} (h : IsField u) : rstrip (t ++ u) = t ++ u := by
  have hlast := List.rdropWhile_eq_self_iff.1 h.rstrip_eq h.ne_nil
  refine List.rdropWhile_eq_self_iff.2 fun hne => ?_
  rwa [List.getLast_append_of_ne_nil hne h.ne_nil]

theorem splitOnce_word_append {t : Text} (ht : IsWord t) {c : Char} (hc : isSpace c = true)
    (u : Text) : splitOnce (t ++ c :: u) = if lstrip u = [] then [t] else [t, lstrip u] := by
  have hdrop : (t ++ c :: u).dropWhile (!isSpace ·) = c :: u := by
    rw [List.dropWhile_append_of_pos (fun c hc => by simp [ht.2 c hc])]
    exact List.dropWhile_cons_of_neg (by simp [hc])
  have htake : (t ++ c :: u).takeWhile (!isSpace ·) = t := by
    rw [List.takeWhile_append_of_pos (fun c hc => by simp [ht.2 c hc])]
    rw [List.takeWhile_cons_of_neg (by simp [hc]), List.append_nil]
  have hrest : lstrip (c :: u) = lstrip u := List.dropWhile_cons_of_pos hc
  simp only [splitOnce, Unspaced.lstrip_append ht, hdrop, htake, hrest]
  rw [if_neg (by simp)]

theorem splitOnce_field {t u : Text} (ht : IsWord t) (hu : IsField u) :
    splitOnce (t ++ ' ' :: u) = [t, u] := by
  rw [splitOnce_word_append ht (by decide), hu.lstrip_eq, if_neg hu.ne_nil]

/-- There is nothing to split in a text without white space. -/
theorem splitOnce_unspaced {t : Text} (h : Unspaced t) :
    splitOnce t = if t = [] then [] else [t] := by
  by_cases hne : t = []
  · rw [hne]
    rfl
  · have hdrop : t.dropWhile (!isSpace ·) = [] :=
      List.dropWhile_eq_nil_iff.2 fun c hc => by simp [h c hc]
    have htake : t.takeWhile (!isSpace ·) = t :=
      List.takeWhile_eq_self_iff.2 fun c hc => by simp [h c hc]
    simp only [splitOnce, IsWord.lstrip_eq ⟨hne, h⟩, hdrop, htake, hne, if_false]
    rfl

/-! ### Lines -/

theorem universalNewlines_append {t : Text} (h : '\r' ∉ t) (u : Text) :
    universalNewlines (t ++ u) = t ++ universalNewlines u := by
  induction t with
  | nil => rfl
  | cons c t ih =>
    have hc : c ≠ '\r' := fun hc => h (by simp [hc])
    rw [List.cons_append, universalNewlines, ih fun hm => h (by simp [hm]), List.cons_append]
    · rintro u rfl; exact absurd rfl hc
    · exact hc

theorem lines_cons {t : Text} (hn : '\n' ∉ t) (hr : '\r' ∉ t) (u : Text) :
    lines (t ++ '\n' :: u) = (t ++ ['\n']) :: lines u := by
  have hu : universalNewlines ('\n' :: u) = '\n' :: universalNewlines u := by
    rw [universalNewlines]
    · rintro u h; cases h
    · intro h; cases h
  rw [lines, universalNewlines_append hr, hu, Lines.linesOf_line hn]
  rfl

theorem lines_flatMap {α : Type*} {f : α → Text} {l : List α}
    (h : ∀ a ∈ l, '\n' ∉ f a ∧ '\r' ∉ f a) (u : Text) :
    lines (l.flatMap (fun a => f a ++ ['\n']) ++ u) =
      l.map (fun a => f a ++ ['\n']) ++ lines u := by
  induction l with
  | nil => rfl
  | cons a l ih =>
    obtain ⟨hn, hr⟩ := h a List.mem_cons_self
    rw [List.flatMap_cons, List.append_assoc, List.append_assoc, List.singleton_append,
      lines_cons hn hr, ih fun b hb => h b (.tail _ hb), List.map_cons, List.cons_append]

theorem lines_incomplete {t : Text} (hn : '\n' ∉ t) (hr : '\r' ∉ t) (hne : t ≠ []) :
    lines t = [t] := by
  have hu : universalNewlines t = t := by
    simpa [universalNewlines] using universalNewlines_append hr []
  rw [lines, hu, Lines.linesOf_incomplete hn hne]

theorem notMem_universalNewlines (t : Text) : '\r' ∉ universalNewlines t := by
  fun_induction universalNewlines t with
  | case1 => exact List.not_mem_nil
  | case2 t ih => simpa using ih
  | case3 t _ ih => simpa using ih
  | case4 c t _ hc ih => simpa [ih] using fun h => hc h.symm

/-- What is left of a line without the white space at its end has no newline. -/
theorem no_newline_rstrip {l t : Text} (h : l ∈ lines t) : '\n' ∉ rstrip l ∧ '\r' ∉ rstrip l := by
  obtain ⟨u, hu, hl, hsub⟩ := Lines.exists_of_mem_linesOf h
  have hstrip : rstrip l = rstrip u := by
    rcases hl with rfl | rfl
    · rfl
    · exact rstrip_newline u
  constructor
  · rw [hstrip]
    exact fun hc => hu ((List.rdropWhile_prefix _ _).subset hc)
  · exact fun hc => notMem_universalNewlines t (hsub _ ((List.rdropWhile_prefix _ _).subset hc))

/-- The parts of a text do not have the separator in them. -/
theorem notMem_of_mem_splitOn {α : Type*} [DecidableEq α] {a : α} {t c : List α}
    (h : c ∈ t.splitOn a) : a ∉ c := by
  induction t generalizing c with
  | nil =>
    rw [List.splitOn_nil, List.mem_singleton] at h
    simp [h]
  | cons x t ih =>
    rw [List.splitOn_cons_eq_if_modifyHead] at h
    split_ifs at h with hx
    · rcases List.mem_cons.1 h with rfl | h
      · exact List.not_mem_nil
      · exact ih h
    · obtain ⟨w, ws, hsplit⟩ := List.exists_cons_of_ne_nil (List.splitOn_ne_nil a t)
      rw [hsplit, List.modifyHead_cons] at h
      rcases List.mem_cons.1 h with rfl | h
      · have hw := ih (c := w) (by simp [hsplit])
        simp only [List.mem_cons, not_or]
        exact ⟨fun heq => hx (by simp [heq]), hw⟩
      · exact ih (by simp [hsplit, h])

theorem subset_of_mem_splitOn {α : Type*} [DecidableEq α] {a : α} {t c : List α}
    (h : c ∈ t.splitOn a) : c ⊆ t := by
  induction t generalizing c with
  | nil =>
    rw [List.splitOn_nil, List.mem_singleton] at h
    simp [h]
  | cons x t ih =>
    rw [List.splitOn_cons_eq_if_modifyHead] at h
    split_ifs at h
    · rcases List.mem_cons.1 h with rfl | h
      · exact List.nil_subset _
      · exact List.subset_cons_of_subset _ (ih h)
    · obtain ⟨w, ws, hsplit⟩ := List.exists_cons_of_ne_nil (List.splitOn_ne_nil a t)
      rw [hsplit, List.modifyHead_cons] at h
      rcases List.mem_cons.1 h with rfl | h
      · exact List.cons_subset_cons _ (ih (by simp [hsplit]))
      · exact List.subset_cons_of_subset _ (ih (by simp [hsplit, h]))

end Python
