import Mathlib.Data.List.Chain
import Playbit.Package.Directives

/-!
# Reading a dependency line

A `DEPENDS` line has the name of a package, tags in brackets and a condition that starts with `if`.
`scan_directive` looks for the condition with `find(' if ')`, and only when there is no such text
for an `if` at the front; and it replaces `run` by `transitive` anywhere in a tag.

So a line is misread when there is anything but one blank behind the `if`, when there are tags and
no blank right in front of the `if`, when there are no tags and the condition has another ` if ` in
it, and when `run` is a part of another tag.

All other lines, the plain ones (`WrittenDep.Plain`), are read as they are written
(`readsAsWritten_iff`).
-/

namespace Pbuild

open Python

/-! ### Lines -/

/-- Blanks and tabs between two parts of a line. -/
def IsGap (t : Text) : Prop := t ≠ [] ∧ ∀ c ∈ t, c = ' ' ∨ c = '\t'

instance decidableIsGap (t : Text) : Decidable (IsGap t) := inferInstanceAs (Decidable (_ ∧ _))

/-- A tag in brackets. -/
structure WrittenTag where
  gap : Text
  word : Text
  isGap : IsGap gap
  isWord : IsWord word
  noBracket : ∀ c ∈ word, c ≠ '[' ∧ c ≠ ']'

/-- A condition. -/
structure WrittenCond where
  /-- Before the `if`. -/
  gap : Text
  /-- After the `if`. -/
  gap' : Text
  expr : Text
  isGap : IsGap gap
  isGap' : IsGap gap'
  isField : IsField expr

/-- A `DEPENDS` line. -/
structure WrittenDep where
  name : Text
  tags : List WrittenTag := []
  cond : Option WrittenCond := none
  /-- White space at the end. -/
  trail : Text := []
  isWord : IsWord name
  isBlank : ∀ c ∈ trail, c = ' ' ∨ c = '\t' := by simp

def WrittenTag.bracketed (t : WrittenTag) : Text := '[' :: (t.word ++ [']'])

def WrittenTag.text (t : WrittenTag) : Text := t.gap ++ t.bracketed

/-- The condition without the gap before it. -/
def WrittenCond.ifText (c : WrittenCond) : Text := 'i' :: 'f' :: (c.gap' ++ c.expr)

namespace WrittenDep

variable (l : WrittenDep)

def tagsText : Text := l.tags.flatMap WrittenTag.text

def condText : Text := (l.cond.map fun c => c.gap ++ c.ifText).getD []

/-- The value of the directive. -/
def value : Text := l.name ++ (l.tagsText ++ l.condText)

def line : Text := "#!DEPENDS ".toList ++ (l.value ++ l.trail) ++ ['\n']

end WrittenDep

/-- `run` is another name for `transitive`. -/
def tagMeaning (word : Text) : Text := if word = "run".toList then "transitive".toList else word

/-- Scanning the line yields the package with the tags and the condition of the line. -/
def ReadsAsWritten (py : StrMethods) (file : Text) (l : WrittenDep) : Prop :=
  ∃ e : ScannedDep, scanDirectives py file l.line = .ok { depends := [(l.name, e)] } ∧
    (∀ t, t ∈ e.tags ↔ t ∈ l.tags.map fun t => tagMeaning t.word) ∧
    e.cond.map CondSource.pysrc = l.cond.map fun c => "if ".toList ++ c.expr

/-- The `if` is where the scanner finds it: with one blank behind it, and a blank in front of it if
there are tags.  Without tags there is no other ` if `. -/
def WrittenCond.Plain (c : WrittenCond) (tagged : Bool) : Prop :=
  c.gap' = [' '] ∧
    if tagged then c.gap.getLast? = some ' ' else ¬ " if ".toList <:+: ' ' :: c.expr

/-- A line that is read as it is written. -/
structure WrittenDep.Plain (l : WrittenDep) : Prop where
  tags : ∀ t ∈ l.tags, t.word ≠ "run".toList → ¬ "run".toList <:+: t.word
  cond : ∀ c, l.cond = some c → c.Plain !l.tags.isEmpty

/-! ### White space -/

theorem IsGap.isSpace {t : Text} (h : IsGap t) : ∀ c ∈ t, Python.isSpace c = true := by
  intro c hc
  rcases h.2 c hc with rfl | rfl <;> decide

theorem lstrip_blank_append {t : Text} (h : ∀ c ∈ t, isSpace c = true) (u : Text) :
    lstrip (t ++ u) = lstrip u :=
  List.dropWhile_append_of_pos h

theorem lstrip_append_of_head {c : Char} (hc : isSpace c = false) (t u : Text) :
    lstrip (t ++ c :: u) = lstrip t ++ c :: u := by
  induction t with
  | nil => exact List.dropWhile_cons_of_neg (by simp [hc])
  | cons d t ih =>
    by_cases hd : isSpace d = true
    · rw [List.cons_append, lstrip, List.dropWhile_cons_of_pos hd, lstrip,
        List.dropWhile_cons_of_pos hd]
      exact ih
    · rw [List.cons_append, lstrip, List.dropWhile_cons_of_neg hd, lstrip,
        List.dropWhile_cons_of_neg hd, List.cons_append]

theorem rstrip_append_blank (t : Text) {u : Text} (h : ∀ c ∈ u, isSpace c = true) :
    rstrip (t ++ u) = rstrip t := by
  induction u using List.reverseRecOn with
  | nil => rw [List.append_nil]
  | append_singleton u c ih =>
    rw [← List.append_assoc, rstrip, List.rdropWhile_concat_pos _ _ _ (h c (by simp))]
    exact ih fun d hd => h d (List.mem_append_left _ hd)

/-- White space at the end of the end of a text is at the end of the text. -/
theorem rstrip_eq_of_suffix {s t : Text} (ht : rstrip t = t) (hs : s <:+ t) : rstrip s = s := by
  refine List.rdropWhile_eq_self_iff.2 fun hne => ?_
  obtain ⟨r, rfl⟩ := hs
  have hlast := List.rdropWhile_eq_self_iff.1 ht (by simp [hne])
  rwa [List.getLast_append_of_ne_nil _ hne] at hlast

theorem lstrip_suffix (t : Text) : lstrip t <:+ t := List.dropWhile_suffix _

theorem strip_of_suffix {s t : Text} (ht : rstrip t = t) (hs : s <:+ t) : strip s = lstrip s :=
  rstrip_eq_of_suffix ht ((lstrip_suffix s).trans hs)

/-! ### The place of the condition -/

/-- Two characters that are next to each other are not a blank and an `i`. -/
def NoIf : Text → Prop := List.IsChain fun c d => ¬ (c = ' ' ∧ d = 'i')

theorem NoIf.not_prefix {p : Char} {t u : Text} (h : NoIf (p :: t)) :
    ¬ " if ".toList <+: p :: (t ++ ' ' :: u) := by
  intro hpre
  cases t with
  | nil => simp at hpre
  | cons q t =>
    have hpq := (List.isChain_cons_cons.1 h).1
    simp only [List.cons_append] at hpre
    rw [show " if ".toList = [' ', 'i', 'f', ' '] from rfl, List.cons_prefix_cons,
      List.cons_prefix_cons] at hpre
    exact hpq ⟨hpre.1.symm, hpre.2.1.symm⟩

theorem NoIf.not_infix {t : Text} (h : NoIf t) : ¬ " if ".toList <:+: t := by
  intro hin
  have hif : NoIf [' ', 'i', 'f', ' '] := List.IsChain.infix h hin
  exact (List.isChain_cons_cons.1 hif).1 ⟨rfl, rfl⟩

theorem condIdx_cases {b : Text} {i : ℕ} (h : condIdx b = some i) :
    find? " if ".toList b = some i ∨ ¬ " if ".toList <:+: b ∧ "if ".toList <+: b ∧ i = 0 := by
  unfold condIdx at h
  cases hfind : find? " if ".toList b with
  | some j =>
    rw [hfind] at h
    exact .inl h
  | none =>
    rw [hfind] at h
    dsimp only at h
    split_ifs at h with hif
    cases h
    exact .inr ⟨find?_eq_none_iff.1 hfind, hif, rfl⟩

section Cond

variable {a x : Text} {c : WrittenCond}

theorem WrittenCond.rstrip_eq (c : WrittenCond) (a : Text) :
    rstrip (a ++ c.ifText) = a ++ c.ifText := by
  have h := rstrip_append_field (t := a ++ 'i' :: 'f' :: c.gap') c.isField
  simpa [ifText] using h

/-- Without tags, a plain condition is found at the front. -/
theorem splitCond_front (hc : c.Plain false) :
    splitCond c.ifText = ([], some ("if ".toList ++ c.expr)) := by
  obtain ⟨hgap, hin⟩ := hc
  have htext : c.ifText = "if ".toList ++ c.expr := by
    rw [WrittenCond.ifText, hgap]
    rfl
  have hnone : find? " if ".toList c.ifText = none := by
    rw [find?_eq_none_iff, WrittenCond.ifText, hgap]
    simpa [List.infix_cons_iff] using hin
  have hidx : condIdx c.ifText = some 0 := by
    unfold condIdx
    rw [hnone]
    exact if_pos (htext ▸ List.prefix_append _ _)
  have hstrip : strip c.ifText = c.ifText := by
    rw [strip, WrittenCond.ifText, lstrip, List.dropWhile_cons_of_neg (by decide)]
    exact c.rstrip_eq []
  rw [splitCond, hidx]
  dsimp only
  rw [List.drop_zero, hstrip, htext, List.take_zero]

/-- After tags, a plain condition is found where it starts. -/
theorem splitCond_after (ha : NoIf (a ++ [' '])) (hgap : c.gap' = [' ']) :
    splitCond (a ++ [' '] ++ c.ifText) = (a, some ("if ".toList ++ c.expr)) := by
  have htext : a ++ [' '] ++ c.ifText = a ++ (" if ".toList ++ c.expr) := by
    rw [WrittenCond.ifText, hgap]
    simp
  have hfind : find? " if ".toList (a ++ (" if ".toList ++ c.expr)) = some a.length := by
    refine find?_eq_some_iff.2 ⟨by simp, by simp, fun j hj => ?_⟩
    rw [List.drop_append_of_le_length hj.le, List.drop_eq_getElem_cons hj]
    refine NoIf.not_prefix ?_
    rw [← List.drop_eq_getElem_cons hj]
    exact List.IsChain.suffix (List.IsChain.left_of_append ha) (List.drop_suffix j a)
  have hidx : condIdx (a ++ (" if ".toList ++ c.expr)) = some a.length := by
    unfold condIdx
    rw [hfind]
  have hstrip : strip (" if ".toList ++ c.expr) = "if ".toList ++ c.expr := by
    have hl : lstrip (" if ".toList ++ c.expr) = "if ".toList ++ c.expr := rfl
    rw [strip, hl]
    exact rstrip_append_field c.isField
  rw [htext, splitCond, hidx]
  dsimp only
  rw [List.take_left, List.drop_left, hstrip]

/-- What ends like the text of a condition, and starts with `if` and a blank. -/
theorem gap_eq_of_suffix (h : "if ".toList ++ c.expr <:+ c.ifText) : c.gap' = [' '] := by
  obtain ⟨s, hs⟩ := h
  have hs : s ++ ['i', 'f', ' '] = 'i' :: 'f' :: c.gap' := by
    refine (List.append_left_inj c.expr).1 ?_
    simpa [WrittenCond.ifText] using hs
  rcases s with _ | ⟨d, _ | ⟨e, s⟩⟩
  · simpa using hs.symm
  · simp at hs
  · -- there is no letter in a gap
    have hmem : 'i' ∈ c.gap' := by
      simp only [List.cons_append, List.cons.injEq] at hs
      rw [← hs.2.2]
      simp
    rcases c.isGap'.2 _ hmem with h | h <;> cases h

/-- **When the condition is found where it is.**  Here `a` is what comes before the `if`, without
white space in front. -/
theorem splitCond_eq_some_iff (ha : NoIf a) :
    (splitCond (a ++ c.ifText)).2 = some ("if ".toList ++ c.expr) ↔
      c.gap' = [' '] ∧ if a = [] then ¬ " if ".toList <:+: ' ' :: c.expr
        else a.getLast? = some ' ' := by
  constructor
  · intro h
    unfold splitCond at h
    cases hidx : condIdx (a ++ c.ifText) with
    | none =>
      rw [hidx] at h
      cases h
    | some i =>
      rw [hidx] at h
      have hstrip : lstrip ((a ++ c.ifText).drop i) = "if ".toList ++ c.expr := by
        rw [← strip_of_suffix (c.rstrip_eq a) (List.drop_suffix i _)]
        exact Option.some.inj h
      have hgap : c.gap' = [' '] := by
        have hsuffix : "if ".toList ++ c.expr <:+ a ++ c.ifText :=
          hstrip ▸ (lstrip_suffix _).trans (List.drop_suffix i _)
        refine gap_eq_of_suffix
          (List.suffix_of_suffix_length_le hsuffix (List.suffix_append a _) ?_)
        have hpos : 0 < c.gap'.length := List.length_pos_iff.2 c.isGap'.1
        simp only [WrittenCond.ifText, List.length_append, List.length_cons]
        simp
        omega
      have htext : c.ifText = "if ".toList ++ c.expr := by
        rw [WrittenCond.ifText, hgap]
        rfl
      refine ⟨hgap, ?_⟩
      rw [htext] at hstrip hidx
      rcases condIdx_cases hidx with hfind | ⟨hnot, ⟨r, hr⟩, rfl⟩
      · -- what is found is the blank before the condition
        obtain ⟨-, ⟨r, hr⟩, -⟩ := find?_eq_some_iff.1 hfind
        have hr' : "if ".toList ++ r = "if ".toList ++ c.expr := by
          rw [← hr] at hstrip
          exact hstrip
        have hblank : (a ++ ("if ".toList ++ c.expr)).take i ++ [' '] = a := by
          refine (List.append_left_inj ("if ".toList ++ c.expr)).1 ?_
          conv_rhs => rw [← List.take_append_drop i (a ++ ("if ".toList ++ c.expr)), ← hr]
          rw [List.append_assoc, ← hr']
          rfl
        rw [← hblank, if_neg (by simp)]
        simp
      · have hr' : "if ".toList ++ r = "if ".toList ++ c.expr := by
          rw [List.drop_zero, ← hr] at hstrip
          exact hstrip
        have hnil : a = [] := by
          rw [hr'] at hr
          simpa using hr
        rw [if_pos hnil]
        intro hin
        refine hnot (hin.trans (List.IsSuffix.isInfix ?_))
        exact ⟨a ++ ['i', 'f'], by simp⟩
  · rintro ⟨hgap, hplace⟩
    split_ifs at hplace with hnil
    · rw [hnil, List.nil_append, splitCond_front ⟨hgap, hplace⟩]
    · obtain ⟨p, rfl⟩ : ∃ p, a = p ++ [' '] := by
        obtain ⟨p, hp⟩ := List.getLast?_eq_some_iff.1 hplace
        exact ⟨p, hp⟩
      rw [splitCond_after ha hgap]

end Cond

/-! ### Tags -/

theorem WrittenTag.isWord_bracketed (t : WrittenTag) : IsWord t.bracketed := by
  refine ⟨List.cons_ne_nil _ _, fun c hc => ?_⟩
  simp only [bracketed, List.mem_cons, List.mem_append, List.not_mem_nil, or_false] at hc
  rcases hc with rfl | hc | rfl
  · decide
  · exact t.isWord.2 c hc
  · decide

theorem WrittenTag.readTag_bracketed (t : WrittenTag) :
    readTag t.bracketed = replace "run".toList "transitive".toList t.word := by
  have hl : t.bracketed.dropWhile (· ∈ ['[', ']']) = t.word ++ [']'] := by
    rw [bracketed, List.dropWhile_cons_of_pos (by decide)]
    obtain ⟨c, w, hcw⟩ := List.exists_cons_of_ne_nil t.isWord.1
    rw [hcw, List.cons_append, List.dropWhile_cons_of_neg]
    simpa using t.noBracket c (hcw ▸ List.mem_cons_self)
  have hr : (t.word ++ [']']).rdropWhile (· ∈ ['[', ']']) = t.word := by
    rw [List.rdropWhile_concat_pos _ _ _ (by decide)]
    refine List.rdropWhile_eq_self_iff.2 fun hne => ?_
    simpa using t.noBracket _ (List.getLast_mem hne)
  rw [readTag, stripChars, hl, hr]

theorem not_infix_readTag (tag : Text) : ¬ "run".toList <:+: readTag tag := by
  refine not_infix_replace (c := 't') rfl (by decide) (by decide) (fun u hu => ?_) _
  simpa [List.infix_cons_iff] using hu

/-- What is read of a tag is what it means, unless `run` is a part of it. -/
theorem replace_run {w : Text} (h : w ≠ "run".toList → ¬ "run".toList <:+: w) :
    replace "run".toList "transitive".toList w = tagMeaning w := by
  unfold tagMeaning
  split_ifs with hrun
  · rw [hrun]
    exact replace_self (by decide)
  · exact replace_of_not_infix (h hrun)

namespace WrittenDep

variable (l : WrittenDep)

theorem splitWords_tagsText : splitWords l.tagsText = l.tags.map WrittenTag.bracketed := by
  unfold tagsText
  induction l.tags with
  | nil => rfl
  | cons t tags ih =>
    have hfirst : ∀ u, (u = [] ∨ ∃ c v, u = c :: v ∧ isSpace c = true) →
        splitWords (t.bracketed ++ u) = t.bracketed :: splitWords u := by
      rintro u (rfl | ⟨c, v, rfl, hc⟩)
      · rw [List.append_nil, splitWords_word t.isWord_bracketed]
        rfl
      · rw [splitWords_append_space _ hc, splitWords_word t.isWord_bracketed,
          splitWords_cons_space hc]
        rfl
    rw [List.flatMap_cons, WrittenTag.text, List.append_assoc,
      splitWords_blank_append t.isGap.isSpace, hfirst, ih, List.map_cons]
    cases tags with
    | nil => exact .inl rfl
    | cons t' tags =>
      obtain ⟨c, g, hg⟩ := List.exists_cons_of_ne_nil t'.isGap.1
      refine .inr ⟨c, g ++ t'.bracketed ++ tags.flatMap WrittenTag.text, ?_,
        t'.isGap.isSpace c (hg ▸ List.mem_cons_self)⟩
      rw [List.flatMap_cons, WrittenTag.text, hg, List.cons_append, List.cons_append]

/-- There is no `if` in the tags, with white space behind them or not. -/
theorem noIf_tagsText {g : Text} (hg : ∀ c ∈ g, c = ' ' ∨ c = '\t') :
    NoIf (l.tagsText ++ g) := by
  have hgap : ∀ {g : Text}, (∀ c ∈ g, c = ' ' ∨ c = '\t') → NoIf g := by
    intro g hg
    refine List.isChain_iff_getElem.2 fun i hi => ?_
    rintro ⟨-, h⟩
    rcases hg _ (List.getElem_mem hi) with h' | h' <;> rw [h'] at h <;> cases h
  unfold tagsText
  induction l.tags with
  | nil => exact hgap hg
  | cons t tags ih =>
    rw [List.flatMap_cons, WrittenTag.text, List.append_assoc, List.append_assoc]
    refine List.isChain_append.2 ⟨hgap t.isGap.2, List.isChain_append.2 ⟨?_, ih, ?_⟩, ?_⟩
    · -- there is no blank in a tag
      refine List.isChain_iff_getElem.2 fun i hi => ?_
      rintro ⟨h, -⟩
      have hsp := t.isWord_bracketed.2 _ (List.getElem_mem (Nat.lt_of_succ_lt hi))
      rw [h] at hsp
      cases hsp
    · rintro c hc d - ⟨rfl, -⟩
      rw [WrittenTag.bracketed, ← List.cons_append, List.getLast?_concat] at hc
      cases hc
    · rintro c - d hd ⟨-, rfl⟩
      simp [WrittenTag.bracketed] at hd

/-! ### Scanning the line -/

/-- What comes after the name, without the white space in front. -/
def rest : Text := lstrip (l.tagsText ++ l.condText)

theorem rstrip_value : rstrip l.value = l.value := by
  unfold value condText
  cases l.cond with
  | some c =>
    have h := c.rstrip_eq (l.name ++ l.tagsText ++ c.gap)
    simpa using h
  | none =>
    rw [Option.map_none, Option.getD_none, List.append_nil, tagsText]
    rcases List.eq_nil_or_concat l.tags with h | ⟨tags, t, h⟩
    · rw [h, List.flatMap_nil, List.append_nil]
      exact l.isWord.rstrip_eq
    · have ht := rstrip_append_word (t := l.name ++ tags.flatMap WrittenTag.text ++ t.gap)
        t.isWord_bracketed
      simpa [h, WrittenTag.text] using ht

theorem no_newline_value : ∀ c ∈ l.value, c ≠ '\n' ∧ c ≠ '\r' := by
  have hgap : ∀ {t : Text}, IsGap t → ∀ c ∈ t, c ≠ '\n' ∧ c ≠ '\r' := by
    intro t ht c hc
    rcases ht.2 c hc with rfl | rfl <;> decide
  have hword : ∀ {t : Text}, '\n' ∉ t ∧ '\r' ∉ t → ∀ c ∈ t, c ≠ '\n' ∧ c ≠ '\r' :=
    fun ht c hc => ⟨fun h => ht.1 (h ▸ hc), fun h => ht.2 (h ▸ hc)⟩
  intro c hc
  rw [value, List.mem_append, List.mem_append] at hc
  rcases hc with hc | hc | hc
  · exact hword l.isWord.2.no_newline c hc
  · obtain ⟨t, -, hc⟩ := List.mem_flatMap.1 hc
    rcases List.mem_append.1 hc with hc | hc
    · exact hgap t.isGap c hc
    · exact hword t.isWord_bracketed.2.no_newline c hc
  · unfold condText at hc
    cases hcond : l.cond with
    | none =>
      rw [hcond] at hc
      cases hc
    | some cond =>
      rw [hcond, Option.map_some, Option.getD_some, WrittenCond.ifText] at hc
      simp only [List.mem_append, List.mem_cons] at hc
      rcases hc with hc | rfl | rfl | hc | hc
      · exact hgap cond.isGap c hc
      · decide
      · decide
      · exact hgap cond.isGap' c hc
      · exact hword cond.isField.no_newline c hc

theorem lines_line : lines l.line = [l.line] := by
  have hline : ∀ c ∈ "#!DEPENDS ".toList ++ (l.value ++ l.trail), c ≠ '\n' ∧ c ≠ '\r' := by
    intro c hc
    rw [List.mem_append, List.mem_append] at hc
    rcases hc with hc | hc | hc
    · have hfront : "#!DEPENDS ".toList.all (fun c => c ≠ '\n' ∧ c ≠ '\r') = true := rfl
      exact of_decide_eq_true (List.all_eq_true.1 hfront c hc)
    · exact l.no_newline_value c hc
    · rcases l.isBlank c hc with rfl | rfl <;> decide
  exact lines_cons (fun h => (hline _ h).1 rfl) (fun h => (hline _ h).2 rfl) []

theorem isField_value : IsField l.value where
  ne_nil := by simp [value, l.isWord.1]
  lstrip_eq := Unspaced.lstrip_append l.isWord _
  rstrip_eq := l.rstrip_value
  no_newline := ⟨fun h => (l.no_newline_value _ h).1 rfl, fun h => (l.no_newline_value _ h).2 rfl⟩

theorem strip_key_value {key value u : Text} (hkey : IsWord key) (hvalue : IsField value)
    (hu : ∀ c ∈ u, isSpace c = true) :
    strip (key ++ ' ' :: value ++ u) = key ++ ' ' :: value := by
  have hfield := rstrip_append_field (t := key ++ [' ']) hvalue
  rw [strip, List.append_assoc, Unspaced.lstrip_append hkey, ← List.append_assoc,
    rstrip_append_blank _ hu]
  simpa using hfield

theorem keyValue_line (py : StrMethods) : keyValue py l.line = ("DEPENDS".toList, l.value) := by
  have hblank : ∀ c ∈ l.trail ++ ['\n'], isSpace c = true := by
    intro c hc
    rcases List.mem_append.1 hc with hc | hc
    · rcases l.isBlank c hc with rfl | rfl <;> decide
    · rw [List.mem_singleton.1 hc]
      decide
  have hdrop : l.line.drop 2 = "DEPENDS".toList ++ ' ' :: l.value ++ (l.trail ++ ['\n']) := by
    unfold line
    generalize l.value = v
    generalize l.trail = t
    simp
  have hkey : IsWord "DEPENDS".toList := by decide
  have hnot : ' ' ∉ "DEPENDS".toList := by decide
  rw [keyValue, hdrop, strip_key_value hkey l.isField_value hblank, splitMax_one hnot]
  dsimp only
  rw [py.upper_eq _ (List.all_eq_true.1 rfl), l.isField_value.lstrip_eq]

theorem after_name : l.tagsText ++ l.condText = [] ∨
    ∃ c u, l.tagsText ++ l.condText = c :: u ∧ isSpace c = true := by
  have hgap : ∀ {g : Text}, IsGap g → ∀ t, ∃ c u, g ++ t = c :: u ∧ isSpace c = true := by
    intro g hg t
    obtain ⟨c, u, rfl⟩ := List.exists_cons_of_ne_nil hg.1
    exact ⟨c, u ++ t, rfl, hg.isSpace c List.mem_cons_self⟩
  unfold tagsText condText
  cases l.tags with
  | cons t tags =>
    rw [List.flatMap_cons, WrittenTag.text, List.append_assoc, List.append_assoc]
    exact .inr (hgap t.isGap _)
  | nil =>
    cases l.cond with
    | none => exact .inl rfl
    | some c => exact .inr (hgap c.isGap _)

theorem scanDepLine_value (file : Text) (n : ℕ) :
    scanDepLine file n l.value = some ⟨l.name, (splitWords (splitCond l.rest).1).map readTag,
      (splitCond l.rest).2.map (⟨file, n, ·⟩)⟩ := by
  have hsplit : splitOnce l.value = if l.rest = [] then [l.name] else [l.name, l.rest] := by
    rw [value, rest]
    rcases l.after_name with h | ⟨c, u, h, hc⟩
    · rw [h, List.append_nil, splitOnce_unspaced l.isWord.2, if_neg l.isWord.1]
      rfl
    · rw [h, splitOnce_word_append l.isWord hc, lstrip, lstrip, List.dropWhile_cons_of_pos hc]
  rw [scanDepLine, hsplit, ← splitWords_strip]
  split_ifs with h
  · rw [h]
    rfl
  · rfl

/-- The entry that the line yields. -/
def entry (file : Text) : ScannedDep :=
  { tags := ((splitWords (splitCond l.rest).1).map readTag).foldl addToSet []
    cond := (splitCond l.rest).2.map (⟨file, 1, ·⟩) }

theorem scanDirectives_line (py : StrMethods) (file : Text) :
    scanDirectives py file l.line = .ok { depends := [(l.name, l.entry file)] } := by
  obtain ⟨u, hu⟩ : ∃ u, l.line = '#' :: '!' :: u := ⟨_, rfl⟩
  have hlines : headerLines py 0 [l.line] = [⟨1, "DEPENDS".toList, l.value⟩] := by
    rw [headerLines, if_neg (by simp [hu]), if_neg (by simp [hu]), if_neg (by simp [hu]),
      l.keyValue_line]
    rfl
  have hkey : directiveKeys.get? "DEPENDS".toList = some .depends := by decide
  rw [scanDirectives_eq_foldlM, directiveLines, l.lines_line, hlines, List.foldlM_cons,
    scanDirective, hkey]
  dsimp only
  rw [l.scanDepLine_value]
  dsimp only
  rw [requireValue, if_neg l.isField_value.ne_nil, DepLine.addTo, Dict.alter, DepLine.merge]
  simp [entry]

theorem rest_of_none (h : l.cond = none) : l.rest = lstrip l.tagsText := by
  rw [rest, condText, h, Option.map_none, Option.getD_none, List.append_nil]

theorem rest_of_some {c : WrittenCond} (h : l.cond = some c) :
    l.rest = lstrip (l.tagsText ++ c.gap) ++ c.ifText := by
  rw [rest, condText, h, Option.map_some, Option.getD_some, ← List.append_assoc]
  exact lstrip_append_of_head (by decide) _ _

theorem lstrip_tagsText {g : Text} (hg : ∀ c ∈ g, c = ' ' ∨ c = '\t') :
    (l.tags = [] ∧ lstrip (l.tagsText ++ g) = []) ∨
      l.tags ≠ [] ∧ ∃ u, lstrip (l.tagsText ++ g) = '[' :: u := by
  unfold tagsText
  cases l.tags with
  | nil =>
    refine .inl ⟨rfl, List.dropWhile_eq_nil_iff.2 fun c hc => ?_⟩
    rcases hg c hc with rfl | rfl <;> decide
  | cons t tags =>
    refine .inr ⟨List.cons_ne_nil _ _, t.word ++ [']'] ++ (tags.flatMap WrittenTag.text ++ g), ?_⟩
    rw [List.flatMap_cons, WrittenTag.text, List.append_assoc, List.append_assoc,
      lstrip_blank_append t.isGap.isSpace, WrittenTag.bracketed, List.cons_append, lstrip,
      List.dropWhile_cons_of_neg (by decide)]

theorem noIf_lstrip_tagsText {g : Text} (hg : ∀ c ∈ g, c = ' ' ∨ c = '\t') :
    NoIf (lstrip (l.tagsText ++ g)) :=
  List.IsChain.suffix (l.noIf_tagsText hg) (lstrip_suffix _)

theorem splitWords_lstrip_tagsText {g : Text} (hg : ∀ c ∈ g, c = ' ' ∨ c = '\t') :
    splitWords (lstrip (l.tagsText ++ g)) = l.tags.map WrittenTag.bracketed := by
  have hblank : ∀ c ∈ g, isSpace c = true := fun c hc => by
    rcases hg c hc with rfl | rfl <;> decide
  rw [splitWords_lstrip, splitWords_append_blank _ hblank, l.splitWords_tagsText]

theorem getLast?_lstrip_tagsText {g : Text} (hg : IsGap g) (htags : l.tags ≠ []) :
    (lstrip (l.tagsText ++ g)).getLast? = g.getLast? := by
  rcases l.lstrip_tagsText hg.2 with ⟨hnil, -⟩ | ⟨-, u, hu⟩
  · exact absurd hnil htags
  · have hall : (l.tagsText ++ g).getLast? = g.getLast? := by
      rw [List.getLast?_append, List.getLast?_eq_some_getLast hg.1]
      rfl
    obtain ⟨s, hs⟩ := lstrip_suffix (l.tagsText ++ g)
    rw [← hall]
    conv_rhs => rw [← hs]
    rw [hu, List.getLast?_append, List.getLast?_eq_some_getLast (List.cons_ne_nil _ _)]
    rfl

theorem splitCond_of_none (h : l.cond = none) : splitCond l.rest = (l.rest, none) := by
  have hnil : ∀ c ∈ ([] : Text), c = ' ' ∨ c = '\t' := by simp
  have hrest : l.rest = lstrip (l.tagsText ++ []) := by
    rw [l.rest_of_none h, List.append_nil]
  have hnone : find? " if ".toList l.rest = none :=
    find?_eq_none_iff.2 (NoIf.not_infix (hrest ▸ l.noIf_lstrip_tagsText hnil))
  have hfront : ¬ "if ".toList <+: l.rest := by
    rcases l.lstrip_tagsText hnil with ⟨-, h⟩ | ⟨-, u, h⟩ <;> rw [hrest, h] <;> simp
  rw [splitCond, condIdx, hnone]
  dsimp only
  rw [if_neg hfront]

/-- **Where the condition of a line is found.** -/
theorem splitCond_of_some {c : WrittenCond} (h : l.cond = some c) :
    (splitCond l.rest).2 = some ("if ".toList ++ c.expr) ↔ c.Plain !l.tags.isEmpty := by
  rw [l.rest_of_some h, splitCond_eq_some_iff (l.noIf_lstrip_tagsText c.isGap.2),
    WrittenCond.Plain]
  refine and_congr_right fun _ => ?_
  rcases l.lstrip_tagsText c.isGap.2 with ⟨htags, hnil⟩ | ⟨htags, u, hu⟩
  · rw [hnil, htags]
    rfl
  · rw [if_neg (by simp [hu]), l.getLast?_lstrip_tagsText c.isGap htags]
    simp [htags]

theorem mem_foldl_addToSet {ts : List Text} {s : List Text} {t : Text} :
    t ∈ ts.foldl addToSet s ↔ t ∈ s ∨ t ∈ ts := by
  induction ts generalizing s with
  | nil => simp
  | cons u ts ih =>
    have hadd : t ∈ addToSet s u ↔ t ∈ s ∨ t = u := by
      unfold addToSet
      split_ifs with hu
      · exact ⟨.inl, fun h => h.elim id fun h => h ▸ hu⟩
      · simp
    rw [List.foldl_cons, ih, hadd, List.mem_cons, or_assoc]

/-- What is before a condition that is found, or all when there is none, are the tags. -/
theorem splitWords_splitCond
    (h : ∀ c, l.cond = some c → c.Plain !l.tags.isEmpty) :
    splitWords (splitCond l.rest).1 = l.tags.map WrittenTag.bracketed := by
  cases hcond : l.cond with
  | none =>
    have hnil : ∀ c ∈ ([] : Text), c = ' ' ∨ c = '\t' := by simp
    have hwords := l.splitWords_lstrip_tagsText hnil
    rw [List.append_nil] at hwords
    rw [l.splitCond_of_none hcond, l.rest_of_none hcond, hwords]
  | some c =>
    have hwords := l.splitWords_lstrip_tagsText c.isGap.2
    have hplain := h c hcond
    rw [l.rest_of_some hcond]
    rcases l.lstrip_tagsText c.isGap.2 with ⟨htags, hnil⟩ | ⟨htags, u, hu⟩
    · rw [htags] at hplain
      rw [hnil, List.nil_append, splitCond_front hplain, htags]
      rfl
    · -- the tags end with the blank that is found
      have hlast : (lstrip (l.tagsText ++ c.gap)).getLast? = some ' ' := by
        rw [l.getLast?_lstrip_tagsText c.isGap htags]
        simpa [htags] using hplain.2
      obtain ⟨a, ha⟩ := List.getLast?_eq_some_iff.1 hlast
      have hnoIf := l.noIf_lstrip_tagsText c.isGap.2
      rw [ha] at hnoIf hwords ⊢
      rw [splitCond_after hnoIf hplain.1, ← hwords]
      exact (splitWords_append_blank _ (List.all_eq_true.1 rfl)).symm

end WrittenDep

/-- **Which lines are read as they are written.**  For every name, tags and condition, with any
blanks and tabs between them, scanning the line yields the entry that it says if and only if
`run` is not a part of another tag; and, with a condition, there is one blank after its `if`, a
blank before it when there are tags, and no other ` if ` after it when there are none. -/
theorem readsAsWritten_iff (py : StrMethods) (file : Text) (l : WrittenDep) :
    ReadsAsWritten py file l ↔ l.Plain := by
  have hcond : (l.entry file).cond.map CondSource.pysrc = (splitCond l.rest).2 := by
    rw [WrittenDep.entry, Option.map_map]
    exact Option.map_id'
  constructor
  · rintro ⟨e, hscan, htags, hcond'⟩
    rw [l.scanDirectives_line] at hscan
    obtain rfl : l.entry file = e := by
      simpa using hscan
    refine ⟨fun t ht hne hrun => ?_, fun c hc => ?_⟩
    · -- a tag with `run` in it is not among those that were read
      have hmem : t.word ∈ (l.entry file).tags := by
        refine (htags _).2 (List.mem_map.2 ⟨t, ht, ?_⟩)
        rw [tagMeaning, if_neg hne]
      rw [WrittenDep.entry, WrittenDep.mem_foldl_addToSet] at hmem
      rcases hmem with hmem | hmem
      · cases hmem
      · obtain ⟨tag, -, heq⟩ := List.mem_map.1 hmem
        exact not_infix_readTag tag (heq ▸ hrun)
    · rw [hcond, hc] at hcond'
      exact (l.splitCond_of_some hc).1 hcond'
  · intro hl
    refine ⟨l.entry file, l.scanDirectives_line py file, fun t => ?_, ?_⟩
    · have hread : (l.tags.map WrittenTag.bracketed).map readTag =
          l.tags.map fun t => tagMeaning t.word := by
        rw [List.map_map]
        refine List.map_congr_left fun t ht => ?_
        rw [Function.comp_apply, t.readTag_bracketed, replace_run (hl.tags t ht)]
      rw [WrittenDep.entry, WrittenDep.mem_foldl_addToSet, l.splitWords_splitCond hl.cond, hread]
      simp
    · rw [hcond]
      cases hc : l.cond with
      | none => rw [l.splitCond_of_none hc]; rfl
      | some c => exact (l.splitCond_of_some hc).2 (hl.cond c hc)

/-- A dependency with a conditional expression as its condition. -/
def nestedIf : WrittenDep where
  name := "zoo"
  isWord := by decide
  cond := some
    { gap := [' ']
      gap' := [' ']
      expr := "x if y else z"
      isGap := by simp [IsGap]
      isGap' := by simp [IsGap]
      isField := ⟨by decide, rfl, rfl, by decide⟩ }

/-- The condition is cut at the inner `if`, and what is before it is taken for tags. -/
theorem nestedIf_misread :
    nestedIf.line = "#!DEPENDS zoo if x if y else z\n".toList ∧
    scanDirectives .ascii "Makefile" nestedIf.line = .ok { depends :=
      [("zoo", ⟨["if", "x"], some ⟨"Makefile", 1, "if y else z"⟩⟩)] } ∧
    ¬ ReadsAsWritten .ascii "Makefile" nestedIf := by
  have hscan : scanDirectives .ascii "Makefile" nestedIf.line = .ok { depends :=
      [("zoo", ⟨["if", "x"], some ⟨"Makefile", 1, "if y else z"⟩⟩)] } := by decide +kernel
  refine ⟨by decide +kernel, hscan, ?_⟩
  rintro ⟨e, he, -, hcond⟩
  rw [hscan] at he
  cases he
  exact absurd hcond (by decide)

end Pbuild
