import Playbit.Python.Text
import Mathlib.Data.List.Infix

/-!
# Searching and splitting texts

More of the string methods of Python: `split()` and `split(None, n)`, `find`, `strip` with a set of
characters, and what `replace` leaves.

For `find` it is said where a text is found, and when it is not; for `replace` that a text which has
been replaced everywhere does not come back (`not_infix_replace`).
-/

namespace Python

/-- `str.split()`. -/
def splitWords (t : Text) : List Text := (t.splitOnP isSpace).filter (· ≠ [])

/-- `str.split(None, n)`: at most `n` splits, at runs of white space. -/
def splitUpTo : ℕ → Text → List Text
  | 0, t => if lstrip t = [] then [] else [lstrip t]
  | n + 1, t =>
    let u := lstrip t
    if u = [] then []
    else u.takeWhile (!isSpace ·) :: splitUpTo n (u.dropWhile (!isSpace ·))

/-- `t.find(sub)`, where `none` stands for -1. -/
def find? (sub : Text) : Text → Option ℕ
  | [] => if sub = [] then some 0 else none
  | c :: t => if sub <+: c :: t then some 0 else (find? sub t).map (· + 1)

/-- `t.strip(chars)`. -/
def stripChars (chars : List Char) (t : Text) : Text :=
  (t.dropWhile (· ∈ chars)).rdropWhile (· ∈ chars)

/-! ### Words -/

@[simp] theorem splitWords_nil : splitWords [] = [] := rfl

theorem splitWords_append_space (t : Text) {c : Char} (hc : isSpace c = true) (u : Text) :
    splitWords (t ++ c :: u) = splitWords t ++ splitWords u := by
  rw [splitWords, List.splitOnP_append_cons t u hc, List.filter_append]
  rfl

theorem splitWords_cons_space {c : Char} (hc : isSpace c = true) (u : Text) :
    splitWords (c :: u) = splitWords u := by
  have h := splitWords_append_space [] hc u
  rwa [List.nil_append] at h

theorem splitWords_word {t : Text} (h : IsWord t) : splitWords t = [t] := by
  rw [splitWords, List.splitOnP_eq_singleton h.2, List.filter_singleton]
  simp [h.1]

theorem splitWords_blank_append {t : Text} (h : ∀ c ∈ t, isSpace c = true) (u : Text) :
    splitWords (t ++ u) = splitWords u := by
  induction t with
  | nil => rfl
  | cons c t ih =>
    rw [List.cons_append, splitWords_cons_space (h c List.mem_cons_self),
      ih fun d hd => h d (.tail _ hd)]

theorem splitWords_append_blank (t : Text) {u : Text} (h : ∀ c ∈ u, isSpace c = true) :
    splitWords (t ++ u) = splitWords t := by
  cases u with
  | nil => rw [List.append_nil]
  | cons c u =>
    have hnil : splitWords u = [] := by
      simpa using splitWords_blank_append (fun d hd => h d (.tail _ hd)) []
    rw [splitWords_append_space t (h c List.mem_cons_self), hnil, List.append_nil]

theorem splitWords_lstrip (t : Text) : splitWords (lstrip t) = splitWords t := by
  conv_rhs => rw [← List.takeWhile_append_dropWhile (p := isSpace) (l := t)]
  exact (splitWords_blank_append (fun c hc => List.mem_takeWhile_imp hc) _).symm

theorem splitWords_strip (t : Text) : splitWords (strip t) = splitWords t := by
  have hr : ∀ u, splitWords (rstrip u) = splitWords u := by
    intro u
    conv_rhs => rw [← List.rdropWhile_append_rtakeWhile (p := isSpace) (l := u)]
    exact (splitWords_append_blank _ fun c hc => List.mem_rtakeWhile_imp hc).symm
  rw [strip, hr, splitWords_lstrip]

theorem splitMax_one {sep : Char} {t : Text} (h : sep ∉ t) (u : Text) :
    splitMax sep 1 (t ++ sep :: u) = [t, u] := by
  have hne : ∀ c ∈ t, decide (c ≠ sep) = true := fun c hc =>
    decide_eq_true (ne_of_mem_of_not_mem hc h)
  rw [splitMax, if_pos (by simp), List.takeWhile_append_of_pos hne,
    List.dropWhile_append_of_pos hne, List.takeWhile_cons_of_neg (by simp),
    List.dropWhile_cons_of_neg (by simp), List.append_nil]
  rfl

/-! ### Searching -/

theorem find?_eq_none_iff {sub t : Text} : find? sub t = none ↔ ¬ sub <:+: t := by
  induction t with
  | nil => simp [find?]
  | cons c t ih =>
    rw [find?, List.infix_cons_iff, not_or]
    split_ifs with h
    · simp [h]
    · simp [h, ih]

theorem find?_eq_some_iff {sub t : Text} {i : ℕ} :
    find? sub t = some i ↔
      i ≤ t.length ∧ sub <+: t.drop i ∧ ∀ j < i, ¬ sub <+: t.drop j := by
  induction t generalizing i with
  | nil =>
    rw [find?, List.drop_nil, List.length_nil, List.prefix_nil]
    split_ifs with h
    · constructor
      · rintro ⟨⟩
        simp [h]
      · rintro ⟨hi, -, -⟩
        rw [Nat.le_zero.1 hi]
    · simp [h]
  | cons c t ih =>
    rw [find?]
    split_ifs with h
    · constructor
      · rintro ⟨⟩
        simp [h]
      · rintro ⟨-, -, hfirst⟩
        by_contra hne
        have hpos : 0 < i := Nat.pos_of_ne_zero fun hi => hne (by rw [hi])
        exact hfirst 0 hpos h
    · rw [Option.map_eq_some_iff]
      cases i with
      | zero => simp [h]
      | succ i =>
        have hbelow : (∀ j < i + 1, ¬ sub <+: (c :: t).drop j) ↔ ∀ j < i, ¬ sub <+: t.drop j := by
          rw [Nat.forall_lt_succ_left]
          simp [h]
        rw [hbelow, List.drop_succ_cons, List.length_cons, Nat.succ_le_succ_iff, ← ih]
        simp

/-! ### Replacing -/

section Replace

variable {old new : Text}

theorem replaceFuel_of_not_infix {n : ℕ} {t : Text} (h : ¬ old <:+: t) :
    replaceFuel old new n t = t := by
  induction n generalizing t with
  | zero => rfl
  | succ n ih =>
    cases t with
    | nil => rfl
    | cons c t =>
      rw [List.infix_cons_iff, not_or] at h
      rw [replaceFuel, if_neg h.1, ih h.2]

theorem replace_of_not_infix {t : Text} (h : ¬ old <:+: t) : replace old new t = t :=
  replaceFuel_of_not_infix h

theorem replaceFuel_nil (n : ℕ) : replaceFuel old new n [] = [] := by
  cases n <;> rfl

theorem replace_self (h : old ≠ []) : replace old new old = new := by
  cases old with
  | nil => exact absurd rfl h
  | cons c t => simp [replace, replaceFuel, replaceFuel_nil]

theorem replaceFuel_eq (hold : old ≠ []) {n : ℕ} {t : Text} (h : t.length ≤ n) :
    replaceFuel old new n t = replace old new t := by
  have key : ∀ m n t, t.length ≤ m → t.length ≤ n →
      replaceFuel old new m t = replaceFuel old new n t := by
    intro m
    induction m with
    | zero =>
      intro n t hm _
      rw [List.length_eq_zero_iff.1 (Nat.le_zero.1 hm), replaceFuel_nil, replaceFuel_nil]
    | succ m ih =>
      intro n t hm hn
      cases t with
      | nil => rw [replaceFuel_nil, replaceFuel_nil]
      | cons c t =>
        obtain ⟨n, rfl⟩ := Nat.exists_eq_add_of_le' (Nat.one_le_of_lt hn)
        have hpos : 0 < old.length := List.length_pos_iff.2 hold
        have hm' : t.length ≤ m := Nat.le_of_succ_le_succ hm
        have hn' : t.length ≤ n := Nat.le_of_succ_le_succ hn
        have hdrop : ((c :: t).drop old.length).length ≤ t.length := by
          rw [List.length_drop, List.length_cons]
          omega
        rw [replaceFuel, replaceFuel, ih n t hm' hn',
          ih n _ (hdrop.trans hm') (hdrop.trans hn')]
  exact key n t.length t h le_rfl

theorem replace_cons {c : Char} {t : Text} (h : ¬ old <+: c :: t) :
    replace old new (c :: t) = c :: replace old new t :=
  if_neg h

theorem replace_append (hold : old ≠ []) (u : Text) :
    replace old new (old ++ u) = new ++ replace old new u := by
  obtain ⟨c, t, rfl⟩ := List.exists_cons_of_ne_nil hold
  have hpre : c :: t <+: c :: (t ++ u) := ⟨u, rfl⟩
  have hdrop : (c :: (t ++ u)).drop (c :: t).length = u := List.drop_left
  rw [replace, List.cons_append, List.length_cons, replaceFuel, if_pos hpre, hdrop,
    replaceFuel_eq hold (by simp)]

theorem prefix_append_cons_iff {c : Char} (hc : c ∉ old) {t u : Text} :
    old <+: t ++ c :: u ↔ old <+: t := by
  refine ⟨fun h => ?_, fun h => h.trans (List.prefix_append _ _)⟩
  rcases Nat.lt_or_ge t.length old.length with hlt | hle
  · have hpre : t ++ [c] <+: old := by
      refine List.prefix_of_prefix_length_le ⟨u, by simp⟩ h ?_
      rw [List.length_append]
      exact hlt
    exact absurd (hpre.subset (by simp)) hc
  · exact List.prefix_of_prefix_length_le h (List.prefix_append _ _) hle

/-- What is on the two sides of a character is replaced separately, if it is not replaced itself. -/
theorem replace_append_cons {c : Char} (hc : c ∉ old) (hold : old ≠ []) (t u : Text) :
    replace old new (t ++ c :: u) = replace old new t ++ c :: replace old new u := by
  induction hn : t.length using Nat.strong_induction_on generalizing t with
  | _ n ih =>
    cases t with
    | nil =>
      refine replace_cons fun h => ?_
      obtain ⟨d, old, rfl⟩ := List.exists_cons_of_ne_nil hold
      exact hc (by simp [(List.cons_prefix_cons.1 h).1])
    | cons d t =>
      by_cases h : old <+: d :: t
      · obtain ⟨v, hv⟩ := h
        have hlen : v.length < n := by
          have hsum := congrArg List.length hv
          have hpos : 0 < old.length := List.length_pos_iff.2 hold
          rw [List.length_append] at hsum
          omega
        rw [← hv, List.append_assoc, replace_append hold, replace_append hold, ih _ hlen v rfl,
          List.append_assoc]
      · have h' : ¬ old <+: d :: (t ++ c :: u) := fun hp => h ((prefix_append_cons_iff hc).1 hp)
        rw [List.cons_append, replace_cons h', replace_cons h, List.cons_append,
          ih t.length (by rw [← hn]; exact Nat.lt_succ_self _) t rfl]

/-- What can not start in the first part of a text is in the second. -/
theorem infix_of_infix_append {c : Char} (hold : old.head? = some c) {t u : Text} (hc : c ∉ t)
    (h : old <:+: t ++ u) : old <:+: u := by
  induction t with
  | nil => exact h
  | cons d t ih =>
    rcases List.infix_cons_iff.1 h with h | h
    · cases old with
      | nil => cases hold
      | cons e old =>
        cases hold
        exact absurd (by simp [(List.cons_prefix_cons.1 h).1]) hc
    · exact ih (fun hm => hc (.tail _ hm)) h

/-- Nothing that starts in what is left of a text goes on in what has been put in. -/
theorem prefix_of_prefix_replaceFuel {c : Char} {s t : Text} {n : ℕ} (hnew : new.head? = some c)
    (hc : c ∉ s) (h : s <+: replaceFuel old new n t) : s <+: t := by
  induction n generalizing s t with
  | zero => exact h
  | succ n ih =>
    cases s with
    | nil => exact List.nil_prefix
    | cons d s =>
      cases t with
      | nil => simp [replaceFuel] at h
      | cons e t =>
        rw [replaceFuel] at h
        split_ifs at h with hold
        · obtain ⟨new', rfl⟩ : ∃ new', new = c :: new' := by
            cases new with
            | nil => cases hnew
            | cons x new' =>
              cases hnew
              exact ⟨new', rfl⟩
          rw [List.cons_append, List.cons_prefix_cons] at h
          exact absurd (h.1 ▸ List.mem_cons_self) hc
        · rw [List.cons_prefix_cons] at h ⊢
          exact ⟨h.1, ih (fun hs => hc (.tail _ hs)) h.2⟩

/-- **What has been replaced everywhere does not come back**, if it can not start in what is put in
its place, and what is put in does not start like a part of it. -/
theorem not_infix_replace {c : Char} (hnew : new.head? = some c) (hc : c ∉ old) (hold : old ≠ [])
    (hin : ∀ u, old <:+: new ++ u → old <:+: u) (t : Text) : ¬ old <:+: replace old new t := by
  have key : ∀ n t, t.length ≤ n → ¬ old <:+: replaceFuel old new n t := by
    intro n
    induction n with
    | zero =>
      intro t ht
      rw [List.length_eq_zero_iff.1 (Nat.le_zero.1 ht), replaceFuel, List.infix_nil]
      exact hold
    | succ n ih =>
      intro t ht h
      cases t with
      | nil => exact hold (List.infix_nil.1 h)
      | cons d t =>
        have hlen : t.length ≤ n := Nat.le_of_succ_le_succ ht
        rw [replaceFuel] at h
        split_ifs at h with hpre
        · refine ih _ ?_ (hin _ h)
          have hpos : 0 < old.length := List.length_pos_iff.2 hold
          rw [List.length_drop, List.length_cons]
          omega
        · rcases List.infix_cons_iff.1 h with h | h
          · refine hpre ?_
            cases old with
            | nil => exact absurd rfl hold
            | cons x old =>
              rw [List.cons_prefix_cons] at h ⊢
              exact ⟨h.1, prefix_of_prefix_replaceFuel hnew (fun hs => hc (.tail _ hs)) h.2⟩
          · exact ih t hlen h
  exact key t.length t le_rfl

end Replace

end Python
