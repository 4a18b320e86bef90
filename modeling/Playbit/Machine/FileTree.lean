import Mathlib.Data.List.Infix

/-!
# Directory trees

A directory is a list of entries with names, some of which are directories again.  The order of the
entries is the one in which they are read; leaves and directories carry labels.  The directory
itself, at the path `[]`, has the default label.  Only directories have something below them
(`FileTree.exists_dir_of_lookup`), and where no name is in a directory twice every entry is found
(`FileTree.lookup_leaf_of_rest`, `FileTree.lookup_dir_of_rest`).
-/

variable {κ δ α : Type*}

/-- What is in a directory: names with what they stand for, leaves or directories. -/
inductive FileTree (κ δ α : Type*)
  | nil
  | leaf (name : κ) (a : α) (rest : FileTree κ δ α)
  | dir (name : κ) (d : δ) (sub rest : FileTree κ δ α)
  deriving DecidableEq

namespace FileTree

/-- What is known of a path without looking into directories. -/
inductive Entry (δ α : Type*)
  | leaf (a : α)
  | dir (d : δ)
  deriving DecidableEq

variable [DecidableEq κ] [Inhabited δ]

/-- What is at a path below the directory. -/
def lookup : FileTree κ δ α → List κ → Option (Entry δ α)
  | _, [] => some (.dir default)
  | nil, _ :: _ => none
  | leaf name a rest, x :: p =>
    if x = name then if p = [] then some (.leaf a) else none else rest.lookup (x :: p)
  | dir name d sub rest, x :: p =>
    if x = name then if p = [] then some (.dir d) else sub.lookup p else rest.lookup (x :: p)

/-- No name is in a directory twice. -/
def Distinct : FileTree κ δ α → Prop
  | nil => True
  | leaf name _ rest => rest.lookup [name] = none ∧ rest.Distinct
  | dir name _ sub rest => rest.lookup [name] = none ∧ sub.Distinct ∧ rest.Distinct

@[simp] theorem lookup_nil (t : FileTree κ δ α) : t.lookup [] = some (.dir default) := by
  cases t <;> rfl

@[simp] theorem lookup_leaf_self (x : κ) (a : α) (rest : FileTree κ δ α) :
    (leaf x a rest).lookup [x] = some (.leaf a) := by
  rw [lookup, if_pos rfl, if_pos rfl]

@[simp] theorem lookup_dir_self (x : κ) (d : δ) (sub rest : FileTree κ δ α) :
    (dir x d sub rest).lookup [x] = some (.dir d) := by
  rw [lookup, if_pos rfl, if_pos rfl]

theorem ne_nil_of_lookup {t : FileTree κ δ α} {p : List κ} {a : α}
    (h : t.lookup p = some (.leaf a)) : p ≠ [] := by
  rintro rfl
  rw [lookup_nil] at h
  cases h

theorem lookup_nil_cases {p : List κ} {e : Entry δ α}
    (h : (nil : FileTree κ δ α).lookup p = some e) : p = [] ∧ e = .dir default := by
  cases p with
  | nil => exact ⟨rfl, (Option.some.inj h).symm⟩
  | cons x p => cases h

theorem lookup_leaf_cases {name : κ} {a : α} {rest : FileTree κ δ α} {p : List κ} {e : Entry δ α}
    (h : (leaf name a rest).lookup p = some e) :
    p = [name] ∧ e = .leaf a ∨ rest.lookup p = some e := by
  cases p with
  | nil => exact .inr ((lookup_nil rest).trans h)
  | cons x p =>
    rw [lookup] at h
    split_ifs at h with hx hp
    · exact .inl ⟨by rw [hx, hp], (Option.some.inj h).symm⟩
    · exact .inr h

theorem lookup_dir_cases {name : κ} {d : δ} {sub rest : FileTree κ δ α} {p : List κ}
    {e : Entry δ α} (h : (dir name d sub rest).lookup p = some e) :
    p = [name] ∧ e = .dir d ∨ (∃ q, q ≠ [] ∧ p = name :: q ∧ sub.lookup q = some e) ∨
      rest.lookup p = some e := by
  cases p with
  | nil => exact .inr (.inr ((lookup_nil rest).trans h))
  | cons x p =>
    rw [lookup] at h
    split_ifs at h with hx hp
    · exact .inl ⟨by rw [hx, hp], (Option.some.inj h).symm⟩
    · exact .inr (.inl ⟨p, hp, by rw [hx], h⟩)
    · exact .inr (.inr h)

theorem exists_dir_of_lookup (t : FileTree κ δ α) {p q : List κ} (hq : q ≠ []) {e : Entry δ α}
    (h : t.lookup (p ++ q) = some e) : ∃ d, t.lookup p = some (.dir d) := by
  induction t generalizing p with
  | nil =>
    cases p with
    | nil => exact ⟨default, lookup_nil _⟩
    | cons x p => cases h
  | leaf name a rest ih =>
    cases p with
    | nil => exact ⟨default, lookup_nil _⟩
    | cons x p =>
      simp only [List.cons_append, lookup, List.append_eq_nil_iff, hq, and_false, ↓reduceIte] at h
      split_ifs at h with hx
      rw [lookup, if_neg hx]
      exact ih h
  | dir name d sub rest ihsub ih =>
    cases p with
    | nil => exact ⟨default, lookup_nil _⟩
    | cons x p =>
      simp only [List.cons_append, lookup, List.append_eq_nil_iff, hq, and_false, ↓reduceIte] at h
      split_ifs at h with hx
      · rw [lookup, if_pos hx]
        by_cases hp : p = []
        · exact ⟨d, if_pos hp⟩
        · rw [if_neg hp]
          exact ihsub h
      · rw [lookup, if_neg hx]
        exact ih h

theorem lookup_cons_eq_none {t : FileTree κ δ α} {x : κ} (h : t.lookup [x] = none) (p : List κ) :
    t.lookup (x :: p) = none := by
  cases p with
  | nil => exact h
  | cons y p =>
    cases hp : t.lookup (x :: y :: p) with
    | none => rfl
    | some e =>
      obtain ⟨d, hd⟩ := t.exists_dir_of_lookup (p := [x]) (q := y :: p) (List.cons_ne_nil y p) hp
      rw [h] at hd
      cases hd

section Distinct

variable {x : κ} {rest : FileTree κ δ α} {p : List κ} {e : Entry δ α}

/-- What comes after an entry of another name is found. -/
theorem lookup_leaf_of_rest (a : α) (h : rest.lookup [x] = none) (hp : rest.lookup p = some e) :
    (leaf x a rest).lookup p = some e := by
  cases p with
  | nil => exact (lookup_nil _).trans ((lookup_nil rest).symm.trans hp)
  | cons y p =>
    have hy : y ≠ x := by
      rintro rfl
      rw [lookup_cons_eq_none h] at hp
      cases hp
    rwa [lookup, if_neg hy]

theorem lookup_dir_of_rest (d : δ) (sub : FileTree κ δ α) (h : rest.lookup [x] = none)
    (hp : rest.lookup p = some e) : (dir x d sub rest).lookup p = some e := by
  cases p with
  | nil => exact (lookup_nil _).trans ((lookup_nil rest).symm.trans hp)
  | cons y p =>
    have hy : y ≠ x := by
      rintro rfl
      rw [lookup_cons_eq_none h] at hp
      cases hp
    rwa [lookup, if_neg hy]

theorem lookup_dir_of_sub (d : δ) {sub : FileTree κ δ α} (hne : p ≠ [])
    (hp : sub.lookup p = some e) : (dir x d sub rest).lookup (x :: p) = some e := by
  rwa [lookup, if_pos rfl, if_neg hne]

end Distinct

end FileTree
