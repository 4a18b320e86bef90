import Mathlib.Data.List.Sort

/-!
# Texts for sets of records

A finite set of records has one text, whatever order its members come in, when they are sorted
and written one after the other in a form that shows where a record ends.

The text of a list of records determines the list if records can be read off the front of a text in
one way only (`IsCode.flatMap_inj`).  Sorting by a total order forgets the order of a list, and
nothing else (`insertionSort_eq_iff_perm`).
-/

namespace Canonical

variable {α β : Type*}

/-- The records in `S` can be read off the front of a text in one way only. -/
structure IsCode (S : α → Prop) (enc : α → List β) : Prop where
  ne_nil : ∀ {a}, S a → enc a ≠ []
  read : ∀ {a b t u}, S a → S b → enc a ++ t = enc b ++ u → a = b ∧ t = u

/-- What comes before the first `c` of a list, and what comes after it. -/
theorem split_at_first {t u x y : List β} {c : β} (ht : c ∉ t) (hu : c ∉ u)
    (h : t ++ c :: x = u ++ c :: y) : t = u ∧ x = y := by
  induction t generalizing u with
  | nil =>
    cases u with
    | nil => exact ⟨rfl, (List.cons.inj h).2⟩
    | cons d u =>
      cases (List.cons.inj h).1
      exact absurd List.mem_cons_self hu
  | cons d t ih =>
    cases u with
    | nil =>
      cases (List.cons.inj h).1
      exact absurd List.mem_cons_self ht
    | cons e u =>
      obtain ⟨rfl, hrest⟩ := List.cons.inj h
      obtain ⟨rfl, hxy⟩ := ih (fun hc => ht (.tail _ hc)) (fun hc => hu (.tail _ hc)) hrest
      exact ⟨rfl, hxy⟩

/-- Records that end with a symbol they do not have inside, as lines do. -/
theorem IsCode.of_end {S : α → Prop} {f : α → List β} {c : β}
    (hinj : ∀ {a b}, S a → S b → f a = f b → a = b) (hc : ∀ {a}, S a → c ∉ f a) :
    IsCode S fun a => f a ++ [c] where
  ne_nil _ := by simp
  read {a b t u} ha hb h := by
    rw [List.append_assoc, List.append_assoc, List.singleton_append, List.singleton_append] at h
    obtain ⟨hab, htu⟩ := split_at_first (hc ha) (hc hb) h
    exact ⟨hinj ha hb hab, htu⟩

/-- **The text of a list of records determines the list.** -/
theorem IsCode.flatMap_inj {S : α → Prop} {enc : α → List β} (h : IsCode S enc) {l l' : List α}
    (hl : ∀ a ∈ l, S a) (hl' : ∀ a ∈ l', S a) :
    l.flatMap enc = l'.flatMap enc ↔ l = l' := by
  refine ⟨fun heq => ?_, fun heq => heq ▸ rfl⟩
  induction l generalizing l' with
  | nil =>
    cases l' with
    | nil => rfl
    | cons b l' =>
      have hnil : enc b = [] := (List.append_eq_nil_iff.1 heq.symm).1
      exact absurd hnil (h.ne_nil (hl' b List.mem_cons_self))
  | cons a l ih =>
    cases l' with
    | nil =>
      have hnil : enc a = [] := (List.append_eq_nil_iff.1 heq).1
      exact absurd hnil (h.ne_nil (hl a List.mem_cons_self))
    | cons b l' =>
      obtain ⟨rfl, hrest⟩ := h.read (hl a List.mem_cons_self) (hl' b List.mem_cons_self) heq
      rw [ih (fun c hc => hl c (.tail _ hc)) (fun c hc => hl' c (.tail _ hc)) hrest]

section Sorting

variable {r : α → α → Prop} [DecidableRel r] [Std.Total r] [IsTrans α r] [Std.Antisymm r]

/-- **Sorting by a total order** forgets the order of a list, and nothing else. -/
theorem insertionSort_eq_iff_perm {l l' : List α} :
    l.insertionSort r = l'.insertionSort r ↔ l.Perm l' := by
  constructor
  · intro h
    exact (List.perm_insertionSort r l).symm.trans (h ▸ List.perm_insertionSort r l')
  · intro h
    refine List.Perm.eq_of_pairwise' (List.pairwise_insertionSort r l)
      (List.pairwise_insertionSort r l') ?_
    exact (List.perm_insertionSort r l).trans (h.trans (List.perm_insertionSort r l').symm)

end Sorting

end Canonical
