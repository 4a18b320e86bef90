import Mathlib.Data.List.Forall2
import Mathlib.Data.List.Nodup

/-!
# Lists

Facts about lists that are not in the library: a list with one more element at its end, lists that
are related element by element, removing repetitions, and joining lists with a separator.
-/

namespace Machine

variable {α : Type*}

/-! ### One more element -/

theorem exists_mem_concat {l : List α} {x : α} {P : α → Prop} :
    (∃ y ∈ l ++ [x], P y) ↔ (∃ y ∈ l, P y) ∨ P x := by
  simp only [List.mem_append, List.mem_singleton, or_and_right, exists_or, exists_eq_left]

/-- Where a list with one more element at its end can be split. -/
theorem concat_eq_append_cons_iff {l l₁ l₂ : List α} {x y : α} :
    l ++ [x] = l₁ ++ y :: l₂ ↔
      (∃ l₃, l₂ = l₃ ++ [x] ∧ l = l₁ ++ y :: l₃) ∨ l₂ = [] ∧ l = l₁ ∧ x = y := by
  constructor
  · intro h
    rcases List.eq_nil_or_concat l₂ with rfl | ⟨l₃, z, rfl⟩
    · obtain ⟨rfl, hx⟩ := List.append_inj' h rfl
      exact .inr ⟨rfl, rfl, (List.cons.inj hx).1⟩
    · rw [List.concat_eq_append, ← List.cons_append, ← List.append_assoc] at h
      obtain ⟨rfl, hx⟩ := List.append_inj' h rfl
      rw [List.concat_eq_append, (List.cons.inj hx).1]
      exact .inl ⟨l₃, rfl, rfl⟩
  · rintro (⟨l₃, rfl, rfl⟩ | ⟨rfl, rfl, rfl⟩)
    · simp
    · rfl

/-- What holds wherever a list with one more element is split. -/
theorem forall_concat_split_iff {l : List α} {x : α} {P : List α → α → Prop} :
    (∀ l₁ y l₂, l ++ [x] = l₁ ++ y :: l₂ → P l₁ y) ↔
      (∀ l₁ y l₂, l = l₁ ++ y :: l₂ → P l₁ y) ∧ P l x := by
  constructor
  · intro h
    exact ⟨fun l₁ y l₂ hl => h l₁ y (l₂ ++ [x]) (by simp [hl]), h l x [] rfl⟩
  · rintro ⟨h, hx⟩ l₁ y l₂ hl
    rcases concat_eq_append_cons_iff.1 hl with ⟨l₃, -, hl⟩ | ⟨-, rfl, rfl⟩
    · exact h l₁ y l₃ hl
    · exact hx

/-! ### Lists that are related element by element -/

theorem exists_of_forall₂ {β : Type*} {R : α → β → Prop} {l₁ : List α} {l₂ : List β}
    (h : List.Forall₂ R l₁ l₂) :
    (∀ a ∈ l₁, ∃ b ∈ l₂, R a b) ∧ ∀ b ∈ l₂, ∃ a ∈ l₁, R a b := by
  induction h with
  | nil => simp
  | cons hab _ ih =>
    constructor
    · refine List.forall_mem_cons.2 ⟨⟨_, List.mem_cons_self, hab⟩, fun a ha => ?_⟩
      obtain ⟨b, hb, hR⟩ := ih.1 a ha
      exact ⟨b, .tail _ hb, hR⟩
    · refine List.forall_mem_cons.2 ⟨⟨_, List.mem_cons_self, hab⟩, fun b hb => ?_⟩
      obtain ⟨a, ha, hR⟩ := ih.2 b hb
      exact ⟨a, .tail _ ha, hR⟩

/-! ### Separators -/

theorem intercalate_append (sep : List α) {xs ys : List (List α)} (hx : xs ≠ []) (hy : ys ≠ []) :
    sep.intercalate (xs ++ ys) = sep.intercalate xs ++ sep ++ sep.intercalate ys := by
  induction xs with
  | nil => exact absurd rfl hx
  | cons x xs ih =>
    cases xs with
    | nil => simp [List.intercalate_cons_of_ne_nil hy]
    | cons x' xs =>
      rw [List.cons_append, List.intercalate_cons_of_ne_nil (by simp), ih (by simp),
        List.intercalate_cons_of_ne_nil (List.cons_ne_nil x' xs)]
      simp only [List.append_assoc]

/-! ### Sets as lists -/

variable [BEq α] [LawfulBEq α]

theorem mem_ite_insert (c : Bool) (l : List α) (x y : α) :
    x ∈ (if c then l.insert y else l) ↔ x ∈ l ∨ c = true ∧ y = x := by
  cases c with
  | false => simp
  | true => simp [or_comm, eq_comm]

theorem nodup_eraseDups (l : List α) : l.eraseDups.Nodup := by
  induction h : l.length using Nat.strongRecOn generalizing l with
  | ind n ih =>
    cases l with
    | nil => simp
    | cons a l =>
      rw [List.eraseDups_cons, List.nodup_cons]
      refine ⟨by simp, ih _ ?_ _ rfl⟩
      rw [← h, List.length_cons]
      exact Nat.lt_succ_of_le (List.length_filter_le _ _)

end Machine
