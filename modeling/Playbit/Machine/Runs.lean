import Mathlib.Data.Int.Notation
import Mathlib.Data.List.Chain

/-!
# Maximal runs

A sequence is cut into spans `[x, y)`, one after the other, such that its elements have the same key
within a span and other ones on both sides of a cut.  Such a cutting is built from left to right,
one span after the other (`MaximalRuns.snoc`).  Every element is in a span
(`MaximalRuns.exists_span`), and there is only one such cutting (`MaximalRuns.unique`), so that it
does not matter how it is found.
-/

/-- The spans that the elements from `lo` to `hi` are cut into. -/
structure MaximalRuns {κ : Type*} (key : ℤ → κ) (lo hi : ℤ) (spans : List (ℤ × ℤ)) : Prop where
  first : ∀ s ∈ spans.head?, s.1 = lo
  last : ∀ s ∈ spans.getLast?, s.2 = hi
  covers : spans = [] → lo = hi
  adjacent : spans.IsChain fun s t => s.2 = t.1 ∧ key s.1 ≠ key t.1
  nonempty : ∀ s ∈ spans, s.1 < s.2
  equal : ∀ s ∈ spans, ∀ x, s.1 ≤ x → x < s.2 → key x = key s.1

namespace MaximalRuns

variable {κ : Type*} {key : ℤ → κ} {lo mid hi : ℤ} {spans : List (ℤ × ℤ)}

theorem nil (key : ℤ → κ) (lo : ℤ) : MaximalRuns key lo lo [] where
  first := by simp
  last := by simp
  covers := fun _ => rfl
  adjacent := .nil
  nonempty := by simp
  equal := by simp

/-- One more span, whose elements have another key than those before it. -/
theorem snoc (h : MaximalRuns key lo mid spans) (hlt : mid < hi)
    (hequal : ∀ x, mid ≤ x → x < hi → key x = key mid)
    (hcut : ∀ s ∈ spans.getLast?, key s.1 ≠ key mid) :
    MaximalRuns key lo hi (spans ++ [(mid, hi)]) where
  first := by
    cases hspans : spans with
    | nil => simpa using (h.covers hspans).symm
    | cons s spans' =>
      have hfirst := h.first
      rw [hspans] at hfirst
      simpa using hfirst
  last := by simp
  covers := by simp
  adjacent := by
    refine List.isChain_append.2 ⟨h.adjacent, .singleton _, fun s hs t ht => ?_⟩
    cases ht
    exact ⟨h.last s hs, hcut s hs⟩
  nonempty := by
    intro s hs
    rcases List.mem_append.1 hs with hs | hs
    · exact h.nonempty s hs
    · cases List.mem_singleton.1 hs
      exact hlt
  equal := by
    intro s hs
    rcases List.mem_append.1 hs with hs | hs
    · exact h.equal s hs
    · cases List.mem_singleton.1 hs
      exact hequal

theorem of_cons {s : ℤ × ℤ} (h : MaximalRuns key lo hi (s :: spans)) :
    MaximalRuns key s.2 hi spans ∧ ∀ t ∈ spans.head?, key s.1 ≠ key t.1 := by
  obtain ⟨hnext, hchain⟩ := List.isChain_cons.1 h.adjacent
  refine ⟨{
    first := fun t ht => (hnext t ht).1.symm
    last := fun t ht => h.last t ?_
    covers := fun hnil => h.last s (by simp [hnil])
    adjacent := hchain
    nonempty := fun t ht => h.nonempty t (.tail _ ht)
    equal := fun t ht => h.equal t (.tail _ ht) }, fun t ht => (hnext t ht).2⟩
  rw [List.getLast?_cons, Option.mem_def.1 ht]
  rfl

theorem within (h : MaximalRuns key lo hi spans) :
    lo ≤ hi ∧ ∀ s ∈ spans, lo ≤ s.1 ∧ s.2 ≤ hi := by
  induction spans generalizing lo with
  | nil => exact ⟨Int.le_of_eq (h.covers rfl), by simp⟩
  | cons s spans ih =>
    have hlo : s.1 = lo := h.first s rfl
    have hlt := h.nonempty s List.mem_cons_self
    obtain ⟨hle, hspans⟩ := ih h.of_cons.1
    refine ⟨by omega, List.forall_mem_cons.2 ⟨by omega, fun t ht => ?_⟩⟩
    have := hspans t ht
    omega

theorem exists_span (h : MaximalRuns key lo hi spans) {x : ℤ} (hx : lo ≤ x ∧ x < hi) :
    ∃ s ∈ spans, s.1 ≤ x ∧ x < s.2 := by
  induction spans generalizing lo with
  | nil =>
    have := h.covers rfl
    omega
  | cons s spans ih =>
    by_cases hs : x < s.2
    · exact ⟨s, List.mem_cons_self, by rw [h.first s rfl]; exact hx.1, hs⟩
    · obtain ⟨t, ht, hxt⟩ := ih h.of_cons.1 ⟨by omega, hx.2⟩
      exact ⟨t, .tail _ ht, hxt⟩

/-- A span does not end within a span that starts where it does. -/
theorem not_lt_of_cons {s : ℤ × ℤ} {y : ℤ} (h : MaximalRuns key lo hi (s :: spans))
    (hequal : ∀ x, lo ≤ x → x < y → key x = key lo) (hy : y ≤ hi) : ¬ s.2 < y := by
  intro hlt
  obtain ⟨htail, hcut⟩ := h.of_cons
  have hlo : s.1 = lo := h.first s rfl
  cases spans with
  | nil =>
    have := htail.covers rfl
    omega
  | cons t spans =>
    have hsecond : t.1 = s.2 := htail.first t rfl
    have hne := h.nonempty s List.mem_cons_self
    refine hcut t rfl ?_
    rw [hsecond, hequal s.2 (by omega) hlt, hlo]

/-- **There is one way only** to cut a sequence into maximal runs. -/
theorem unique {spans' : List (ℤ × ℤ)} (h : MaximalRuns key lo hi spans)
    (h' : MaximalRuns key lo hi spans') : spans = spans' := by
  induction spans generalizing lo spans' with
  | nil =>
    cases spans' with
    | nil => rfl
    | cons t spans' =>
      have hlo : t.1 = lo := h'.first t rfl
      have hhi := (h'.within.2 t List.mem_cons_self).2
      have hlt := h'.nonempty t List.mem_cons_self
      have := h.covers rfl
      omega
  | cons s spans ih =>
    have hlo : s.1 = lo := h.first s rfl
    have hequal := h.equal s List.mem_cons_self
    have hhi := (h.within.2 s List.mem_cons_self).2
    cases spans' with
    | nil =>
      have hlt := h.nonempty s List.mem_cons_self
      have := h'.covers rfl
      omega
    | cons t spans' =>
      have hlo' : t.1 = lo := h'.first t rfl
      have hequal' := h'.equal t List.mem_cons_self
      have hhi' := (h'.within.2 t List.mem_cons_self).2
      rw [hlo] at hequal
      rw [hlo'] at hequal'
      -- neither of the two ends before the other
      have hle := h.not_lt_of_cons hequal' hhi'
      have hle' := h'.not_lt_of_cons hequal hhi
      obtain rfl : s = t := Prod.ext (hlo.trans hlo'.symm) (by omega)
      rw [ih h.of_cons.1 h'.of_cons.1]

end MaximalRuns
