import Mathlib.Data.Finset.Card
import Mathlib.Data.Finset.Dedup
import Mathlib.Logic.Relation

/-!
# Heights in finite graphs

In a graph with finitely many nodes that have edges, the *height* of a node is the number of
these nodes that it reaches.  It decreases along every edge that is not on a cycle, so it bounds
the depth of a recursion along the edges.

The two facts are `height_lt`, for an edge, and `height_le`, for the number of nodes.
-/

namespace DepthFirst

variable {V : Type*} {r : V → V → Prop} {U : List V}

open Classical in
/-- The number of nodes of `U` that `u` reaches. -/
noncomputable def height (r : V → V → Prop) (U : List V) (u : V) : ℕ :=
  (U.toFinset.filter (Relation.ReflTransGen r u)).card

theorem height_le (r : V → V → Prop) (U : List V) (u : V) : height r U u ≤ U.length := by
  classical
  calc height r U u ≤ U.toFinset.card := Finset.card_filter_le _ _
    _ ≤ U.length := U.toFinset_card_le

/-- **Heights decrease** along an edge whose source is not on a cycle. -/
theorem height_lt {u v : V} (hU : u ∈ U) (hacyc : ¬ Relation.TransGen r u u) (h : r u v) :
    height r U v < height r U u := by
  classical
  refine Finset.card_lt_card (Finset.ssubset_iff_subset_ne.2 ⟨?_, ?_⟩)
  · intro w hw
    rw [Finset.mem_filter] at hw ⊢
    exact ⟨hw.1, hw.2.head h⟩
  · -- `u` is reached from itself, but not from `v`
    intro heq
    have hu : u ∈ U.toFinset.filter (Relation.ReflTransGen r u) :=
      Finset.mem_filter.2 ⟨List.mem_toFinset.2 hU, .refl⟩
    rw [← heq] at hu
    exact hacyc (.head' h (Finset.mem_filter.1 hu).2)

end DepthFirst
