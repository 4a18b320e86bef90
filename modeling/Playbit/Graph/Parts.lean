import Playbit.Graph.Closure

/-!
# Traversals that share what is finished

Groups of nodes are traversed one after the other with `postorder`, all with the same list.  What a
group adds to the list is its *part*: the nodes it reaches that no group before it has reached.

Parts are built one group at a time (`Parts.concat`).  No node is in two of them
(`Parts.eq_of_mem`), and in each of them nodes come after those they lead to (`Parts.above`).
-/

namespace DepthFirst

variable {κ V : Type*} {r : V → V → Prop} {succ : V → List V} {l : List V} {u v w : V}

/-- What comes before a node in a sorted list is reached in any number of steps. -/
theorem Sorted.transGen (h : Sorted r l) : Sorted (Relation.TransGen r) l := by
  intro l₁ u l₂ hl w hw
  induction hw with
  | single hr => exact h l₁ u l₂ hl _ hr
  | @tail v w _ hr ih =>
    obtain ⟨l₃, l₄, rfl⟩ := List.append_of_mem ih
    exact List.mem_append_left _ (h l₃ v (l₄ ++ u :: l₂) (by simp [hl]) w hr)

theorem Sorted.filter (h : Sorted r l) (p : V → Bool) :
    Sorted (fun u w => r u w ∧ p w = true) (l.filter p) := by
  rintro l₁ u l₂ hl w ⟨hw, hp⟩
  obtain ⟨m₁, m₂, rfl, rfl, hm₂⟩ := List.filter_eq_append_iff.1 hl
  obtain ⟨m₃, m₄, rfl, hm₃, -, -⟩ := List.filter_eq_cons_iff.1 hm₂
  have hmem := h (m₁ ++ m₃) u m₄ (by simp) w hw
  rcases List.mem_append.1 hmem with hmem | hmem
  · exact List.mem_filter.2 ⟨hmem, hp⟩
  · exact absurd hp (hm₃ w hmem)

/-- A group of nodes, and what its traversal has added. -/
structure Part (κ V : Type*) where
  label : κ
  roots : List V
  added : List V

/-- All that has been added. -/
def finished (parts : List (Part κ V)) : List V := parts.flatMap Part.added

theorem finished_concat (parts : List (Part κ V)) (x : Part κ V) :
    finished (parts ++ [x]) = finished parts ++ x.added := by
  simp [finished]

theorem mem_finished {parts : List (Part κ V)} : u ∈ finished parts ↔ ∃ x ∈ parts, u ∈ x.added :=
  List.mem_flatMap

/-- The parts of groups that have been traversed in order. -/
structure Parts (succ : V → List V) (parts : List (Part κ V)) : Prop where
  nodup : (finished parts).Nodup
  sorted : Sorted (Edge succ) (finished parts)
  reach : ∀ x ∈ parts, ∀ u ∈ x.added, ∃ d ∈ x.roots, Relation.ReflTransGen (Edge succ) d u
  covers : ∀ p₁ x p₂, parts = p₁ ++ x :: p₂ → ∀ d ∈ x.roots, ∀ u,
    Relation.ReflTransGen (Edge succ) d u → u ∈ finished (p₁ ++ [x])

theorem Parts.nil : Parts succ ([] : List (Part κ V)) :=
  ⟨List.nodup_nil, Sorted.nil, by simp, by simp⟩

variable {parts p₁ p₂ : List (Part κ V)} {x y : Part κ V}

/-- **One more group.** -/
theorem Parts.concat [DecidableEq V] (h : Parts succ parts) {roots : List V} {n : ℕ}
    (hacyc : ∀ d ∈ roots, ∀ u, Relation.ReflTransGen (Edge succ) d u →
      ¬ Relation.TransGen (Edge succ) u u) {l' : List V}
    (hrun : roots.foldlM (fun l v => postorder succ n v l) (finished parts) = some l')
    (label : κ) :
    ∃ added, l' = finished parts ++ added ∧ Parts succ (parts ++ [⟨label, roots, added⟩]) := by
  have hl : Lists succ (fun u => ∃ d ∈ roots, Relation.ReflTransGen (Edge succ) d u)
      (finished parts) l' :=
    Lists.foldlM (fun d hd l l' hn hs hl => postorder_spec (hacyc d hd) hn hs hl)
      h.nodup h.sorted hrun
  obtain ⟨added, rfl⟩ := hl.pre
  have hnodup := hl.nodup
  rw [List.nodup_append] at hnodup
  refine ⟨added, rfl, ?_, ?_, fun x hx u hu => ?_, fun p₁ x p₂ hp d hd u hu => ?_⟩
  · rw [finished_concat]
    exact hl.nodup
  · rw [finished_concat]
    exact hl.sorted
  · rcases List.mem_append.1 hx with hx | hx
    · exact h.reach x hx u hu
    · cases List.mem_singleton.1 hx
      rcases (hl.mem u).1 (List.mem_append_right _ hu) with hold | hnew
      · exact absurd rfl (hnodup.2.2 u hold u hu)
      · exact hnew
  · -- the part is the new one, or one of those before it
    rcases List.eq_nil_or_concat p₂ with rfl | ⟨p₃, y, rfl⟩
    · obtain ⟨rfl, hx⟩ := List.append_inj' hp rfl
      cases hx
      rw [finished_concat]
      exact (hl.mem u).2 (.inr ⟨d, hd, hu⟩)
    · rw [List.concat_eq_append, ← List.cons_append, ← List.append_assoc] at hp
      exact h.covers p₁ x p₃ (List.append_inj' hp rfl).1 d hd u hu

theorem Parts.notMem (h : Parts succ (p₁ ++ x :: p₂)) (hu : u ∈ x.added) (hy : y ∈ p₁ ++ p₂) :
    u ∉ y.added := by
  have hnodup := h.nodup
  simp only [finished, List.flatMap_append, List.flatMap_cons, List.nodup_append,
    List.mem_append] at hnodup
  obtain ⟨-, ⟨-, -, hright⟩, hleft⟩ := hnodup
  intro huy
  rcases List.mem_append.1 hy with hy | hy
  · exact hleft u (List.mem_flatMap.2 ⟨y, hy, huy⟩) u (.inl hu) rfl
  · exact hright u hu u (List.mem_flatMap.2 ⟨y, hy, huy⟩) rfl

theorem Parts.eq_of_mem (h : Parts succ parts) (hx : x ∈ parts) (hy : y ∈ parts)
    (hux : u ∈ x.added) (huy : u ∈ y.added) : x = y := by
  obtain ⟨p₁, p₂, rfl⟩ := List.append_of_mem hx
  by_contra hne
  refine h.notMem hux (y := y) ?_ huy
  simpa [Ne.symm hne] using hy

/-- **The order in a part.** -/
theorem Parts.above (h : Parts succ parts) (hx : x ∈ parts) :
    Sorted (fun u v => v ∈ x.added ∧ Relation.TransGen (Edge succ) u v) x.added := by
  obtain ⟨p₁, p₂, rfl⟩ := List.append_of_mem hx
  rintro l₁ u l₂ hl v ⟨hv, huv⟩
  have hfin : finished (p₁ ++ x :: p₂) = (finished p₁ ++ l₁) ++ u :: (l₂ ++ finished p₂) := by
    simp [finished, hl]
  rcases List.mem_append.1 (h.sorted.transGen _ u _ hfin v huv) with hold | hnew
  · obtain ⟨y, hy, hvy⟩ := mem_finished.1 hold
    exact absurd hvy (h.notMem hv (List.mem_append_left _ hy))
  · exact hnew

end DepthFirst
