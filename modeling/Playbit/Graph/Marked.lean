import Playbit.Graph.Closure

/-!
# Traversals with marks

A traversal that marks a node when it enters it, and acts on it when it leaves it.  Where an edge
always leads to a node of a smaller rank, an entered node is not met again before it is left, and
the traversal acts on the nodes in postorder.

`Follows.of_markedVisit` carries an invariant of the nodes in postorder over to such a traversal.
-/

namespace DepthFirst

variable {V κ σ : Type*} [DecidableEq κ]

/-- Mark `v`, visit what it leads to, and act on it, unless it is marked already.  Nodes may have
their marks in common. -/
def markedVisit (succ : V → List V) (mark : V → κ) (act : σ → V → σ) :
    ℕ → List κ × σ → V → Option (List κ × σ)
  | 0, _, _ => none
  | n + 1, s, v =>
    if mark v ∈ s.1 then some s
    else do
      let s ← (succ v).foldlM (markedVisit succ mark act n) (mark v :: s.1, s.2)
      some (s.1, act s.2 v)

variable {succ : V → List V} {mark : V → κ} {act : σ → V → σ} {S : V → Prop} {above : V → Prop}

/-- The nodes of `S` that are marked: those of the list, which have been left, and those above. -/
def Marks (mark : V → κ) (S above : V → Prop) (seen : List κ) (l : List V) : Prop :=
  ∀ u, S u → (mark u ∈ seen ↔ u ∈ l ∨ above u)

/-- What happens between two states, when `l` is made into the list `o`. -/
def Follows (mark : V → κ) (S : V → Prop) (act : σ → V → σ) (above : V → Prop)
    (l : List V) (o : Option (List V)) (s s' : List κ × σ) : Prop :=
  ∃ added, o = some (l ++ added) ∧ s'.2 = added.foldl act s.2 ∧
    Marks mark S above s'.1 (l ++ added)

variable {s s' : List κ × σ} {l ws : List V}

omit [DecidableEq κ] in
theorem Follows.foldlM {g : List κ × σ → V → Option (List κ × σ)}
    {list : List V → V → Option (List V)}
    (hg : ∀ w ∈ ws, ∀ s s' l, Marks mark S above s.1 l → g s w = some s' →
      Follows mark S act above l (list l w) s s')
    (hm : Marks mark S above s.1 l) (h : ws.foldlM g s = some s') :
    Follows mark S act above l (ws.foldlM list l) s s' := by
  induction ws generalizing s l with
  | nil =>
    cases h
    exact ⟨[], by simp, rfl, by simpa using hm⟩
  | cons w ws ih =>
    rw [List.foldlM_cons] at h
    obtain ⟨s₁, hw, h⟩ := Option.bind_eq_some_iff.1 h
    obtain ⟨a₁, hl₁, hs₁, hm₁⟩ := hg w List.mem_cons_self s s₁ l hm hw
    obtain ⟨a₂, hl₂, hs₂, hm₂⟩ := ih (fun w' hw' => hg w' (.tail _ hw')) hm₁ h
    rw [List.append_assoc] at hl₂ hm₂
    refine ⟨a₁ ++ a₂, ?_, ?_, hm₂⟩
    · rw [List.foldlM_cons, hl₁]
      exact hl₂
    · rw [hs₂, hs₁, List.foldl_append]

variable [DecidableEq V]

/-- **A traversal with marks** acts on the nodes that `postorder` adds, in this order. -/
theorem Follows.of_markedVisit (rank : V → ℕ)
    (hS : ∀ u v, S u → v ∈ succ u → S v ∧ rank v < rank u)
    (hmark : ∀ u v, S u → S v → mark u = mark v → u = v) {n : ℕ} {v : V} (hv : S v)
    (habove : ∀ u, above u → rank v < rank u) (hm : Marks mark S above s.1 l)
    (h : markedVisit succ mark act n s v = some s') :
    Follows mark S act above l (postorder succ n v l) s s' := by
  induction n generalizing s s' l v above with
  | zero => cases h
  | succ n ih =>
    rw [markedVisit] at h
    split_ifs at h with hseen
    · cases h
      -- the marked node has been left, since it is not above itself
      have hmem : v ∈ l := ((hm v hv).1 hseen).resolve_right fun h => (habove v h).false
      exact ⟨[], by simp [postorder, hmem], rfl, by simpa using hm⟩
    · obtain ⟨s₁, hloop, h⟩ := Option.bind_eq_some_iff.1 h
      cases h
      have hnew : v ∉ l := fun hmem => hseen ((hm v hv).2 (.inl hmem))
      have hm' : Marks mark S (fun u => above u ∨ u = v) (mark v :: s.1) l := by
        intro u hu
        rw [List.mem_cons, hm u hu, or_comm, or_assoc]
        exact or_congr_right (or_congr_right ⟨hmark u v hu hv, congrArg mark⟩)
      obtain ⟨added, hl, hs, hm₁⟩ := Follows.foldlM (fun w hw s s' l hm hvisit => by
        obtain ⟨hSw, hlt⟩ := hS v w hv hw
        refine ih hSw (fun u hu => ?_) hm hvisit
        rcases hu with hu | rfl
        · exact hlt.trans (habove u hu)
        · exact hlt) hm' hloop
      refine ⟨added ++ [v], ?_, ?_, fun u hu => ?_⟩
      · rw [postorder, if_neg hnew, hl, Option.map_some, List.append_assoc]
      · rw [List.foldl_append, ← hs]
        rfl
      · rw [hm₁ u hu, ← List.append_assoc, List.mem_append (s := l ++ added), List.mem_singleton,
          or_assoc]
        exact or_congr_right or_comm

end DepthFirst
