import Playbit.Graph.Closure
import Playbit.Graph.Height

/-!
# Traversals with roots of their own kind

A traversal from several roots may follow more edges at a root than below it, and still keep one
list of the nodes it has visited.  A root that is already in the list, as a node below another root,
is not visited again, so that the edges which are followed at a root only are not followed at all.

What is listed is what is reached from the roots that are visited as such, the `expanded` ones
(`Lists.of_visitRoots`), and `expanded_union_iff` says when this is what is reached from any root.
-/

namespace DepthFirst

variable {V : Type*} {first succ : V → List V} {l roots : List V} {u v w : V} {n : ℕ}

/-- What is reached from a root. -/
def RootReach (first succ : V → List V) (v u : V) : Prop :=
  u = v ∨ ∃ w ∈ first v, Relation.ReflTransGen (Edge succ) w u

open Classical in
/-- The roots that are not reached from an earlier one, as far as this is expanded. -/
noncomputable def expanded (R : V → V → Prop) (roots : List V) : List V :=
  roots.foldl (fun kept v => if ∃ x ∈ kept, R x v then kept else kept ++ [v]) []

/-! ### What is reached -/

theorem RootReach.refl (v : V) : RootReach first succ v v := .inl rfl

theorem RootReach.trans (hsub : ∀ v, succ v ⊆ first v) (h : RootReach first succ v w)
    (hu : Relation.ReflTransGen (Edge succ) w u) : RootReach first succ v u := by
  rcases h with rfl | ⟨x, hx, hreach⟩
  · rcases Relation.ReflTransGen.cases_head hu with rfl | ⟨x, hx, hreach⟩
    · exact .inl rfl
    · exact .inr ⟨x, hsub _ hx, hreach⟩
  · exact .inr ⟨x, hx, hreach.trans hu⟩

theorem not_rootReach_of_first (hsub : ∀ v, succ v ⊆ first v)
    (hacyc : ¬ Relation.TransGen (Edge first) v v) (hw : w ∈ first v) :
    ¬ Relation.ReflTransGen (Edge succ) w v :=
  fun h => hacyc (.head' hw (h.lift id fun _ _ he => hsub _ he))

/-! ### Expanded roots -/

section Expanded

variable {R : V → V → Prop}

open Classical in
theorem expanded_concat (R : V → V → Prop) (roots : List V) (v : V) :
    expanded R (roots ++ [v]) =
      if ∃ x ∈ expanded R roots, R x v then expanded R roots else expanded R roots ++ [v] := by
  rw [expanded, List.foldl_append]
  rfl

theorem expanded_subset (R : V → V → Prop) (roots : List V) : expanded R roots ⊆ roots := by
  classical
  induction roots using List.reverseRecOn with
  | nil => exact List.Subset.refl _
  | append_singleton roots v ih =>
    rw [expanded_concat]
    split_ifs
    · exact List.subset_append_of_subset_left _ ih
    · exact List.append_subset.2
        ⟨List.subset_append_of_subset_left _ ih, List.subset_append_right _ _⟩

theorem exists_expanded (hrefl : ∀ v, R v v) (hv : v ∈ roots) : ∃ x ∈ expanded R roots, R x v := by
  classical
  induction roots using List.reverseRecOn with
  | nil => cases hv
  | append_singleton roots w ih =>
    rw [expanded_concat]
    rcases List.mem_append.1 hv with hv | hv
    · obtain ⟨x, hx, hR⟩ := ih hv
      split_ifs
      · exact ⟨x, hx, hR⟩
      · exact ⟨x, List.mem_append_left _ hx, hR⟩
    · cases List.mem_singleton.1 hv
      split_ifs with hex
      · exact hex
      · exact ⟨v, by simp, hrefl v⟩

/-- What is followed everywhere is reached from an expanded root. -/
theorem exists_expanded_of_succ (hsub : ∀ v, succ v ⊆ first v) (hv : v ∈ roots)
    (hw : w ∈ succ v) :
    ∃ x ∈ expanded (RootReach first succ) roots, RootReach first succ x w := by
  obtain ⟨x, hx, hreach⟩ := exists_expanded RootReach.refl hv
  exact ⟨x, hx, hreach.trans hsub (.single hw)⟩

/-- **The expanded roots reach everything** just when they reach what the others lead to. -/
theorem expanded_union_iff (hsub : ∀ v, succ v ⊆ first v) (roots : List V) :
    (∀ u, (∃ x ∈ expanded (RootReach first succ) roots, RootReach first succ x u) ↔
      ∃ v ∈ roots, RootReach first succ v u) ↔
    ∀ v ∈ roots, ∀ w ∈ first v,
      ∃ x ∈ expanded (RootReach first succ) roots, RootReach first succ x w := by
  constructor
  · intro h v hv w hw
    exact (h w).2 ⟨v, hv, .inr ⟨w, hw, .refl⟩⟩
  · intro h u
    constructor
    · rintro ⟨x, hx, hreach⟩
      exact ⟨x, expanded_subset _ _ hx, hreach⟩
    · rintro ⟨v, hv, rfl | ⟨w, hw, hreach⟩⟩
      · exact exists_expanded RootReach.refl hv
      · obtain ⟨x, hx, hxw⟩ := h v hv w hw
        exact ⟨x, hx, hxw.trans hsub hreach⟩

end Expanded

/-! ### The traversal -/

variable [DecidableEq V]

/-- Visit a root. -/
def visitRoot (first succ : V → List V) (n : ℕ) (l : List V) (v : V) : Option (List V) :=
  if v ∈ l then some l
  else ((first v).foldlM (fun l w => postorder succ n w l) l).map (· ++ [v])

/-- A root that is not in the list adds what is reached from it. -/
theorem Lists.of_visitRoot (hsub : ∀ v, succ v ⊆ first v)
    (hacyc : ∀ v, ¬ Relation.TransGen (Edge first) v v) {l' : List V} (hn : l.Nodup)
    (hs : Sorted (Edge succ) l) (hv : v ∉ l) (h : visitRoot first succ n l v = some l') :
    Lists succ (RootReach first succ v) l l' := by
  have hacyc' : ∀ u, ¬ Relation.TransGen (Edge succ) u u := fun u hu =>
    hacyc u (hu.lift id fun _ _ he => hsub _ he)
  rw [visitRoot, if_neg hv] at h
  obtain ⟨l₁, hloop, rfl⟩ := Option.map_eq_some_iff.1 h
  have h₁ : Lists succ (fun u => ∃ w ∈ first v, Relation.ReflTransGen (Edge succ) w u) l l₁ :=
    Lists.foldlM (fun w _ l l' hn hs hl => postorder_spec (fun u _ => hacyc' u) hn hs hl)
      hn hs hloop
  have hnew : v ∉ l₁ := by
    intro hmem
    rcases (h₁.mem v).1 hmem with hmem | ⟨w, hw, hreach⟩
    · exact hv hmem
    · exact not_rootReach_of_first hsub (hacyc v) hw hreach
  refine ⟨h₁.pre.trans (List.prefix_append _ _), ?_, h₁.sorted.concat fun w hw => ?_, fun u => ?_⟩
  · rw [← List.concat_eq_append]
    exact h₁.nodup.concat hnew
  · exact (h₁.mem w).2 (.inr ⟨w, hsub v hw, .refl⟩)
  · rw [List.mem_append, h₁.mem, List.mem_singleton, or_assoc, RootReach, or_comm (b := u = v)]

/-- **What is listed for a sequence of roots**, each once. -/
theorem Lists.of_visitRoots (hsub : ∀ v, succ v ⊆ first v)
    (hacyc : ∀ v, ¬ Relation.TransGen (Edge first) v v)
    (h : roots.foldlM (visitRoot first succ n) [] = some l) :
    Lists succ (fun u => ∃ x ∈ expanded (RootReach first succ) roots, RootReach first succ x u)
      [] l := by
  classical
  induction roots using List.reverseRecOn generalizing l with
  | nil =>
    cases h
    exact ⟨List.prefix_rfl, List.nodup_nil, Sorted.nil, by simp [expanded]⟩
  | append_singleton roots v ih =>
    rw [List.foldlM_append] at h
    obtain ⟨l₁, h₁, h⟩ := Option.bind_eq_some_iff.1 h
    have ih := ih h₁
    rw [List.foldlM_cons] at h
    obtain ⟨l₂, h₂, h⟩ := Option.bind_eq_some_iff.1 h
    cases h
    have hmem : ∀ u, u ∈ l₁ ↔ ∃ x ∈ expanded (RootReach first succ) roots,
        RootReach first succ x u := fun u => by
      rw [ih.mem]
      exact or_iff_right List.not_mem_nil
    rw [expanded_concat]
    by_cases hv : v ∈ l₁
    · rw [if_pos ((hmem v).1 hv)]
      rw [visitRoot, if_pos hv] at h₂
      cases h₂
      exact ih
    · rw [if_neg fun hex => hv ((hmem v).2 hex)]
      have hlists := Lists.of_visitRoot hsub hacyc ih.nodup ih.sorted hv h₂
      refine ⟨List.nil_prefix, hlists.nodup, hlists.sorted, fun u => ?_⟩
      rw [hlists.mem, hmem]
      simp [or_and_right, exists_or]

theorem exists_visitRoots (hsub : ∀ v, succ v ⊆ first v) {U : List V}
    (hU : ∀ u v, v ∈ first u → u ∈ U) (hacyc : ∀ v, ¬ Relation.TransGen (Edge first) v v)
    (hn : U.length ≤ n) (roots l : List V) :
    ∃ l', roots.foldlM (visitRoot first succ n) l = some l' := by
  have hlt : ∀ u v, v ∈ first u → height (Edge first) U v < height (Edge first) U u :=
    fun u v hv => height_lt (hU u v hv) (hacyc u) hv
  refine Machine.exists_foldlM (fun v _ l => ?_) l
  rw [visitRoot]
  by_cases hv : v ∈ l
  · exact ⟨l, if_pos hv⟩
  · rw [if_neg hv]
    obtain ⟨l', hl'⟩ : ∃ l', (first v).foldlM (fun l w => postorder succ n w l) l = some l' := by
      refine Machine.exists_foldlM (fun w hw l => ?_) l
      have hfuel : height (Edge first) U w < n :=
        ((hlt v w hw).trans_le (height_le _ _ _)).trans_le hn
      exact exists_postorder (S := fun _ => True) (height (Edge first) U)
        (fun u x _ hx => ⟨trivial, hlt u x (hsub u hx)⟩) trivial hfuel l
    exact ⟨_, by rw [hl']; rfl⟩

end DepthFirst
