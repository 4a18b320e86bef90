import Playbit.Graph.Walk

/-!
# Depth-first search with cycle detection

`search` is the executable depth-first search: it fails on a dead edge, and on an edge that is
`bad` for one of the ancestors (a back edge, for a test that recognises the ancestor).  The
fuel bounds the depth of the recursion.

`search_cases` says exactly when it succeeds, in terms of the total walk of the same edges: no
node met has a dead edge, and the relation `Hit` (an edge that is `bad` for the node it leads to)
has no cycle on the nodes met.
-/

namespace DepthFirst

variable {V C : Type*}

/-- Why a search fails. -/
inductive Fault where
  /-- It followed a dead edge. -/
  | dead
  /-- It followed an edge that is bad for an ancestor. -/
  | cycle
  /-- The recursion was too deep. -/
  | fuel
  deriving DecidableEq

/-- Follow one edge, entering nodes with `visit`. -/
def follow [DecidableEq V] (bad : V × C → V × C → Bool)
    (visit : List (V × C) → V × C → State V C → Except Fault (State V C))
    (path : List (V × C)) (s : State V C) : Option (V × C) → Except Fault (State V C)
  | none => .error .dead
  | some x =>
    if path.any (bad · x) then .error .cycle
    else if s.Met x.1 then .ok s
    else visit path x s

/-- Enter `x`, follow its edges, and leave it. -/
def visit [DecidableEq V] (succ : V → C → List (Option (V × C))) (bad : V × C → V × C → Bool) :
    ℕ → List (V × C) → V × C → State V C → Except Fault (State V C)
  | 0, _, _, _ => .error .fuel
  | n + 1, path, x, s =>
    ((succ x.1 x.2).foldlM (follow bad (visit succ bad n) (path ++ [x])) (s.enter x)).map
      (·.leave x)

/-- Follow the edges `es` in order. -/
def search [DecidableEq V] (succ : V → C → List (Option (V × C))) (bad : V × C → V × C → Bool)
    (n : ℕ) (path : List (V × C)) (es : List (Option (V × C))) (s : State V C) :
    Except Fault (State V C) :=
  es.foldlM (follow bad (visit succ bad n) path) s

/-- The test a successful search passes at every edge. -/
def Guard (bad : V × C → V × C → Bool) (p : List (V × C)) (e : Option (V × C)) : Prop :=
  ∃ x, e = some x ∧ ∀ q ∈ p, bad q x = false

variable [DecidableEq V] {succ : V → C → List (Option (V × C))} {bad : V × C → V × C → Bool}

theorem visit_succ (n : ℕ) (path : List (V × C)) (x : V × C) (s : State V C) :
    visit succ bad (n + 1) path x s =
      (search succ bad n (path ++ [x]) (succ x.1 x.2) (s.enter x)).map (·.leave x) := rfl

theorem search_cons (n : ℕ) (path : List (V × C)) (e : Option (V × C))
    (es : List (Option (V × C))) (s : State V C) :
    search succ bad n path (e :: es) s =
      (follow bad (visit succ bad n) path s e).bind (search succ bad n path es) := rfl

theorem search_append (n : ℕ) (path : List (V × C)) (es es' : List (Option (V × C)))
    (s : State V C) :
    search succ bad n path (es ++ es') s =
      (search succ bad n path es s).bind (search succ bad n path es') :=
  List.foldlM_append

omit [DecidableEq V] in
theorem guard_some {p : List (V × C)} {x : V × C} (h : ¬ p.any (bad · x) = true) :
    Guard bad p (some x) := by
  refine ⟨x, rfl, fun q hq => ?_⟩
  by_contra hb
  exact h (List.any_eq_true.2 ⟨q, hq, by simpa using hb⟩)

/-! ### Success -/

/-- If entering a node is a walk of its edges, then so is following a list of edges. -/
theorem walk_of_follow {n : ℕ}
    (hv : ∀ path x s s', visit succ bad n path x s = .ok s' →
      ∃ s₁, Walk succ (Guard bad) (path ++ [x]) (succ x.1 x.2) (s.enter x) s₁ ∧ s' = s₁.leave x)
    (path : List (V × C)) (es : List (Option (V × C))) (s s' : State V C)
    (h : search succ bad n path es s = .ok s') : Walk succ (Guard bad) path es s s' := by
  induction es generalizing s with
  | nil => cases h; exact .nil _ _
  | cons e es ih =>
    rw [search_cons] at h
    cases e with
    | none => cases h
    | some x =>
      simp only [follow] at h
      split_ifs at h with hb hm
      · cases h
      · exact .skip (guard_some hb) hm (ih s h)
      · cases h₁ : visit succ bad n path x s with
        | error f => rw [h₁] at h; cases h
        | ok s₁ =>
          rw [h₁] at h
          obtain ⟨t, ht, rfl⟩ := hv path x s s₁ h₁
          exact .enter (guard_some hb) hm ht (ih _ h)

theorem walk_of_visit (n : ℕ) (path : List (V × C)) (x : V × C) (s s' : State V C)
    (h : visit succ bad n path x s = .ok s') :
    ∃ s₁, Walk succ (Guard bad) (path ++ [x]) (succ x.1 x.2) (s.enter x) s₁ ∧
      s' = s₁.leave x := by
  induction n generalizing path x s s' with
  | zero => cases h
  | succ n ih =>
    rw [visit_succ] at h
    cases h₁ : search succ bad n (path ++ [x]) (succ x.1 x.2) (s.enter x) with
    | error f => rw [h₁] at h; cases h
    | ok s₁ =>
      rw [h₁] at h
      cases h
      exact ⟨s₁, walk_of_follow ih _ _ _ _ h₁, rfl⟩

/-- A successful search is a walk that passes the test everywhere. -/
theorem walk_of_search {n : ℕ} {path : List (V × C)} {es : List (Option (V × C))}
    {s s' : State V C} (h : search succ bad n path es s = .ok s') :
    Walk succ (Guard bad) path es s s' :=
  walk_of_follow (walk_of_visit n) path es s s' h

theorem met_subset_of_visit {n : ℕ} {path : List (V × C)} {x : V × C} {s s' : State V C}
    (h : visit succ bad n path x s = .ok s') : (s.enter x).met ⊆ s'.met := by
  obtain ⟨s₁, hw, rfl⟩ := walk_of_visit n path x s s' h
  exact hw.met_subset

theorem follow_ne_fuel {U : List V} {n : ℕ}
    (hv : ∀ path x s, x.1 ∈ U → ¬ s.Met x.1 → unmet U s ≤ n →
      visit succ bad n path x s ≠ .error .fuel)
    (path : List (V × C)) (es : List (Option (V × C))) (s : State V C)
    (hn : unmet U s ≤ n) (hes : ∀ x, some x ∈ es → x.1 ∈ U) :
    search succ bad n path es s ≠ .error .fuel := by
  induction es generalizing s with
  | nil => intro h; cases h
  | cons e es ih =>
    intro h
    have hes' : ∀ x, some x ∈ es → x.1 ∈ U := fun x hx => hes x (.tail _ hx)
    rw [search_cons] at h
    cases e with
    | none => cases h
    | some x =>
      simp only [follow] at h
      split_ifs at h with hb hm
      · cases h
      · exact ih s hn hes' h
      · cases h₁ : visit succ bad n path x s with
        | error f =>
          rw [h₁] at h
          cases h
          exact hv path x s (hes x List.mem_cons_self) hm hn h₁
        | ok s₁ =>
          rw [h₁] at h
          have hlt := unmet_enter (hes x List.mem_cons_self) hm
          have hle : unmet U s₁ ≤ unmet U (s.enter x) := unmet_mono U (met_subset_of_visit h₁)
          exact ih s₁ (by omega) hes' h

theorem visit_ne_fuel {U : List V} (hU : ∀ v ∈ U, ∀ c x, some x ∈ succ v c → x.1 ∈ U) (n : ℕ)
    (path : List (V × C)) (x : V × C) (s : State V C) (hx : x.1 ∈ U) (hm : ¬ s.Met x.1)
    (hn : unmet U s ≤ n) : visit succ bad n path x s ≠ .error .fuel := by
  have hlt := unmet_enter hx hm
  induction n generalizing path x s with
  | zero => omega
  | succ n ih =>
    rw [visit_succ]
    intro h
    cases h₁ : search succ bad n (path ++ [x]) (succ x.1 x.2) (s.enter x) with
    | ok s₁ => rw [h₁] at h; cases h
    | error f =>
      rw [h₁] at h
      cases h
      exact follow_ne_fuel (fun path x s hx hm hn => ih path x s hx hm hn (unmet_enter hx hm))
        _ _ _ (by omega) (hU _ hx _) h₁

/-- The search does not run out of fuel as long as there is some for every node not met. -/
theorem search_ne_fuel {U : List V} (hU : ∀ v ∈ U, ∀ c x, some x ∈ succ v c → x.1 ∈ U) {n : ℕ}
    {path : List (V × C)} {es : List (Option (V × C))} {s : State V C} (hn : unmet U s ≤ n)
    (hes : ∀ x, some x ∈ es → x.1 ∈ U) : search succ bad n path es s ≠ .error .fuel :=
  follow_ne_fuel (visit_ne_fuel hU n) path es s hn hes

/-! ### Searches without a test -/

theorem fuel_of_follow (hbad : ∀ x y, bad x y = false) {n : ℕ}
    (hv : ∀ path x s f, visit succ bad n path x s = .error f → f = .fuel)
    (path : List (V × C)) (es : List (Option (V × C))) (s : State V C) (f : Fault)
    (hes : none ∉ es) (h : search succ bad n path es s = .error f) : f = .fuel := by
  induction es generalizing s with
  | nil => cases h
  | cons e es ih =>
    have hes' : none ∉ es := fun he => hes (.tail _ he)
    rw [search_cons] at h
    cases e with
    | none => exact absurd List.mem_cons_self hes
    | some x =>
      have hnb : ¬ path.any (bad · x) = true := by simp [hbad]
      simp only [follow, if_neg hnb] at h
      split_ifs at h with hm
      · exact ih s hes' h
      · cases h₁ : visit succ bad n path x s with
        | error g => rw [h₁] at h; cases h; exact hv path x s _ h₁
        | ok s₁ => rw [h₁] at h; exact ih s₁ hes' h

theorem fuel_of_visit (hbad : ∀ x y, bad x y = false) (hlive : ∀ v c, none ∉ succ v c) (n : ℕ)
    (path : List (V × C)) (x : V × C) (s : State V C) (f : Fault)
    (h : visit succ bad n path x s = .error f) : f = .fuel := by
  induction n generalizing path x s f with
  | zero => cases h; rfl
  | succ n ih =>
    rw [visit_succ] at h
    cases h₁ : search succ bad n (path ++ [x]) (succ x.1 x.2) (s.enter x) with
    | ok s₁ => rw [h₁] at h; cases h
    | error g =>
      rw [h₁] at h
      cases h
      exact fuel_of_follow hbad ih _ _ _ _ (hlive _ _) h₁

/-- Without a test and without dead edges, a search with enough fuel succeeds. -/
theorem exists_search_eq_ok (hbad : ∀ x y, bad x y = false) (hlive : ∀ v c, none ∉ succ v c)
    {U : List V} (hU : ∀ v ∈ U, ∀ c x, some x ∈ succ v c → x.1 ∈ U) {n : ℕ} (hn : U.length ≤ n)
    {es : List (Option (V × C))} (hes : ∀ x, some x ∈ es → x.1 ∈ U) (hne : none ∉ es) :
    ∃ t, search succ bad n [] es .empty = .ok t := by
  cases h : search succ bad n [] es .empty with
  | ok t => exact ⟨t, rfl⟩
  | error f =>
    exfalso
    have hle : unmet U (State.empty : State V C) ≤ U.length := List.length_filter_le _ _
    obtain rfl := fuel_of_follow hbad (fuel_of_visit hbad hlive n) _ _ _ _ hne h
    exact search_ne_fuel hU (Nat.le_trans hle hn) hes h

/-! ### Failure -/

/-- `a` has an edge that is bad for `b`; both are in `M`. -/
def Hit (succ : V → C → List (Option (V × C))) (bad : V × C → V × C → Bool)
    (M : List (V × C)) (a b : V × C) : Prop :=
  a ∈ M ∧ b ∈ M ∧ ∃ z, some z ∈ succ a.1 a.2 ∧ bad b z = true

/-- The relation `Hit` has a cycle on `M`. -/
def Loop (succ : V → C → List (Option (V × C))) (bad : V × C → V × C → Bool)
    (M : List (V × C)) : Prop :=
  ∃ a, Relation.TransGen (Hit succ bad M) a a

/-- Some node of `M` has a dead edge. -/
def DeadEnd (succ : V → C → List (Option (V × C))) (M : List (V × C)) : Prop :=
  ∃ y ∈ M, none ∈ succ y.1 y.2

omit [DecidableEq V] in
theorem hit_of_link (hrefl : ∀ x, bad x x = true) {M : List (V × C)} {a b : V × C}
    (h : Link succ M a b) : Hit succ bad M a b :=
  ⟨h.1, h.2.1, b, h.2.2, hrefl b⟩

omit [DecidableEq V] in
theorem Loop.mono {M M' : List (V × C)} (hM : M ⊆ M') (h : Loop succ bad M) :
    Loop succ bad M' := by
  obtain ⟨a, ha⟩ := h
  exact ⟨a, Relation.TransGen.mono (fun _ _ hab => ⟨hM hab.1, hM hab.2.1, hab.2.2⟩) _ _ ha⟩

/-- What a failing search has found, seen from the completed walk. -/
def Found (succ : V → C → List (Option (V × C))) (bad : V × C → V × C → Bool)
    (es : List (Option (V × C))) (M : List (V × C)) : Fault → Prop
  | .dead => none ∈ es ∨ DeadEnd succ M
  | .cycle => Loop succ bad M
  | .fuel => True

omit [DecidableEq V] in
theorem Found.mono {es es' : List (Option (V × C))} (hes : es ⊆ es') {M M' : List (V × C)}
    (hM : M ⊆ M') {f : Fault} (h : Found succ bad es M f) : Found succ bad es' M' f := by
  cases f with
  | dead => exact h.imp (fun h => hes h) fun ⟨y, hy, hn⟩ => ⟨y, hM hy, hn⟩
  | cycle => exact Loop.mono hM h
  | fuel => trivial

omit [DecidableEq V] in
/-- Following an edge that is bad for an ancestor closes a cycle. -/
theorem loop_of_bad (hrefl : ∀ x, bad x x = true) {path : List (V × C)}
    {es : List (Option (V × C))} {M : List (V × C)} (ht : Trail succ path es M) {x : V × C}
    (hx : some x ∈ es) (hb : path.any (bad · x) = true) : Loop succ bad M := by
  obtain ⟨q, hq, hqx⟩ := List.any_eq_true.1 hb
  obtain ⟨hqM, a, ha, hqa, hsucc⟩ := ht q hq
  have hqa' : Relation.ReflTransGen (Hit succ bad M) q a :=
    Relation.ReflTransGen.mono (fun _ _ => hit_of_link hrefl) _ _ hqa
  exact ⟨q, Relation.TransGen.tail' hqa' ⟨ha, hqM, x, hsucc _ hx, hqx⟩⟩

theorem found_of_follow (hrefl : ∀ x, bad x x = true) {n : ℕ}
    (hv : ∀ path x s s₁ f, visit succ bad n path x s = .error f →
      Trail succ (path ++ [x]) (succ x.1 x.2) (s.enter x).met →
      Walk succ (fun _ _ => True) (path ++ [x]) (succ x.1 x.2) (s.enter x) s₁ →
      Found succ bad [] s₁.met f)
    (path : List (V × C)) (es : List (Option (V × C))) (s s' : State V C) (f : Fault)
    (h : search succ bad n path es s = .error f) (ht : Trail succ path es s.met)
    (hw : Walk succ (fun _ _ => True) path es s s') : Found succ bad es s'.met f := by
  induction es generalizing s with
  | nil => cases h
  | cons e es ih =>
    rw [search_cons] at h
    cases hw with
    | dead => cases h; exact .inl List.mem_cons_self
    | skip _ hm hw =>
      simp only [follow] at h
      split_ifs at h with hb
      · cases h
        exact (loop_of_bad hrefl ht List.mem_cons_self hb).mono hw.met_subset
      · exact (ih s h (ht.mono (List.subset_cons_self _ _) (List.Subset.refl _)) hw).mono
          (List.subset_cons_self _ _) (List.Subset.refl _)
    | @enter _ x _ _ s₁ _ _ hm h₁ h₂ =>
      have hsub : s.met ⊆ s₁.met := fun q hq => h₁.met_subset (by simp [hq])
      simp only [follow] at h
      split_ifs at h with hb
      · cases h
        exact (loop_of_bad hrefl ht List.mem_cons_self hb).mono fun q hq =>
          h₂.met_subset (hsub hq)
      · cases h₀ : visit succ bad n path x s with
        | error g =>
          rw [h₀] at h
          cases h
          exact (hv path x s s₁ _ h₀ (ht.push List.mem_cons_self) h₁).mono (List.nil_subset _)
            fun q hq => h₂.met_subset hq
        | ok t =>
          rw [h₀] at h
          obtain ⟨t₁, hw₁, rfl⟩ := walk_of_visit n path x s t h₀
          obtain rfl := hw₁.unique h₁
          exact (ih _ h (ht.mono (List.subset_cons_self _ _) hsub) h₂).mono
            (List.subset_cons_self _ _) (List.Subset.refl _)

theorem found_of_visit (hrefl : ∀ x, bad x x = true) (n : ℕ) (path : List (V × C)) (x : V × C)
    (s s₁ : State V C) (f : Fault) (h : visit succ bad n path x s = .error f)
    (ht : Trail succ (path ++ [x]) (succ x.1 x.2) (s.enter x).met)
    (hw : Walk succ (fun _ _ => True) (path ++ [x]) (succ x.1 x.2) (s.enter x) s₁) :
    Found succ bad [] s₁.met f := by
  induction n generalizing path x s s₁ f with
  | zero => cases h; trivial
  | succ n ih =>
    rw [visit_succ] at h
    cases h₀ : search succ bad n (path ++ [x]) (succ x.1 x.2) (s.enter x) with
    | ok t => rw [h₀] at h; cases h
    | error g =>
      rw [h₀] at h
      cases h
      have hf := found_of_follow hrefl ih _ _ _ _ _ h₀ ht hw
      cases f with
      | dead =>
        -- a dead edge of `x`, which has been met
        exact .inr (hf.elim (fun hn => ⟨x, hw.met_subset (by simp), hn⟩) id)
      | cycle => exact hf
      | fuel => trivial

/-- Whatever a failing search reports is there in the completed walk. -/
theorem found_of_search (hrefl : ∀ x, bad x x = true) {n : ℕ} {path : List (V × C)}
    {es : List (Option (V × C))} {s s' : State V C} {f : Fault}
    (h : search succ bad n path es s = .error f) (ht : Trail succ path es s.met)
    (hw : Walk succ (fun _ _ => True) path es s s') : Found succ bad es s'.met f :=
  found_of_follow hrefl (found_of_visit hrefl n) path es s s' f h ht hw

/-! ### When a search succeeds -/

/-- The position of `v` in the order of finishing. -/
def pos (s : State V C) (v : V) : ℕ := (s.done.map Prod.fst).idxOf v

theorem Before.pos_lt {s : State V C} {v : V} {y : V × C}
    (hnd : (s.done.map Prod.fst).Nodup) (h : Before s.done v y) : pos s v < pos s y.1 := by
  obtain ⟨l₁, l₂, hl, hv⟩ := h
  have hy : y.1 ∉ l₁.map Prod.fst := by
    rw [hl, List.map_append] at hnd
    exact fun hy => (List.nodup_append.1 hnd).2.2 _ hy _ List.mem_cons_self rfl
  unfold pos
  rw [hl, List.map_append, List.idxOf_append_of_mem hv, List.idxOf_append_of_notMem hy]
  have := List.idxOf_lt_length_of_mem hv
  omega

omit [DecidableEq V] in
theorem done_nodup {pass : List (V × C) → Option (V × C) → Prop}
    {es : List (Option (V × C))} {s' : State V C} (h : Walk succ pass [] es .empty s') :
    (s'.done.map Prod.fst).Nodup := by
  obtain ⟨N, D, hm, hd, hp⟩ := h.exists_new
  have hnd := (h.wf State.wf_empty).nodup
  rw [State.empty_met, List.nil_append] at hm
  rw [State.empty_done, List.nil_append] at hd
  rw [hm] at hnd
  rw [hd]
  exact (hp.map Prod.fst).nodup_iff.1 hnd

/-- What has a smaller position than `v` comes before it. -/
theorem mem_of_pos_lt {pass : List (V × C) → Option (V × C) → Prop}
    {es : List (Option (V × C))} {s' : State V C} (h : Walk succ pass [] es .empty s')
    {l₁ l₂ : List V} {u v : V} (hl : s'.done.map Prod.fst = l₁ ++ v :: l₂)
    (hlt : pos s' u < pos s' v) : u ∈ l₁ := by
  have hnd := done_nodup h
  rw [hl] at hnd
  have hv : v ∉ l₁ := fun hv => (List.nodup_append.1 hnd).2.2 _ hv _ List.mem_cons_self rfl
  by_contra hu
  unfold pos at hlt
  rw [hl, List.idxOf_append_of_notMem hv, List.idxOf_append_of_notMem hu,
    List.idxOf_cons_self] at hlt
  omega

/-- In a walk that passes the test everywhere, a bad edge leads to a node finished before. -/
theorem pos_lt_of_hit (hsame : ∀ q z, bad q z = true → q.1 = z.1)
    {es : List (Option (V × C))} {s' : State V C} (h : Walk succ (Guard bad) [] es .empty s')
    {a b : V × C} (hab : Hit succ bad s'.met a b) : pos s' b.1 < pos s' a.1 := by
  obtain ⟨ha, hb, z, hz, hbz⟩ := hab
  obtain ⟨p, ⟨x, hx, hpass⟩, hp, hbefore⟩ := h.followed ha hz
  cases hx
  rw [hsame b z hbz]
  rcases hbefore z rfl with hbefore | hzp
  · exact hbefore.pos_lt (done_nodup h)
  · -- the ancestor with that node is `b` itself, for which the edge is bad
    exfalso
    obtain ⟨⟨q, c⟩, hq, hqz⟩ := List.mem_map.1 hzp
    obtain ⟨b₁, b₂⟩ := b
    have hbq : b₁ = q := (hsame _ z hbz).trans hqz.symm
    subst hbq
    rw [(h.wf State.wf_empty).ctx_unique hb (hp _ hq).1] at hbz
    exact Bool.false_ne_true ((hpass _ hq).symm.trans hbz)

theorem not_loop_of_guard (hsame : ∀ q z, bad q z = true → q.1 = z.1)
    {es : List (Option (V × C))} {s' : State V C}
    (h : Walk succ (Guard bad) [] es .empty s') : ¬ Loop succ bad s'.met := fun ⟨a, ha⟩ =>
  not_transGen_self (fun x => pos s' x.1) (fun _ _ => pos_lt_of_hit hsame h) a ha

omit [DecidableEq V] in
theorem not_deadEnd_of_guard {es : List (Option (V × C))} {s' : State V C}
    (h : Walk succ (Guard bad) [] es .empty s') : ¬ DeadEnd succ s'.met := by
  rintro ⟨y, hy, hn⟩
  obtain ⟨p, ⟨x, hx, -⟩, -⟩ := h.followed hy hn
  cases hx

/-- **What a search reports.**  A search from nothing, with enough fuel, either succeeds with the
completed walk, on which no edge is dead and the relation `Hit` has no cycle; or it reports a dead
edge or a cycle, and there is one. -/
theorem search_cases {U : List V} (hU : ∀ v ∈ U, ∀ c x, some x ∈ succ v c → x.1 ∈ U)
    (hrefl : ∀ x, bad x x = true) (hsame : ∀ q z, bad q z = true → q.1 = z.1) {n : ℕ}
    (hn : U.length ≤ n) {es : List (Option (V × C))} (hes : ∀ x, some x ∈ es → x.1 ∈ U)
    (hne : none ∉ es) {t : State V C} (ht : Walk succ (fun _ _ => True) [] es .empty t) :
    search succ bad n [] es .empty = .ok t ∧ ¬ DeadEnd succ t.met ∧ ¬ Loop succ bad t.met ∨
      search succ bad n [] es .empty = .error .dead ∧ DeadEnd succ t.met ∨
      search succ bad n [] es .empty = .error .cycle ∧ Loop succ bad t.met := by
  cases h : search succ bad n [] es .empty with
  | ok s' =>
    have hw := walk_of_search h
    obtain rfl := hw.unique ht
    exact .inl ⟨rfl, not_deadEnd_of_guard hw, not_loop_of_guard hsame hw⟩
  | error f =>
    have hf := found_of_search hrefl h .nil ht
    cases f with
    | dead => exact .inr (.inl ⟨rfl, hf.resolve_left hne⟩)
    | cycle => exact .inr (.inr ⟨rfl, hf⟩)
    | fuel =>
      have hle : unmet U (State.empty : State V C) ≤ U.length := List.length_filter_le _ _
      exact absurd h (search_ne_fuel hU (Nat.le_trans hle hn) hes)

end DepthFirst
