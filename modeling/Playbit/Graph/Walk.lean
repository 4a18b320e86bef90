import Mathlib.Logic.Relation
import Mathlib.Data.List.Nodup
import Mathlib.Data.List.Perm.Basic

/-!
# Depth-first walks

A depth-first walk enters every node once, under the *context* in which it meets the node
first; the successors of a node may depend on that context, and an edge may be dead (lead
nowhere).  `Walk succ pass path es s s'` is the big-step semantics: starting in state `s`, with
the ancestors `path`, following the edges `es` leads to the state `s'`, and every edge followed
passes the test `pass` (which sees the ancestors).  With the trivial test the walk is total.

Walks are deterministic and, on a finite graph, total (`Walk.unique`, `exists_walk`).  A walk
appends the nodes it enters to `met` and, permuted, to `done` (`Walk.exists_new`); each of them is
linked to one of the edges it was started on (`Walk.reached`), and when it is finished, each of its
successors was finished before or is one of its ancestors (`Walk.order`).
-/

namespace DepthFirst

variable {V C : Type*}

/-- A relation along which a rank decreases has no cycle. -/
theorem not_transGen_self {r : V → V → Prop} (rank : V → ℕ)
    (h : ∀ a b, r a b → rank b < rank a) (a : V) : ¬ Relation.TransGen r a a := by
  have key : ∀ b, Relation.TransGen r a b → rank b < rank a := by
    intro b hb
    induction hb with
    | single h₁ => exact h _ _ h₁
    | tail _ h₁ ih => exact Nat.lt_trans (h _ _ h₁) ih
  exact fun ha => Nat.lt_irrefl _ (key a ha)

section Closed

variable {r r' : V → V → Prop} {S : V → Prop}

theorem reflTransGen_of_closed (hS : ∀ a b, S a → r a b → S b ∧ r' a b) {a b : V} (ha : S a)
    (h : Relation.ReflTransGen r a b) : S b ∧ Relation.ReflTransGen r' a b := by
  induction h with
  | refl => exact ⟨ha, .refl⟩
  | tail _ hstep ih => exact ⟨(hS _ _ ih.1 hstep).1, ih.2.tail (hS _ _ ih.1 hstep).2⟩

theorem transGen_of_closed (hS : ∀ a b, S a → r a b → S b ∧ r' a b) {a b : V} (ha : S a)
    (h : Relation.TransGen r a b) : S b ∧ Relation.TransGen r' a b := by
  obtain ⟨c, hac, hcb⟩ := Relation.TransGen.tail'_iff.1 h
  obtain ⟨hc, hac⟩ := reflTransGen_of_closed hS ha hac
  exact ⟨(hS c b hc hcb).1, .tail' hac (hS c b hc hcb).2⟩

end Closed

/-- The state of a walk. -/
structure State (V C : Type*) where
  /-- The nodes entered so far, in order, with the context they were entered under. -/
  met : List (V × C)
  /-- The nodes left so far, in order. -/
  done : List (V × C)

namespace State

/-- Nothing met yet. -/
def empty : State V C := ⟨[], []⟩

/-- `v` has been entered. -/
def Met (s : State V C) (v : V) : Prop := v ∈ s.met.map Prod.fst

/-- `v` has been left. -/
def Done (s : State V C) (v : V) : Prop := v ∈ s.done.map Prod.fst

instance [DecidableEq V] (s : State V C) (v : V) : Decidable (s.Met v) :=
  inferInstanceAs (Decidable (v ∈ s.met.map Prod.fst))

/-- Enter a node. -/
def enter (s : State V C) (x : V × C) : State V C := { s with met := s.met ++ [x] }

/-- Leave a node. -/
def leave (s : State V C) (x : V × C) : State V C := { s with done := s.done ++ [x] }

/-- Every node is entered at most once, and only entered nodes are left. -/
structure Wf (s : State V C) : Prop where
  nodup : (s.met.map Prod.fst).Nodup
  sub : s.done ⊆ s.met

@[simp] theorem enter_met (s : State V C) (x : V × C) : (s.enter x).met = s.met ++ [x] := rfl

@[simp] theorem enter_done (s : State V C) (x : V × C) : (s.enter x).done = s.done := rfl

@[simp] theorem leave_met (s : State V C) (x : V × C) : (s.leave x).met = s.met := rfl

@[simp] theorem leave_done (s : State V C) (x : V × C) : (s.leave x).done = s.done ++ [x] := rfl

@[simp] theorem empty_met : (empty : State V C).met = [] := rfl

@[simp] theorem empty_done : (empty : State V C).done = [] := rfl

theorem met_of_mem {s : State V C} {x : V × C} (h : x ∈ s.met) : s.Met x.1 :=
  List.mem_map.2 ⟨x, h, rfl⟩

theorem Met.exists {s : State V C} {v : V} (h : s.Met v) : ∃ c, (v, c) ∈ s.met := by
  obtain ⟨⟨_, c⟩, hc, rfl⟩ := List.mem_map.1 h
  exact ⟨c, hc⟩

theorem Met.mono {s s' : State V C} (hs : s.met ⊆ s'.met) {v : V} (h : s.Met v) : s'.Met v := by
  obtain ⟨c, hc⟩ := h.exists
  exact met_of_mem (hs hc)

theorem wf_empty : (empty : State V C).Wf := ⟨List.nodup_nil, List.nil_subset _⟩

theorem Wf.ctx_unique {s : State V C} (h : s.Wf) {v : V} {c c' : C} (hc : (v, c) ∈ s.met)
    (hc' : (v, c') ∈ s.met) : c = c' :=
  congrArg Prod.snd (List.inj_on_of_nodup_map h.nodup hc hc' rfl)

theorem Wf.enter {s : State V C} (h : s.Wf) {x : V × C} (hx : ¬ s.Met x.1) : (s.enter x).Wf := by
  refine ⟨?_, fun y hy => List.mem_append_left _ (h.sub hy)⟩
  simp only [enter_met, List.map_append, List.map_cons, List.map_nil]
  exact List.nodup_append.2 ⟨h.nodup, List.nodup_singleton _, fun a ha b hb => by
    rintro rfl; exact hx (List.mem_singleton.1 hb ▸ ha)⟩

theorem Wf.leave {s : State V C} (h : s.Wf) {x : V × C} (hx : x ∈ s.met) : (s.leave x).Wf := by
  refine ⟨h.nodup, fun y hy => ?_⟩
  rcases List.mem_append.1 hy with hy | hy
  · exact h.sub hy
  · exact List.mem_singleton.1 hy ▸ hx

end State

/-- `b` was entered from `a`, or could have been: both are in `M` and `a` has an edge to `b`. -/
def Link (succ : V → C → List (Option (V × C))) (M : List (V × C)) (a b : V × C) : Prop :=
  a ∈ M ∧ b ∈ M ∧ some b ∈ succ a.1 a.2

/-- `v` comes before the entry `y` in `l`. -/
def Before (l : List (V × C)) (v : V) (y : V × C) : Prop :=
  ∃ l₁ l₂, l = l₁ ++ y :: l₂ ∧ v ∈ l₁.map Prod.fst

/-- Big-step semantics of a depth-first walk. -/
inductive Walk (succ : V → C → List (Option (V × C)))
    (pass : List (V × C) → Option (V × C) → Prop) :
    List (V × C) → List (Option (V × C)) → State V C → State V C → Prop
  | nil (path : List (V × C)) (s : State V C) : Walk succ pass path [] s s
  | dead {path : List (V × C)} {es : List (Option (V × C))} {s s' : State V C} :
      pass path none → Walk succ pass path es s s' → Walk succ pass path (none :: es) s s'
  | skip {path : List (V × C)} {x : V × C} {es : List (Option (V × C))} {s s' : State V C} :
      pass path (some x) → s.Met x.1 → Walk succ pass path es s s' →
      Walk succ pass path (some x :: es) s s'
  | enter {path : List (V × C)} {x : V × C} {es : List (Option (V × C))}
      {s s₁ s' : State V C} :
      pass path (some x) → ¬ s.Met x.1 →
      Walk succ pass (path ++ [x]) (succ x.1 x.2) (s.enter x) s₁ →
      Walk succ pass path es (s₁.leave x) s' → Walk succ pass path (some x :: es) s s'

variable {succ : V → C → List (Option (V × C))} {pass : List (V × C) → Option (V × C) → Prop}

theorem Link.mono {M M' : List (V × C)} (h : M ⊆ M') {a b : V × C} (hab : Link succ M a b) :
    Link succ M' a b :=
  ⟨h hab.1, h hab.2.1, hab.2.2⟩

theorem links_mono {M M' : List (V × C)} (h : M ⊆ M') {a b : V × C}
    (hab : Relation.ReflTransGen (Link succ M) a b) : Relation.ReflTransGen (Link succ M') a b :=
  Relation.ReflTransGen.mono (fun _ _ => Link.mono h) _ _ hab

theorem Before.append {l : List (V × C)} {v : V} {y : V × C} (h : Before l v y)
    (l' : List (V × C)) : Before (l ++ l') v y := by
  obtain ⟨l₁, l₂, rfl, hv⟩ := h
  exact ⟨l₁, l₂ ++ l', by simp, hv⟩

namespace Walk

variable {path : List (V × C)} {es : List (Option (V × C))} {s s' : State V C}

/-! ### What a walk appends -/

/-- A walk appends the nodes it enters to `met` and the same nodes to `done`. -/
theorem exists_new (h : Walk succ pass path es s s') :
    ∃ N D, s'.met = s.met ++ N ∧ s'.done = s.done ++ D ∧ N.Perm D := by
  induction h with
  | nil => exact ⟨[], [], by simp, by simp, .refl _⟩
  | dead _ _ ih => exact ih
  | skip _ _ _ ih => exact ih
  | @enter _ x _ s s₁ s' _ _ _ _ ih₁ ih₂ =>
    obtain ⟨N₁, D₁, hm₁, hd₁, hp₁⟩ := ih₁
    obtain ⟨N₂, D₂, hm₂, hd₂, hp₂⟩ := ih₂
    refine ⟨x :: N₁ ++ N₂, D₁ ++ [x] ++ D₂, by simp [hm₂, hm₁], by simp [hd₂, hd₁], ?_⟩
    exact ((hp₁.cons x).trans (List.perm_append_singleton x D₁).symm).append hp₂

theorem met_subset (h : Walk succ pass path es s s') : s.met ⊆ s'.met := by
  obtain ⟨N, D, hm, -, -⟩ := h.exists_new
  exact hm ▸ List.subset_append_left _ _

theorem wf (h : Walk succ pass path es s s') (hs : s.Wf) : s'.Wf := by
  induction h with
  | nil => exact hs
  | dead _ _ ih => exact ih hs
  | skip _ _ _ ih => exact ih hs
  | @enter _ x _ s s₁ s' _ hx h₁ _ ih₁ ih₂ =>
    exact ih₂ ((ih₁ (hs.enter hx)).leave (h₁.met_subset (by simp)))

/-- The nodes entered and not yet left are the same before and after a walk. -/
theorem open_iff (h : Walk succ pass path es s s') (hs : s.Wf) (v : V) :
    s'.Met v ∧ ¬ s'.Done v ↔ s.Met v ∧ ¬ s.Done v := by
  obtain ⟨N, D, hm, hd, hp⟩ := h.exists_new
  have hdis : ∀ {v}, s.Met v → v ∉ D.map Prod.fst := by
    intro v hv hD
    have hN : v ∈ N.map Prod.fst := (hp.map Prod.fst).mem_iff.2 hD
    have hnd := (h.wf hs).nodup
    rw [hm, List.map_append] at hnd
    exact (List.nodup_append.1 hnd).2.2 v hv v hN rfl
  simp only [State.Met, State.Done, hm, hd, List.map_append, List.mem_append, not_or] at hdis ⊢
  constructor
  · rintro ⟨hM | hN, hnd, hnD⟩
    · exact ⟨hM, hnd⟩
    · exact absurd ((hp.map Prod.fst).mem_iff.1 hN) hnD
  · rintro ⟨hM, hnd⟩
    exact ⟨.inl hM, hnd, hdis hM⟩

/-- The edges a walk was started on lead to nodes it has met. -/
theorem met_of_edge (h : Walk succ pass path es s s') {x : V × C} (hx : some x ∈ es) :
    s'.Met x.1 := by
  induction h with
  | nil => cases hx
  | dead _ _ ih => exact ih ((List.mem_cons.1 hx).resolve_left (by simp))
  | skip _ hm h' ih =>
    rcases List.mem_cons.1 hx with hx | hx
    · cases hx; exact hm.mono h'.met_subset
    · exact ih hx
  | enter _ _ h₁ h₂ _ ih₂ =>
    rcases List.mem_cons.1 hx with hx | hx
    · cases hx
      exact State.met_of_mem (h₂.met_subset (h₁.met_subset (by simp)))
    · exact ih₂ hx

theorem passes (h : Walk succ pass path es s s') {e : Option (V × C)} (he : e ∈ es) :
    pass path e := by
  induction h with
  | nil => cases he
  | dead hp _ ih => exact (List.mem_cons.1 he).elim (fun h => h ▸ hp) ih
  | skip hp _ _ ih => exact (List.mem_cons.1 he).elim (fun h => h ▸ hp) ih
  | enter hp _ _ _ _ ih₂ => exact (List.mem_cons.1 he).elim (fun h => h ▸ hp) ih₂

/-- Every node a walk enters is linked to one of the edges it was started on. -/
theorem reached (h : Walk succ pass path es s s') {y : V × C} (hy : y ∈ s'.met) :
    y ∈ s.met ∨ ∃ r, some r ∈ es ∧ r ∈ s'.met ∧
      Relation.ReflTransGen (Link succ s'.met) r y := by
  induction h with
  | nil => exact .inl hy
  | dead _ _ ih => exact (ih hy).imp_right fun ⟨r, hr, h⟩ => ⟨r, .tail _ hr, h⟩
  | skip _ _ _ ih => exact (ih hy).imp_right fun ⟨r, hr, h⟩ => ⟨r, .tail _ hr, h⟩
  | @enter _ x _ s s₁ s' _ _ h₁ h₂ ih₁ ih₂ =>
    have hsub : s₁.met ⊆ s'.met := h₂.met_subset
    have hx : x ∈ s'.met := hsub (h₁.met_subset (by simp))
    rcases ih₂ hy with hy | ⟨r, hr, h⟩
    · rcases ih₁ hy with hy | ⟨r, hr, hrm, hry⟩
      · rcases List.mem_append.1 hy with hy | hy
        · exact .inl hy
        · obtain rfl := List.mem_singleton.1 hy
          exact .inr ⟨y, List.mem_cons_self, hx, .refl⟩
      · exact .inr ⟨x, List.mem_cons_self, hx,
          .head ⟨hx, hsub hrm, hr⟩ (links_mono hsub hry)⟩
    · exact .inr ⟨r, .tail _ hr, h⟩

/-! ### Order of finishing -/

end Walk

/-- `path` is a chain of ancestors whose last one has the edges `es`. -/
def Trail (succ : V → C → List (Option (V × C))) (path : List (V × C))
    (es : List (Option (V × C))) (M : List (V × C)) : Prop :=
  ∀ q ∈ path, q ∈ M ∧
    ∃ a ∈ M, Relation.ReflTransGen (Link succ M) q a ∧ ∀ e ∈ es, e ∈ succ a.1 a.2

/-- Every open node is an ancestor. -/
def OpenOn (path : List (V × C)) (s : State V C) : Prop :=
  ∀ v, s.Met v → ¬ s.Done v → v ∈ path.map Prod.fst

namespace Trail

variable {path : List (V × C)} {es : List (Option (V × C))} {M : List (V × C)}

theorem nil : Trail succ [] es M := fun _ h => by cases h

theorem mono (h : Trail succ path es M) {es' : List (Option (V × C))} {M' : List (V × C)}
    (hes : es' ⊆ es) (hM : M ⊆ M') : Trail succ path es' M' := by
  intro q hq
  obtain ⟨hqM, a, ha, hqa, hsucc⟩ := h q hq
  exact ⟨hM hqM, a, hM ha, links_mono hM hqa, fun e he => hsucc e (hes he)⟩

theorem push (h : Trail succ path es M) {x : V × C} (hx : some x ∈ es) :
    Trail succ (path ++ [x]) (succ x.1 x.2) (M ++ [x]) := by
  have hxM : x ∈ M ++ [x] := by simp
  intro q hq
  rcases List.mem_append.1 hq with hq | hq
  · obtain ⟨hqM, a, ha, hqa, hsucc⟩ := h q hq
    have haM : a ∈ M ++ [x] := List.mem_append_left _ ha
    exact ⟨List.mem_append_left _ hqM, x, hxM,
      (links_mono (List.subset_append_left _ _) hqa).tail ⟨haM, hxM, hsucc _ hx⟩, fun _ => id⟩
  · obtain rfl := List.mem_singleton.1 hq
    exact ⟨hxM, q, hxM, .refl, fun _ => id⟩

theorem linked (h : Trail succ path es M) {q r : V × C} (hq : q ∈ path) (hr : some r ∈ es)
    (hrM : r ∈ M) : Relation.ReflTransGen (Link succ M) q r := by
  obtain ⟨-, a, ha, hqa, hsucc⟩ := h q hq
  exact hqa.tail ⟨ha, hrM, hsucc _ hr⟩

end Trail

namespace OpenOn

variable {path : List (V × C)} {s : State V C}

theorem enter (h : OpenOn path s) (x : V × C) : OpenOn (path ++ [x]) (s.enter x) := by
  intro v hm hd
  rw [List.map_append, List.mem_append]
  simp only [State.Met, State.enter_met, List.map_append, List.mem_append] at hm
  exact hm.imp_left fun hm => h v hm hd

theorem leave {x : V × C} (h : OpenOn (path ++ [x]) s) : OpenOn path (s.leave x) := by
  intro v hm hd
  simp only [State.Done, State.leave_done, List.map_append, List.mem_append, not_or] at hd
  have := h v hm hd.1
  rw [List.map_append, List.mem_append] at this
  exact this.resolve_right hd.2

theorem walk (h : OpenOn path s) (hs : s.Wf) {es : List (Option (V × C))} {s' : State V C}
    {path' : List (V × C)} (hw : Walk succ pass path' es s s') : OpenOn path s' := by
  intro v hm hd
  obtain ⟨hm, hd⟩ := (hw.open_iff hs v).1 ⟨hm, hd⟩
  exact h v hm hd

end OpenOn

/-- How the edge `e` of a finished node `y` was followed: it passed the test for some chain `p`
of ancestors of `y`, and it leads to a node finished before `y` or to an ancestor. -/
def Followed (succ : V → C → List (Option (V × C)))
    (pass : List (V × C) → Option (V × C) → Prop) (s : State V C) (y : V × C)
    (e : Option (V × C)) : Prop :=
  ∃ p, pass p e ∧ (∀ q ∈ p, q ∈ s.met ∧ Relation.ReflTransGen (Link succ s.met) q y) ∧
    ∀ z, e = some z → Before s.done z.1 y ∨ z.1 ∈ p.map Prod.fst

theorem Followed.mono {s s' : State V C} {y : V × C} {e : Option (V × C)}
    (h : Followed succ pass s y e) (hm : s.met ⊆ s'.met) {D : List (V × C)}
    (hd : s'.done = s.done ++ D) : Followed succ pass s' y e := by
  obtain ⟨p, hp, hq, hz⟩ := h
  refine ⟨p, hp, fun q hqp => ⟨hm (hq q hqp).1, links_mono hm (hq q hqp).2⟩, fun z hez => ?_⟩
  exact (hz z hez).imp_left fun hb => hd ▸ hb.append D

namespace Walk

variable {path : List (V × C)} {es : List (Option (V × C))} {s s' : State V C}

theorem followed_mono (h : Walk succ pass path es s s') {y : V × C} {e : Option (V × C)}
    (hf : Followed succ pass s y e) : Followed succ pass s' y e := by
  obtain ⟨N, D, -, hd, -⟩ := h.exists_new
  exact hf.mono h.met_subset hd

/-- When a node is left, each of its edges has passed the test and leads to a node left before
it or to one of its ancestors. -/
theorem order (h : Walk succ pass path es s s') (hs : s.Wf) (ho : OpenOn path s)
    (ht : Trail succ path es s.met) {y : V × C} (hy : y ∈ s'.done) :
    y ∈ s.done ∨ ∀ e ∈ succ y.1 y.2, Followed succ pass s' y e := by
  induction h with
  | nil => exact .inl hy
  | dead _ _ ih => exact ih hs ho (ht.mono (List.subset_cons_self _ _) (List.Subset.refl _)) hy
  | skip _ _ _ ih => exact ih hs ho (ht.mono (List.subset_cons_self _ _) (List.Subset.refl _)) hy
  | @enter path x es s s₁ s' _ hx h₁ h₂ ih₁ ih₂ =>
    have hs₁ : s₁.Wf := h₁.wf (hs.enter hx)
    have hx₁ : x ∈ s₁.met := h₁.met_subset (by simp)
    have ht₁ : Trail succ (path ++ [x]) (succ x.1 x.2) (s.enter x).met := ht.push (by simp)
    have ho₁ : OpenOn (path ++ [x]) s₁ := (ho.enter x).walk (hs.enter hx) h₁
    have ht₂ : Trail succ path es (s₁.leave x).met :=
      ht.mono (List.subset_cons_self _ _) fun q hq => h₁.met_subset (by simp [hq])
    rcases ih₂ (hs₁.leave hx₁) ho₁.leave ht₂ hy with hy | hy
    · rcases List.mem_append.1 hy with hy | hy
      · refine (ih₁ (hs.enter hx) (ho.enter x) ht₁ hy).imp_right fun hf e he => ?_
        exact h₂.followed_mono ((hf e he).mono (List.Subset.refl _) rfl)
      · -- `x` itself: all its edges were followed with the ancestors `path ++ [x]`
        obtain rfl := List.mem_singleton.1 hy
        refine .inr fun e he => h₂.followed_mono ⟨path ++ [y], h₁.passes he, fun q hq => ?_, ?_⟩
        · refine ⟨h₁.met_subset (ht₁ q hq).1, links_mono h₁.met_subset ?_⟩
          rcases List.mem_append.1 hq with hq | hq
          · exact (ht.mono (List.Subset.refl _) (List.subset_append_left _ _)).linked hq
              List.mem_cons_self (by simp)
          · obtain rfl := List.mem_singleton.1 hq
            exact .refl
        · rintro z rfl
          by_cases hd : s₁.Done z.1
          · exact .inl ⟨s₁.done, [], rfl, hd⟩
          · exact .inr (ho₁ z.1 (h₁.met_of_edge he) hd)
    · exact .inr hy

/-- A completed walk from nothing has left every node it met. -/
theorem met_iff_done (h : Walk succ pass path es .empty s') (y : V × C) :
    y ∈ s'.met ↔ y ∈ s'.done := by
  obtain ⟨N, D, hm, hd, hp⟩ := h.exists_new
  simp only [State.empty_met, State.empty_done, List.nil_append] at hm hd
  rw [hm, hd]
  exact hp.mem_iff

theorem followed (h : Walk succ pass [] es .empty s') {y : V × C} (hy : y ∈ s'.met)
    {e : Option (V × C)} (he : e ∈ succ y.1 y.2) : Followed succ pass s' y e := by
  have ho : OpenOn [] (State.empty : State V C) := fun v hm => by cases hm
  rcases h.order State.wf_empty ho .nil ((h.met_iff_done y).1 hy) with h0 | hf
  · cases h0
  · exact hf e he

/-- The nodes a completed walk has met are closed under the edges followed. -/
theorem met_succ (h : Walk succ pass [] es .empty s') {y z : V × C} (hy : y ∈ s'.met)
    (hz : some z ∈ succ y.1 y.2) : s'.Met z.1 := by
  obtain ⟨p, -, hp, hb⟩ := h.followed hy hz
  rcases hb z rfl with ⟨l₁, l₂, hl, hv⟩ | hv
  · obtain ⟨q, hq, hqz⟩ := List.mem_map.1 hv
    have : q ∈ s'.met := (h.met_iff_done q).2 (hl ▸ List.mem_append_left _ hq)
    exact hqz ▸ State.met_of_mem this
  · obtain ⟨q, hq, hqz⟩ := List.mem_map.1 hv
    exact hqz ▸ State.met_of_mem (hp q hq).1

/-! ### Determinism and totality -/

/-- The outcome does not depend on the ancestors or on the test. -/
theorem unique {pass' : List (V × C) → Option (V × C) → Prop} {path' : List (V × C)}
    {t : State V C} (h : Walk succ pass path es s s') (h' : Walk succ pass' path' es s t) :
    s' = t := by
  induction h generalizing path' t with
  | nil => cases h'; rfl
  | dead _ _ ih => cases h' with | dead _ h' => exact ih h'
  | skip _ hm _ ih =>
    cases h' with
    | skip _ _ h' => exact ih h'
    | enter _ hm' => exact absurd hm hm'
  | enter _ hm _ _ ih₁ ih₂ =>
    cases h' with
    | skip _ hm' => exact absurd hm' hm
    | enter _ _ h₁ h₂ =>
      obtain rfl := ih₁ h₁
      exact ih₂ h₂

end Walk

/-- The number of nodes of `U` not met yet. -/
def unmet [DecidableEq V] (U : List V) (s : State V C) : ℕ :=
  (U.filter fun v => ¬ s.Met v).length

theorem unmet_mono [DecidableEq V] (U : List V) {s s' : State V C} (h : s.met ⊆ s'.met) :
    unmet U s' ≤ unmet U s := by
  refine (List.monotone_filter_right U fun v hv => ?_).length_le
  simp only [decide_eq_true_eq] at hv ⊢
  exact fun hm => hv (hm.mono h)

theorem unmet_enter [DecidableEq V] {U : List V} {s : State V C} {x : V × C} (hU : x.1 ∈ U)
    (hx : ¬ s.Met x.1) : unmet U (s.enter x) < unmet U s := by
  have hsub : (U.filter fun v => ¬ (s.enter x).Met v).Sublist
      (U.filter fun v => ¬ s.Met v) := by
    refine List.monotone_filter_right U fun v hv => ?_
    simp only [decide_eq_true_eq] at hv ⊢
    exact fun hm => hv (hm.mono (List.subset_append_left _ _))
  refine Nat.lt_of_le_of_ne hsub.length_le fun heq => ?_
  have hmem : x.1 ∈ U.filter fun v => ¬ s.Met v := by simp [hU, hx]
  rw [← hsub.eq_of_length heq] at hmem
  simp only [List.mem_filter, decide_eq_true_eq] at hmem
  exact hmem.2 (State.met_of_mem (by simp))

/-- **Walks are total on a finite graph**, whatever the initial state. -/
theorem exists_walk [DecidableEq V] {U : List V}
    (hU : ∀ v ∈ U, ∀ c x, some x ∈ succ v c → x.1 ∈ U) (path : List (V × C))
    (es : List (Option (V × C))) (s : State V C) (hes : ∀ x, some x ∈ es → x.1 ∈ U) :
    ∃ s', Walk succ (fun _ _ => True) path es s s' := by
  -- outer induction on the number of nodes not met, inner one on the edges
  induction hn : unmet U s using Nat.strongRecOn generalizing path es s with
  | ind n ihn =>
    induction es generalizing s with
    | nil => exact ⟨s, .nil _ _⟩
    | cons e es ih =>
      have hes' : ∀ x, some x ∈ es → x.1 ∈ U := fun x hx => hes x (.tail _ hx)
      cases e with
      | none => exact (ih s hes' hn).imp fun s' h => .dead trivial h
      | some x =>
        by_cases hm : s.Met x.1
        · exact (ih s hes' hn).imp fun s' h => .skip trivial hm h
        · have hlt := unmet_enter (hes x List.mem_cons_self) hm
          obtain ⟨s₁, h₁⟩ := ihn _ (hn ▸ hlt) (path ++ [x]) (succ x.1 x.2) (s.enter x)
            (hU _ (hes x List.mem_cons_self) _) rfl
          have hle : unmet U (s₁.leave x) ≤ unmet U (s.enter x) := unmet_mono U h₁.met_subset
          obtain ⟨s', h₂⟩ := ihn _ (by omega) path es (s₁.leave x) hes' rfl
          exact ⟨s', .enter trivial hm h₁ h₂⟩

end DepthFirst
