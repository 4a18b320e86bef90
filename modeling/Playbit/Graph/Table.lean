import Playbit.Graph.Search
import Playbit.Graph.Simulates

/-!
# Searches that fill in a table

A program that performs a depth-first search usually computes something for each node on the way,
in a table of its own.  A `TableSpec` says what the table is meant to hold: the attributes of a
node before it is entered, those it has when it is left (which may depend on the context it was
entered under), and an invariant between the table and the state of the search.

`Agrees` is the simulation relation, `Extends` what holds after a part of the search, and `Stage`
what holds while the edges of one node are being followed.
-/

namespace DepthFirst

variable {V C τ α : Type*}

/-- What a search leaves in its table. -/
structure TableSpec (V C τ α : Type*) where
  /-- The attributes of a node in a table. -/
  attr : τ → V → α
  /-- The attributes of a node that has not been entered. -/
  fresh : α
  /-- The attributes of a node that has been left. -/
  final : V → C → α
  /-- What else relates the table to the state of the search. -/
  inv : τ → State V C → Prop

/-- The table `t` agrees with the state `s` of the search. -/
structure Agrees (T : TableSpec V C τ α) (t : τ) (s : State V C) : Prop where
  fresh : ∀ v, ¬ s.Met v → T.attr t v = T.fresh
  done : ∀ v c, (v, c) ∈ s.done → T.attr t v = T.final v c
  sub : ∀ v, s.Done v → s.Met v
  inv : T.inv t s

/-- `t'`, `s'` agree and come after `t`, `s`: what was met stays met, the open nodes are the
same, and the nodes of `A` have the attributes they had. -/
structure Extends (T : TableSpec V C τ α) (A : V → Prop) (t : τ) (s : State V C) (t' : τ)
    (s' : State V C) : Prop where
  agrees : Agrees T t' s'
  met : ∀ v, s.Met v → s'.Met v
  done : ∀ v, s.Met v → s'.Done v → s.Done v
  same : ∀ v, s.Met v → A v → T.attr t' v = T.attr t v

/-- `t'`, `s'` come after `t`, `s` while the edges of `v` are followed, and `v` has the
attributes `a`. -/
def Stage (T : TableSpec V C τ α) (v : V) (a : α) (t : τ) (s : State V C) (t' : τ)
    (s' : State V C) : Prop :=
  Extends T (· ≠ v) t s t' s' ∧ T.attr t' v = a

variable {T : TableSpec V C τ α} {A B : V → Prop} {t t₁ t₂ : τ} {s s₁ s₂ : State V C} {v : V}
  {a : α}

theorem agrees_empty (hf : ∀ v, T.attr t v = T.fresh) (hi : T.inv t .empty) :
    Agrees T t .empty where
  fresh v _ := hf v
  done _ _ h := by cases h
  sub _ h := by cases h
  inv := hi

theorem Agrees.refl_extends (h : Agrees T t s) : Extends T A t s t s :=
  ⟨h, fun _ => id, fun _ _ => id, fun _ _ _ => rfl⟩

theorem Extends.trans (h : Extends T A t s t₁ s₁) (h' : Extends T A t₁ s₁ t₂ s₂) :
    Extends T A t s t₂ s₂ where
  agrees := h'.agrees
  met v hv := h'.met v (h.met v hv)
  done v hv hd := h.done v hv (h'.done v (h.met v hv) hd)
  same v hv ha := (h'.same v (h.met v hv) ha).trans (h.same v hv ha)

theorem Extends.mono (h : Extends T A t s t₁ s₁) (hAB : ∀ v, B v → A v) :
    Extends T B t s t₁ s₁ :=
  { h with same := fun v hv hb => h.same v hv (hAB v hb) }

theorem Agrees.change (h : Agrees T t s) (hm : s.Met v) (hd : ¬ s.Done v)
    (hne : ∀ u, u ≠ v → T.attr t₁ u = T.attr t u) (hi : T.inv t₁ s) : Agrees T t₁ s where
  fresh u hu := by
    have huv : u ≠ v := by rintro rfl; exact hu hm
    rw [hne u huv, h.fresh u hu]
  done u c hu := by
    have huv : u ≠ v := by
      rintro rfl
      exact hd (List.mem_map.2 ⟨_, hu, rfl⟩)
    rw [hne u huv, h.done u c hu]
  sub := h.sub
  inv := hi

theorem Extends.change (h : Extends T (· ≠ v) t s t₁ s₁) (hm : s.Met v) (hd : ¬ s.Done v)
    (hne : ∀ u, u ≠ v → T.attr t₂ u = T.attr t₁ u) (hi : T.inv t₂ s₁) :
    Extends T (· ≠ v) t s t₂ s₁ where
  agrees := h.agrees.change (h.met _ hm) (fun hd' => hd (h.done _ hm hd')) hne hi
  met := h.met
  done := h.done
  same u hu huv := by rw [hne u huv, h.same u hu huv]

theorem Agrees.enter (h : Agrees T t s) {x : V × C} (hx : ¬ s.Met x.1)
    (hne : ∀ u, u ≠ x.1 → T.attr t₁ u = T.attr t u) (hi : T.inv t₁ (s.enter x)) :
    Agrees T t₁ (s.enter x) where
  fresh u hu := by
    simp only [State.Met, State.enter_met, List.map_append, List.map_cons, List.map_nil,
      List.mem_append, List.mem_singleton, not_or] at hu
    rw [hne u hu.2, h.fresh u hu.1]
  done u c hu := by
    have hux : u ≠ x.1 := by
      rintro rfl
      exact hx (h.sub _ (List.mem_map.2 ⟨_, hu, rfl⟩))
    rw [hne u hux, h.done u c hu]
  sub u hu := (h.sub u hu).mono (List.subset_append_left _ _)
  inv := hi

/-- Leaving a node whose edges have been followed: `t` is the table before it was entered, `t₁`
the one after that, `t₂` the one after its edges and `t₃` the one after leaving it. -/
theorem Stage.leave {x : V × C} {t₃ : τ} (hx : ¬ s.Met x.1)
    (h : Stage T x.1 (T.final x.1 x.2) t₁ (s.enter x) t₂ s₂)
    (hne : ∀ u, u ≠ x.1 → T.attr t₁ u = T.attr t u) (heq : ∀ u, T.attr t₃ u = T.attr t₂ u)
    (hi : T.inv t₃ (s₂.leave x)) : Extends T (fun _ => True) t s t₃ (s₂.leave x) where
  agrees := {
    fresh := fun u hu => (heq u).trans (h.1.agrees.fresh u hu)
    done := fun u c hu => by
      rcases List.mem_append.1 hu with hu | hu
      · exact (heq u).trans (h.1.agrees.done u c hu)
      · cases List.mem_singleton.1 hu
        exact (heq _).trans h.2
    sub := fun u hu => by
      simp only [State.Done, State.leave_done, List.map_append, List.mem_append] at hu
      rcases hu with hu | hu
      · exact h.1.agrees.sub u hu
      · obtain rfl : u = x.1 := by simpa using hu
        exact h.1.met _ (State.met_of_mem (by simp))
    inv := hi }
  met u hu := h.1.met u (hu.mono (List.subset_append_left _ _))
  done u hu hd := by
    simp only [State.Done, State.leave_done, List.map_append, List.mem_append] at hd
    rcases hd with hd | hd
    · exact h.1.done u (hu.mono (List.subset_append_left _ _)) hd
    · obtain rfl : u = x.1 := by simpa using hd
      exact absurd hu hx
  same u hu _ := by
    have hux : u ≠ x.1 := by rintro rfl; exact hx hu
    rw [heq, h.1.same u (hu.mono (List.subset_append_left _ _)) hux, hne u hux]

end DepthFirst
