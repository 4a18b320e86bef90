import Mathlib.Logic.Relation

/-!
# Simulation of fallible computations

`Simulates err Q x y` says that the computation `x` behaves like `y`: both succeed, with results
related by `Q`, or both fail, and `err` maps the error of `x` to the error of `y`.  The rules
below compose simulations along the way the computations are composed.
-/

variable {ε φ α β α' β' : Type*}

/-- `x` behaves like `y`. -/
def Simulates (err : ε → φ) (Q : α → β → Prop) : Except ε α → Except φ β → Prop
  | .ok a, .ok b => Q a b
  | .error e, .error f => err e = f
  | _, _ => False

namespace Simulates

variable {err : ε → φ} {Q : α → β → Prop} {Q' : α' → β' → Prop}

theorem ok {a : α} {b : β} (h : Q a b) : Simulates err Q (.ok a) (.ok b) := h

theorem error {e : ε} : Simulates err Q (.error e) (.error (err e)) := rfl

theorem bind {x : Except ε α} {y : Except φ β} (h : Simulates err Q x y)
    {f : α → Except ε α'} {g : β → Except φ β'}
    (hfg : ∀ a b, Q a b → Simulates err Q' (f a) (g b)) :
    Simulates err Q' (x.bind f) (y.bind g) := by
  cases x with
  | ok a =>
    cases y with
    | ok b => exact hfg a b h
    | error f => exact h.elim
  | error e =>
    cases y with
    | ok b => exact h.elim
    | error f => exact h

theorem bind_ok {x : Except ε α} {y : Except φ β} (h : Simulates err Q x y) {f : α → α'}
    {Q₂ : α' → β → Prop} (hf : ∀ a b, Q a b → Q₂ (f a) b) :
    Simulates err Q₂ (x.bind fun a => .ok (f a)) y := by
  cases x with
  | ok a =>
    cases y with
    | ok b => exact hf a b h
    | error f => exact h.elim
  | error e =>
    cases y with
    | ok b => exact h.elim
    | error f => exact h

theorem bind_right {x : Except ε α} {y : Except φ β} (h : Simulates err Q x y)
    {g : β → Except φ β'} {Q₂ : α → β' → Prop}
    (hg : ∀ a b, Q a b → Simulates err Q₂ (.ok a) (g b)) :
    Simulates err Q₂ x (y.bind g) := by
  cases x with
  | ok a =>
    cases y with
    | ok b => exact hg a b h
    | error f => exact h.elim
  | error e =>
    cases y with
    | ok b => exact h.elim
    | error f => exact h

theorem map_right {x : Except ε α} {y : Except φ β} (h : Simulates err Q x y) {g : β → β'}
    {Q₂ : α → β' → Prop} (hg : ∀ a b, Q a b → Q₂ a (g b)) :
    Simulates err Q₂ x (y.map g) := by
  cases x with
  | ok a =>
    cases y with
    | ok b => exact hg a b h
    | error f => exact h.elim
  | error e =>
    cases y with
    | ok b => exact h.elim
    | error f => exact h

theorem exists_ok {x : Except ε α} {b : β} (h : Simulates err Q x (.ok b)) :
    ∃ a, x = .ok a ∧ Q a b := by
  cases x with
  | ok a => exact ⟨a, rfl, h⟩
  | error e => exact h.elim

theorem exists_ok_right {a : α} {y : Except φ β} (h : Simulates err Q (.ok a) y) :
    ∃ b, y = .ok b ∧ Q a b := by
  cases y with
  | ok b => exact ⟨b, rfl, h⟩
  | error e => exact h.elim

theorem exists_error {x : Except ε α} {f : φ} (h : Simulates err Q x (.error f)) :
    ∃ e, x = .error e ∧ err e = f := by
  cases x with
  | ok a => exact h.elim
  | error e => exact ⟨e, rfl, h⟩

/-- Loops: `u` is what one round makes of the specification `c` of the states, and a round on
the left corresponds to the rounds for `edges e` on the right. -/
theorem foldlM {γ ι ι' : Type*} {Q : γ → α → β → Prop} {f : α → ι → Except ε α}
    {g : β → ι' → Except φ β} {edges : ι → List ι'} {u : γ → ι → γ} (l : List ι)
    (hround : ∀ e ∈ l, ∀ c a b, Q c a b →
      Simulates err (Q (u c e)) (f a e) ((edges e).foldlM g b))
    {c : γ} {a : α} {b : β} (h : Q c a b) :
    Simulates err (Q (l.foldl u c)) (l.foldlM f a) ((l.flatMap edges).foldlM g b) := by
  induction l generalizing c a b with
  | nil => exact h
  | cons e l ih =>
    rw [List.foldlM_cons, List.flatMap_cons, List.foldlM_append, List.foldl_cons]
    exact (hround e List.mem_cons_self c a b h).bind fun a' b' h' =>
      ih (fun e' he' => hround e' (.tail _ he')) h'

end Simulates
