import Mathlib.Logic.Function.Basic
import Mathlib.Data.List.Nodup
import Mathlib.Data.List.ProdSigma

/-!
# Loops that assign in place

A loop that writes the entries of a table one after the other, each from another entry, is the
simultaneous assignment of all of them when it does not overwrite what it is still going to read.

`foldl_update_of_mem` and `foldl_update_of_forall_ne` say what the loop leaves at the entries it
writes and at the others.  Loops over larger states are reduced to a table in them
(`foldl_simulates`), and a loop in a loop to one over pairs (`foldl_product`).
-/

namespace InPlace

variable {ι κ β : Type*} [DecidableEq κ]

/-- One pass of the loop: step `i` writes `value i` of the entry `src i` to the entry `dst i`. -/
def assign (dst src : ι → κ) (value : ι → β → β) (f : κ → β) (i : ι) : κ → β :=
  Function.update f (dst i) (value i (f (src i)))

variable {dst src : ι → κ} {value : ι → β → β} {l : List ι}

theorem foldl_update_of_forall_ne {k : κ} (hk : ∀ i ∈ l, dst i ≠ k) (f : κ → β) :
    l.foldl (assign dst src value) f k = f k := by
  induction l generalizing f with
  | nil => rfl
  | cons i l ih =>
    rw [List.forall_mem_cons] at hk
    rw [List.foldl_cons, ih hk.2, assign, Function.update_of_ne hk.1.symm]

/-- What is written comes from the entries as they were before the loop, if no step overwrites
what a later one writes or reads. -/
theorem foldl_update_of_mem (hl : l.Pairwise fun i j => dst i ≠ dst j ∧ dst i ≠ src j) {i : ι}
    (hi : i ∈ l) (f : κ → β) :
    l.foldl (assign dst src value) f (dst i) = value i (f (src i)) := by
  induction l generalizing f with
  | nil => cases hi
  | cons j l ih =>
    obtain ⟨hj, hl⟩ := List.pairwise_cons.1 hl
    rw [List.foldl_cons]
    rcases List.mem_cons.1 hi with rfl | hi
    · rw [foldl_update_of_forall_ne fun k hk => (hj k hk).1.symm, assign, Function.update_self]
    · rw [ih hl hi, assign, Function.update_of_ne (hj i hi).2.symm]

/-- A loop over states that assigns to a table in them, and leaves `frame` alone. -/
theorem foldl_simulates {σ φ : Type*} {step : σ → ι → σ} {table : σ → κ → β} {frame : σ → φ} {s : σ}
    (hframe : ∀ s i, frame (step s i) = frame s)
    (hstep : ∀ t, frame t = frame s → ∀ i ∈ l,
      table (step t i) = assign dst src value (table t) i) :
    table (l.foldl step s) = l.foldl (assign dst src value) (table s) ∧
      frame (l.foldl step s) = frame s := by
  induction l generalizing s with
  | nil => exact ⟨rfl, rfl⟩
  | cons i l ih =>
    obtain ⟨htable, hframe'⟩ := @ih (step s i) fun t ht j hj =>
      hstep t (ht.trans (hframe s i)) j (.tail _ hj)
    rw [List.foldl_cons, List.foldl_cons, ← hstep s rfl i List.mem_cons_self]
    exact ⟨htable, hframe'.trans (hframe s i)⟩

theorem foldl_product {σ α γ : Type*} (step : σ → α × γ → σ) (l₁ : List α) (l₂ : List γ) (s : σ) :
    (l₁ ×ˢ l₂).foldl step s = l₁.foldl (fun s a => l₂.foldl (fun s c => step s (a, c)) s) s := by
  induction l₁ generalizing s with
  | nil => rfl
  | cons a l₁ ih =>
    rw [List.product_cons, List.foldl_append, ih, List.foldl_map, List.foldl_cons]

/-- A loop in a loop goes through the pairs in lexicographic order. -/
theorem pairwise_product {α γ : Type*} {R : α → α → Prop} {S : γ → γ → Prop} {l₁ : List α}
    {l₂ : List γ} (h₁ : l₁.Pairwise R) (h₂ : l₂.Pairwise S) :
    (l₁ ×ˢ l₂).Pairwise fun p q => R p.1 q.1 ∨ p.1 = q.1 ∧ S p.2 q.2 := by
  induction l₁ with
  | nil => exact List.Pairwise.nil
  | cons a l₁ ih =>
    obtain ⟨ha, h₁⟩ := List.pairwise_cons.1 h₁
    rw [List.product_cons, List.pairwise_append, List.pairwise_map]
    refine ⟨h₂.imp fun h => .inr ⟨rfl, h⟩, ih h₁, ?_⟩
    rintro p hp ⟨b, c⟩ hq
    obtain ⟨d, -, rfl⟩ := List.mem_map.1 hp
    exact .inl (ha b (List.pair_mem_product.1 hq).1)

end InPlace
