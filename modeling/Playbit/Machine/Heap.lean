import Mathlib.Data.List.Count
import Mathlib.Data.List.Nodup
import Mathlib.Tactic.SplitIfs

/-!
# Blocks of memory and their owners

Blocks are allocated and freed.  Each of those that are allocated has one owner, so that no block is
freed twice or used after it has been freed, and none is forgotten.

`Heap.Owned` lists the blocks that the owners have, in any order: allocating adds one, freeing
removes one, and each block that is allocated is in the list once (`Heap.Owned.nodup`,
`Heap.Owned.mem_iff`).
-/

/-- The contents of the blocks that are allocated. -/
def Heap (κ β : Type*) := κ → Option β

namespace Heap

variable {κ β : Type*} [DecidableEq κ]

/-- No blocks. -/
def empty : Heap κ β := fun _ => none

def alloc (H : Heap κ β) (b : κ) (v : β) : Heap κ β := fun k => if k = b then some v else H k

def free (H : Heap κ β) (b : κ) : Heap κ β := fun k => if k = b then none else H k

theorem alloc_of_ne (H : Heap κ β) {b k : κ} (v : β) (h : k ≠ b) : H.alloc b v k = H k := if_neg h

theorem alloc_self (H : Heap κ β) (b : κ) (v : β) : H.alloc b v b = some v := if_pos rfl

theorem free_of_ne (H : Heap κ β) {b k : κ} (h : k ≠ b) : H.free b k = H k := if_neg h

theorem free_self (H : Heap κ β) (b : κ) : H.free b b = none := if_pos rfl

/-- Every block that is allocated has one owner, and no other block has any. -/
def Owned (H : Heap κ β) (owners : List κ) : Prop :=
  ∀ b, owners.count b = if H b = none then 0 else 1

namespace Owned

variable {H : Heap κ β} {owners owners' : List κ} {b : κ}

theorem empty : Owned (empty : Heap κ β) [] := fun _ => rfl

theorem of_count (h : H.Owned owners) (hcount : ∀ b, owners'.count b = owners.count b) :
    H.Owned owners' := fun b => (hcount b).trans (h b)

theorem ne_none_of_mem (h : H.Owned owners) (hb : b ∈ owners) : H b ≠ none := by
  intro hnone
  have hcount := h b
  rw [if_pos hnone] at hcount
  exact List.count_eq_zero.1 hcount hb

theorem nodup (h : H.Owned owners) : owners.Nodup := by
  rw [List.nodup_iff_count_le_one]
  intro b
  rw [h b]
  split_ifs
  · exact Nat.zero_le 1
  · exact Nat.le_refl 1

theorem mem_iff (h : H.Owned owners) : b ∈ owners ↔ H b ≠ none := by
  refine ⟨h.ne_none_of_mem, fun hb => ?_⟩
  have hcount := h b
  rw [if_neg hb] at hcount
  exact List.count_pos_iff.1 (by omega)

theorem alloc (h : H.Owned owners) (hb : H b = none) (v : β)
    (hcount : ∀ k, owners'.count k = owners.count k + [b].count k) :
    (H.alloc b v).Owned owners' := by
  intro k
  rw [hcount, h k]
  by_cases hk : k = b
  · subst hk
    simp [hb, alloc_self]
  · simp [alloc_of_ne H v hk, Ne.symm hk]

theorem free (h : H.Owned owners) (hcount : ∀ k, owners.count k = owners'.count k + [b].count k) :
    (H.free b).Owned owners' := by
  intro k
  have hk' := h k
  rw [hcount] at hk'
  by_cases hk : k = b
  · subst hk
    rw [if_pos (free_self H k)]
    simp only [List.count_singleton_self] at hk'
    split_ifs at hk'
    omega
  · rw [free_of_ne H hk]
    simpa [Ne.symm hk] using hk'

end Owned

end Heap
