import Mathlib.Data.List.Basic
import Mathlib.Data.List.TakeWhile

/-!
# Blocks of memory

A block of memory is the list of its elements, and a pointer into it is an index.  Accesses are
checked: they fail (`none`) when they are not within the block.  Strings are terminated by a zero
byte.

The lemmas are about the parts of a block: an access to one of them is an access to the block
(`Block.read_append`, `Block.memcpy_append`), what is read does not depend on what follows
(`Block.read_of_isPrefix`), and the first byte of a string is deleted by moving the others
(`Block.deleteFirst_append`).
-/

namespace Block

variable {β : Type*}

/-- `realloc`, for a number of elements: those of the old block stay, others are arbitrary. -/
def realloc (block : List β) (n : ℕ) (garbage : ℕ → β) : List β :=
  (List.range n).map fun j => (block[j]?).getD (garbage j)

/-- Read `n` elements from `p` on. -/
def read (block : List β) (p n : ℕ) : Option (List β) :=
  if p + n ≤ block.length then some ((block.drop p).take n) else none

/-- Write one element. -/
def store (block : List β) (p : ℕ) (b : β) : Option (List β) :=
  if p < block.length then some (block.set p b) else none

/-- Write elements from `p` on. -/
def memcpy (block : List β) (p : ℕ) (src : List β) : Option (List β) :=
  if p + src.length ≤ block.length then
    some (block.take p ++ (src ++ block.drop (p + src.length)))
  else none

/-- `memmove(dst, src, n)`, within a block. -/
def memmove (block : List β) (dst src n : ℕ) : Option (List β) :=
  (read block src n).bind (memcpy block dst)

/-! ### Parts of a block -/

variable {pre s post : List β}

theorem length_realloc (block : List β) (n : ℕ) (garbage : ℕ → β) :
    (realloc block n garbage).length = n := by
  rw [realloc, List.length_map, List.length_range]

theorem realloc_eq_append {block : List β} {n : ℕ} (h : block.length ≤ n) (garbage : ℕ → β) :
    ∃ rest, realloc block n garbage = block ++ rest ∧ rest.length = n - block.length := by
  refine ⟨(realloc block n garbage).drop block.length, ?_, ?_⟩
  · conv_lhs => rw [← List.take_append_drop block.length (realloc block n garbage)]
    congr 1
    refine List.ext_getElem? fun i => ?_
    rw [List.getElem?_take]
    split_ifs with hi
    · rw [realloc, List.getElem?_map, List.getElem?_range (by omega), Option.map_some,
        List.getElem?_eq_getElem hi, Option.getD_some]
    · rw [List.getElem?_eq_none (Nat.le_of_not_lt hi)]
  · rw [List.length_drop, length_realloc]

theorem read_append (pre s post : List β) :
    read (pre ++ (s ++ post)) pre.length s.length = some s := by
  rw [read, if_pos (by simp), List.drop_left, List.take_left]

theorem read_of_isPrefix {block block' : List β} (h : block <+: block') {p n : ℕ}
    (hread : read block p n = some s) : read block' p n = some s := by
  obtain ⟨rest, rfl⟩ := h
  unfold read at hread ⊢
  split_ifs at hread with hle
  rw [if_pos (by rw [List.length_append]; omega), List.drop_append_of_le_length (by omega),
    List.take_append_of_le_length (by rw [List.length_drop]; omega)]
  exact hread

theorem memcpy_append (pre : List β) {old new : List β} (h : old.length = new.length)
    (post : List β) :
    memcpy (pre ++ (old ++ post)) pre.length new = some (pre ++ (new ++ post)) := by
  have hdrop : (pre ++ (old ++ post)).drop (pre.length + new.length) = post := by
    rw [← List.drop_drop, List.drop_left, ← h, List.drop_left]
  rw [memcpy, if_pos (by simp; omega), List.take_left, hdrop]

/-- The byte at an index, with what is before it and behind it. -/
theorem exists_split {block : List β} {n : ℕ} (h : n < block.length) :
    ∃ old x post, old.length = n ∧ block = old ++ x :: post := by
  refine ⟨block.take n, block.get ⟨n, h⟩, block.drop (n + 1), List.length_take_of_le h.le, ?_⟩
  conv_lhs => rw [← List.take_append_drop n block, List.drop_eq_getElem_cons h]
  rfl

theorem store_append (pre : List β) (old new : β) (post : List β) :
    store (pre ++ old :: post) pre.length new = some (pre ++ new :: post) := by
  rw [store, if_pos (by simp), List.set_append_right _ _ (Nat.le_refl _), Nat.sub_self,
    List.set_cons_zero]

/-! ### Strings -/

/-- `strlen` -/
def strlen (block : List UInt8) (p : ℕ) : Option ℕ :=
  if 0 ∈ block.drop p then some ((block.drop p).takeWhile (· ≠ 0)).length else none

/-- `strcpy`, of a string without its zero. -/
def strcpy (block : List UInt8) (p : ℕ) (s : List UInt8) : Option (List UInt8) :=
  memcpy block p (s ++ [0])

/-- `strndup`, of a text that may have zeros in it. -/
def strndup (s : List UInt8) : List UInt8 :=
  s.takeWhile (· ≠ 0) ++ [0]

theorem ne_zero_of_notMem {s : List UInt8} (hs : 0 ∉ s) : ∀ b ∈ s, decide (b ≠ 0) = true :=
  fun _ hb => decide_eq_true fun h => hs (h ▸ hb)

theorem strlen_append {s : List UInt8} (pre : List UInt8) (hs : 0 ∉ s) (post : List UInt8) :
    strlen (pre ++ (s ++ 0 :: post)) pre.length = some s.length := by
  rw [strlen, List.drop_left, if_pos (by simp), List.takeWhile_append_of_pos (ne_zero_of_notMem hs),
    List.takeWhile_cons_of_neg (by simp), List.append_nil]

theorem strndup_of_notMem {s : List UInt8} (hs : 0 ∉ s) : strndup s = s ++ [0] := by
  rw [strndup, List.takeWhile_eq_self_iff.2 (ne_zero_of_notMem hs)]

theorem strndup_append {s : List UInt8} (hs : 0 ∉ s) (rest : List UInt8) :
    strndup (s ++ 0 :: rest) = s ++ [0] := by
  rw [strndup, List.takeWhile_append_of_pos (ne_zero_of_notMem hs),
    List.takeWhile_cons_of_neg (by simp), List.append_nil]

/-- The copy is as long as the text unless there is a zero before its last byte. -/
theorem take_strndup {s : List UInt8} (hs : 0 ∉ s.dropLast) :
    (strndup s).take s.length = s := by
  by_cases hmem : 0 ∈ s
  · obtain ⟨t, rest, rfl, ht⟩ := List.eq_append_cons_of_mem hmem
    cases rest with
    | nil => rw [strndup_append ht, List.take_length]
    | cons b rest => simp at hs
  · rw [strndup_of_notMem hmem, List.take_left]

theorem length_strndup_lt {s : List UInt8} (hs : 0 ∈ s.dropLast) :
    (strndup s).length < s.length := by
  obtain ⟨t, rest, hdrop, ht⟩ := List.eq_append_cons_of_mem hs
  have hne : s ≠ [] := by
    rintro rfl
    exact List.not_mem_nil hs
  rw [← List.dropLast_append_getLast hne, hdrop, List.append_assoc, List.cons_append,
    strndup_append ht]
  simp

/-- Delete the first byte of the string at `p`: the others are moved, and the last of them is
overwritten by a zero. -/
def deleteFirst (block : List UInt8) (p : ℕ) : Option (List UInt8) :=
  (strlen block p).bind fun len =>
    (memmove block p (p + 1) (len - 1)).bind fun block =>
      (strlen block p).bind fun len => store block (p + len - 1) 0

theorem deleteFirst_append {b : UInt8} {s : List UInt8} (pre : List UInt8) (hb : b ≠ 0)
    (hs : 0 ∉ s) (post : List UInt8) :
    deleteFirst (pre ++ (b :: s ++ 0 :: post)) pre.length =
      some (pre ++ (s ++ 0 :: 0 :: post)) := by
  have hbs : 0 ∉ b :: s := List.not_mem_cons_of_ne_of_not_mem hb.symm hs
  -- the last byte of the string stays in its place when the others are moved
  obtain ⟨t, x, ht⟩ : ∃ t x, b :: s = t ++ [x] :=
    ⟨_, _, (List.dropLast_append_getLast (List.cons_ne_nil b s)).symm⟩
  have hlen : t.length = s.length := by
    have := congrArg List.length ht
    simpa using this.symm
  have hx : x ≠ 0 := fun h => hbs (by rw [ht, h]; simp)
  have hread : read (pre ++ (b :: s ++ 0 :: post)) (pre.length + 1) s.length = some s := by
    have h := read_append (pre ++ [b]) s (0 :: post)
    rw [List.length_append, List.length_singleton, List.append_assoc] at h
    exact h
  have hmove : memmove (pre ++ (b :: s ++ 0 :: post)) pre.length (pre.length + 1) s.length =
      some (pre ++ (s ++ [x] ++ 0 :: post)) := by
    rw [memmove, hread, Option.bind_some, ht, List.append_assoc t,
      memcpy_append pre hlen, ← List.append_assoc s]
  have hsx : 0 ∉ s ++ [x] := by
    rw [List.mem_append, List.mem_singleton]
    exact not_or.2 ⟨hs, hx.symm⟩
  have hstore := store_append (pre ++ s) x 0 (0 :: post)
  rw [List.length_append] at hstore
  rw [deleteFirst, strlen_append pre hbs, Option.bind_some, List.length_cons, Nat.add_sub_cancel,
    hmove, Option.bind_some, strlen_append pre hsx, Option.bind_some, List.length_append,
    List.length_singleton, ← Nat.add_assoc, Nat.add_sub_cancel]
  simpa using hstore

end Block
