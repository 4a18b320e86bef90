import Playbit.Machine.Run
import Mathlib.Data.List.Nodup

/-!
# Dictionaries in insertion order

A Python `dict` as the list of its items in insertion order.  `alter` covers the ways the
values are changed: assignment, and `setdefault` followed by a change of the value.
-/

namespace Python

/-- A `dict`, as the list of its items. -/
abbrev Dict (κ ν : Type*) := List (κ × ν)

namespace Dict

variable {κ ν : Type*} [DecidableEq κ]

/-- `d.get(k)`. -/
def get? : Dict κ ν → κ → Option ν
  | [], _ => none
  | (k', v) :: d, k => if k' = k then some v else get? d k

/-- Replace the value of `k`, adding the key at the end when it is missing. -/
def alter : Dict κ ν → κ → (Option ν → ν) → Dict κ ν
  | [], k, f => [(k, f none)]
  | (k', v) :: d, k, f => if k' = k then (k', f (some v)) :: d else (k', v) :: alter d k f

/-- `d[k] = v`. -/
def set (d : Dict κ ν) (k : κ) (v : ν) : Dict κ ν := d.alter k fun _ => v

theorem get?_alter_self (d : Dict κ ν) (k : κ) (f : Option ν → ν) :
    (d.alter k f).get? k = some (f (d.get? k)) := by
  induction d with
  | nil => simp [alter, get?]
  | cons e d ih =>
    obtain ⟨k', v⟩ := e
    by_cases h : k' = k
    · simp [alter, get?, h]
    · simp [alter, get?, h, ih]

theorem get?_alter_ne (d : Dict κ ν) {k k₀ : κ} (hk : k₀ ≠ k) (f : Option ν → ν) :
    (d.alter k f).get? k₀ = d.get? k₀ := by
  induction d with
  | nil => simp [alter, get?, Ne.symm hk]
  | cons e d ih =>
    obtain ⟨k', v⟩ := e
    by_cases h : k' = k
    · subst h; simp [alter, get?, Ne.symm hk]
    · simp [alter, get?, h, ih]

theorem mem_keys_iff {d : Dict κ ν} {k : κ} :
    k ∈ d.map Prod.fst ↔ ∃ v, d.get? k = some v := by
  induction d with
  | nil => simp [get?]
  | cons e d ih =>
    obtain ⟨k', v⟩ := e
    by_cases h : k' = k
    · simp [get?, h]
    · simp only [List.map_cons, List.mem_cons, Ne.symm h, false_or, ih, get?, h, ↓reduceIte]

theorem mem_keys_alter {d : Dict κ ν} {k k₀ : κ} {f : Option ν → ν} :
    k₀ ∈ (d.alter k f).map Prod.fst ↔ k₀ = k ∨ k₀ ∈ d.map Prod.fst := by
  by_cases h : k₀ = k
  · subst h
    simp [mem_keys_iff, get?_alter_self]
  · simp only [mem_keys_iff, get?_alter_ne d h, h, false_or]

/-- Keys before the first entry of a key stay as they are. -/
theorem alter_append {d : Dict κ ν} {k : κ} (h : k ∉ d.map Prod.fst) (d' : Dict κ ν)
    (f : Option ν → ν) : Dict.alter (d ++ d') k f = d ++ d'.alter k f := by
  induction d with
  | nil => rfl
  | cons e d ih =>
    obtain ⟨k', v'⟩ := e
    have hk : k' ≠ k := fun hk => h (by simp [hk])
    have hd : k ∉ d.map Prod.fst := fun hd => h (by simp [hd])
    simp [alter, hk, ih hd]

theorem alter_append_singleton {d : Dict κ ν} {k : κ} (h : k ∉ d.map Prod.fst) (v : ν)
    (f : Option ν → ν) : Dict.alter (d ++ [(k, v)]) k f = d ++ [(k, f (some v))] := by
  rw [alter_append h, alter, if_pos rfl]

theorem alter_of_notMem {d : Dict κ ν} {k : κ} (h : k ∉ d.map Prod.fst) (f : Option ν → ν) :
    d.alter k f = d ++ [(k, f none)] := by
  have hend := alter_append h [] f
  rwa [List.append_nil] at hend

theorem nodup_alter {d : Dict κ ν} {k : κ} {f : Option ν → ν} (h : (d.map Prod.fst).Nodup) :
    ((d.alter k f).map Prod.fst).Nodup := by
  induction d with
  | nil => simp [alter]
  | cons e d ih =>
    obtain ⟨k', v⟩ := e
    rw [List.map_cons, List.nodup_cons] at h
    by_cases hk : k' = k
    · rw [alter, if_pos hk]
      exact List.nodup_cons.2 h
    · rw [alter, if_neg hk, List.map_cons, List.nodup_cons, mem_keys_alter, not_or]
      exact ⟨⟨hk, h.1⟩, ih h.2⟩

theorem set_of_notMem {d : Dict κ ν} {k : κ} (h : k ∉ d.map Prod.fst) (v : ν) :
    d.set k v = d ++ [(k, v)] :=
  alter_of_notMem h _

theorem get?_of_mem {d : Dict κ ν} (hd : (d.map Prod.fst).Nodup) {k : κ} {v : ν}
    (h : (k, v) ∈ d) : d.get? k = some v := by
  induction d with
  | nil => cases h
  | cons e d ih =>
    obtain ⟨k', v'⟩ := e
    rw [List.map_cons, List.nodup_cons] at hd
    rcases List.mem_cons.1 h with h | h
    · cases h; simp [get?]
    · have hk : k' ≠ k := by
        rintro rfl
        exact hd.1 (List.mem_map.2 ⟨_, h, rfl⟩)
      simp [get?, hk, ih hd.2 h]

theorem mem_of_get? {d : Dict κ ν} {k : κ} {v : ν} (h : d.get? k = some v) : (k, v) ∈ d := by
  induction d with
  | nil => cases h
  | cons e d ih =>
    obtain ⟨k', v'⟩ := e
    rw [get?] at h
    split_ifs at h with hk
    · cases h
      rw [hk]
      exact List.mem_cons_self
    · exact .tail _ (ih h)

theorem get?_of_notMem {d : Dict κ ν} {k : κ} (h : k ∉ d.map Prod.fst) : d.get? k = none := by
  by_contra hne
  exact h (mem_keys_iff.2 (Option.ne_none_iff_exists'.1 hne))

/-! ### Grouping -/

section Group

variable {ε α : Type*} {key : ε → κ} {val : ε → α}

/-- `d.setdefault(k, []).append(a)`. -/
def push (d : Dict κ (List α)) (k : κ) (a : α) : Dict κ (List α) :=
  d.alter k fun as => as.getD [] ++ [a]

theorem mem_keys_push {d : Dict κ (List α)} {k k₀ : κ} {a : α} :
    k₀ ∈ (d.push k a).map Prod.fst ↔ k₀ = k ∨ k₀ ∈ d.map Prod.fst :=
  mem_keys_alter

/-- The keys stay where they are; a new one is added at the end. -/
theorem keys_push (d : Dict κ (List α)) (k : κ) (a : α) :
    (d.push k a).map Prod.fst =
      if k ∈ d.map Prod.fst then d.map Prod.fst else d.map Prod.fst ++ [k] := by
  split_ifs with hk
  · rw [push]
    induction d with
    | nil => cases hk
    | cons x d ih =>
      obtain ⟨k', as⟩ := x
      by_cases h : k' = k
      · simp [alter, h]
      · have hd : k ∈ d.map Prod.fst := by simpa [Ne.symm h] using hk
        simp [alter, h, ih hd]
  · rw [push, alter_of_notMem hk, List.map_append]
    rfl

/-- `d` has the entries of `l`, grouped by their keys in the order in which these come first. -/
structure Groups (key : ε → κ) (val : ε → α) (l : List ε) (d : Dict κ (List α)) : Prop where
  nodup : (d.map Prod.fst).Nodup
  keys : ∀ k, k ∈ d.map Prod.fst ↔ k ∈ l.map key
  mem : ∀ k a, a ∈ (d.get? k).getD [] ↔ ∃ e ∈ l, key e = k ∧ val e = a
  first : ∀ k₁ k k₂, d.map Prod.fst = k₁ ++ k :: k₂ →
    ∃ l₁ e l₂, l = l₁ ++ e :: l₂ ∧ key e = k ∧ ∀ e' ∈ l₁, key e' ∈ k₁

theorem Groups.push {l : List ε} {d : Dict κ (List α)} (h : Groups key val l d) (e : ε) :
    Groups key val (l ++ [e]) (d.push (key e) (val e)) := by
  have hkeys : ∀ k, k ∈ (d.push (key e) (val e)).map Prod.fst ↔ k ∈ (l ++ [e]).map key := by
    intro k
    rw [mem_keys_push, h.keys, List.map_append, List.mem_append, or_comm]
    simp
  refine ⟨?_, hkeys, fun k a => ?_, fun k₁ k k₂ hk => ?_⟩
  · rw [keys_push]
    split_ifs with hmem
    · exact h.nodup
    · exact List.concat_eq_append ▸ h.nodup.concat hmem
  · by_cases hk : key e = k
    · subst hk
      rw [Dict.push, get?_alter_self, Option.getD_some, List.mem_append, h.mem]
      simp [or_and_right, exists_or, eq_comm]
    · rw [Dict.push, get?_alter_ne d (Ne.symm hk), h.mem]
      simp [or_and_right, exists_or, hk]
  · rw [keys_push] at hk
    split_ifs at hk with hmem
    · obtain ⟨l₁, e', l₂, rfl, he'⟩ := h.first k₁ k k₂ hk
      exact ⟨l₁, e', l₂ ++ [e], by simp, he'⟩
    · rcases List.eq_nil_or_concat k₂ with rfl | ⟨k₃, x, rfl⟩
      · -- the key that has just been added
        obtain ⟨rfl, hx⟩ := List.append_inj' hk rfl
        cases hx
        exact ⟨l, e, [], rfl, rfl, fun e' he' => (h.keys _).2 (List.mem_map_of_mem he')⟩
      · rw [List.concat_eq_append, ← List.cons_append, ← List.append_assoc] at hk
        obtain ⟨l₁, e', l₂, rfl, he'⟩ := h.first k₁ k k₃ (List.append_inj' hk rfl).1
        exact ⟨l₁, e', l₂ ++ [e], by simp, he'⟩

/-- **Grouping** the entries of a list. -/
theorem groups_foldl (key : ε → κ) (val : ε → α) (l : List ε) :
    Groups key val l (l.foldl (fun d e => d.push (key e) (val e)) []) := by
  refine Machine.foldl_rule (I := Groups key val) ?_ fun l₁ e _ d _ h => h.push e
  exact ⟨List.nodup_nil, by simp, by simp [get?], by simp⟩

/-- A key that is before that of `e` comes from an entry before `e`. -/
theorem Groups.before {l l₁ l₂ : List ε} {e : ε} {d : Dict κ (List α)} (h : Groups key val l d)
    (hl : l = l₁ ++ e :: l₂) (k₁ k₂ : List κ) (hk : d.map Prod.fst = k₁ ++ key e :: k₂) {k : κ}
    (hmem : k ∈ k₁) : k ∈ l₁.map key := by
  obtain ⟨k₃, k₄, rfl⟩ := List.append_of_mem hmem
  have hnodup := h.nodup
  rw [hk, List.nodup_append] at hnodup
  have hnew : key e ∉ k₃ ++ k :: k₄ := fun he => hnodup.2.2 _ he _ List.mem_cons_self rfl
  obtain ⟨m₁, e', m₂, hm, rfl, hbefore⟩ := h.first k₃ k (k₄ ++ key e :: k₂) (by simp [hk])
  -- the first entry with the key `k` comes before `e`, or is `e`, or comes after it
  rcases List.append_eq_append_iff.1 (hl.symm.trans hm) with ⟨m, rfl, he⟩ | ⟨m, rfl, he⟩
  · cases m with
    | nil =>
      cases he
      exact absurd (by simp) hnew
    | cons x m =>
      cases he
      exact absurd (List.mem_append_left _ (hbefore e (by simp))) hnew
  · cases m with
    | nil =>
      cases he
      exact absurd (by simp) hnew
    | cons x m =>
      cases he
      exact List.mem_map_of_mem (by simp)

end Group

end Dict

end Python
