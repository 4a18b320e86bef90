import Mathlib.Data.List.Infix

/-!
# Mount tables

The mounts of a mount namespace, newest first.  A path leads to the newest mount at or above it,
so that a mount hides the older ones at or below its target.  Detaching a mount takes the mounts
below it along.

`Clears` says that detaching some paths in order leaves nothing of an owner.  Mounts that have
nothing to do with the paths do not matter for it (`MountTable.clears_congr`), and mounts below one
of the paths go with it (`MountTable.Clears.append`).  **Detaching everything in a part of the
tree** leaves what is outside (`MountTable.foldl_tryDetach`).
-/

/-- A mounted file system, with who mounted it, if that is known. -/
structure Mount (κ ι : Type*) where
  target : List κ
  owner : Option ι
  deriving DecidableEq

/-- The mounts, newest first. -/
abbrev MountTable (κ ι : Type*) := List (Mount κ ι)

namespace MountTable

variable {κ ι : Type*} [DecidableEq κ]

/-- Detach what is mounted at a path: the mounts that are gone, and those that are left.  It fails
when nothing is mounted there, or when it is hidden. -/
def detach : MountTable κ ι → List κ → Option (List (Mount κ ι) × MountTable κ ι)
  | [], _ => none
  | m :: T, path =>
    if m.target = path then some ([m], T)
    else if m.target <+: path then none
    else
      match detach T path with
      | none => none
      | some (gone, rest) =>
        if path <+: m.target then some (m :: gone, rest) else some (gone, m :: rest)

theorem detach_eq_some {T : MountTable κ ι} {path : List κ} {gone : List (Mount κ ι)}
    {rest : MountTable κ ι} (h : detach T path = some (gone, rest)) :
    (∀ m ∈ gone, m ∈ T ∧ path <+: m.target) ∧ ∀ m ∈ rest, m ∈ T := by
  induction T generalizing gone rest with
  | nil => cases h
  | cons m T ih =>
    rw [detach] at h
    cases hT : detach T path with
    | none =>
      rw [hT] at h
      split_ifs at h with heq
      cases h
      exact ⟨by simp [heq], fun m' hm' => .tail _ hm'⟩
    | some r =>
      obtain ⟨hgone, hrest⟩ := ih hT
      have hgone' : ∀ m' ∈ r.1, m' ∈ m :: T ∧ path <+: m'.target := fun m' hm' =>
        ⟨.tail _ (hgone m' hm').1, (hgone m' hm').2⟩
      have hrest' : ∀ m' ∈ r.2, m' ∈ m :: T := fun m' hm' => .tail _ (hrest m' hm')
      rw [hT] at h
      split_ifs at h with heq _ hbelow
      · cases h
        exact ⟨by simp [heq], fun m' hm' => .tail _ hm'⟩
      · cases h
        exact ⟨List.forall_mem_cons.2 ⟨⟨List.mem_cons_self, hbelow⟩, hgone'⟩, hrest'⟩
      · cases h
        exact ⟨hgone', List.forall_mem_cons.2 ⟨List.mem_cons_self, hrest'⟩⟩

/-- What is detached and what is left, when nothing above the path is in the way. -/
theorem detach_append {X T : MountTable κ ι} {path : List κ} {o : Option ι}
    (h : ∀ e ∈ X, ¬ e.target <+: path) :
    detach (X ++ ⟨path, o⟩ :: T) path =
      some (X.filter (path <+: ·.target) ++ [⟨path, o⟩], X.filter (¬ path <+: ·.target) ++ T) := by
  induction X with
  | nil => simp [detach]
  | cons e X ih =>
    obtain ⟨he, hX⟩ := List.forall_mem_cons.1 h
    have hne : e.target ≠ path := fun heq => he (heq ▸ List.prefix_rfl)
    rw [List.cons_append, detach, if_neg hne, if_neg he, ih hX]
    by_cases hbelow : path <+: e.target
    · simp [hbelow]
    · simp [hbelow]

/-- Detaching the paths in order leaves nothing that `i` has mounted.  For each of them there is a
mount of `i`, with nothing in the way. -/
def Clears (i : ι) : List (List κ) → MountTable κ ι → Prop
  | [], T => ∀ e ∈ T, e.owner ≠ some i
  | t :: P, T => ∃ X T', T = X ++ ⟨t, some i⟩ :: T' ∧ (∀ e ∈ X, ¬ e.target <+: t) ∧
      Clears i P (X.filter (¬ t <+: ·.target) ++ T')

section Clears

variable {i : ι} {P : List (List κ)} {T : MountTable κ ι}

theorem Clears.mem (h : Clears i P T) {t : List κ} (ht : t ∈ P) : ⟨t, some i⟩ ∈ T := by
  induction P generalizing T with
  | nil => cases ht
  | cons t' P ih =>
    obtain ⟨X, T', rfl, -, h⟩ := h
    rcases List.mem_cons.1 ht with rfl | ht
    · simp
    · rcases List.mem_append.1 (ih h ht) with hmem | hmem
      · exact List.mem_append_left _ (List.mem_of_mem_filter hmem)
      · exact List.mem_append_right _ (.tail _ hmem)

/-- A mount of another that is neither above nor below one of the paths. -/
def Unrelated (i : ι) (P : List (List κ)) (e : Mount κ ι) : Prop :=
  e.owner ≠ some i ∧ ∀ t ∈ P, ¬ e.target <+: t ∧ ¬ t <+: e.target

theorem clears_filter {p : Mount κ ι → Bool} (hp : ∀ e, p e = false → Unrelated i P e) :
    Clears i P (T.filter p) ↔ Clears i P T := by
  induction P generalizing T with
  | nil =>
    simp only [Clears, List.mem_filter, and_imp]
    refine ⟨fun h e he => ?_, fun h e he _ => h e he⟩
    by_cases hpe : p e = true
    · exact h e he hpe
    · exact (hp e (by simpa using hpe)).1
  | cons t P ih =>
    have hcomm : ∀ X T' : MountTable κ ι,
        Clears i P ((X.filter p).filter (¬ t <+: ·.target) ++ T'.filter p) ↔
          Clears i P (X.filter (¬ t <+: ·.target) ++ T') := by
      intro X T'
      rw [List.filter_comm, ← List.filter_append,
        ih fun e hpe => ⟨(hp e hpe).1, fun t' ht' => (hp e hpe).2 t' (.tail _ ht')⟩]
    constructor
    · rintro ⟨X', T'', heq, hX', h⟩
      obtain ⟨X₁, R, rfl, rfl, hR⟩ := List.filter_eq_append_iff.1 heq
      obtain ⟨X₂, T', rfl, hX₂, -, rfl⟩ := List.filter_eq_cons_iff.1 hR
      have hX₂' : X₂.filter p = [] := List.filter_eq_nil_iff.2 hX₂
      have hX : (X₁ ++ X₂).filter p = X₁.filter p := by
        rw [List.filter_append, hX₂', List.append_nil]
      refine ⟨X₁ ++ X₂, T', by simp, fun e he => ?_, (hcomm _ _).1 (hX ▸ h)⟩
      by_cases hpe : p e = true
      · exact hX' e (hX ▸ List.mem_filter.2 ⟨he, hpe⟩)
      · exact ((hp e (by simpa using hpe)).2 t List.mem_cons_self).1
    · rintro ⟨X, T', rfl, hX, h⟩
      have hpt : p ⟨t, some i⟩ = true := by
        by_contra hnot
        exact (hp ⟨t, some i⟩ (by simpa using hnot)).1 rfl
      exact ⟨X.filter p, T'.filter p, by simp [hpt],
        fun e he => hX e (List.mem_of_mem_filter he), (hcomm X T').2 h⟩

theorem clears_congr {T' : MountTable κ ι} (p : Mount κ ι → Bool)
    (hp : ∀ e, p e = false → Unrelated i P e) (h : T.filter p = T'.filter p) :
    Clears i P T ↔ Clears i P T' := by
  rw [← clears_filter hp, h, clears_filter hp]

theorem clears_append_iff {N : MountTable κ ι} (hN : ∀ e ∈ N, Unrelated i P e) :
    Clears i P (N ++ T) ↔ Clears i P T := by
  classical
  refine clears_congr (fun e => ¬ Unrelated i P e) (fun e he => by simpa using he) ?_
  have hfilter : N.filter (fun e => ¬ Unrelated i P e) = [] :=
    List.filter_eq_nil_iff.2 fun e he => by simp [hN e he]
  rw [List.filter_append, hfilter, List.nil_append]

theorem clears_detach_iff {path : List κ} {o : Option ι} {X T' : MountTable κ ι}
    (hpath : Unrelated i P ⟨path, o⟩) (hX : ∀ e ∈ X, path <+: e.target → Unrelated i P e) :
    Clears i P (X.filter (¬ path <+: ·.target) ++ T') ↔ Clears i P (X ++ ⟨path, o⟩ :: T') := by
  classical
  refine clears_congr (fun e => ¬ Unrelated i P e) (fun e he => by simpa using he) ?_
  have hfilter : (X.filter (¬ path <+: ·.target)).filter (fun e => ¬ Unrelated i P e) =
      X.filter (fun e => ¬ Unrelated i P e) := by
    rw [List.filter_filter]
    refine List.filter_congr fun e he => ?_
    by_cases hbelow : path <+: e.target
    · simp [hX e he hbelow]
    · simp [hbelow]
  rw [List.filter_append, List.filter_append, hfilter,
    List.filter_cons_of_neg (by simpa using hpath)]

/-- Further mounts of `i`, each below one of the paths and above none, go with the paths. -/
theorem Clears.append (h : Clears i P T) {N : MountTable κ ι}
    (habove : ∀ e ∈ N, ∀ t ∈ P, ¬ e.target <+: t) (hbelow : ∀ e ∈ N, ∃ t ∈ P, t <+: e.target) :
    Clears i P (N ++ T) := by
  induction P generalizing N T with
  | nil =>
    have hN : N = [] := List.eq_nil_iff_forall_not_mem.2 fun e he => by
      obtain ⟨t, ht, -⟩ := hbelow e he
      cases ht
    rwa [hN]
  | cons t P ih =>
    obtain ⟨X, T', rfl, hX, h⟩ := h
    refine ⟨N ++ X, T', by simp, fun e he => ?_, ?_⟩
    · rcases List.mem_append.1 he with he | he
      · exact habove e he t List.mem_cons_self
      · exact hX e he
    · rw [List.filter_append, List.append_assoc]
      refine ih h (fun e he t' ht' => habove e (List.mem_of_mem_filter he) t' (.tail _ ht')) ?_
      intro e he
      obtain ⟨he, hnot⟩ := List.mem_filter.1 he
      obtain ⟨t', ht', hte⟩ := hbelow e he
      rcases List.mem_cons.1 ht' with rfl | ht'
      · simp [hte] at hnot
      · exact ⟨t', ht', hte⟩

end Clears

/-! ### Detaching whatever there is -/

/-- Detach what is mounted at a path, if that is possible. -/
def tryDetach (T : MountTable κ ι) (path : List κ) : MountTable κ ι :=
  ((T.detach path).map Prod.snd).getD T

/-- **Detaching everything in a part of the tree**, newest first, leaves what is outside of it.
Nothing newer that is outside may be in the way. -/
theorem foldl_tryDetach {q : List κ → Bool} (hq : ∀ s t, q s = true → s <+: t → q t = true)
    {A R : MountTable κ ι} (hA : ∀ e ∈ A, q e.target = false)
    (hvisible : (A ++ R).Pairwise fun e e' =>
      q e.target = false → q e'.target = true → ¬ e.target <+: e'.target) :
    ((R.map Mount.target).filter q).foldl tryDetach (A ++ R) =
      A ++ R.filter fun e => !q e.target := by
  induction R generalizing A with
  | nil => rfl
  | cons e R ih =>
    cases he : q e.target with
    | false =>
      have hA' : ∀ e' ∈ A ++ [e], q e'.target = false := fun e' he' => by
        rcases List.mem_append.1 he' with he' | he'
        · exact hA e' he'
        · rw [List.mem_singleton.1 he', he]
      have hsplit : A ++ e :: R = (A ++ [e]) ++ R := by simp
      rw [List.map_cons, List.filter_cons_of_neg (by simp [he]), hsplit, ih hA' (hsplit ▸ hvisible)]
      simp [he]
    | true =>
      -- nothing in `A` is above the mount, which is visible, or below it
      have habove : ∀ e' ∈ A, ¬ e'.target <+: e.target := fun e' he' =>
        (List.pairwise_append.1 hvisible).2.2 e' he' e List.mem_cons_self (hA e' he') he
      have hbelow : A.filter (¬ e.target <+: ·.target) = A := by
        refine List.filter_eq_self.2 fun e' he' => decide_eq_true fun hprefix => ?_
        cases (hA e' he').symm.trans (hq _ _ he hprefix)
      have hdetach : tryDetach (A ++ e :: R) e.target = A ++ R := by
        rw [tryDetach, detach_append (o := e.owner) habove, hbelow]
        rfl
      rw [List.map_cons, List.filter_cons_of_pos he, List.foldl_cons, hdetach, ih hA]
      · simp [he]
      · exact hvisible.sublist ((List.sublist_cons_self e R).append_left A)

end MountTable
