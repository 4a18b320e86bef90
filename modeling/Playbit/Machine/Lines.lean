import Mathlib.Data.List.TakeWhile

/-!
# Lines

A stream is split into lines behind each separator, so that the last line may lack it.  Nothing is
lost (`flatten_linesOf`), a line starts where the one before it ends (`linesOf_line`,
`linesOf_append`), and there is no separator in a line but at its end (`exists_of_mem_linesOf`).
-/

namespace Lines

variable {β : Type*} [DecidableEq β]

variable (sep : β)

/-- The lines of a stream, each with its separator. -/
def linesOf : List β → List (List β)
  | [] => []
  | c :: t =>
    if c = sep then [c] :: linesOf t
    else match linesOf t with
      | [] => [[c]]
      | l :: ls => (c :: l) :: ls

/-- A line without its separator. -/
def content (l : List β) : List β := l.takeWhile (· ≠ sep)

variable {sep} {t u : List β}

theorem linesOf_line (h : sep ∉ t) (u : List β) :
    linesOf sep (t ++ sep :: u) = (t ++ [sep]) :: linesOf sep u := by
  induction t with
  | nil => simp [linesOf]
  | cons c t ih =>
    have hc : c ≠ sep := fun hc => h (by simp [hc])
    rw [List.cons_append, linesOf, if_neg hc, ih fun hm => h (.tail _ hm)]
    rfl

theorem linesOf_incomplete (h : sep ∉ t) (hne : t ≠ []) : linesOf sep t = [t] := by
  induction t with
  | nil => exact absurd rfl hne
  | cons c t ih =>
    have hc : c ≠ sep := fun hc => h (by simp [hc])
    rw [linesOf, if_neg hc]
    cases t with
    | nil => rfl
    | cons d t => rw [ih (fun hm => h (.tail _ hm)) (List.cons_ne_nil d t)]

theorem flatten_linesOf (t : List β) : (linesOf sep t).flatten = t := by
  induction t with
  | nil => rfl
  | cons c t ih =>
    rw [linesOf]
    split_ifs
    · rw [List.flatten_cons, ih, List.singleton_append]
    · cases h : linesOf sep t with
      | nil =>
        rw [h] at ih
        rw [← ih]
        rfl
      | cons l ls =>
        rw [h] at ih
        rw [← ih]
        rfl

theorem linesOf_ne_nil (h : t ≠ []) : linesOf sep t ≠ [] := by
  intro hnil
  have hflat : (linesOf sep t).flatten = t := flatten_linesOf t
  rw [hnil] at hflat
  exact h hflat.symm

/-- The lines of a text that ends with a separator are not affected by what follows. -/
theorem linesOf_append (h : t = [] ∨ t.getLast? = some sep) (u : List β) :
    linesOf sep (t ++ u) = linesOf sep t ++ linesOf sep u := by
  induction t with
  | nil => rfl
  | cons c t ih =>
    have hlast := h.resolve_left (List.cons_ne_nil c t)
    cases t with
    | nil =>
      obtain rfl : c = sep := Option.some.inj hlast
      simp [linesOf]
    | cons d t =>
      rw [List.getLast?_cons_cons] at hlast
      have ih := ih (.inr hlast)
      rw [List.cons_append, linesOf, linesOf, ih]
      split_ifs
      · rfl
      · have hne : linesOf sep (d :: t) ≠ [] := linesOf_ne_nil (List.cons_ne_nil d t)
        obtain ⟨l, ls, hl⟩ := List.exists_cons_of_ne_nil hne
        rw [hl]
        rfl

theorem exists_of_mem_linesOf {l : List β} (h : l ∈ linesOf sep t) :
    ∃ u, sep ∉ u ∧ (l = u ∨ l = u ++ [sep]) ∧ ∀ c ∈ l, c ∈ t := by
  fun_induction linesOf sep t generalizing l with
  | case1 => cases h
  | case2 t ih =>
    rcases List.mem_cons.1 h with rfl | h
    · exact ⟨[], List.not_mem_nil, .inr rfl, by simp⟩
    · obtain ⟨u, hu, hl, hsub⟩ := ih h
      exact ⟨u, hu, hl, fun c hc => .tail _ (hsub c hc)⟩
  | case3 c t hc _ _ =>
    cases List.mem_singleton.1 h
    exact ⟨[c], by simpa using Ne.symm hc, .inl rfl, by simp⟩
  | case4 c t hc l' ls heq ih =>
    rw [heq] at ih
    rcases List.mem_cons.1 h with rfl | h
    · obtain ⟨u, hu, hl, hsub⟩ := ih List.mem_cons_self
      refine ⟨c :: u, by simpa [hu] using Ne.symm hc, by rcases hl with rfl | rfl <;> simp, ?_⟩
      exact fun d hd => (List.mem_cons.1 hd).elim (fun h => h ▸ .head _) fun h => .tail _ (hsub d h)
    · obtain ⟨u, hu, hl, hsub⟩ := ih (.tail _ h)
      exact ⟨u, hu, hl, fun d hd => .tail _ (hsub d hd)⟩

theorem content_line (h : sep ∉ t) (u : List β) : content sep (t ++ sep :: u) = t := by
  have hne : ∀ c ∈ t, decide (c ≠ sep) = true := fun c hc =>
    decide_eq_true (ne_of_mem_of_not_mem hc h)
  rw [content, List.takeWhile_append_of_pos hne, List.takeWhile_cons_of_neg (by simp),
    List.append_nil]

theorem content_of_notMem (h : sep ∉ t) : content sep t = t :=
  List.takeWhile_eq_self_iff.2 fun _ hc => decide_eq_true (ne_of_mem_of_not_mem hc h)

/-- A line goes on at least as far as there is no separator. -/
theorem exists_line_of_notMem (h : sep ∉ t) (hne : t ≠ []) (u : List β) :
    ∃ l ∈ linesOf sep (t ++ u), t.length ≤ (content sep l).length := by
  by_cases hu : sep ∈ u
  · obtain ⟨v, w, rfl, hv⟩ := List.eq_append_cons_of_mem hu
    have htv : sep ∉ t ++ v := fun hm => (List.mem_append.1 hm).elim h hv
    refine ⟨t ++ v ++ [sep], ?_, ?_⟩
    · rw [← List.append_assoc, linesOf_line htv]
      exact List.mem_cons_self
    · rw [content_line htv, List.length_append]
      exact Nat.le_add_right _ _
  · have htu : sep ∉ t ++ u := fun hm => (List.mem_append.1 hm).elim h hu
    refine ⟨t ++ u, ?_, ?_⟩
    · rw [linesOf_incomplete htu (by simp [hne])]
      exact List.mem_cons_self
    · rw [content_of_notMem htu, List.length_append]
      exact Nat.le_add_right _ _

end Lines
