import Playbit.Graph.Height
import Playbit.Machine.Run

/-!
# Two traversals

`postorder` lists what a node reaches, every node after its successors; a node is looked up in the
list of those that are finished.  `collect` marks nodes when it enters them and lists the targets of
all edges it follows, each after it has been looked into, so that nodes are listed more than once.

On a graph without cycles the two agree: `collect` lists what is reached in at least one step, and
what a node leads to comes before it.  The fuel bounds the depth of the recursion.

`postorder_spec` and `collect_spec` say what the traversals add to what was there, and
`exists_postorder` and `exists_collect` that they end where a rank decreases along the edges.
-/

namespace DepthFirst

variable {V : Type*}

/-- The edges of the graph. -/
abbrev Edge (succ : V → List V) (u v : V) : Prop := v ∈ succ u

/-- Every node of the list comes after those it leads to. -/
def Sorted (r : V → V → Prop) (l : List V) : Prop :=
  ∀ l₁ u l₂, l = l₁ ++ u :: l₂ → ∀ w, r u w → w ∈ l₁

variable {r : V → V → Prop} {succ : V → List V} {l : List V} {u v w : V}

theorem Sorted.nil : Sorted r [] := by
  intro l₁ u l₂ h
  simp at h

theorem Sorted.concat (h : Sorted r l) (hv : ∀ w, r v w → w ∈ l) : Sorted r (l ++ [v]) := by
  intro l₁ u l₂ hl w hw
  rcases List.eq_nil_or_concat l₂ with rfl | ⟨l₃, x, rfl⟩
  · obtain ⟨rfl, hu⟩ := List.append_inj' hl rfl
    cases hu
    exact hv w hw
  · rw [List.concat_eq_append, ← List.cons_append, ← List.append_assoc] at hl
    obtain ⟨hl, -⟩ := List.append_inj' hl rfl
    exact h l₁ u l₃ hl w hw

theorem Sorted.mem_of_rel (h : Sorted r l) (hu : u ∈ l) (hw : r u w) : w ∈ l := by
  obtain ⟨l₁, l₂, rfl⟩ := List.append_of_mem hu
  exact List.mem_append_left _ (h l₁ u l₂ rfl w hw)

theorem Sorted.mem_of_reach (h : Sorted r l) (hu : u ∈ l) (hw : Relation.ReflTransGen r u w) :
    w ∈ l := by
  induction hw with
  | refl => exact hu
  | tail _ hedge ih => exact h.mem_of_rel ih hedge

/-! ### Postorder -/

section Postorder

variable [DecidableEq V]

/-- List `v` behind everything it reaches, unless it is in the list already. -/
def postorder (succ : V → List V) : ℕ → V → List V → Option (List V)
  | 0, v, l => if v ∈ l then some l else none
  | n + 1, v, l =>
    if v ∈ l then some l
    else ((succ v).foldlM (fun l w => postorder succ n w l) l).map (· ++ [v])

/-- `l'` has the nodes of `l` and, behind them, those of `P`. -/
structure Lists (succ : V → List V) (P : V → Prop) (l l' : List V) : Prop where
  pre : l <+: l'
  nodup : l'.Nodup
  sorted : Sorted (Edge succ) l'
  mem : ∀ u, u ∈ l' ↔ u ∈ l ∨ P u

omit [DecidableEq V] in
theorem Lists.foldlM {f : List V → V → Option (List V)} {P : V → V → Prop} {ws : List V}
    (hf : ∀ w ∈ ws, ∀ l l', l.Nodup → Sorted (Edge succ) l → f l w = some l' →
      Lists succ (P w) l l')
    {l' : List V} (hn : l.Nodup) (hs : Sorted (Edge succ) l) (h : ws.foldlM f l = some l') :
    Lists succ (fun u => ∃ w ∈ ws, P w u) l l' := by
  induction ws generalizing l with
  | nil =>
    cases h
    exact ⟨List.prefix_rfl, hn, hs, by simp⟩
  | cons w ws ih =>
    rw [List.foldlM_cons] at h
    obtain ⟨l₁, hw, h⟩ := Option.bind_eq_some_iff.1 h
    have h₁ := hf w List.mem_cons_self l l₁ hn hs hw
    have h₂ := ih (fun w' hw' => hf w' (.tail _ hw')) h₁.nodup h₁.sorted h
    refine ⟨h₁.pre.trans h₂.pre, h₂.nodup, h₂.sorted, fun u => ?_⟩
    rw [h₂.mem, h₁.mem]
    simp [or_assoc]

/-- **What `postorder` lists**, below a node that reaches no cycle. -/
theorem postorder_spec {n : ℕ}
    (hacyc : ∀ u, Relation.ReflTransGen (Edge succ) v u → ¬ Relation.TransGen (Edge succ) u u)
    {l' : List V} (hn : l.Nodup) (hs : Sorted (Edge succ) l) (h : postorder succ n v l = some l') :
    Lists succ (Relation.ReflTransGen (Edge succ) v) l l' := by
  induction n generalizing v l l' with
  | zero =>
    rw [postorder] at h
    split_ifs at h with hv
    cases h
    exact ⟨List.prefix_rfl, hn, hs, fun u => (or_iff_left_of_imp (hs.mem_of_reach hv)).symm⟩
  | succ n ih =>
    rw [postorder] at h
    split_ifs at h with hv
    · cases h
      exact ⟨List.prefix_rfl, hn, hs, fun u => (or_iff_left_of_imp (hs.mem_of_reach hv)).symm⟩
    · obtain ⟨l₁, hloop, rfl⟩ := Option.map_eq_some_iff.1 h
      have h₁ : Lists succ (fun u => ∃ w ∈ succ v, Relation.ReflTransGen (Edge succ) w u) l l₁ :=
        Lists.foldlM (fun w hw l l' hn hs hl => ih (fun u hu => hacyc u (hu.head hw)) hn hs hl)
          hn hs hloop
      -- the node is not below itself
      have hnew : v ∉ l₁ := by
        intro hmem
        rcases (h₁.mem v).1 hmem with hmem | ⟨w, hw, hreach⟩
        · exact hv hmem
        · exact hacyc v .refl (.head' hw hreach)
      have hsucc : ∀ w ∈ succ v, w ∈ l₁ := fun w hw => (h₁.mem w).2 (.inr ⟨w, hw, .refl⟩)
      refine ⟨h₁.pre.trans (List.prefix_append _ _), ?_, h₁.sorted.concat hsucc, fun u => ?_⟩
      · exact List.nodup_append.2 ⟨h₁.nodup, List.nodup_singleton v, by
          rintro x hx y hy rfl
          exact hnew (List.mem_singleton.1 hy ▸ hx)⟩
      · rw [List.mem_append, h₁.mem, List.mem_singleton, Relation.ReflTransGen.cases_head_iff,
          or_assoc, or_comm (b := u = v)]
        exact or_congr_right (or_congr_left eq_comm)

/-- **Traversals end** on a set of nodes closed under edges along which a rank decreases. -/
theorem exists_postorder {S : V → Prop} (rank : V → ℕ)
    (hS : ∀ u v, S u → v ∈ succ u → S v ∧ rank v < rank u) {n : ℕ} (hv : S v) (hn : rank v < n)
    (l : List V) : ∃ l', postorder succ n v l = some l' := by
  induction n generalizing v l with
  | zero => exact absurd hn (Nat.not_lt_zero _)
  | succ n ih =>
    rw [postorder]
    by_cases hmem : v ∈ l
    · exact ⟨l, if_pos hmem⟩
    · rw [if_neg hmem]
      obtain ⟨l', hl'⟩ : ∃ l', (succ v).foldlM (fun l w => postorder succ n w l) l = some l' := by
        refine Machine.exists_foldlM (fun w hw l => ?_) l
        obtain ⟨hSw, hlt⟩ := hS v w hv hw
        exact ih hSw (by omega) l
      exact ⟨l' ++ [v], by rw [hl']; rfl⟩

end Postorder

/-! ### Collecting the targets of edges -/

/-- The variables of `collect`. -/
structure Trace (V : Type*) where
  /-- The nodes that have been entered. -/
  seen : List V := []
  /-- The targets of the edges that have been followed. -/
  out : List V := []

/-- Mark a node. -/
def Trace.enter (s : Trace V) (v : V) : Trace V := { s with seen := s.seen ++ [v] }

/-- List the target of an edge. -/
def Trace.emit (s : Trace V) (w : V) : Trace V := { s with out := s.out ++ [w] }

/-- The edges of the nodes that have been entered, apart from those of `P`, have been followed. -/
def Trace.Closed (succ : V → List V) (P : V → Prop) (s : Trace V) : Prop :=
  ∀ u ∈ s.seen, ¬ P u → ∀ w ∈ succ u, w ∈ s.seen ∧ w ∈ s.out

/-- What has been added to `s` when the nodes of `R` have been looked into and those of `O` have
been listed, within the nodes `P`. -/
structure Trace.Adds (succ : V → List V) (P R O : V → Prop) (s s' : Trace V) : Prop where
  seen_iff : ∀ u, u ∈ s'.seen ↔ u ∈ s.seen ∨ R u
  out_iff : ∀ u, u ∈ s'.out ↔ u ∈ s.out ∨ O u
  closed : s'.Closed succ P
  sorted : Sorted (Edge succ) s'.out

section Collect

variable [DecidableEq V]

/-- Look into `v`, unless that has been done, and list the targets of the edges. -/
def collect (succ : V → List V) : ℕ → V → Trace V → Option (Trace V)
  | 0, v, s => if v ∈ s.seen then some s else none
  | n + 1, v, s =>
    if v ∈ s.seen then some s
    else (succ v).foldlM (fun s w => (collect succ n w s).map (·.emit w)) (s.enter v)

end Collect

theorem Trace.Closed.reach {P : V → Prop} {s : Trace V} (h : s.Closed succ P) (hv : v ∈ s.seen)
    (hP : ∀ u, Relation.ReflTransGen (Edge succ) v u → ¬ P u)
    (hu : Relation.ReflTransGen (Edge succ) v u) : u ∈ s.seen := by
  induction hu with
  | refl => exact hv
  | tail hreach hedge ih => exact (h _ ih (hP _ hreach) _ hedge).1

theorem Trace.Closed.out {P : V → Prop} {s : Trace V} (h : s.Closed succ P) (hv : v ∈ s.seen)
    (hP : ∀ u, Relation.ReflTransGen (Edge succ) v u → ¬ P u)
    (hu : Relation.TransGen (Edge succ) v u) : u ∈ s.out := by
  obtain ⟨w, hvw, hwu⟩ := Relation.TransGen.tail'_iff.1 hu
  exact (h w (h.reach hv hP hvw) (hP w hvw) u hwu).2

/-- Nothing is added by looking into a node that has been. -/
theorem Trace.Closed.adds_of_mem {P : V → Prop} {s : Trace V} (h : s.Closed succ P)
    (hs : Sorted (Edge succ) s.out) (hv : v ∈ s.seen)
    (hP : ∀ u, Relation.ReflTransGen (Edge succ) v u → ¬ P u) :
    s.Adds succ P (Relation.ReflTransGen (Edge succ) v) (Relation.TransGen (Edge succ) v) s :=
  ⟨fun _ => (or_iff_left_of_imp (h.reach hv hP)).symm,
    fun _ => (or_iff_left_of_imp (h.out hv hP)).symm, h, hs⟩

theorem Trace.Adds.foldlM {P : V → Prop} {f : Trace V → V → Option (Trace V)}
    {R O : V → V → Prop} {ws : List V}
    (hf : ∀ w ∈ ws, ∀ s s' : Trace V, s.Closed succ P → Sorted (Edge succ) s.out → f s w = some s' →
      s.Adds succ P (R w) (O w) s') {s s' : Trace V} (hc : s.Closed succ P)
    (hs : Sorted (Edge succ) s.out) (h : ws.foldlM f s = some s') :
    s.Adds succ P (fun u => ∃ w ∈ ws, R w u) (fun u => ∃ w ∈ ws, O w u) s' := by
  induction ws generalizing s with
  | nil =>
    cases h
    exact ⟨by simp, by simp, hc, hs⟩
  | cons w ws ih =>
    rw [List.foldlM_cons] at h
    obtain ⟨s₁, hw, h⟩ := Option.bind_eq_some_iff.1 h
    have h₁ := hf w List.mem_cons_self s s₁ hc hs hw
    have h₂ := ih (fun w' hw' => hf w' (.tail _ hw')) h₁.closed h₁.sorted h
    refine ⟨fun u => ?_, fun u => ?_, h₂.closed, h₂.sorted⟩
    · rw [h₂.seen_iff, h₁.seen_iff]
      simp [or_assoc]
    · rw [h₂.out_iff, h₁.out_iff]
      simp [or_assoc]

theorem Trace.Adds.emit {P : V → Prop} {s s' : Trace V}
    (h : s.Adds succ P (Relation.ReflTransGen (Edge succ) w) (Relation.TransGen (Edge succ) w) s')
    (hP : ¬ P w) :
    s.Adds succ P (Relation.ReflTransGen (Edge succ) w) (Relation.ReflTransGen (Edge succ) w)
      (s'.emit w) := by
  have hw : w ∈ s'.seen := (h.seen_iff w).2 (.inr .refl)
  refine ⟨h.seen_iff, fun u => ?_, fun u hu hPu x hx => ?_, ?_⟩
  · rw [Trace.emit, List.mem_append, h.out_iff, List.mem_singleton, or_assoc, or_comm (b := u = w),
      Relation.reflTransGen_iff_eq_or_transGen]
  · obtain ⟨h₁, h₂⟩ := h.closed u hu hPu x hx
    exact ⟨h₁, List.mem_append_left _ h₂⟩
  · exact h.sorted.concat fun x hx => (h.closed w hw hP x hx).2

variable [DecidableEq V]

/-- **What `collect` lists**, below a node that reaches no cycle.  The nodes of `P` are being looked
into, so they have been marked, and are not reached. -/
theorem collect_spec {n : ℕ} {P : V → Prop}
    (hacyc : ∀ u, Relation.ReflTransGen (Edge succ) v u → ¬ Relation.TransGen (Edge succ) u u)
    (hP : ∀ u, Relation.ReflTransGen (Edge succ) v u → ¬ P u) {s s' : Trace V}
    (hc : s.Closed succ P) (hs : Sorted (Edge succ) s.out) (h : collect succ n v s = some s') :
    s.Adds succ P (Relation.ReflTransGen (Edge succ) v) (Relation.TransGen (Edge succ) v) s' := by
  induction n generalizing v s s' P with
  | zero =>
    rw [collect] at h
    split_ifs at h with hv
    cases h
    exact hc.adds_of_mem hs hv hP
  | succ n ih =>
    rw [collect] at h
    split_ifs at h with hv
    · cases h
      exact hc.adds_of_mem hs hv hP
    · -- while `v` is being looked into, its edges need not have been followed
      have hopen : (s.enter v).Closed succ (fun u => P u ∨ u = v) := by
        intro u hu hPu w hw
        rw [not_or] at hPu
        have hu' : u ∈ s.seen := by
          rcases List.mem_append.1 hu with hu | hu
          · exact hu
          · exact absurd (List.mem_singleton.1 hu) hPu.2
        obtain ⟨h₁, h₂⟩ := hc u hu' hPu.1 w hw
        exact ⟨List.mem_append_left _ h₁, h₂⟩
      have hbelow : ∀ w ∈ succ v, ∀ u, Relation.ReflTransGen (Edge succ) w u →
          ¬ (P u ∨ u = v) := by
        rintro w hw u hwu (hPu | rfl)
        · exact hP u (hwu.head hw) hPu
        · exact hacyc u .refl (.head' hw hwu)
      have hloop := Trace.Adds.foldlM (P := fun u => P u ∨ u = v)
        (R := Relation.ReflTransGen (Edge succ)) (O := Relation.ReflTransGen (Edge succ))
        (fun w hw s s' hc hs hw' => by
          obtain ⟨s₁, hs₁, rfl⟩ := Option.map_eq_some_iff.1 hw'
          exact (ih (fun u hu => hacyc u (hu.head hw)) (hbelow w hw) hc hs hs₁).emit
            (hbelow w hw w .refl)) hopen hs h
      refine ⟨fun u => ?_, fun u => ?_, fun u hu hPu w hw => ?_, hloop.sorted⟩
      · rw [hloop.seen_iff, Trace.enter, List.mem_append, List.mem_singleton, or_assoc,
          Relation.ReflTransGen.cases_head_iff]
        exact or_congr_right (or_congr_left eq_comm)
      · rw [hloop.out_iff, Relation.TransGen.head'_iff]
        rfl
      · by_cases huv : u = v
        · subst huv
          exact ⟨(hloop.seen_iff w).2 (.inr ⟨w, hw, .refl⟩),
            (hloop.out_iff w).2 (.inr ⟨w, hw, .refl⟩)⟩
        · exact hloop.closed u hu (not_or.2 ⟨hPu, huv⟩) w hw

theorem exists_collect (succ : V → List V) {S : V → Prop} (rank : V → ℕ)
    (hS : ∀ u v, S u → v ∈ succ u → S v ∧ rank v < rank u) {n : ℕ} (hv : S v) (hn : rank v < n)
    (s : Trace V) : ∃ s', collect succ n v s = some s' := by
  induction n generalizing v s with
  | zero => exact absurd hn (Nat.not_lt_zero _)
  | succ n ih =>
    rw [collect]
    by_cases hmem : v ∈ s.seen
    · exact ⟨s, if_pos hmem⟩
    · rw [if_neg hmem]
      refine Machine.exists_foldlM (fun w hw s => ?_) (s.enter v)
      obtain ⟨hSw, hlt⟩ := hS v w hv hw
      obtain ⟨s', hs'⟩ := ih hSw (by omega) s
      exact ⟨s'.emit w, by rw [hs']; rfl⟩

end DepthFirst
