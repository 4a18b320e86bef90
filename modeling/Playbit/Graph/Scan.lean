import Playbit.Graph.Height

/-!
# Scans of the edges below a node

`scan succ enter hit` looks at the edges below a node until one of them is a hit.  It keeps no
record of where it has been: a node is entered as often as it is referred to, if it passes the
test `enter`, and the scan of a graph with a cycle need not end.  The fuel bounds the depth.

A scan that ends has looked at all edges below the node, as far as nodes are entered, or has found a
hit among them (`scan_eq_none_iff`, `exists_of_scan`).  It ends on a graph without cycles
(`exists_scan`, `exists_scan_of_acyclic`), and does not on a cycle without a hit
(`scan_eq_none_of_cycle`).
-/

namespace DepthFirst

variable {V ρ : Type*}

/-- Look at the edges from one node to `vs`. -/
def scanEdges (enter : V → Bool) (visit : V → Option (Option ρ)) (hit : V → Option ρ) :
    List V → Option (Option ρ)
  | [] => some none
  | v :: vs =>
    match hit v with
    | some r => some (some r)
    | none =>
      if enter v then
        match visit v with
        | none => none
        | some (some r) => some (some r)
        | some none => scanEdges enter visit hit vs
      else scanEdges enter visit hit vs

/-- Look at the edges below `u`: `some (some r)` when one of them is a hit, `some none` when none
is, and `none` when the fuel does not suffice. -/
def scan (succ : V → List V) (enter : V → Bool) (hit : V → V → Option ρ) :
    ℕ → V → Option (Option ρ)
  | 0, _ => none
  | n + 1, u => scanEdges enter (scan succ enter hit n) (hit u) (succ u)

/-- `v` is entered from `u`. -/
def Enters (succ : V → List V) (enter : V → Bool) (u v : V) : Prop :=
  v ∈ succ u ∧ enter v = true

/-- The edge from `u` to `v` is looked at when `b` is scanned. -/
def Examined (succ : V → List V) (enter : V → Bool) (b u v : V) : Prop :=
  Relation.ReflTransGen (Enters succ enter) b u ∧ v ∈ succ u

variable {succ : V → List V} {enter : V → Bool} {hit : V → V → Option ρ}

theorem Examined.edge {b v : V} (h : v ∈ succ b) : Examined succ enter b b v := ⟨.refl, h⟩

theorem Examined.below {b d u v : V} (hd : Enters succ enter b d)
    (h : Examined succ enter d u v) : Examined succ enter b u v :=
  ⟨.head hd h.1, h.2⟩

/-- An edge looked at is one from the node, or one looked at from a node entered next. -/
theorem Examined.cases {b u v : V} (h : Examined succ enter b u v) :
    u = b ∧ v ∈ succ b ∨ ∃ d, Enters succ enter b d ∧ Examined succ enter d u v := by
  obtain ⟨hbu, hv⟩ := h
  rcases Relation.ReflTransGen.cases_head hbu with rfl | ⟨d, hd, hdu⟩
  · exact .inl ⟨rfl, hv⟩
  · exact .inr ⟨d, hd, hdu, hv⟩

theorem scanEdges_eq_none {visit : V → Option (Option ρ)} {hit : V → Option ρ} {vs : List V}
    (h : scanEdges enter visit hit vs = some none) :
    ∀ v ∈ vs, hit v = none ∧ (enter v = true → visit v = some none) := by
  induction vs with
  | nil => intro v hv; cases hv
  | cons w vs ih =>
    rw [scanEdges] at h
    cases hw : hit w with
    | some r => rw [hw] at h; cases h
    | none =>
      simp only [hw] at h
      have hhead : (enter w = true → visit w = some none) ∧
          scanEdges enter visit hit vs = some none := by
        cases he : enter w with
        | false => simpa [he] using h
        | true =>
          simp only [he, if_true] at h
          rcases hv : visit w with - | (- | r)
          · rw [hv] at h; cases h
          · rw [hv] at h; exact ⟨fun _ => rfl, h⟩
          · rw [hv] at h; cases h
      intro v hv
      rcases List.mem_cons.1 hv with rfl | hv
      · exact ⟨hw, hhead.1⟩
      · exact ih hhead.2 v hv

theorem exists_of_scanEdges {visit : V → Option (Option ρ)} {hit : V → Option ρ} {vs : List V}
    {r : ρ} (h : scanEdges enter visit hit vs = some (some r)) :
    ∃ v ∈ vs, hit v = some r ∨ enter v = true ∧ visit v = some (some r) := by
  induction vs with
  | nil => cases h
  | cons w vs ih =>
    rw [scanEdges] at h
    cases hw : hit w with
    | some r' =>
      rw [hw] at h
      cases h
      exact ⟨w, List.mem_cons_self, .inl hw⟩
    | none =>
      simp only [hw] at h
      have hrest : (enter w = true ∧ visit w = some (some r)) ∨
          scanEdges enter visit hit vs = some (some r) := by
        cases he : enter w with
        | false => exact .inr (by simpa [he] using h)
        | true =>
          simp only [he, if_true] at h
          rcases hv : visit w with - | (- | r')
          · rw [hv] at h; cases h
          · rw [hv] at h; exact .inr h
          · rw [hv] at h; exact .inl ⟨rfl, h⟩
      rcases hrest with hrest | hrest
      · exact ⟨w, List.mem_cons_self, .inr hrest⟩
      · obtain ⟨v, hv, h'⟩ := ih hrest
        exact ⟨v, .tail _ hv, h'⟩

/-- A scan that ends without a hit has looked at every edge. -/
theorem hit_eq_none_of_scan {n : ℕ} {b : V} (h : scan succ enter hit n b = some none) {u v : V}
    (hex : Examined succ enter b u v) : hit u v = none := by
  induction n generalizing b with
  | zero => cases h
  | succ n ih =>
    have hall := scanEdges_eq_none h
    rcases hex.cases with ⟨rfl, hv⟩ | ⟨d, hd, hex⟩
    · exact (hall v hv).1
    · exact ih ((hall d hd.1).2 hd.2) hex

theorem exists_of_scan {n : ℕ} {b : V} {r : ρ} (h : scan succ enter hit n b = some (some r)) :
    ∃ u v, Examined succ enter b u v ∧ hit u v = some r := by
  induction n generalizing b with
  | zero => cases h
  | succ n ih =>
    obtain ⟨d, hd, hhit | ⟨he, hvisit⟩⟩ := exists_of_scanEdges h
    · exact ⟨b, d, .edge hd, hhit⟩
    · obtain ⟨u, v, hex, hhit⟩ := ih hvisit
      exact ⟨u, v, hex.below ⟨hd, he⟩, hhit⟩

theorem scan_eq_none_iff {n : ℕ} {b : V} {o : Option ρ} (h : scan succ enter hit n b = some o) :
    o = none ↔ ∀ u v, Examined succ enter b u v → hit u v = none := by
  constructor
  · rintro rfl u v hex
    exact hit_eq_none_of_scan h hex
  · intro hall
    cases o with
    | none => rfl
    | some r =>
      obtain ⟨u, v, hex, hhit⟩ := exists_of_scan h
      rw [hall u v hex] at hhit
      cases hhit

/-- A scan that ends without a hit has not come back to where it started. -/
theorem not_transGen_of_scan {n : ℕ} {b : V} (h : scan succ enter hit n b = some none) :
    ¬ Relation.TransGen (Enters succ enter) b b := by
  induction n generalizing b with
  | zero => cases h
  | succ n ih =>
    intro hcyc
    obtain ⟨d, hd, hdb⟩ := Relation.TransGen.head'_iff.1 hcyc
    exact ih ((scanEdges_eq_none h d hd.1).2 hd.2) (.tail' hdb hd)

/-- Where there is nothing to find, the scan of a node on a cycle does not end. -/
theorem scan_eq_none_of_cycle {S : V → Prop} {b : V} (hb : S b)
    (hS : ∀ u, S u → ∀ v ∈ succ u, S v ∧ hit u v = none)
    (hcyc : Relation.TransGen (Enters succ enter) b b) (n : ℕ) :
    scan succ enter hit n b = none := by
  have hreach : ∀ u, Relation.ReflTransGen (Enters succ enter) b u → S u := by
    intro u hu
    induction hu with
    | refl => exact hb
    | tail _ hstep ih => exact (hS _ ih _ hstep.1).1
  cases h : scan succ enter hit n b with
  | none => rfl
  | some o =>
    rw [(scan_eq_none_iff h).2 fun u v hex => (hS u (hreach u hex.1) v hex.2).2] at h
    exact absurd hcyc (not_transGen_of_scan h)

theorem exists_scanEdges {visit : V → Option (Option ρ)} {hit : V → Option ρ} {vs : List V}
    (h : ∀ v ∈ vs, ∃ o, visit v = some o) : ∃ o, scanEdges enter visit hit vs = some o := by
  induction vs with
  | nil => exact ⟨none, rfl⟩
  | cons w vs ih =>
    obtain ⟨o, ho⟩ := h w List.mem_cons_self
    obtain ⟨o', ho'⟩ := ih fun v hv => h v (.tail _ hv)
    rw [scanEdges]
    cases hit w with
    | some r => exact ⟨some r, rfl⟩
    | none =>
      cases enter w with
      | false => exact ⟨o', ho'⟩
      | true =>
        simp only [ho, if_true]
        cases o with
        | none => exact ⟨o', ho'⟩
        | some r => exact ⟨some r, rfl⟩

/-- **Scans end** on a set of nodes closed under edges along which a rank decreases. -/
theorem exists_scan {S : V → Prop} (rank : V → ℕ)
    (hS : ∀ u v, S u → v ∈ succ u → S v ∧ rank v < rank u) {n : ℕ} {b : V} (hb : S b)
    (hn : rank b < n) : ∃ o, scan succ enter hit n b = some o := by
  induction n generalizing b with
  | zero => exact absurd hn (Nat.not_lt_zero _)
  | succ n ih =>
    refine exists_scanEdges fun v hv => ?_
    obtain ⟨hSv, hlt⟩ := hS b v hb hv
    exact ih hSv (by omega)

/-- Scans end on a graph without cycles in which the nodes of `U` are the only ones with edges. -/
theorem exists_scan_of_acyclic {U : List V} (hU : ∀ u v, v ∈ succ u → u ∈ U)
    (hacyc : ∀ u, ¬ Relation.TransGen (fun u v => v ∈ succ u) u u) {n : ℕ} (hn : U.length < n)
    (b : V) : ∃ o, scan succ enter hit n b = some o := by
  have hrank := height_le (fun u v => v ∈ succ u) U b
  refine exists_scan (S := fun _ => True) (height (fun u v => v ∈ succ u) U) ?_ trivial
    (Nat.lt_of_le_of_lt hrank hn)
  intro u v _ hv
  exact ⟨trivial, height_lt (hU u v hv) (hacyc u) hv⟩

end DepthFirst
