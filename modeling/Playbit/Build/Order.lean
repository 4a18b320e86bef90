import Mathlib.Data.List.ProdSigma
import Playbit.Graph.Table
import Playbit.Build.ResolveBuilds
import Playbit.Package.Resolution

/-!
# The build list

`resolveBuilds` is a depth-first search on builds.  It never fails: it ends with a list in which
every build reachable from the top-level ones occurs once, after everything it depends on when
there is no cycle, and with dependencies that are the entries whose condition passes.

That it performs this search is `resolveBuilds_simulates`; what follows for the list is
`resolveBuilds_correct`.
-/

namespace Pbuild

open Python DepthFirst

/-! ### Changes of the builds -/

namespace Builds

variable (bs : Builds) (k u : BuildKey)

@[simp] theorem build_modify_self (f : PkgBuild → PkgBuild) :
    (bs.modify k f).build k = f (bs.build k) := by
  simp [build, modify, Dict.get?_alter_self]

theorem build_modify_of_ne {k u : BuildKey} (f : PkgBuild → PkgBuild) (h : u ≠ k) :
    (bs.modify k f).build u = bs.build u := by
  simp [build, modify, Dict.get?_alter_ne _ h]

theorem mem_processed_modify (f : PkgBuild → PkgBuild) :
    u ∈ (bs.modify k f).processed.map Prod.fst ↔ u = k ∨ u ∈ bs.processed.map Prod.fst :=
  Dict.mem_keys_alter

@[simp] theorem build_intern : (bs.intern k).build u = bs.build u := by
  by_cases h : u = k
  · subst h; simp [intern]
  · exact bs.build_modify_of_ne _ h

@[simp] theorem build_finish : (bs.finish k).build u = bs.build u := rfl

theorem connect_deps (dep : BuildKey) (kind : DepKind) (add : BuildDeps → BuildDeps) :
    ((bs.connect k dep kind add).build u).toBuildDeps =
      if u = k then add (bs.build u).toBuildDeps else (bs.build u).toBuildDeps := by
  have hk : ∀ v, ((bs.modify k fun b => { b with toBuildDeps := add b.toBuildDeps }).build
      v).toBuildDeps =
        if v = k then add (bs.build v).toBuildDeps else (bs.build v).toBuildDeps := by
    intro v
    by_cases h : v = k
    · subst h; simp
    · simp [build_modify_of_ne _ _ h, h]
  rw [connect]
  by_cases h : u = dep
  · subst h; simp [hk]
  · rw [build_modify_of_ne _ _ h, hk]

theorem mem_neededBy_connect (dep : BuildKey) (kind : DepKind) (add : BuildDeps → BuildDeps)
    (b : BuildKey) :
    b ∈ ((bs.connect k dep kind add).build u).neededBy.map Prod.fst ↔
      (u = dep ∧ b = k) ∨ b ∈ (bs.build u).neededBy.map Prod.fst := by
  have hk : ∀ v, ((bs.modify k fun b => { b with toBuildDeps := add b.toBuildDeps }).build
      v).neededBy = (bs.build v).neededBy := by
    intro v
    by_cases h : v = k
    · subst h; simp
    · rw [build_modify_of_ne _ _ h]
  rw [connect]
  by_cases h : u = dep
  · subst h
    rw [build_modify_self]
    simp only [hk, Dict.mem_keys_alter, true_and]
  · rw [build_modify_of_ne _ _ h, hk]
    simp [h]

end Builds

/-! ### The search it performs -/

/-- The edges of the entries `l` of a package, seen from the build `k`. -/
def visitEdges {ι : Type} (k : BuildKey) (cond : ι → Option Conditional) (dep : ι → BuildKey)
    (l : List ι) : List (Option (BuildKey × Unit)) :=
  l.flatMap fun e => if condPasses (cond e) k.2 then [some (dep e, ())] else []

/-- The edges of a build, in the order in which they are followed. -/
def buildSuccs (pkgs : PkgTable) (native : Arch) (k : BuildKey) (_ : Unit) :
    List (Option (BuildKey × Unit)) :=
  visitEdges k PkgDep.cond (fun d => (d.pkg, native)) (pkgs k.1).hostdeps ++
    (visitEdges k PkgDep.cond (fun d => (d.pkg, k.2)) (pkgs k.1).deps ++
      (pkgs k.1).archdeps.flatMap fun m =>
        visitEdges k PkgArchDep.cond (fun d => (d.pkg, m.1)) m.2)

/-- What the entries `l` add to the dependencies of `k`. -/
def recordVisits {ι : Type} (k : BuildKey) (cond : ι → Option Conditional)
    (add : ι → BuildDeps → BuildDeps) (l : List ι) (d : BuildDeps) : BuildDeps :=
  l.foldl (fun d e => if condPasses (cond e) k.2 then add e d else d) d

/-- The dependencies of a finished build, as they are recorded. -/
def recordedDeps (pkgs : PkgTable) (native : Arch) (k : BuildKey) : BuildDeps :=
  let d := recordVisits k PkgDep.cond
    (fun d => BuildDeps.addHostdep (d.pkg, native) d.tags) (pkgs k.1).hostdeps {}
  let d := recordVisits k PkgDep.cond
    (fun d => BuildDeps.addDep (d.pkg, k.2) d.tags) (pkgs k.1).deps d
  (pkgs k.1).archdeps.foldl (fun d m => recordVisits k PkgArchDep.cond
    (fun d => BuildDeps.addArchdep (d.pkg, m.1) d.mountpoint) m.2 d) d

/-- What relates the builds to the search, apart from their dependencies. -/
structure Builds.Inv (bs : Builds) (s : State BuildKey Unit) : Prop where
  processed : ∀ k, k ∈ bs.processed.map Prod.fst ↔ s.Met k
  list : bs.buildlist = s.done.map Prod.fst
  mirror : ∀ b c, b ∈ (bs.build c).neededBy.map Prod.fst ↔ c ∈ (bs.build b).keys

/-- What `resolve_builds` leaves in the builds. -/
def buildSpec (pkgs : PkgTable) (native : Arch) : TableSpec BuildKey Unit Builds BuildDeps where
  attr bs k := (bs.build k).toBuildDeps
  fresh := {}
  final k _ := recordedDeps pkgs native k
  inv := Builds.Inv

/-- No edge is bad: builds that are being processed are interned like any other. -/
def noBad (_ _ : BuildKey × Unit) : Bool := false

/-- Visiting a build behaves like following an edge to it. -/
def VisitsLike (pkgs : PkgTable) (native : Arch)
    (visit : BuildKey → Builds → Except ResolveError Builds) (n : ℕ) : Prop :=
  ∀ path k bs s, Agrees (buildSpec pkgs native) bs s →
    Simulates ResolveError.fault
      (fun bs' s' => Extends (buildSpec pkgs native) (fun _ => True) bs s bs' s' ∧ s'.Met k)
      (visit k bs)
      (follow noBad (DepthFirst.visit (buildSuccs pkgs native) noBad n) path s (some (k, ())))

variable {pkgs : PkgTable} {native : Arch}

section Visits

variable {visit : BuildKey → Builds → Except ResolveError Builds} {n : ℕ}
  {path : List (BuildKey × Unit)} {k : BuildKey} {d : BuildDeps} {bs bs' : Builds}
  {s s' : State BuildKey Unit}

/-- Recording a dependency of a build that is being processed. -/
theorem stage_connect (h : Stage (buildSpec pkgs native) k d bs s bs' s') (hm : s.Met k)
    (hd : ¬ s.Done k) {dep : BuildKey} (hdep : s'.Met dep) {kind : DepKind}
    {add : BuildDeps → BuildDeps} (hadd : ∀ d u, u ∈ (add d).keys ↔ u = dep ∨ u ∈ d.keys) :
    Stage (buildSpec pkgs native) k (add d) bs s (bs'.connect k dep kind add) s' := by
  have hinv := h.1.agrees.inv
  refine ⟨h.1.change hm hd (fun u hu => ?_) ?_, ?_⟩
  · exact (bs'.connect_deps k u dep kind add).trans (if_neg hu)
  · refine ⟨fun u => ?_, hinv.list, fun b c => ?_⟩
    · have hk := h.1.met k hm
      rw [← hinv.processed] at hk hdep ⊢
      rw [Builds.connect, Builds.mem_processed_modify, Builds.mem_processed_modify]
      exact ⟨by rintro (rfl | rfl | hu) <;> assumption, fun hu => .inr (.inr hu)⟩
    · rw [Builds.mem_neededBy_connect, hinv.mirror, bs'.connect_deps k b dep kind add]
      by_cases hb : b = k
      · simp [hb, hadd]
      · simp [hb]
  · exact (bs'.connect_deps k k dep kind add).trans ((if_pos rfl).trans (congrArg add h.2))

theorem visitEntries_simulates {ι : Type} (hv : VisitsLike pkgs native visit n)
    {kind : DepKind} {cond : ι → Option Conditional} {dep : ι → BuildKey}
    {add : ι → BuildDeps → BuildDeps}
    (hadd : ∀ e d u, u ∈ (add e d).keys ↔ u = dep e ∨ u ∈ d.keys) (l : List ι)
    (hm : s.Met k) (hd : ¬ s.Done k) (h : Stage (buildSpec pkgs native) k d bs s bs' s') :
    Simulates ResolveError.fault
      (Stage (buildSpec pkgs native) k (recordVisits k cond add l d) bs s)
      (visitEntries visit k kind cond dep add l bs')
      ((visitEdges k cond dep l).foldlM
        (follow noBad (DepthFirst.visit (buildSuccs pkgs native) noBad n) path) s') := by
  refine Simulates.foldlM (Q := fun d => Stage (buildSpec pkgs native) k d bs s) l
    (fun e _ d bs₁ s₁ h₁ => ?_) h
  cases condPasses (cond e) k.2 with
  | false => exact .ok h₁
  | true =>
    rw [if_pos rfl, if_pos rfl, if_pos rfl, List.foldlM_cons]
    refine ((hv path (dep e) bs₁ s₁ h₁.1.agrees).bind_ok ?_).bind_right fun _ _ => .ok
    rintro bs₂ s₂ ⟨hext, hdep⟩
    have hstage : Stage (buildSpec pkgs native) k d bs s bs₂ s₂ :=
      ⟨h₁.1.trans (hext.mono fun _ _ => trivial),
        (hext.same k (h₁.1.met _ hm) trivial).trans h₁.2⟩
    exact stage_connect hstage hm hd hdep (hadd e)

end Visits

theorem BuildDeps.mem_keys_addHostdep (dep : BuildKey) (tags : List Text) (d : BuildDeps)
    (u : BuildKey) : u ∈ (d.addHostdep dep tags).keys ↔ u = dep ∨ u ∈ d.keys := by
  simp only [BuildDeps.keys, BuildDeps.addHostdep, List.map_append, List.mem_append,
    List.map_cons, List.map_nil, List.mem_singleton]
  grind

theorem BuildDeps.mem_keys_addDep (dep : BuildKey) (tags : List Text) (d : BuildDeps)
    (u : BuildKey) : u ∈ (d.addDep dep tags).keys ↔ u = dep ∨ u ∈ d.keys := by
  simp only [BuildDeps.keys, BuildDeps.addDep, List.map_append, List.mem_append,
    List.map_cons, List.map_nil, List.mem_singleton]
  grind

theorem BuildDeps.mem_keys_addArchdep (dep : BuildKey) (mountpoint : Text) (d : BuildDeps)
    (u : BuildKey) : u ∈ (d.addArchdep dep mountpoint).keys ↔ u = dep ∨ u ∈ d.keys := by
  simp only [BuildDeps.keys, BuildDeps.addArchdep, List.map_append, List.mem_append,
    List.map_cons, List.map_nil, List.mem_singleton]
  grind

theorem Builds.Inv.enter {bs : Builds} {s : State BuildKey Unit} (h : bs.Inv s) (k : BuildKey) :
    (bs.intern k).Inv (s.enter (k, ())) where
  processed u := by
    rw [Builds.intern, Builds.mem_processed_modify, h.processed]
    simp [State.Met, or_comm]
  list := h.list
  mirror b c := by
    rw [Builds.build_intern, Builds.build_intern]
    exact h.mirror b c

theorem Builds.Inv.leave {bs : Builds} {s : State BuildKey Unit} (h : bs.Inv s) (k : BuildKey) :
    (bs.finish k).Inv (s.leave (k, ())) where
  processed := h.processed
  list := by simp [Builds.finish, h.list]
  mirror := h.mirror

/-- Visiting a build behaves like following an edge to it. -/
theorem visitDep_visitsLike (n : ℕ) :
    VisitsLike pkgs native (visitDep pkgs native n) n := by
  induction n with
  | zero =>
    intro path k bs s h
    have hnb : path.any (noBad · (k, ())) = false := by simp [noBad]
    simp only [visitDep, follow, hnb, h.inv.processed]
    by_cases hm : s.Met k
    · simp only [hm, if_true]
      exact .ok ⟨h.refl_extends, hm⟩
    · simp only [hm, if_false]
      exact .error
  | succ n ih =>
    intro path k bs s h
    have hnb : path.any (noBad · (k, ())) = false := by simp [noBad]
    simp only [visitDep, follow, hnb, h.inv.processed]
    by_cases hx : s.Met k
    · simp only [hx, if_true]
      exact .ok ⟨h.refl_extends, hx⟩
    · have hm : (s.enter (k, ())).Met k := State.met_of_mem (x := (k, ())) (by simp)
      have hd : ¬ (s.enter (k, ())).Done k := fun hd => hx (h.sub k hd)
      have hattr : ∀ u, (buildSpec pkgs native).attr (bs.intern k) u =
          (buildSpec pkgs native).attr bs u := fun u => by
        simp only [buildSpec, Builds.build_intern]
      have hstart : Stage (buildSpec pkgs native) k {} (bs.intern k) (s.enter (k, ()))
          (bs.intern k) (s.enter (k, ())) :=
        ⟨(h.enter hx (fun u _ => hattr u) (h.inv.enter k)).refl_extends,
          (hattr k).trans (h.fresh k hx)⟩
      simp only [hx, if_false, visit_succ]
      -- before the build is left, its dependencies have been recorded
      refine Simulates.map_right (Q := fun bs₁ s₁ => ∃ bs₂, bs₁ = bs₂.finish k ∧
        Stage (buildSpec pkgs native) k (recordedDeps pkgs native k) (bs.intern k)
          (s.enter (k, ())) bs₂ s₁) ?_ ?_
      · rw [buildSuccs, search_append]
        refine (visitEntries_simulates ih
          (fun e d u => BuildDeps.mem_keys_addHostdep (e.pkg, native) e.tags d u) _ hm hd
          hstart).bind fun bs₁ s₁ h₁ => ?_
        rw [search_append]
        refine (visitEntries_simulates ih
          (fun e d u => BuildDeps.mem_keys_addDep (e.pkg, k.2) e.tags d u) _ hm hd
          h₁).bind fun bs₂ s₂ h₂ => ?_
        refine (Simulates.foldlM (Q := fun d => Stage (buildSpec pkgs native) k d (bs.intern k)
          (s.enter (k, ()))) _ (fun m _ d bs₃ s₃ h₃ => ?_) h₂).bind_ok
          fun bs₄ s₄ h₄ => ⟨bs₄, rfl, h₄⟩
        exact visitEntries_simulates ih
          (fun e d u => BuildDeps.mem_keys_addArchdep (e.pkg, m.1) e.mountpoint d u) _ hm hd h₃
      · rintro _ s₁ ⟨bs₂, rfl, h₂⟩
        exact ⟨h₂.leave hx (fun u _ => hattr u) (fun _ => rfl) (h₂.1.agrees.inv.leave k),
          h₂.1.met k hm⟩

/-- The edges the search for the builds of the top-level packages starts on. -/
def topBuilds (target : Arch) (tops : List PkgName) : List (Option (BuildKey × Unit)) :=
  tops.map fun p => some ((p, target), ())

/-- **`resolveBuilds` is a depth-first search** on builds. -/
theorem resolveBuilds_simulates (pkgs : PkgTable) (native target : Arch) (n : ℕ)
    (tops : List PkgName) :
    Simulates ResolveError.fault (Agrees (buildSpec pkgs native))
      (resolveBuilds pkgs native target n tops)
      (search (buildSuccs pkgs native) noBad n [] (topBuilds target tops) .empty) := by
  have hempty : Agrees (buildSpec pkgs native) {} .empty :=
    agrees_empty (fun _ => rfl) ⟨fun _ => Iff.rfl, rfl, fun _ _ => by
      simp [Builds.build, Dict.get?, BuildDeps.keys]⟩
  rw [resolveBuilds, topBuilds, search, List.map_eq_flatMap]
  refine Simulates.foldlM (Q := fun (_ : Unit) => Agrees (buildSpec pkgs native))
    (u := fun _ _ => ()) tops (fun p _ _ bs s h => ?_) (c := ()) hempty
  rw [List.foldlM_cons]
  exact (visitDep_visitsLike n [] (p, target) bs s h).bind_right fun _ _ h' => .ok h'.1.agrees

/-! ### The graph of builds -/

/-- The dependencies that the entries of a package give to its build for an architecture: those
whose condition passes for it. -/
def buildDeps (pkgs : PkgTable) (native : Arch) (k : BuildKey) : BuildDeps where
  deps := ((pkgs k.1).deps.filter fun d => condPasses d.cond k.2).map fun d =>
    ((d.pkg, k.2), d.tags)
  hostdeps := ((pkgs k.1).hostdeps.filter fun d => condPasses d.cond k.2).map fun d =>
    ((d.pkg, native), d.tags)
  archdeps := (pkgs k.1).archdeps.flatMap fun m =>
    (m.2.filter fun d => condPasses d.cond k.2).map fun d => ((d.pkg, m.1), d.mountpoint)

/-- `k'` is a dependency of the build `k`. -/
def DependsOn (pkgs : PkgTable) (native : Arch) (k k' : BuildKey) : Prop :=
  k' ∈ (buildDeps pkgs native k).keys

instance (pkgs : PkgTable) (native : Arch) (k k' : BuildKey) :
    Decidable (DependsOn pkgs native k k') := inferInstanceAs (Decidable (_ ∈ _))

/-- `k` is reached from the build of a top-level package for the target architecture. -/
def BuildReachable (pkgs : PkgTable) (native target : Arch) (tops : List PkgName)
    (k : BuildKey) : Prop :=
  ∃ p ∈ tops, Relation.ReflTransGen (DependsOn pkgs native) (p, target) k

/-- Recording into one of the lists, `S` being the dependencies as a function of that list. -/
theorem recordVisits_eq {ι α : Type} {k : BuildKey} {cond : ι → Option Conditional}
    {add : ι → BuildDeps → BuildDeps} {S : List α → BuildDeps} {f : ι → α}
    (hadd : ∀ e xs, add e (S xs) = S (xs ++ [f e])) (l : List ι) (xs : List α) :
    recordVisits k cond add l (S xs) =
      S (xs ++ (l.filter fun e => condPasses (cond e) k.2).map f) := by
  induction l generalizing xs with
  | nil => simp [recordVisits]
  | cons e l ih =>
    simp only [recordVisits, List.foldl_cons] at ih ⊢
    cases h : condPasses (cond e) k.2 <;> simp [h, hadd, ih]

theorem recordVisits_hostdeps (k : BuildKey) (l : List PkgDep) (d : BuildDeps) :
    recordVisits k PkgDep.cond (fun e => BuildDeps.addHostdep (e.pkg, native) e.tags) l d =
      { d with hostdeps := d.hostdeps ++ (l.filter fun e => condPasses e.cond k.2).map fun e =>
        ((e.pkg, native), e.tags) } :=
  recordVisits_eq (S := fun xs => { d with hostdeps := xs }) (fun _ _ => rfl) l d.hostdeps

theorem recordVisits_deps (k : BuildKey) (l : List PkgDep) (d : BuildDeps) :
    recordVisits k PkgDep.cond (fun e => BuildDeps.addDep (e.pkg, k.2) e.tags) l d =
      { d with deps := d.deps ++ (l.filter fun e => condPasses e.cond k.2).map fun e =>
        ((e.pkg, k.2), e.tags) } :=
  recordVisits_eq (S := fun xs => { d with deps := xs }) (fun _ _ => rfl) l d.deps

theorem recordVisits_archdeps (k : BuildKey) (a : Arch) (l : List PkgArchDep) (d : BuildDeps) :
    recordVisits k PkgArchDep.cond (fun e => BuildDeps.addArchdep (e.pkg, a) e.mountpoint) l d =
      { d with archdeps := d.archdeps ++ (l.filter fun e => condPasses e.cond k.2).map fun e =>
        ((e.pkg, a), e.mountpoint) } :=
  recordVisits_eq (S := fun xs => { d with archdeps := xs }) (fun _ _ => rfl) l d.archdeps

theorem recordedDeps_eq (pkgs : PkgTable) (native : Arch) (k : BuildKey) :
    recordedDeps pkgs native k = buildDeps pkgs native k := by
  have harch : ∀ (l : Dict Arch (List PkgArchDep)) (d : BuildDeps),
      l.foldl (fun d m => recordVisits k PkgArchDep.cond
        (fun d => BuildDeps.addArchdep (d.pkg, m.1) d.mountpoint) m.2 d) d =
      { d with archdeps := d.archdeps ++ l.flatMap fun m =>
        (m.2.filter fun d => condPasses d.cond k.2).map fun d =>
          ((d.pkg, m.1), d.mountpoint) } := by
    intro l
    induction l with
    | nil => intro d; simp
    | cons m l ih =>
      intro d
      rw [List.foldl_cons, recordVisits_archdeps, ih]
      simp
  simp [recordedDeps, recordVisits_hostdeps, recordVisits_deps, harch, buildDeps]

theorem mem_visitEdges {ι : Type} {k u : BuildKey} {cond : ι → Option Conditional}
    {dep : ι → BuildKey} {l : List ι} :
    some (u, ()) ∈ visitEdges k cond dep l ↔ ∃ e ∈ l, condPasses (cond e) k.2 = true ∧
      u = dep e := by
  simp only [visitEdges, List.mem_flatMap]
  refine exists_congr fun e => and_congr_right fun _ => ?_
  cases condPasses (cond e) k.2 <;> simp

theorem dependsOn_iff {k u : BuildKey} : DependsOn pkgs native k u ↔
    (∃ e ∈ (pkgs k.1).deps, condPasses e.cond k.2 = true ∧ u = (e.pkg, k.2)) ∨
    (∃ e ∈ (pkgs k.1).hostdeps, condPasses e.cond k.2 = true ∧ u = (e.pkg, native)) ∨
    ∃ m ∈ (pkgs k.1).archdeps, ∃ e ∈ m.2, condPasses e.cond k.2 = true ∧ u = (e.pkg, m.1) := by
  simp only [DependsOn, BuildDeps.keys, buildDeps, List.mem_append, List.map_map, List.mem_map,
    List.mem_filter, Function.comp_apply, List.map_flatMap, List.mem_flatMap, and_assoc, or_assoc,
    eq_comm (a := u)]

theorem mem_buildSuccs {k u : BuildKey} :
    some (u, ()) ∈ buildSuccs pkgs native k () ↔ DependsOn pkgs native k u := by
  simp only [buildSuccs, dependsOn_iff, List.mem_append, List.mem_flatMap, mem_visitEdges]
  exact or_left_comm

theorem none_notMem_buildSuccs {k : BuildKey} : none ∉ buildSuccs pkgs native k () := by
  have hv : ∀ {ι : Type} (cond : ι → Option Conditional) (dep : ι → BuildKey) (l : List ι),
      none ∉ visitEdges k cond dep l := by
    intro ι cond dep l h
    obtain ⟨e, -, he⟩ := List.mem_flatMap.1 h
    cases hc : condPasses (cond e) k.2 <;> simp [hc] at he
  simp only [buildSuccs, List.mem_append, List.mem_flatMap, not_or, not_exists, not_and]
  exact ⟨hv _ _ _, hv _ _ _, fun m _ => hv _ _ _⟩

/-! ### The result -/

/-- `d` is among the dependencies of `b`. -/
def Builds.Dep (bs : Builds) (b d : BuildKey) : Prop := d ∈ (bs.build b).keys

instance (bs : Builds) (b d : BuildKey) : Decidable (bs.Dep b d) :=
  inferInstanceAs (Decidable (d ∈ (bs.build b).keys))

/-- Every build of the list comes after its dependencies. -/
def Builds.Ordered (bs : Builds) : Prop :=
  ∀ l₁ k l₂, bs.buildlist = l₁ ++ k :: l₂ → ∀ d ∈ (bs.build k).keys, d ∈ l₁

theorem Builds.Ordered.idxOf_lt {bs : Builds} (h : bs.Ordered) {k d : BuildKey}
    (hk : k ∈ bs.buildlist) (hd : d ∈ (bs.build k).keys) :
    d ∈ bs.buildlist ∧ bs.buildlist.idxOf d < bs.buildlist.idxOf k := by
  obtain ⟨l₁, l₂, hl, hk₁⟩ := List.eq_append_cons_of_mem hk
  have hd₁ : d ∈ l₁ := h l₁ k l₂ hl d hd
  refine ⟨hl ▸ List.mem_append_left _ hd₁, ?_⟩
  rw [hl, List.idxOf_append_of_mem hd₁, List.idxOf_append_of_notMem hk₁, List.idxOf_cons_self]
  exact List.idxOf_lt_length_of_mem hd₁

/-- A list whose builds come after their dependencies has no cycle. -/
theorem Builds.not_transGen_self {bs : Builds} (h : ∀ k ∈ bs.buildlist,
      ∀ d ∈ (bs.build k).keys, d ∈ bs.buildlist ∧
        bs.buildlist.idxOf d < bs.buildlist.idxOf k) {k : BuildKey} (hk : k ∈ bs.buildlist) :
    ¬ Relation.TransGen bs.Dep k k := by
  have key : ∀ u, Relation.TransGen bs.Dep k u →
      u ∈ bs.buildlist ∧ bs.buildlist.idxOf u < bs.buildlist.idxOf k := by
    intro u hu
    induction hu with
    | single hd => exact h k hk _ hd
    | tail _ hd ih =>
      obtain ⟨hmem, hlt⟩ := h _ ih.1 _ hd
      exact ⟨hmem, Nat.lt_trans hlt ih.2⟩
  exact fun hcyc => Nat.lt_irrefl _ (key k hcyc).2

/-- The builds of `bs` are those reachable from the top-level packages, with the dependencies
that their entries give. -/
structure ResolvedBuilds (pkgs : PkgTable) (native target : Arch) (tops : List PkgName)
    (bs : Builds) : Prop where
  nodup : bs.buildlist.Nodup
  mem : ∀ k, k ∈ bs.buildlist ↔ BuildReachable pkgs native target tops k
  deps : ∀ k ∈ bs.buildlist, (bs.build k).toBuildDeps = buildDeps pkgs native k
  neededBy : ∀ b c, b ∈ (bs.build c).neededBy.map Prod.fst ↔ c ∈ (bs.build b).keys
  order : (∀ k, BuildReachable pkgs native target tops k →
      ¬ Relation.TransGen (DependsOn pkgs native) k k) → bs.Ordered

theorem mem_topBuilds {target : Arch} {tops : List PkgName} {k : BuildKey} :
    some (k, ()) ∈ topBuilds target tops ↔ ∃ p ∈ tops, (p, target) = k := by
  simp [topBuilds]

theorem none_notMem_topBuilds {target : Arch} {tops : List PkgName} :
    none ∉ topBuilds target tops := by
  simp [topBuilds]

section Result

variable {target : Arch} {tops : List PkgName} {bs : Builds} {w : State BuildKey Unit}
  {pass : List (BuildKey × Unit) → Option (BuildKey × Unit) → Prop}

theorem dependsOn_of_links {M : List (BuildKey × Unit)} {x y : BuildKey × Unit}
    (h : Relation.ReflTransGen (Link (buildSuccs pkgs native) M) x y) :
    Relation.ReflTransGen (DependsOn pkgs native) x.1 y.1 :=
  h.lift Prod.fst fun _ _ hl => mem_buildSuccs.1 hl.2.2

theorem met_iff_buildReachable
    (hw : Walk (buildSuccs pkgs native) pass [] (topBuilds target tops) .empty w) (k : BuildKey) :
    w.Met k ↔ BuildReachable pkgs native target tops k := by
  constructor
  · intro hk
    obtain ⟨c, hc⟩ := hk.exists
    rcases hw.reached hc with h | ⟨r, hr, -, hry⟩
    · cases h
    · obtain ⟨p, hp, hpr⟩ := mem_topBuilds.1 hr
      exact ⟨p, hp, hpr ▸ dependsOn_of_links hry⟩
  · rintro ⟨p, hp, h⟩
    induction h with
    | refl => exact hw.met_of_edge (mem_topBuilds.2 ⟨p, hp, rfl⟩)
    | tail _ hstep ih =>
      obtain ⟨c, hc⟩ := ih.exists
      exact hw.met_succ hc (mem_buildSuccs.2 hstep)

/-- Without cycles, a build is finished after its dependencies. -/
theorem pos_lt_of_dependsOn
    (hw : Walk (buildSuccs pkgs native) pass [] (topBuilds target tops) .empty w)
    (hacyc : ∀ k, BuildReachable pkgs native target tops k →
      ¬ Relation.TransGen (DependsOn pkgs native) k k)
    {k d : BuildKey} (hk : w.Met k) (hd : DependsOn pkgs native k d) : pos w d < pos w k := by
  obtain ⟨c, hc⟩ := hk.exists
  obtain ⟨p, -, hp, hbefore⟩ := hw.followed hc (mem_buildSuccs.2 hd)
  rcases hbefore _ rfl with hbefore | hdp
  · exact hbefore.pos_lt (done_nodup hw)
  · obtain ⟨q, hq, rfl⟩ := List.mem_map.1 hdp
    have hqk := dependsOn_of_links (hp q hq).2
    exact absurd (.head' hd hqk) (hacyc k ((met_iff_buildReachable hw k).1 hk))

theorem resolvedBuilds_of_walk
    (hw : Walk (buildSuccs pkgs native) pass [] (topBuilds target tops) .empty w)
    (h : Agrees (buildSpec pkgs native) bs w) :
    ResolvedBuilds pkgs native target tops bs := by
  have hlist : bs.buildlist = w.done.map Prod.fst := h.inv.list
  have hmem : ∀ k, k ∈ bs.buildlist ↔ w.Met k := by
    intro k
    rw [hlist]
    simp only [State.Met, List.mem_map, hw.met_iff_done]
  have hdeps : ∀ k ∈ bs.buildlist, (bs.build k).toBuildDeps = buildDeps pkgs native k := by
    intro k hk
    rw [hlist] at hk
    obtain ⟨x, hx, rfl⟩ := List.mem_map.1 hk
    exact (h.done x.1 x.2 hx).trans (recordedDeps_eq pkgs native x.1)
  refine ⟨hlist ▸ done_nodup hw, fun k => (hmem k).trans (met_iff_buildReachable hw k), hdeps,
    h.inv.mirror, fun hacyc l₁ k l₂ hl d hd => ?_⟩
  have hk : k ∈ bs.buildlist := hl ▸ by simp
  rw [hdeps k hk] at hd
  exact mem_of_pos_lt hw (hlist.symm.trans hl) (pos_lt_of_dependsOn hw hacyc ((hmem k).1 hk) hd)

/-- Whatever the fuel, the result of `resolveBuilds` is the graph of the reachable builds. -/
theorem resolvedBuilds_of_eq_ok {n : ℕ} (h : resolveBuilds pkgs native target n tops = .ok bs) :
    ResolvedBuilds pkgs native target tops bs := by
  have hsim := resolveBuilds_simulates pkgs native target n tops
  rw [h] at hsim
  obtain ⟨w, hw, hagree⟩ := hsim.exists_ok_right
  exact resolvedBuilds_of_walk (walk_of_search hw) hagree

end Result

theorem ResolvedBuilds.mem_of_dep {target : Arch} {tops : List PkgName} {bs : Builds}
    (h : ResolvedBuilds pkgs native target tops bs) {k d : BuildKey} (hk : k ∈ bs.buildlist)
    (hd : bs.Dep k d) : d ∈ bs.buildlist := by
  obtain ⟨p, hp, hreach⟩ := (h.mem k).1 hk
  rw [Builds.Dep, h.deps k hk] at hd
  exact (h.mem d).2 ⟨p, hp, hreach.tail hd⟩

theorem ResolvedBuilds.dep_iff {target : Arch} {tops : List PkgName} {bs : Builds}
    (h : ResolvedBuilds pkgs native target tops bs) {k u : BuildKey} (hk : k ∈ bs.buildlist) :
    bs.Dep k u ↔ DependsOn pkgs native k u := by
  rw [Builds.Dep, h.deps k hk]
  rfl

/-- Without cycles among its builds, the list is ordered. -/
theorem ResolvedBuilds.ordered {target : Arch} {tops : List PkgName} {bs : Builds}
    (h : ResolvedBuilds pkgs native target tops bs)
    (hacyc : ∀ k ∈ bs.buildlist, ¬ Relation.TransGen bs.Dep k k) : bs.Ordered := by
  refine h.order fun k hk hcyc => hacyc k ((h.mem k).2 hk) ?_
  refine (transGen_of_closed (fun v u hv hd => ?_) ((h.mem k).2 hk) hcyc).2
  have hdep : bs.Dep v u := (h.dep_iff hv).2 hd
  exact ⟨h.mem_of_dep hv hdep, hdep⟩

/-- A list is ordered if the dependencies of every build are before its position. -/
theorem Builds.ordered_of_zipIdx {bs : Builds}
    (h : ∀ x ∈ bs.buildlist.zipIdx, ∀ d ∈ (bs.build x.1).keys, d ∈ bs.buildlist.take x.2) :
    bs.Ordered := by
  intro l₁ k l₂ hl d hd
  have hmem : (k, l₁.length) ∈ bs.buildlist.zipIdx := by
    rw [List.mk_mem_zipIdx_iff_getElem?, hl]
    simp
  have htake := h _ hmem d hd
  rwa [hl, List.take_left] at htake

/-- The packages that the attributes of a package refer to. -/
def Pkg.refs (p : Pkg) : List PkgName :=
  p.deps.map PkgDep.pkg ++ p.hostdeps.map PkgDep.pkg ++
    p.archdeps.flatMap fun m => m.2.map PkgArchDep.pkg

/-- The architectures of the builds of the packages `names`. -/
def buildArchs (pkgs : PkgTable) (native target : Arch) (names : List PkgName) : List Arch :=
  target :: native :: names.flatMap fun p => (pkgs p).archdeps.map Prod.fst

theorem mem_product_of_dependsOn {target : Arch} {names : List PkgName}
    (hclosed : ∀ p ∈ names, ∀ q ∈ (pkgs p).refs, q ∈ names) {k u : BuildKey}
    (hk : k ∈ names ×ˢ buildArchs pkgs native target names)
    (h : DependsOn pkgs native k u) :
    u ∈ names ×ˢ buildArchs pkgs native target names := by
  obtain ⟨hp, ha⟩ := List.mem_product.1 hk
  simp only [Pkg.refs, List.mem_append, List.mem_map, List.mem_flatMap] at hclosed
  rcases dependsOn_iff.1 h with ⟨e, he, -, rfl⟩ | ⟨e, he, -, rfl⟩ | ⟨m, hm, e, he, -, rfl⟩
  · exact List.mem_product.2 ⟨hclosed _ hp _ (.inl (.inl ⟨e, he, rfl⟩)), ha⟩
  · exact List.mem_product.2 ⟨hclosed _ hp _ (.inl (.inr ⟨e, he, rfl⟩)), by simp [buildArchs]⟩
  · refine List.mem_product.2 ⟨hclosed _ hp _ (.inr ⟨m, hm, e, he, rfl⟩), ?_⟩
    refine List.mem_cons_of_mem _ (List.mem_cons_of_mem _ (List.mem_flatMap.2 ⟨_, hp, ?_⟩))
    exact List.mem_map.2 ⟨m, hm, rfl⟩

theorem exists_resolveBuilds_eq_ok {target : Arch} {names tops : List PkgName}
    (hclosed : ∀ p ∈ names, ∀ q ∈ (pkgs p).refs, q ∈ names) (htops : ∀ p ∈ tops, p ∈ names)
    {n : ℕ} (hn : names.length * (buildArchs pkgs native target names).length ≤ n) :
    ∃ bs, resolveBuilds pkgs native target n tops = .ok bs := by
  have hsim := resolveBuilds_simulates pkgs native target n tops
  have hlen : (names ×ˢ buildArchs pkgs native target names).length ≤ n := by
    rwa [List.length_product]
  obtain ⟨w, hw⟩ : ∃ w, search (buildSuccs pkgs native) noBad n [] (topBuilds target tops)
      .empty = .ok w := by
    refine exists_search_eq_ok (fun _ _ => rfl) (fun _ _ => none_notMem_buildSuccs)
      (fun v hv _ x hx => mem_product_of_dependsOn hclosed hv (mem_buildSuccs.1 hx)) hlen
      (fun x hx => ?_) none_notMem_topBuilds
    obtain ⟨p, hp, hpx⟩ := mem_topBuilds.1 hx
    exact hpx ▸ List.mem_product.2 ⟨htops p hp, by simp [buildArchs]⟩
  rw [hw] at hsim
  obtain ⟨bs, hbs, -⟩ := hsim.exists_ok
  exact ⟨bs, hbs⟩

/-- **Correctness of the build list.**  For resolved packages `names` that refer to each other
only, and without cycles among the reachable builds, `resolveBuilds` ends with a list that has
every reachable build once and nothing else, each after all its dependencies; the dependencies
are those whose condition passes, and `needed_by` is the converse relation. -/
theorem resolveBuilds_correct (pkgs : PkgTable) (native target : Arch) (names tops : List PkgName)
    (hclosed : ∀ p ∈ names, ∀ q ∈ (pkgs p).refs, q ∈ names) (htops : ∀ p ∈ tops, p ∈ names)
    (hacyc : ∀ k, BuildReachable pkgs native target tops k →
      ¬ Relation.TransGen (DependsOn pkgs native) k k)
    (n : ℕ) (hn : names.length * (buildArchs pkgs native target names).length ≤ n) :
    ∃ bs, resolveBuilds pkgs native target n tops = .ok bs ∧ bs.buildlist.Nodup ∧
      (∀ k, k ∈ bs.buildlist ↔ BuildReachable pkgs native target tops k) ∧
      (∀ k ∈ bs.buildlist, (bs.build k).toBuildDeps = buildDeps pkgs native k) ∧
      (∀ l₁ k l₂, bs.buildlist = l₁ ++ k :: l₂ → ∀ d ∈ (bs.build k).keys, d ∈ l₁) ∧
      ∀ b c, b ∈ (bs.build c).neededBy.map Prod.fst ↔ c ∈ (bs.build b).keys := by
  obtain ⟨bs, hbs⟩ := exists_resolveBuilds_eq_ok hclosed htops hn
  have h := resolvedBuilds_of_eq_ok hbs
  exact ⟨bs, hbs, h.nodup, h.mem, h.deps, h.order hacyc, h.neededBy⟩

/-- An application built with a tool, and a library both need. -/
def samplePkgs : PkgTable := fun p =>
  if p = "app".toList then
    { deps := [⟨"lib", [], none⟩], hostdeps := [⟨"tool", [], none⟩], depsResolved := true }
  else if p = "tool".toList then { deps := [⟨"lib", [], none⟩], depsResolved := true }
  else { depsResolved := true }

/-- Dependencies of `samplePkgs` have a smaller rank. -/
def sampleRank (k : BuildKey) : ℕ :=
  if k.1 = "app".toList then 2 else if k.1 = "tool".toList then 1 else 0

theorem sampleRank_lt {k u : BuildKey} (h : DependsOn samplePkgs .x86_64 k u) :
    sampleRank u < sampleRank k := by
  rw [dependsOn_iff] at h
  unfold samplePkgs at h
  split_ifs at h with happ htool
  · have hu : u.1 = "lib".toList ∨ u.1 = "tool".toList := by
      rcases h with ⟨e, he, -, rfl⟩ | ⟨e, he, -, rfl⟩ | ⟨m, hm, -⟩
      · exact .inl (by simp_all)
      · exact .inr (by simp_all)
      · cases hm
    rcases hu with hu | hu <;> simp [sampleRank, hu, happ]
  · have hu : u.1 = "lib".toList := by
      rcases h with ⟨e, he, -, rfl⟩ | ⟨e, he, -⟩ | ⟨m, hm, -⟩
      · simp_all
      · cases he
      · cases hm
    simp [sampleRank, hu, htool]
  · rcases h with ⟨e, he, -⟩ | ⟨e, he, -⟩ | ⟨m, hm, -⟩
    · cases he
    · cases he
    · cases hm

theorem resolveBuilds_sample : ∃ bs,
    resolveBuilds samplePkgs .x86_64 .wasm32 6 ["app"] = .ok bs ∧ bs.buildlist.Nodup ∧
    ("lib".toList, Arch.wasm32) ∈ bs.buildlist ∧ ("lib".toList, Arch.x86_64) ∈ bs.buildlist := by
  obtain ⟨bs, hbs, hnodup, hmem, -⟩ := resolveBuilds_correct samplePkgs .x86_64 .wasm32
    ["app", "tool", "lib"] ["app"] (by decide) (by decide)
    (fun k _ => DepthFirst.not_transGen_self sampleRank (fun _ _ => sampleRank_lt) k) 6 (by decide)
  have h₁ : DependsOn samplePkgs .x86_64 ("app".toList, .wasm32) ("lib".toList, .wasm32) := by
    decide
  have h₂ : DependsOn samplePkgs .x86_64 ("app".toList, .wasm32) ("tool".toList, .x86_64) := by
    decide
  have h₃ : DependsOn samplePkgs .x86_64 ("tool".toList, .x86_64) ("lib".toList, .x86_64) := by
    decide
  exact ⟨bs, hbs, hnodup, (hmem _).2 ⟨_, List.mem_singleton.2 rfl, .single h₁⟩,
    (hmem _).2 ⟨_, List.mem_singleton.2 rfl, .tail (.single h₂) h₃⟩⟩

end Pbuild
