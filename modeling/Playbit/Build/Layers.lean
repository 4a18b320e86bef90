import Playbit.Build.Order
import Playbit.Graph.Closure

/-!
# What is in the sandbox of a build

`depLayerDirs` collects the output directories that are mounted below the sandbox: those of the
`DEPENDS` and `BUILDTOOL` entries of the build, and of everything that these depend on with
`DEPENDS` entries tagged `transitive`.  Metapackages have no output, but are looked through.

The directories are in the order of the layers, from bottom to top.  Those of the `BUILDTOOL`
entries, the *host part*, are found last and end up at the bottom.  Since a directory and one
inside of it can not both be layers, a build that is in both parts is in the host part with a copy
of its `out/distroot`.

What the loops have put on top of what was there is a `Layers.Stack`, and `depLayerDirs_stack` is
the resulting **stack of layers**; whose output is in the sandbox is `mem_depLayerDirs_iff`.  The
recursion ends on an ordered build list (`depLayerDirs_ne_recursion`), and the result depends on
the entries of the builds that it reaches only (`depLayerDirs_congr`).
-/

namespace Pbuild

open Python DepthFirst

/-- A directory with the output of a build. -/
inductive LayerDir
  /-- `out` -/
  | out (b : BuildKey)
  /-- `out/distroot` -/
  | distroot (b : BuildKey)
  /-- `_out_distroot`, a copy of `out/distroot`. -/
  | distrootCopy (b : BuildKey)
  deriving DecidableEq

/-- The build whose output the directory holds. -/
def LayerDir.build : LayerDir → BuildKey
  | out b => b
  | distroot b => b
  | distrootCopy b => b

/-- The variables of `depLayerDirs`. -/
structure Layers where
  dirs : List LayerDir := []
  seen : List LayerDir := []
  /-- The copies that have been made. -/
  copied : List LayerDir := []

/-- Why `depLayerDirs` raises an exception. -/
inductive LayerError
  /-- `FileNotFoundError`: the directory `dir` of the dependency `dep` is missing. -/
  | missing (dep : BuildKey) (dir : LayerDir)
  /-- `CalledProcessError`: there is nothing to copy. -/
  | copyFailed (dep : BuildKey)
  | recursion

section Def

variable (bs : Builds) (metapackage : PkgName → Bool) (dirExists : LayerDir → Bool)

/-- `os.path.exists`, where `dirExists` is what was there at first. -/
def Layers.exists (s : Layers) (dir : LayerDir) : Bool := dirExists dir || decide (dir ∈ s.copied)

/-- `PkgBuild.checkDepDirExist`. -/
def checkDepDirExist (s : Layers) (dep : BuildKey) (dir : LayerDir) : Except LayerError Unit :=
  if metapackage dep.1 || s.exists dirExists dir then .ok () else .error (.missing dep dir)

/-- `PkgBuild.setupDistrootDirCopy`. -/
def setupDistrootDirCopy (s : Layers) (dep : BuildKey) : Except LayerError Layers :=
  if s.exists dirExists (.distrootCopy dep) then .ok s
  else if s.exists dirExists (.distroot dep) then
    .ok { s with copied := .distrootCopy dep :: s.copied }
  else .error (.copyFailed dep)

/-- The directory that is added for `dep`, in `visit_dep` and in `visit_hostdep`. -/
def layerDir (host : Bool) (s : Layers) (dep : BuildKey) : Except LayerError (Layers × LayerDir) :=
  if host then
    -- both `out` and `out/distroot` can not be layers, so the latter is copied
    if !metapackage dep.1 && decide (.out dep ∈ s.dirs) then do
      checkDepDirExist metapackage dirExists s dep (.out dep)
      let s ← setupDistrootDirCopy dirExists s dep
      .ok (s, .distrootCopy dep)
    else do
      checkDepDirExist metapackage dirExists s dep (.distroot dep)
      .ok (s, .distroot dep)
  else .ok (s, .out dep)

/-- The end of `add_dir`. -/
def addDir (s : Layers) (dep : BuildKey) (dir : LayerDir) : Except LayerError Layers :=
  if dir ∈ s.seen then .ok s
  else if metapackage dep.1 then .ok { s with seen := dir :: s.seen }
  else do
    checkDepDirExist metapackage dirExists s dep dir
    .ok { s with dirs := s.dirs ++ [dir], seen := dir :: s.seen }

/-- `visit_dep` and `visit_hostdep`.  The fuel bounds the depth of the recursion. -/
def visitLayer (host : Bool) : ℕ → Layers → BuildKey → Except LayerError Layers
  | 0, _, _ => .error .recursion
  | n + 1, s, dep => do
    let (s, dir) ← layerDir metapackage dirExists host s dep
    let s ← (bs.build dep).deps.foldlM (fun s e =>
      if "transitive".toList ∈ e.2 then visitLayer host n s e.1 else .ok s) s
    addDir metapackage dirExists s dep dir

/-- The two loops of `depLayerDirs`: the variables after the first and after the second. -/
def depLayers (n : ℕ) (b : BuildKey) : Except LayerError (Layers × Layers) := do
  let s ← (bs.build b).deps.foldlM
    (fun s e => visitLayer bs metapackage dirExists false n s e.1) {}
  let s' ← (bs.build b).hostdeps.foldlM
    (fun s e => visitLayer bs metapackage dirExists true n s e.1) s
  .ok (s, s')

/-- `PkgBuild.depLayerDirs`. -/
def depLayerDirs (n : ℕ) (b : BuildKey) : Except LayerError (List LayerDir) :=
  (depLayers bs metapackage dirExists n b).map fun (s, s') =>
    let depsEndIndex := s.dirs.length
    s'.dirs.drop depsEndIndex ++ s'.dirs.take depsEndIndex

end Def

/-- The dependencies of every build. -/
abbrev DepGraph := BuildKey → BuildDeps

/-- The dependencies of the builds that `resolve_builds` made. -/
def Builds.graph (bs : Builds) : DepGraph := fun k => (bs.build k).toBuildDeps

namespace DepGraph

variable (g : DepGraph)

/-- `u` has a `DEPENDS` entry for `v` tagged `transitive`. -/
def Transitive (u v : BuildKey) : Prop :=
  ∃ e ∈ (g u).deps, "transitive".toList ∈ e.2 ∧ e.1 = v

/-- `u` is a `DEPENDS` or `BUILDTOOL` dependency of `b`. -/
def Layer (b u : BuildKey) : Prop :=
  u ∈ (g b).deps.map Prod.fst ∨ u ∈ (g b).hostdeps.map Prod.fst

/-- `u` is below the sandbox of `b`. -/
def Below (b u : BuildKey) : Prop :=
  ∃ d, g.Layer b d ∧ Relation.ReflTransGen g.Transitive d u

variable {g}

theorem Transitive.layer {u v : BuildKey} (h : g.Transitive u v) : g.Layer u v := by
  obtain ⟨e, he, -, rfl⟩ := h
  exact .inl (List.mem_map.2 ⟨e, he, rfl⟩)

/-- Graphs that agree on a closed set of builds put the same into the sandboxes of these. -/
theorem Below.congr {g' : DepGraph} {S : BuildKey → Prop} (heq : ∀ k, S k → g k = g' k)
    (hS : ∀ k d, S k → g.Layer k d → S d) {k u : BuildKey} (hk : S k) (h : g.Below k u) :
    g'.Below k u := by
  obtain ⟨d, hd, hdu⟩ := h
  refine ⟨d, by rwa [Layer, ← heq k hk], ?_⟩
  refine (DepthFirst.reflTransGen_of_closed (fun a b ha hab => ?_) (hS k d hk hd) hdu).2
  exact ⟨hS a b ha hab.layer, by rwa [Transitive, ← heq a ha]⟩

theorem Layer.mem_keys {u v : BuildKey} (h : g.Layer u v) : v ∈ (g u).keys := by
  simp only [BuildDeps.keys, List.mem_append]
  exact .inl h

theorem Layer.below {u v : BuildKey} (h : g.Layer u v) : g.Below u v := ⟨v, h, .refl⟩

end DepGraph

theorem dep_of_layer {bs : Builds} {u v : BuildKey} (h : bs.graph.Layer u v) : bs.Dep u v :=
  h.mem_keys

/-! ### What the layers depend on -/

section Congr

variable {bs bs' : Builds} {metapackage : PkgName → Bool} {dirExists : LayerDir → Bool}

/-- What `visit_dep` finds depends on what is below the build only. -/
theorem visitLayer_congr {host : Bool} (n : ℕ) {dep : BuildKey}
    (h : ∀ u, Relation.ReflTransGen bs.graph.Transitive dep u →
      (bs'.build u).deps = (bs.build u).deps) (s : Layers) :
    visitLayer bs' metapackage dirExists host n s dep =
      visitLayer bs metapackage dirExists host n s dep := by
  induction n generalizing dep s with
  | zero => rfl
  | succ n ih =>
    have hloop : ∀ s, (bs.build dep).deps.foldlM (fun s e => if "transitive".toList ∈ e.2 then
          visitLayer bs' metapackage dirExists host n s e.1 else .ok s) s =
        (bs.build dep).deps.foldlM (fun s e => if "transitive".toList ∈ e.2 then
          visitLayer bs metapackage dirExists host n s e.1 else .ok s) s := by
      intro s
      refine Machine.foldlM_congr (fun e he s => ?_) s
      split_ifs with htag
      · have hstep : bs.graph.Transitive dep e.1 := ⟨e, he, htag, rfl⟩
        exact ih (fun u hu => h u (hu.head hstep)) s
      · rfl
    rw [visitLayer, visitLayer, h dep .refl]
    simp only [hloop]

/-- `b` and everything that it leads to have the same `DEPENDS` and `BUILDTOOL` entries in both. -/
def Builds.SameFrom (bs bs' : Builds) (b : BuildKey) : Prop :=
  ∀ u, Relation.ReflTransGen bs.graph.Layer b u →
    (bs'.build u).deps = (bs.build u).deps ∧ (bs'.build u).hostdeps = (bs.build u).hostdeps

theorem Builds.SameFrom.of_layer {b d : BuildKey} (h : bs.SameFrom bs' b)
    (hd : bs.graph.Layer b d) : bs.SameFrom bs' d :=
  fun u hu => h u (hu.head hd)

theorem Builds.SameFrom.visitLayer {b : BuildKey} (h : bs.SameFrom bs' b) (host : Bool) (n : ℕ)
    (s : Layers) : visitLayer bs' metapackage dirExists host n s b =
      visitLayer bs metapackage dirExists host n s b :=
  visitLayer_congr n (fun u hu =>
    (h u (Relation.ReflTransGen.mono (fun _ _ => DepGraph.Transitive.layer) _ _ hu)).1) s

theorem depLayerDirs_congr {b : BuildKey} (h : bs.SameFrom bs' b) (n : ℕ) :
    depLayerDirs bs' metapackage dirExists n b = depLayerDirs bs metapackage dirExists n b := by
  have hdeps : ∀ s, (bs.build b).deps.foldlM
        (fun s e => Pbuild.visitLayer bs' metapackage dirExists false n s e.1) s =
      (bs.build b).deps.foldlM
        (fun s e => Pbuild.visitLayer bs metapackage dirExists false n s e.1) s :=
    Machine.foldlM_congr fun e he =>
      (h.of_layer (.inl (List.mem_map_of_mem he))).visitLayer false n
  have hhostdeps : ∀ s, (bs.build b).hostdeps.foldlM
        (fun s e => Pbuild.visitLayer bs' metapackage dirExists true n s e.1) s =
      (bs.build b).hostdeps.foldlM
        (fun s e => Pbuild.visitLayer bs metapackage dirExists true n s e.1) s :=
    Machine.foldlM_congr fun e he =>
      (h.of_layer (.inr (List.mem_map_of_mem he))).visitLayer true n
  obtain ⟨hd, hh⟩ := h b .refl
  simp only [depLayerDirs, depLayers, hd, hh, hdeps, hhostdeps]

end Congr

/-! ### What the loops add -/

variable {bs : Builds} {metapackage : PkgName → Bool} {dirExists : LayerDir → Bool}

/-- The directory of a build in the part that is put on top of `base`. -/
def partDir (host : Bool) (base : List LayerDir) (u : BuildKey) : LayerDir :=
  if host then if .out u ∈ base then .distrootCopy u else .distroot u else .out u

@[simp] theorem build_partDir (host : Bool) (base : List LayerDir) (u : BuildKey) :
    (partDir host base u).build = u := by
  unfold partDir
  split_ifs <;> rfl

@[simp] theorem map_build_partDir (host : Bool) (base : List LayerDir) (part : List BuildKey) :
    (part.map (partDir host base)).map LayerDir.build = part := by
  rw [List.map_map]
  exact (List.map_congr_left fun u _ => build_partDir host base u).trans (List.map_id part)

theorem partDir_injective (host : Bool) (base : List LayerDir) :
    Function.Injective (partDir host base) := fun u v h => by
  rw [← build_partDir host base u, h, build_partDir]

theorem out_notMem_map_partDir (base : List LayerDir) (part : List BuildKey) (u : BuildKey) :
    .out u ∉ part.map (partDir true base) := by
  intro h
  obtain ⟨v, -, hv⟩ := List.mem_map.1 h
  rw [partDir, if_pos rfl] at hv
  split_ifs at hv

/-- On top of `base` there are the directories of the builds `part`, each above what it needs
transitively. -/
structure Layers.Stack (bs : Builds) (metapackage : PkgName → Bool) (dirExists : LayerDir → Bool)
    (host : Bool) (base : List LayerDir) (s : Layers) (part : List BuildKey) : Prop where
  dirs : s.dirs = base ++ part.map (partDir host base)
  nodup : part.Nodup
  metapackage_eq : ∀ u ∈ part, metapackage u.1 = false
  base_eq : ∀ u, .out u ∈ base → metapackage u.1 = false
  seen_iff : ∀ u, metapackage u.1 = false → (partDir host base u ∈ s.seen ↔ u ∈ part)
  seen_out : host = false → ∀ d ∈ s.seen, ∃ u, d = .out u
  above : ∀ l₁ u l₂, part = l₁ ++ u :: l₂ → ∀ v, metapackage v.1 = false →
    Relation.TransGen bs.graph.Transitive u v → v ∈ l₁
  found : ∀ u ∈ part, s.exists dirExists (partDir host base u) = true
  copied : ∀ d ∈ s.copied, ∃ u, d = .distrootCopy u ∧ dirExists (.distroot u) = true

theorem Layers.Stack.empty (bs : Builds) (metapackage : PkgName → Bool)
    (dirExists : LayerDir → Bool) : Layers.Stack bs metapackage dirExists false [] {} [] :=
  ⟨rfl, List.nodup_nil, by simp, by simp, by simp, by simp, by simp, by simp, by simp⟩

/-- The builds of `P` are put on top of `part`. -/
def Layers.Adds (bs : Builds) (metapackage : PkgName → Bool) (dirExists : LayerDir → Bool)
    (host : Bool) (base : List LayerDir) (P : BuildKey → Prop) (s' : Layers)
    (part : List BuildKey) : Prop :=
  ∃ part', s'.Stack bs metapackage dirExists host base part' ∧ part <+: part' ∧
    ∀ v, v ∈ part' ↔ v ∈ part ∨ P v

section Adds

variable {host : Bool} {base : List LayerDir} {s s' : Layers} {part : List BuildKey}

theorem foldlM_adds {ι : Type} {f : Layers → ι → Except LayerError Layers}
    {P : ι → BuildKey → Prop}
    (hf : ∀ s s' i part, s.Stack bs metapackage dirExists host base part → f s i = .ok s' →
      s'.Adds bs metapackage dirExists host base (P i) part)
    {l : List ι} (hs : s.Stack bs metapackage dirExists host base part)
    (h : l.foldlM f s = .ok s') :
    s'.Adds bs metapackage dirExists host base (fun u => ∃ i ∈ l, P i u) part := by
  induction l generalizing s part with
  | nil =>
    cases h
    exact ⟨part, hs, List.prefix_rfl, by simp⟩
  | cons i l ih =>
    rw [List.foldlM_cons] at h
    obtain ⟨s₁, hi, h⟩ := Machine.bind_eq_ok.1 h
    obtain ⟨part₁, hs₁, hpre₁, hmem₁⟩ := hf s s₁ i part hs hi
    obtain ⟨part₂, hs₂, hpre₂, hmem₂⟩ := ih hs₁ h
    refine ⟨part₂, hs₂, hpre₁.trans hpre₂, fun v => ?_⟩
    rw [hmem₂, hmem₁]
    simp [or_assoc]

theorem setupDistrootDirCopy_cases {dep : BuildKey}
    (h : setupDistrootDirCopy dirExists s dep = .ok s') : s' = s ∨
      s.exists dirExists (.distroot dep) = true ∧
        s' = { s with copied := .distrootCopy dep :: s.copied } := by
  unfold setupDistrootDirCopy at h
  split_ifs at h with h₁ h₂
  · cases h; exact .inl rfl
  · cases h; exact .inr ⟨h₂, rfl⟩

theorem Layers.Stack.dirExists_distroot (hs : s.Stack bs metapackage dirExists host base part)
    {u : BuildKey} (h : s.exists dirExists (.distroot u) = true) :
    dirExists (.distroot u) = true := by
  rw [Layers.exists, Bool.or_eq_true, decide_eq_true_eq] at h
  refine h.resolve_right fun hcopy => ?_
  obtain ⟨v, hv, -⟩ := hs.copied _ hcopy
  cases hv

theorem Layers.Stack.copy (hs : s.Stack bs metapackage dirExists host base part) {dep : BuildKey}
    (h : setupDistrootDirCopy dirExists s dep = .ok s') :
    s'.Stack bs metapackage dirExists host base part := by
  rcases setupDistrootDirCopy_cases h with rfl | ⟨hsrc, rfl⟩
  · exact hs
  · refine { hs with found := fun u hu => ?_, copied := fun d hd => ?_ }
    · have hfound := hs.found u hu
      simp only [Layers.exists, Bool.or_eq_true, decide_eq_true_eq, List.mem_cons] at hfound ⊢
      exact hfound.imp_right .inr
    · rcases List.mem_cons.1 hd with rfl | hd
      · exact ⟨dep, rfl, hs.dirExists_distroot hsrc⟩
      · exact hs.copied d hd

/-- The directory that is added does not depend on what has been put on top. -/
theorem layerDir_stack {dep : BuildKey} {dir : LayerDir}
    (hs : s.Stack bs metapackage dirExists host base part)
    (h : layerDir metapackage dirExists host s dep = .ok (s', dir)) :
    dir = partDir host base dep ∧ s'.Stack bs metapackage dirExists host base part := by
  unfold layerDir at h
  cases host with
  | false =>
    cases h
    exact ⟨rfl, hs⟩
  | true =>
    have hout : .out dep ∈ s.dirs ↔ .out dep ∈ base := by
      rw [hs.dirs, List.mem_append, or_iff_left (out_notMem_map_partDir base part dep)]
    rw [if_pos rfl] at h
    split_ifs at h with hcopy
    · simp only [Bool.and_eq_true, decide_eq_true_eq, hout] at hcopy
      obtain ⟨-, -, h⟩ := Machine.bind_eq_ok.1 h
      obtain ⟨s₁, hset, h⟩ := Machine.bind_eq_ok.1 h
      cases h
      exact ⟨by simp [partDir, hcopy.2], hs.copy hset⟩
    · have hbase : .out dep ∉ base := fun hmem =>
        hcopy (by simp [hs.base_eq dep hmem, hout, hmem])
      obtain ⟨-, -, h⟩ := Machine.bind_eq_ok.1 h
      cases h
      exact ⟨by simp [partDir, hbase], hs⟩

theorem Layers.Stack.seen_out_cons (hs : s.Stack bs metapackage dirExists host base part)
    (dep : BuildKey) :
    host = false → ∀ d ∈ partDir host base dep :: s.seen, ∃ u, d = .out u := by
  rintro rfl d hd
  rcases List.mem_cons.1 hd with rfl | hd
  · exact ⟨dep, rfl⟩
  · exact hs.seen_out rfl d hd

theorem addDir_adds {dep : BuildKey} (hs : s.Stack bs metapackage dirExists host base part)
    (hbelow : ∀ v, metapackage v.1 = false → Relation.TransGen bs.graph.Transitive dep v →
      v ∈ part)
    (h : addDir metapackage dirExists s dep (partDir host base dep) = .ok s') :
    s'.Adds bs metapackage dirExists host base (fun u => metapackage u.1 = false ∧ u = dep)
      part := by
  unfold addDir at h
  split_ifs at h with hseen hmeta
  · cases h
    refine ⟨part, hs, List.prefix_rfl, fun v => (or_iff_left_of_imp ?_).symm⟩
    rintro ⟨hv, rfl⟩
    exact (hs.seen_iff v hv).1 hseen
  · cases h
    refine ⟨part, { hs with seen_iff := fun u hu => ?_, seen_out := hs.seen_out_cons dep },
      List.prefix_rfl, fun v => (or_iff_left_of_imp ?_).symm⟩
    · rw [List.mem_cons, hs.seen_iff u hu, or_iff_right]
      intro heq
      rw [partDir_injective host base heq, hmeta] at hu
      cases hu
    · rintro ⟨hv, rfl⟩
      rw [hmeta] at hv; cases hv
  · unfold checkDepDirExist at h
    split_ifs at h with hexists <;> cases h
    have hmeta' : metapackage dep.1 = false := by simpa using hmeta
    have hnew : dep ∉ part := fun hmem => hseen ((hs.seen_iff dep hmeta').2 hmem)
    refine ⟨part ++ [dep], ⟨?_, ?_, ?_, hs.base_eq, fun u hu => ?_, hs.seen_out_cons dep, ?_, ?_,
      hs.copied⟩, List.prefix_append _ _, fun v => ?_⟩
    · rw [hs.dirs, List.map_append, List.append_assoc]
      rfl
    · exact List.nodup_append.2 ⟨hs.nodup, List.nodup_singleton dep, by
        rintro u hu v hv rfl
        exact hnew (List.mem_singleton.1 hv ▸ hu)⟩
    · intro u hu
      rcases List.mem_append.1 hu with hu | hu
      · exact hs.metapackage_eq u hu
      · rwa [List.mem_singleton.1 hu]
    · rw [List.mem_cons, hs.seen_iff u hu, List.mem_append, List.mem_singleton, or_comm]
      exact or_congr_right (partDir_injective host base).eq_iff
    · -- what is below the new build is in `part`, and what was there has its own below it
      have hsorted : Sorted (fun u v => metapackage v.1 = false ∧
          Relation.TransGen bs.graph.Transitive u v) (part ++ [dep]) :=
        Sorted.concat (fun l₁ u l₂ hl v hv => hs.above l₁ u l₂ hl v hv.1 hv.2)
          fun v hv => hbelow v hv.1 hv.2
      exact fun l₁ u l₂ hl v hv huv => hsorted l₁ u l₂ hl v ⟨hv, huv⟩
    · intro u hu
      rcases List.mem_append.1 hu with hu | hu
      · exact hs.found u hu
      · have hfound : s.exists dirExists (partDir host base dep) = true := by
          simpa [hmeta'] using hexists
        rwa [List.mem_singleton.1 hu]
    · rw [List.mem_append, List.mem_singleton]
      exact or_congr_right ⟨fun hv => ⟨hv ▸ hmeta', hv⟩, fun hv => hv.2⟩

theorem visitLayer_succ_eq_ok {n : ℕ} {dep : BuildKey}
    (h : visitLayer bs metapackage dirExists host (n + 1) s dep = .ok s') :
    ∃ s₀ dir s₁, layerDir metapackage dirExists host s dep = .ok (s₀, dir) ∧
      (bs.build dep).deps.foldlM (fun s e => if "transitive".toList ∈ e.2 then
        visitLayer bs metapackage dirExists host n s e.1 else .ok s) s₀ = .ok s₁ ∧
      addDir metapackage dirExists s₁ dep dir = .ok s' := by
  rw [visitLayer] at h
  obtain ⟨⟨s₀, dir⟩, hdir, h⟩ := Machine.bind_eq_ok.1 h
  obtain ⟨s₁, hloop, h⟩ := Machine.bind_eq_ok.1 h
  exact ⟨s₀, dir, s₁, hdir, hloop, h⟩

/-- Visiting `dep` adds it and what it needs transitively. -/
theorem visitLayer_adds {n : ℕ} {dep : BuildKey}
    (hs : s.Stack bs metapackage dirExists host base part)
    (h : visitLayer bs metapackage dirExists host n s dep = .ok s') :
    s'.Adds bs metapackage dirExists host base
      (fun u => metapackage u.1 = false ∧ Relation.ReflTransGen bs.graph.Transitive dep u)
      part := by
  induction n generalizing s s' dep part with
  | zero => cases h
  | succ n ih =>
    obtain ⟨s₀, dir, s₁, hdir, hloop, h⟩ := visitLayer_succ_eq_ok h
    obtain ⟨rfl, hs₀⟩ := layerDir_stack hs hdir
    obtain ⟨part₁, hs₁, hpre₁, hmem₁⟩ : s₁.Adds bs metapackage dirExists host base
        (fun u => ∃ e ∈ (bs.build dep).deps, "transitive".toList ∈ e.2 ∧
          metapackage u.1 = false ∧ Relation.ReflTransGen bs.graph.Transitive e.1 u) part := by
      refine foldlM_adds (fun s s' e part hs he => ?_) hs₀ hloop
      split_ifs at he with htag
      · simpa only [htag, true_and] using ih hs he
      · cases he
        exact ⟨part, hs, List.prefix_rfl, fun u => (or_iff_left fun hu => htag hu.1).symm⟩
    have hbelow : ∀ v, metapackage v.1 = false →
        Relation.TransGen bs.graph.Transitive dep v → v ∈ part₁ := by
      intro v hv hdv
      obtain ⟨d, ⟨e, he, htag, rfl⟩, hreach⟩ := Relation.TransGen.head'_iff.1 hdv
      exact (hmem₁ v).2 (.inr ⟨e, he, htag, hv, hreach⟩)
    obtain ⟨part₂, hs₂, hpre₂, hmem₂⟩ := addDir_adds hs₁ hbelow h
    refine ⟨part₂, hs₂, hpre₁.trans hpre₂, fun u => ?_⟩
    rw [hmem₂, hmem₁, or_assoc]
    refine or_congr_right ?_
    beta_reduce
    rw [Relation.ReflTransGen.cases_head_iff]
    constructor
    · rintro (⟨e, he, htag, hmeta, hreach⟩ | ⟨hmeta, rfl⟩)
      · exact ⟨hmeta, .inr ⟨e.1, ⟨e, he, htag, rfl⟩, hreach⟩⟩
      · exact ⟨hmeta, .inl rfl⟩
    · rintro ⟨hmeta, rfl | ⟨d, ⟨e, he, htag, rfl⟩, hreach⟩⟩
      · exact .inr ⟨hmeta, rfl⟩
      · exact .inl ⟨e, he, htag, hmeta, hreach⟩

theorem Layers.Stack.above_map (hs : s.Stack bs metapackage dirExists host base part)
    {l₁ l₂ : List LayerDir} {d : LayerDir} (hl : part.map (partDir host base) = l₁ ++ d :: l₂)
    {v : BuildKey} (hv : metapackage v.1 = false)
    (hreach : Relation.TransGen bs.graph.Transitive d.build v) :
    v ∈ l₁.map LayerDir.build := by
  obtain ⟨m₁, m, hpart, rfl, hm⟩ := List.map_eq_append_iff.1 hl
  obtain ⟨u, m₂, rfl, rfl, -⟩ := List.map_eq_cons_iff.1 hm
  rw [build_partDir] at hreach
  rw [map_build_partDir]
  exact hs.above m₁ u m₂ hpart v hv hreach

/-- A directory of the stack was there at first or is a copy of one that was. -/
theorem Layers.Stack.dirExists_or_copy (hs : s.Stack bs metapackage dirExists host base part)
    {d : LayerDir} (hd : d ∈ part.map (partDir host base)) :
    dirExists d = true ∨ ∃ u, d = .distrootCopy u ∧ dirExists (.distroot u) = true := by
  obtain ⟨u, hu, rfl⟩ := List.mem_map.1 hd
  have hfound := hs.found u hu
  rw [Layers.exists, Bool.or_eq_true, decide_eq_true_eq] at hfound
  exact hfound.imp_right (hs.copied _)

end Adds

/-! ### The two parts -/

theorem depLayers_eq_ok {n : ℕ} {b : BuildKey} {s s' : Layers}
    (h : depLayers bs metapackage dirExists n b = .ok (s, s')) :
    (bs.build b).deps.foldlM
        (fun s e => visitLayer bs metapackage dirExists false n s e.1) {} = .ok s ∧
      (bs.build b).hostdeps.foldlM
        (fun s e => visitLayer bs metapackage dirExists true n s e.1) s = .ok s' := by
  rw [depLayers] at h
  obtain ⟨s₁, hdeps, h⟩ := Machine.bind_eq_ok.1 h
  obtain ⟨s₂, hhost, h⟩ := Machine.bind_eq_ok.1 h
  cases h
  exact ⟨hdeps, hhost⟩

/-- What the loops of `depLayerDirs` leave: the `DEPENDS` part, and on top of it the host part. -/
theorem depLayers_stack {n : ℕ} {b : BuildKey} {s s' : Layers}
    (h : depLayers bs metapackage dirExists n b = .ok (s, s')) : ∃ depPart hostPart,
      s.Stack bs metapackage dirExists false [] depPart ∧
      s'.Stack bs metapackage dirExists true s.dirs hostPart ∧
      (∀ u, u ∈ depPart ↔ ∃ e ∈ (bs.build b).deps, metapackage u.1 = false ∧
        Relation.ReflTransGen bs.graph.Transitive e.1 u) ∧
      ∀ u, u ∈ hostPart ↔ ∃ e ∈ (bs.build b).hostdeps, metapackage u.1 = false ∧
        Relation.ReflTransGen bs.graph.Transitive e.1 u := by
  obtain ⟨hdeps, hhost⟩ := depLayers_eq_ok h
  obtain ⟨depPart, hs, -, hmem⟩ := foldlM_adds (fun s s' e part hs he => visitLayer_adds hs he)
    (Layers.Stack.empty bs metapackage dirExists) hdeps
  have hbase : Layers.Stack bs metapackage dirExists true s.dirs s [] := by
    refine ⟨by simp, List.nodup_nil, by simp, fun u hu => ?_, fun u hu => ?_, by simp, by simp,
      by simp, hs.copied⟩
    · rw [hs.dirs, List.nil_append] at hu
      obtain ⟨v, hv, heq⟩ := List.mem_map.1 hu
      cases heq
      exact hs.metapackage_eq _ hv
    · -- the first loop has only seen `out` directories
      refine ⟨fun hseen => ?_, fun hu => by cases hu⟩
      obtain ⟨v, hv⟩ := hs.seen_out rfl _ hseen
      exact absurd (hv ▸ List.mem_map_of_mem (List.mem_singleton_self u))
        (out_notMem_map_partDir s.dirs [u] v)
  obtain ⟨hostPart, hs', -, hmem'⟩ := foldlM_adds
    (fun s s' e part hs he => visitLayer_adds hs he) hbase hhost
  exact ⟨depPart, hostPart, hs, hs', by simpa using hmem, by simpa using hmem'⟩

theorem depLayerDirs_eq_ok {n : ℕ} {b : BuildKey} {dirs : List LayerDir}
    (h : depLayerDirs bs metapackage dirExists n b = .ok dirs) : ∃ s s' depPart hostPart,
      depLayers bs metapackage dirExists n b = .ok (s, s') ∧
      s.Stack bs metapackage dirExists false [] depPart ∧
      s'.Stack bs metapackage dirExists true (depPart.map .out) hostPart ∧
      dirs = hostPart.map (partDir true (depPart.map .out)) ++ depPart.map .out ∧
      (∀ u, u ∈ depPart ↔ ∃ e ∈ (bs.build b).deps, metapackage u.1 = false ∧
        Relation.ReflTransGen bs.graph.Transitive e.1 u) ∧
      ∀ u, u ∈ hostPart ↔ ∃ e ∈ (bs.build b).hostdeps, metapackage u.1 = false ∧
        Relation.ReflTransGen bs.graph.Transitive e.1 u := by
  unfold depLayerDirs at h
  cases hlayers : depLayers bs metapackage dirExists n b with
  | error e => rw [hlayers] at h; cases h
  | ok r =>
    obtain ⟨s, s'⟩ := r
    rw [hlayers] at h
    cases h
    obtain ⟨depPart, hostPart, hs, hs', hmem, hmem'⟩ := depLayers_stack hlayers
    have hdirs : s.dirs = depPart.map .out := hs.dirs
    rw [hdirs] at hs'
    refine ⟨s, s', depPart, hostPart, rfl, hs, hs', ?_, hmem, hmem'⟩
    dsimp only
    rw [hs'.dirs, hdirs, List.drop_left, List.take_left]

/-- **Whose output is in the sandbox**: packages with an output that are direct dependencies, or
needed transitively by one. -/
theorem mem_depLayerDirs_iff {n : ℕ} {b : BuildKey} {dirs : List LayerDir}
    (h : depLayerDirs bs metapackage dirExists n b = .ok dirs) (u : BuildKey) :
    u ∈ dirs.map LayerDir.build ↔ metapackage u.1 = false ∧ bs.graph.Below b u := by
  obtain ⟨s, s', depPart, hostPart, -, -, -, rfl, hmem, hmem'⟩ := depLayerDirs_eq_ok h
  have hdeps : (depPart.map LayerDir.out).map LayerDir.build = depPart :=
    map_build_partDir false [] depPart
  rw [List.map_append, map_build_partDir, hdeps, List.mem_append, hmem, hmem']
  simp only [DepGraph.Below, DepGraph.Layer, Builds.graph, List.mem_map]
  constructor
  · rintro (⟨e, he, hmeta, hreach⟩ | ⟨e, he, hmeta, hreach⟩)
    · exact ⟨hmeta, e.1, .inr ⟨e, he, rfl⟩, hreach⟩
    · exact ⟨hmeta, e.1, .inl ⟨e, he, rfl⟩, hreach⟩
  · rintro ⟨hmeta, d, ⟨e, he, rfl⟩ | ⟨e, he, rfl⟩, hreach⟩
    · exact .inr ⟨e, he, hmeta, hreach⟩
    · exact .inl ⟨e, he, hmeta, hreach⟩

/-- **The stack of layers**, from bottom to top.  There are no duplicates.  At the bottom is the
host part and on top the `DEPENDS` part; these have the directories of exactly the packages that are
needed, each above everything it needs transitively.  No directory is inside another one of the
stack, and all of them exist. -/
theorem depLayerDirs_stack (bs : Builds) (metapackage : PkgName → Bool)
    (dirExists : LayerDir → Bool) (n : ℕ) (b : BuildKey) (dirs : List LayerDir)
    (h : depLayerDirs bs metapackage dirExists n b = .ok dirs) :
    dirs.Nodup ∧ ∃ hostPart depPart, dirs = hostPart ++ depPart ∧
      (∀ d, d ∈ depPart ↔ ∃ u, d = .out u ∧ metapackage u.1 = false ∧
        ∃ e ∈ (bs.build b).deps, Relation.ReflTransGen bs.graph.Transitive e.1 u) ∧
      (∀ d, d ∈ hostPart ↔ ∃ u, d = (if .out u ∈ depPart then .distrootCopy u else .distroot u) ∧
        metapackage u.1 = false ∧
        ∃ e ∈ (bs.build b).hostdeps, Relation.ReflTransGen bs.graph.Transitive e.1 u) ∧
      (∀ u, ¬ (.out u ∈ dirs ∧ .distroot u ∈ dirs)) ∧
      (∀ part ∈ [hostPart, depPart], ∀ l₁ d l₂, part = l₁ ++ d :: l₂ →
        ∀ v, metapackage v.1 = false → Relation.TransGen bs.graph.Transitive d.build v →
          v ∈ l₁.map LayerDir.build) ∧
      ∀ d ∈ dirs, dirExists d = true ∨
        ∃ u, d = .distrootCopy u ∧ dirExists (.distroot u) = true := by
  obtain ⟨s, s', depPart, hostPart, -, hs, hs', rfl, hmem, hmem'⟩ := depLayerDirs_eq_ok h
  have hhost : ∀ u, .out u ∉ hostPart.map (partDir true (depPart.map .out)) :=
    out_notMem_map_partDir _ _
  have hdep : ∀ u, .distroot u ∉ depPart.map LayerDir.out := by simp
  refine ⟨?_, _, _, rfl, fun d => ?_, fun d => ?_, ?_, ?_, ?_⟩
  · refine List.nodup_append.2 ⟨hs'.nodup.map (partDir_injective _ _),
      hs.nodup.map (partDir_injective false []), ?_⟩
    rintro d hd d' hd' rfl
    obtain ⟨u, -, rfl⟩ := List.mem_map.1 hd'
    exact hhost u hd
  · simp only [List.mem_map, hmem]
    exact ⟨fun ⟨u, ⟨e, he, hu, hreach⟩, hd⟩ => ⟨u, hd.symm, hu, e, he, hreach⟩,
      fun ⟨u, hd, hu, e, he, hreach⟩ => ⟨u, ⟨e, he, hu, hreach⟩, hd.symm⟩⟩
  · simp only [List.mem_map (f := partDir _ _), hmem']
    exact ⟨fun ⟨u, ⟨e, he, hu, hreach⟩, hd⟩ => ⟨u, hd.symm, hu, e, he, hreach⟩,
      fun ⟨u, hd, hu, e, he, hreach⟩ => ⟨u, ⟨e, he, hu, hreach⟩, hd.symm⟩⟩
  · rintro u ⟨hout, hroot⟩
    have hout := (List.mem_append.1 hout).resolve_left (hhost u)
    obtain ⟨v, -, hv⟩ := List.mem_map.1 ((List.mem_append.1 hroot).resolve_right (hdep u))
    rw [partDir, if_pos rfl] at hv
    split_ifs at hv with hcopy
    cases hv
    exact hcopy hout
  · intro part hpart l₁ d l₂ hl v hv hreach
    rcases List.mem_cons.1 hpart with rfl | hpart
    · exact hs'.above_map hl hv hreach
    · cases List.mem_singleton.1 hpart
      exact hs.above_map hl hv hreach
  · intro d hd
    rcases List.mem_append.1 hd with hd | hd
    · exact hs'.dirExists_or_copy hd
    · exact hs.dirExists_or_copy hd

/-- An application and a tool to build it that need the same library. -/
def stackBuilds : Builds where
  processed := [
    (("app".toList, .x86_64),
      { deps := [(("lib".toList, .x86_64), [])], hostdeps := [(("tool".toList, .x86_64), [])] }),
    (("tool".toList, .x86_64), { deps := [(("lib".toList, .x86_64), ["transitive".toList])] })]
  buildlist := [("lib".toList, .x86_64), ("tool".toList, .x86_64), ("app".toList, .x86_64)]

theorem depLayerDirs_stackBuilds :
    depLayerDirs stackBuilds (fun _ => false) (fun _ => true) 3 ("app".toList, .x86_64) =
      .ok [.distrootCopy ("lib".toList, .x86_64), .distroot ("tool".toList, .x86_64),
        .out ("lib".toList, .x86_64)] ∧
    ([.distrootCopy ("lib".toList, .x86_64), .distroot ("tool".toList, .x86_64),
      .out ("lib".toList, .x86_64)] : List LayerDir).Nodup :=
  ⟨rfl, (depLayerDirs_stack stackBuilds (fun _ => false) (fun _ => true) 3
    ("app".toList, .x86_64) _ rfl).1⟩

/-! ### What exists does not decide the layers -/

/-- The same directories have been found. -/
def Layers.Same (s t : Layers) : Prop := s.dirs = t.dirs ∧ s.seen = t.seen

section Same

variable {dirExists' : LayerDir → Bool} {s s' t t' : Layers}

theorem foldlM_same {ι : Type} {f g : Layers → ι → Except LayerError Layers}
    (hfg : ∀ {s s' t t' i}, s.Same t → f s i = .ok s' → g t i = .ok t' → s'.Same t')
    {l : List ι} (hst : s.Same t) (hs : l.foldlM f s = .ok s') (ht : l.foldlM g t = .ok t') :
    s'.Same t' := by
  induction l generalizing s t with
  | nil =>
    cases hs
    cases ht
    exact hst
  | cons i l ih =>
    rw [List.foldlM_cons] at hs ht
    obtain ⟨s₁, hi, hs⟩ := Machine.bind_eq_ok.1 hs
    obtain ⟨t₁, hi', ht⟩ := Machine.bind_eq_ok.1 ht
    exact ih (hfg hst hi hi') hs ht

theorem layerDir_dir {host : Bool} {dep : BuildKey} {dir : LayerDir}
    (h : layerDir metapackage dirExists host s dep = .ok (s', dir)) :
    s'.Same s ∧ dir = if host then
      if !metapackage dep.1 && decide (.out dep ∈ s.dirs) then .distrootCopy dep
      else .distroot dep
      else .out dep := by
  unfold layerDir at h
  split_ifs at h ⊢
  · obtain ⟨-, -, h⟩ := Machine.bind_eq_ok.1 h
    obtain ⟨s₁, hset, h⟩ := Machine.bind_eq_ok.1 h
    cases h
    rcases setupDistrootDirCopy_cases hset with rfl | ⟨-, rfl⟩
    · exact ⟨⟨rfl, rfl⟩, rfl⟩
    · exact ⟨⟨rfl, rfl⟩, rfl⟩
  · obtain ⟨-, -, h⟩ := Machine.bind_eq_ok.1 h
    cases h
    exact ⟨⟨rfl, rfl⟩, rfl⟩
  · cases h
    exact ⟨⟨rfl, rfl⟩, rfl⟩

theorem addDir_same {dep : BuildKey} {dir : LayerDir} (hst : s.Same t)
    (hs : addDir metapackage dirExists s dep dir = .ok s')
    (ht : addDir metapackage dirExists' t dep dir = .ok t') : s'.Same t' := by
  unfold addDir checkDepDirExist at hs ht
  rw [hst.2] at hs
  split_ifs at hs ht <;> cases hs <;> cases ht
  · exact hst
  · exact ⟨hst.1, rfl⟩
  · exact ⟨congrArg (· ++ [dir]) hst.1, rfl⟩

theorem visitLayer_same {host : Bool} {n : ℕ} {dep : BuildKey} (hst : s.Same t)
    (hs : visitLayer bs metapackage dirExists host n s dep = .ok s')
    (ht : visitLayer bs metapackage dirExists' host n t dep = .ok t') : s'.Same t' := by
  induction n generalizing s s' t t' dep with
  | zero => cases hs
  | succ n ih =>
    obtain ⟨s₀, dir, s₁, hds, hls, hs⟩ := visitLayer_succ_eq_ok hs
    obtain ⟨t₀, dir', t₁, hdt, hlt, ht⟩ := visitLayer_succ_eq_ok ht
    obtain ⟨hs₀, rfl⟩ := layerDir_dir hds
    obtain ⟨ht₀, rfl⟩ := layerDir_dir hdt
    have h₀ : s₀.Same t₀ :=
      ⟨hs₀.1.trans (hst.1.trans ht₀.1.symm), hs₀.2.trans (hst.2.trans ht₀.2.symm)⟩
    rw [← hst.1] at ht
    refine addDir_same (foldlM_same ?_ h₀ hls hlt) hs ht
    intro s s' t t' e hst hs ht
    split_ifs at hs ht
    · exact ih hst hs ht
    · cases hs
      cases ht
      exact hst

/-- Two runs of `depLayerDirs` that return find the same directories. -/
theorem depLayerDirs_unique {n : ℕ} {b : BuildKey} {dirs dirs' : List LayerDir}
    (h : depLayerDirs bs metapackage dirExists n b = .ok dirs)
    (h' : depLayerDirs bs metapackage dirExists' n b = .ok dirs') : dirs = dirs' := by
  unfold depLayerDirs at h h'
  cases hl : depLayers bs metapackage dirExists n b with
  | error e => rw [hl] at h; cases h
  | ok r =>
    cases hl' : depLayers bs metapackage dirExists' n b with
    | error e => rw [hl'] at h'; cases h'
    | ok r' =>
      rw [hl] at h
      rw [hl'] at h'
      cases h
      cases h'
      obtain ⟨hdeps, hhost⟩ := depLayers_eq_ok hl
      obtain ⟨hdeps', hhost'⟩ := depLayers_eq_ok hl'
      have hsame : r.1.Same r'.1 := by
        refine foldlM_same ?_ ⟨rfl, rfl⟩ hdeps hdeps'
        exact visitLayer_same
      have hsame' : r.2.Same r'.2 := by
        refine foldlM_same ?_ hsame hhost hhost'
        exact visitLayer_same
      dsimp only
      rw [hsame.1, hsame'.1]

end Same

/-! ### Termination -/

theorem foldlM_ne_recursion {ι : Type} {f : Layers → ι → Except LayerError Layers} {l : List ι}
    (hf : ∀ s, ∀ i ∈ l, f s i ≠ .error .recursion) (s : Layers) :
    l.foldlM f s ≠ .error .recursion := by
  induction l generalizing s with
  | nil => intro h; cases h
  | cons i l ih =>
    intro h
    rw [List.foldlM_cons] at h
    rcases Machine.bind_eq_error.1 h with hi | ⟨s₁, -, h⟩
    · exact hf s i List.mem_cons_self hi
    · exact ih (fun s j hj => hf s j (.tail _ hj)) s₁ h

theorem checkDepDirExist_ne_recursion (s : Layers) (dep : BuildKey) (dir : LayerDir) :
    checkDepDirExist metapackage dirExists s dep dir ≠ .error .recursion := by
  unfold checkDepDirExist
  intro h
  split_ifs at h
  cases h

theorem layerDir_ne_recursion (host : Bool) (s : Layers) (dep : BuildKey) :
    layerDir metapackage dirExists host s dep ≠ .error .recursion := by
  have hset : setupDistrootDirCopy dirExists s dep ≠ .error .recursion := by
    unfold setupDistrootDirCopy
    intro h
    split_ifs at h
    cases h
  unfold layerDir
  intro h
  split_ifs at h
  · rcases Machine.bind_eq_error.1 h with h | ⟨-, -, h⟩
    · exact checkDepDirExist_ne_recursion s dep _ h
    · rcases Machine.bind_eq_error.1 h with h | ⟨s₁, -, h⟩
      · exact hset h
      · cases h
  · rcases Machine.bind_eq_error.1 h with h | ⟨-, -, h⟩
    · exact checkDepDirExist_ne_recursion s dep _ h
    · cases h

theorem addDir_ne_recursion (s : Layers) (dep : BuildKey) (dir : LayerDir) :
    addDir metapackage dirExists s dep dir ≠ .error .recursion := by
  unfold addDir
  intro h
  split_ifs at h
  rcases Machine.bind_eq_error.1 h with h | ⟨-, -, h⟩
  · exact checkDepDirExist_ne_recursion s dep _ h
  · cases h

theorem visitLayer_ne_recursion (ho : bs.Ordered) {host : Bool} {n : ℕ} {dep : BuildKey}
    (hdep : dep ∈ bs.buildlist) (hn : bs.buildlist.idxOf dep < n) (s : Layers) :
    visitLayer bs metapackage dirExists host n s dep ≠ .error .recursion := by
  induction n generalizing s dep with
  | zero => exact absurd hn (Nat.not_lt_zero _)
  | succ n ih =>
    intro h
    rw [visitLayer] at h
    rcases Machine.bind_eq_error.1 h with hdir | ⟨⟨s₀, dir⟩, -, h⟩
    · exact layerDir_ne_recursion host s dep hdir
    rcases Machine.bind_eq_error.1 h with hloop | ⟨s₁, -, h⟩
    · refine foldlM_ne_recursion (fun s e he hrec => ?_) s₀ hloop
      split_ifs at hrec with htag
      have hd : bs.Dep dep e.1 := dep_of_layer (DepGraph.Transitive.layer ⟨e, he, htag, rfl⟩)
      obtain ⟨hmem, hlt⟩ := ho.idxOf_lt hdep hd
      exact ih hmem (Nat.lt_of_lt_of_le hlt (Nat.le_of_lt_succ hn)) s hrec
    · exact addDir_ne_recursion s₁ dep dir h

/-- **`depLayerDirs` ends**: on an ordered build list it fails only for want of an output. -/
theorem depLayerDirs_ne_recursion (ho : bs.Ordered) {b : BuildKey} (hb : b ∈ bs.buildlist) :
    depLayerDirs bs metapackage dirExists bs.buildlist.length b ≠ .error .recursion := by
  have hvisit : ∀ host s d, bs.Dep b d →
      visitLayer bs metapackage dirExists host bs.buildlist.length s d ≠ .error .recursion := by
    intro host s d hd
    have hmem := (ho.idxOf_lt hb hd).1
    exact visitLayer_ne_recursion ho hmem (List.idxOf_lt_length_of_mem hmem) s
  intro h
  unfold depLayerDirs depLayers at h
  cases hdeps : (bs.build b).deps.foldlM (fun s e =>
      visitLayer bs metapackage dirExists false bs.buildlist.length s e.1) {} with
  | error e =>
    rw [hdeps] at h
    cases h
    refine foldlM_ne_recursion (fun s e he => hvisit false s e.1 ?_) _ hdeps
    exact dep_of_layer (.inl (List.mem_map.2 ⟨e, he, rfl⟩))
  | ok s =>
    rw [hdeps] at h
    change Except.map _ (Except.bind (List.foldlM _ s _) _) = _ at h
    cases hhost : (bs.build b).hostdeps.foldlM (fun s e =>
        visitLayer bs metapackage dirExists true bs.buildlist.length s e.1) s with
    | error e =>
      rw [hhost] at h
      cases h
      refine foldlM_ne_recursion (fun s e he => hvisit true s e.1 ?_) _ hhost
      exact dep_of_layer (.inr (List.mem_map.2 ⟨e, he, rfl⟩))
    | ok s' => rw [hhost] at h; cases h

end Pbuild
