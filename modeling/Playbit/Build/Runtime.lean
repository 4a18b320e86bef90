import Playbit.Graph.Closure
import Playbit.Machine.Run
import Playbit.Build.Layers
import Playbit.Build.Stamp
import Playbit.Build.Verdict
import Playbit.Package.Cycles
import Playbit.Package.Recorded

/-!
# What a package needs at run time

A package needs the packages of its `DEPENDS` entries tagged `transitive` to run, and what these
need.  pbuild computes this closure in three places: `tansitive_deps` for what is to be installed,
`depLayerDirs` for what is in a sandbox, and `list_deps` for what is shown.  The first two walk the
builds and the last one walks the packages.

What the first of them lists, and in which order, is `tansitiveDeps_spec`.  In a native graph the
three agree, apart from metapackages (`runtime_closures_agree`).
-/

namespace Pbuild

open Python DepthFirst

/-! ### Builds -/

/-- The builds of the `DEPENDS` entries tagged `transitive`. -/
def BuildDeps.transitiveDeps (d : BuildDeps) : List BuildKey :=
  (d.deps.filter fun e => decide ("transitive".toList ∈ e.2)).map Prod.fst

/-- `PkgBuild.tansitive_deps`.  The fuel bounds the depth of the recursion. -/
def tansitiveDeps (bs : Builds) (n : ℕ) (b : BuildKey) : Option (List BuildKey) :=
  (collect (fun k => (bs.build k).transitiveDeps) n b {}).map Trace.out

variable {bs : Builds} {b u v : BuildKey} {n : ℕ}

theorem mem_transitiveDeps : v ∈ (bs.build u).transitiveDeps ↔ bs.graph.Transitive u v := by
  simp only [BuildDeps.transitiveDeps, DepGraph.Transitive, Builds.graph, List.mem_map,
    List.mem_filter, decide_eq_true_eq, and_assoc]

theorem edge_transitiveDeps :
    Edge (fun k => (bs.build k).transitiveDeps) = bs.graph.Transitive := by
  funext u v
  exact propext mem_transitiveDeps

theorem dep_of_transitive (h : bs.graph.Transitive u v) : bs.Dep u v := dep_of_layer h.layer

/-- In an ordered list, a build comes after everything it reaches. -/
theorem Builds.Ordered.mem_of_transGen (ho : bs.Ordered) {l₁ l₂ : List BuildKey}
    (hl : bs.buildlist = l₁ ++ b :: l₂) (h : Relation.TransGen bs.Dep b u) : u ∈ l₁ := by
  induction h with
  | single hd => exact ho l₁ b l₂ hl _ hd
  | @tail k _ _ hd ih =>
    obtain ⟨m₁, m₂, rfl⟩ := List.append_of_mem ih
    have hl' : bs.buildlist = m₁ ++ k :: (m₂ ++ b :: l₂) := by rw [hl]; simp
    exact List.mem_append_left _ (ho m₁ k _ hl' _ hd)

theorem Builds.Ordered.mem_of_reach (ho : bs.Ordered) (hb : b ∈ bs.buildlist)
    (h : Relation.ReflTransGen bs.graph.Transitive b u) : u ∈ bs.buildlist := by
  induction h with
  | refl => exact hb
  | tail _ hstep ih => exact (ho.idxOf_lt ih (dep_of_transitive hstep)).1

theorem Builds.Ordered.acyclic (ho : bs.Ordered) (hb : b ∈ bs.buildlist)
    (h : Relation.ReflTransGen bs.graph.Transitive b u) :
    ¬ Relation.TransGen bs.graph.Transitive u u := by
  intro hcyc
  exact Builds.not_transGen_self (fun k hk d hd => ho.idxOf_lt hk hd) (ho.mem_of_reach hb h)
    (hcyc.lift id fun _ _ => dep_of_transitive)

/-- **What `tansitive_deps` lists**: the builds that are reached in at least one step, each after
those that it needs itself. -/
theorem tansitiveDeps_spec (ho : bs.Ordered) (hb : b ∈ bs.buildlist)
    (hn : bs.buildlist.length ≤ n) :
    ∃ deps, tansitiveDeps bs n b = some deps ∧
      (∀ u, u ∈ deps ↔ Relation.TransGen bs.graph.Transitive b u) ∧
      ∀ l₁ u l₂, deps = l₁ ++ u :: l₂ → ∀ v, bs.graph.Transitive u v → v ∈ l₁ := by
  obtain ⟨s, hs⟩ := exists_collect (fun k => (bs.build k).transitiveDeps)
    (S := (· ∈ bs.buildlist)) (fun k => bs.buildlist.idxOf k)
    (fun u v hu hv => ho.idxOf_lt hu (dep_of_transitive (mem_transitiveDeps.1 hv))) hb
    (Nat.lt_of_lt_of_le (List.idxOf_lt_length_of_mem hb) hn) {}
  have hacyc : ∀ u, Relation.ReflTransGen (Edge fun k => (bs.build k).transitiveDeps) b u →
      ¬ Relation.TransGen (Edge fun k => (bs.build k).transitiveDeps) u u := by
    rw [edge_transitiveDeps]
    exact fun u hu => ho.acyclic hb hu
  have hspec := collect_spec (P := fun _ => False) hacyc (fun _ _ h => h)
    (fun u hu => by cases hu) Sorted.nil hs
  rw [edge_transitiveDeps] at hspec
  refine ⟨s.out, by rw [tansitiveDeps, hs]; rfl, fun u => ?_, fun l₁ u l₂ hl v hv => ?_⟩
  · rw [hspec.out_iff]
    exact or_iff_right List.not_mem_nil
  · exact hspec.sorted l₁ u l₂ hl v (mem_transitiveDeps.2 hv)

/-! ### Packages -/

/-- The variables of `list_deps`. -/
structure Listing where
  deplist : List PkgName := []
  dependencyOf : Dict PkgName (List PkgName) := []
  buildtoolFor : Dict PkgName (List PkgName) := []

/-- `d.setdefault(dep, []).append(pkg)`. -/
def addUser (d : Dict PkgName (List PkgName)) (dep pkg : PkgName) : Dict PkgName (List PkgName) :=
  d.alter dep fun l => l.getD [] ++ [pkg]

/-- `visit` in `list_deps`.  The fuel bounds the depth of the recursion. -/
def visitListed (pkgs : PkgTable) (runtimeOnly2 : Bool) :
    ℕ → Bool → Listing → PkgName → Option Listing
  | 0, _, s, pkg => if pkg ∈ s.deplist then some s else none
  | n + 1, runtimeOnly, s, pkg =>
    let visit := visitListed pkgs runtimeOnly2 n runtimeOnly2
    if pkg ∈ s.deplist then some s
    else
      ((pkgs pkg).deps.foldlM (fun s d =>
        if !runtimeOnly || decide ("transitive".toList ∈ d.tags) then
          visit { s with dependencyOf := addUser s.dependencyOf d.pkg pkg } d.pkg
        else some s) s).bind fun s =>
      (if runtimeOnly then some s
        else (pkgs pkg).hostdeps.foldlM (fun s d =>
          visit { s with buildtoolFor := addUser s.buildtoolFor d.pkg pkg } d.pkg) s).bind fun s =>
      some { s with deplist := s.deplist ++ [pkg] }

/-- `runtime_only` and `runtime_only2`. -/
def runtimeFlags (what : Text) : Bool × Bool :=
  if what.head? = some 'a' then (false, false) else (decide (what.head? = some 'r'), true)

/-- Names as they are shown in one column. -/
def joinNames (names : List PkgName) : Text :=
  List.intercalate ", ".toList (names.insertionSort (· ≤ ·)).reverse

/-- What is printed for a package (just the name if `what` is `short`). -/
def listedRow (s : Listing) (pkg : PkgName) : PkgName × Text × Text :=
  (pkg, joinNames ((s.dependencyOf.get? pkg).getD []),
    joinNames ((s.buildtoolFor.get? pkg).getD []))

/-- `list_deps`: the rows that are printed. -/
def listDeps (pkgs : PkgTable) (n : ℕ) (topLevelPkgs : List PkgName) (what : Text) :
    Option (List (PkgName × Text × Text)) :=
  (topLevelPkgs.foldlM (visitListed pkgs (runtimeFlags what).2 n (runtimeFlags what).1) {}).map
    fun s => s.deplist.reverse.map (listedRow s)

/-- The packages of the entries tagged `transitive`. -/
def Pkg.transitiveDeps (p : Pkg) : List PkgName :=
  (p.deps.filter fun d => decide ("transitive".toList ∈ d.tags)).map PkgDep.pkg

/-- The packages that `visit` goes on to. -/
def Pkg.listed : Bool → Pkg → List PkgName
  | true, p => p.transitiveDeps
  | false, p => p.deps.map PkgDep.pkg ++ p.hostdeps.map PkgDep.pkg

section Listed

variable {pkgs : PkgTable} {runtimeOnly2 : Bool} {visit : Listing → PkgName → Option Listing}
  {f : List PkgName → PkgName → Option (List PkgName)}

/-- Who needs a package is recorded, but has no influence on the list. -/
theorem deplist_foldlM (hf : ∀ s w, (visit s w).map Listing.deplist = f s.deplist w)
    (cond : PkgDep → Bool) (record : Listing → PkgDep → Listing)
    (hrecord : ∀ s d, (record s d).deplist = s.deplist) (l : List PkgDep) (s : Listing) :
    (l.foldlM (fun s d => if cond d then visit (record s d) d.pkg else some s) s).map
        Listing.deplist =
      ((l.filter cond).map PkgDep.pkg).foldlM f s.deplist := by
  have hstep : ∀ (s : Listing) (d : PkgDep),
      (if cond d then visit (record s d) d.pkg else some s).map Listing.deplist =
        if cond d then f s.deplist d.pkg else some s.deplist := by
    intro s d
    split_ifs
    · rw [hf, hrecord]
    · rfl
  rw [Machine.map_foldlM (g := fun l d => if cond d then f l d.pkg else some l) hstep,
    List.foldlM_map, List.foldlM_filter]
  rfl

theorem deplist_visitListed_succ {n : ℕ}
    (hf : ∀ s w, (visitListed pkgs runtimeOnly2 n runtimeOnly2 s w).map Listing.deplist =
      f s.deplist w) (runtimeOnly : Bool) (s : Listing) (p : PkgName) :
    (visitListed pkgs runtimeOnly2 (n + 1) runtimeOnly s p).map Listing.deplist =
      if p ∈ s.deplist then some s.deplist
      else (((pkgs p).listed runtimeOnly).foldlM f s.deplist).map (· ++ [p]) := by
  rw [visitListed]
  by_cases hp : p ∈ s.deplist
  · rw [if_pos hp, if_pos hp]
    rfl
  rw [if_neg hp, if_neg hp]
  have hdeps := deplist_foldlM hf
    (fun d => !runtimeOnly || decide ("transitive".toList ∈ d.tags))
    (fun s d => { s with dependencyOf := addUser s.dependencyOf d.pkg p })
    (fun _ _ => rfl) (pkgs p).deps s
  generalize ((pkgs p).deps.foldlM (fun s d =>
    if !runtimeOnly || decide ("transitive".toList ∈ d.tags) then
      visitListed pkgs runtimeOnly2 n runtimeOnly2
        { s with dependencyOf := addUser s.dependencyOf d.pkg p } d.pkg
    else some s) s) = o at hdeps ⊢
  cases runtimeOnly with
  | true =>
    have hlisted : (pkgs p).listed true = ((pkgs p).deps.filter fun d =>
        !true || decide ("transitive".toList ∈ d.tags)).map PkgDep.pkg := rfl
    rw [hlisted, ← hdeps]
    cases o <;> rfl
  | false =>
    have hlisted : (pkgs p).listed false = ((pkgs p).deps.filter fun d =>
        !false || decide ("transitive".toList ∈ d.tags)).map PkgDep.pkg ++
          (pkgs p).hostdeps.map PkgDep.pkg := by
      simp [Pkg.listed]
    rw [hlisted, List.foldlM_append, ← hdeps]
    cases o with
    | none => rfl
    | some s₁ =>
      have htools := deplist_foldlM hf (fun _ => true)
        (fun s d => { s with buildtoolFor := addUser s.buildtoolFor d.pkg p })
        (fun _ _ => rfl) (pkgs p).hostdeps s₁
      rw [List.filter_true] at htools
      change _ = (((pkgs p).hostdeps.map PkgDep.pkg).foldlM f s₁.deplist).map (· ++ [p])
      rw [← htools]
      simp only [Option.bind_some, Bool.false_eq_true, if_false, if_true]
      cases (pkgs p).hostdeps.foldlM (fun s d => visitListed pkgs runtimeOnly2 n runtimeOnly2
        { s with buildtoolFor := addUser s.buildtoolFor d.pkg p } d.pkg) s₁ <;> rfl

theorem deplist_visitListed (pkgs : PkgTable) (runtimeOnly : Bool) (n : ℕ) (s : Listing)
    (p : PkgName) :
    (visitListed pkgs runtimeOnly n runtimeOnly s p).map Listing.deplist =
      postorder (fun p => (pkgs p).listed runtimeOnly) n p s.deplist := by
  induction n generalizing s p with
  | zero =>
    rw [visitListed, postorder]
    split_ifs <;> rfl
  | succ n ih =>
    rw [postorder, deplist_visitListed_succ
      (f := fun l w => postorder (fun p => (pkgs p).listed runtimeOnly) n w l) ih runtimeOnly s p]
    split_ifs <;> rfl

end Listed

/-! ### Native graphs -/

/-- Settings under which conditions are evaluated for `a` only, be it as the architecture of an
`ARCHDEPENDS` entry. -/
structure Ctx.OneArch (a : Arch) (c : Ctx) : Prop where
  arch : c.arch = a
  condArch : c.condArch = none ∨ c.condArch = some a
  archdepArchs : c.archdepArchs = [] ∨ c.archdepArchs = [a]

namespace Ctx.OneArch

variable {a : Arch} {c : Ctx}

theorem archs (h : Ctx.OneArch a c) : c.archs = [a] := by
  rcases h.archdepArchs with harchs | harchs
  · rcases h.condArch with hcond | hcond <;> simp [Ctx.archs, harchs, hcond, h.arch]
  · simp [Ctx.archs, harchs]

theorem buildtool (h : Ctx.OneArch a c) : Ctx.OneArch a (c.buildtool a a) :=
  ⟨rfl, .inr rfl, h.archdepArchs⟩

end Ctx.OneArch

/-- Every architecture that `ARCHDEPENDS` directives name is `a`. -/
def NativeOnly (src : Source) (a : Arch) : Prop :=
  ∀ p, ∀ m ∈ (src.directives p).archdepends, m.1 = a

section Native

variable {src : Source} {a : Arch} {tops : List PkgName} (hnative : NativeOnly src a)
include hnative

theorem oneArch_archdep {p : PkgName} {m : Arch × Dict Text ArchDepInfo}
    (hm : m ∈ (src.directives p).archdepends) :
    Ctx.OneArch a (.archdep ((src.directives p).archdepends.map Prod.fst) m.1) := by
  refine ⟨hnative p m hm, .inl rfl, .inr ?_⟩
  have hnodup := (src.directives p).archdepends_nodup
  have hall : ∀ x ∈ (src.directives p).archdepends.map Prod.fst, x = a := by
    intro x hx
    obtain ⟨m', hm', rfl⟩ := List.mem_map.1 hx
    exact hnative p m' hm'
  have hmem : m.1 ∈ (src.directives p).archdepends.map Prod.fst := List.mem_map.2 ⟨m, hm, rfl⟩
  show (src.directives p).archdepends.map Prod.fst = [a]
  rcases hl : (src.directives p).archdepends.map Prod.fst with - | ⟨x, - | ⟨y, l⟩⟩
  · rw [hl] at hmem
    cases hmem
  · rw [hall x (by simp [hl])]
  · -- two architectures are different ones
    rw [hl, List.nodup_cons] at hnodup
    rw [hall x (by simp [hl]), hall y (by simp [hl])] at hnodup
    exact absurd List.mem_cons_self hnodup.1

theorem oneArch_of_succs {p : PkgName} {c : Ctx} (hc : c.OneArch a) {x : PkgName × Ctx}
    (hx : some x ∈ succs src a a p c) : x.2.OneArch a := by
  simp only [succs, List.mem_append, List.mem_flatMap] at hx
  have hctx : ∀ {c' : Ctx} {o : Option PkgName}, some x = o.map (·, c') → x.2 = c' := by
    intro c' o ho
    obtain ⟨q, -, hq⟩ := Option.map_eq_some_iff.1 ho.symm
    rw [← hq]
  rcases hx with (hx | hx) | ⟨m, hm, hx⟩
  · obtain ⟨e, -, -, he⟩ := mem_entryEdges.1 hx
    exact hctx he ▸ hc
  · obtain ⟨e, -, -, he⟩ := mem_entryEdges.1 hx
    exact hctx he ▸ hc.buildtool
  · obtain ⟨e, -, -, he⟩ := mem_entryEdges.1 hx
    exact hctx he ▸ oneArch_archdep hnative hm

theorem oneArch_of_met {w : State PkgName Ctx} (hw : ResolutionWalk src a a tops w)
    {y : PkgName × Ctx} (hy : y ∈ w.met) : y.2.OneArch a := by
  rcases Walk.reached hw hy with hy | ⟨r, hr, -, hry⟩
  · cases hy
  · induction hry with
    | refl => exact (mem_topEdges.1 hr).2 ▸ ⟨rfl, .inl rfl, .inl rfl⟩
    | tail _ hlink ih => exact oneArch_of_succs hnative (ih hlink.1) hlink.2.2

/-- Resolution leaves the entries whose condition holds for the one architecture there is. -/
theorem condPasses_of_mem_deps (htops : ∀ p ∈ tops, p ∈ src.names) {t : PkgTable}
    (ht : resolveDeps src a a tops = .ok t) {p : PkgName} {d : PkgDep} (hd : d ∈ (t p).deps) :
    condPasses d.cond a = true := by
  obtain ⟨w, hw⟩ : ∃ w, ResolutionWalk src a a tops w := exists_resolutionWalk htops
  obtain ⟨hagree, -⟩ := agrees_of_resolveDeps_eq_ok htops hw ht
  by_cases hp : w.Met p
  · obtain ⟨c, hc⟩ := hp.exists
    have hattr : t p = resolvedPkg src a a p c :=
      hagree.done p c ((Walk.met_iff_done hw (p, c)).1 hc)
    rw [hattr, resolvedPkg_eq, mem_foldl_appendNew] at hd
    obtain ⟨x, hx, rfl⟩ := List.mem_map.1 (List.mem_of_find?_eq_some hd)
    obtain ⟨e, -, he⟩ := List.mem_filterMap.1 hx
    split_ifs at he with hkeep
    obtain ⟨q, -, rfl⟩ := Option.map_eq_some_iff.1 he
    rw [DepInfo.keep, (oneArch_of_met hnative hw hc).archs, keeps_singleton] at hkeep
    exact hkeep
  · have hfresh : t p = {} := hagree.fresh p hp
    rw [hfresh] at hd
    cases hd

end Native

/-! ### The closures -/

section Closures

variable {t : PkgTable} {a : Arch} {tops : List PkgName}

/-- In a native graph the builds need each other as their packages do. -/
theorem transitive_iff_of_native (hrb : ResolvedBuilds t a a tops bs)
    (hpass : ∀ p, ∀ d ∈ (t p).deps, condPasses d.cond a = true) {p : PkgName}
    (hp : (p, a) ∈ bs.buildlist) :
    bs.graph.Transitive (p, a) u ↔ u.2 = a ∧ u.1 ∈ (t p).transitiveDeps := by
  have hdeps : bs.graph (p, a) = buildDeps t a (p, a) := hrb.deps _ hp
  have hall : (t p).deps.filter (fun d => condPasses d.cond a) = (t p).deps :=
    List.filter_eq_self.2 (hpass p)
  simp only [DepGraph.Transitive, hdeps, buildDeps, hall, Pkg.transitiveDeps, List.mem_map,
    List.mem_filter, decide_eq_true_eq]
  constructor
  · rintro ⟨e, ⟨d, hd, rfl⟩, htag, rfl⟩
    exact ⟨rfl, d, ⟨hd, htag⟩, rfl⟩
  · rintro ⟨hu, d, ⟨hd, htag⟩, hdu⟩
    exact ⟨_, ⟨d, hd, rfl⟩, htag, Prod.ext hdu hu.symm⟩

theorem reach_iff_of_native (hrb : ResolvedBuilds t a a tops bs)
    (hpass : ∀ p, ∀ d ∈ (t p).deps, condPasses d.cond a = true) {p : PkgName}
    (hp : (p, a) ∈ bs.buildlist) :
    Relation.ReflTransGen bs.graph.Transitive (p, a) u ↔
      u.2 = a ∧ Relation.ReflTransGen (Edge fun p => (t p).transitiveDeps) p u.1 := by
  constructor
  · intro h
    -- an edge says what it does only for builds in the list, so membership is carried along
    have key : (u ∈ bs.buildlist ∧ u.2 = a) ∧
        Relation.ReflTransGen (Edge fun p => (t p).transitiveDeps) p u.1 := by
      induction h with
      | refl => exact ⟨⟨hp, rfl⟩, .refl⟩
      | @tail v w _ hstep ih =>
        obtain ⟨⟨hv, hva⟩, hreach⟩ := ih
        have hvk : v = (v.1, a) := Prod.ext rfl hva
        have hstep' := hstep
        rw [hvk] at hv hstep'
        obtain ⟨hwa, hmem⟩ := (transitive_iff_of_native hrb hpass hv).1 hstep'
        exact ⟨⟨hrb.mem_of_dep (hvk ▸ hv) (dep_of_transitive hstep), hwa⟩, hreach.tail hmem⟩
    exact ⟨key.1.2, key.2⟩
  · rintro ⟨hua, h⟩
    have key : ∀ q, Relation.ReflTransGen (Edge fun p => (t p).transitiveDeps) p q →
        (q, a) ∈ bs.buildlist ∧ Relation.ReflTransGen bs.graph.Transitive (p, a) (q, a) := by
      intro q hq
      induction hq with
      | refl => exact ⟨hp, .refl⟩
      | @tail v w _ hstep ih =>
        have htrans : bs.graph.Transitive (v, a) (w, a) :=
          (transitive_iff_of_native hrb hpass ih.1).2 ⟨rfl, hstep⟩
        exact ⟨hrb.mem_of_dep ih.1 (dep_of_transitive htrans), ih.2.tail htrans⟩
    have hu : u = (u.1, a) := Prod.ext rfl hua
    rw [hu]
    exact (key u.1 h).2

/-- What `list_deps` prints for the run-time dependencies of a package. -/
theorem listDeps_run (hrb : ResolvedBuilds t a a tops bs) (ho : bs.Ordered)
    (hpass : ∀ p, ∀ d ∈ (t p).deps, condPasses d.cond a = true) {p : PkgName}
    (hp : (p, a) ∈ bs.buildlist) (hn : bs.buildlist.length ≤ n) :
    ∃ rows, listDeps t n [p] "run".toList = some rows ∧
      ∀ q, q ∈ rows.map Prod.fst ↔
        Relation.ReflTransGen (Edge fun p => (t p).transitiveDeps) p q := by
  have hrank : ∀ u v, (u, a) ∈ bs.buildlist → v ∈ (t u).transitiveDeps → (v, a) ∈ bs.buildlist ∧
      bs.buildlist.idxOf (v, a) < bs.buildlist.idxOf (u, a) := by
    intro u v hu hv
    have htrans : bs.graph.Transitive (u, a) (v, a) :=
      (transitive_iff_of_native hrb hpass hu).2 ⟨rfl, hv⟩
    exact ho.idxOf_lt hu (dep_of_transitive htrans)
  obtain ⟨l, hl⟩ := exists_postorder (S := fun q => (q, a) ∈ bs.buildlist)
    (fun q => bs.buildlist.idxOf (q, a)) hrank hp
    (Nat.lt_of_lt_of_le (List.idxOf_lt_length_of_mem hp) hn) []
  -- a cycle of packages would be a cycle of their builds
  have hacyc : ∀ q, Relation.ReflTransGen (Edge fun p => (t p).transitiveDeps) p q →
      ¬ Relation.TransGen (Edge fun p => (t p).transitiveDeps) q q := by
    intro q hq hcyc
    have hpq := (reach_iff_of_native (u := (q, a)) hrb hpass hp).2 ⟨rfl, hq⟩
    obtain ⟨v, hqv, hvq⟩ := Relation.TransGen.head'_iff.1 hcyc
    have hqk : (q, a) ∈ bs.buildlist := ho.mem_of_reach hp hpq
    have htrans : bs.graph.Transitive (q, a) (v, a) :=
      (transitive_iff_of_native hrb hpass hqk).2 ⟨rfl, hqv⟩
    have hvk : (v, a) ∈ bs.buildlist := hrb.mem_of_dep hqk (dep_of_transitive htrans)
    exact ho.acyclic hp hpq
      (.head' htrans ((reach_iff_of_native (u := (q, a)) hrb hpass hvk).2 ⟨rfl, hvq⟩))
  have hspec := postorder_spec hacyc List.nodup_nil Sorted.nil hl
  have hvisit : (visitListed t true n true {} p).map Listing.deplist =
      postorder (fun p => (t p).transitiveDeps) n p [] := deplist_visitListed t true n {} p
  rw [hl] at hvisit
  obtain ⟨s, hs, rfl⟩ := Option.map_eq_some_iff.1 hvisit
  refine ⟨s.deplist.reverse.map (listedRow s), ?_, fun q => ?_⟩
  · have hflags : runtimeFlags "run".toList = (true, true) := by decide
    rw [listDeps, hflags, List.foldlM_cons, hs]
    rfl
  · have hnames : (s.deplist.reverse.map (listedRow s)).map Prod.fst = s.deplist.reverse := by
      rw [List.map_map]
      exact List.map_id _
    rw [hnames, List.mem_reverse, hspec.mem]
    exact or_iff_right List.not_mem_nil

end Closures

/-! ### In a sandbox -/

section Sandbox

variable {metapackage : PkgName → Bool} {dirExists : LayerDir → Bool}

theorem exists_visitLayer (ho : bs.Ordered) {dep : BuildKey}
    (hdep : dep ∈ bs.buildlist) (hn : bs.buildlist.idxOf dep < n)
    (hdirs : ∀ u, Relation.ReflTransGen bs.graph.Transitive dep u → metapackage u.1 = false →
      dirExists (.out u) = true) (s : Layers) :
    ∃ s', visitLayer bs metapackage dirExists false n s dep = .ok s' := by
  induction n generalizing dep s with
  | zero => exact absurd hn (Nat.not_lt_zero _)
  | succ n ih =>
    obtain ⟨s₁, hs₁⟩ : ∃ s₁, (bs.build dep).deps.foldlM (fun s e =>
        if "transitive".toList ∈ e.2 then visitLayer bs metapackage dirExists false n s e.1
        else .ok s) s = .ok s₁ := by
      refine Machine.exists_foldlM (fun e he s => ?_) s
      by_cases htag : "transitive".toList ∈ e.2
      · have hstep : bs.graph.Transitive dep e.1 := ⟨e, he, htag, rfl⟩
        obtain ⟨hmem, hlt⟩ := ho.idxOf_lt hdep (dep_of_transitive hstep)
        rw [if_pos htag]
        exact ih hmem (by omega) (fun u hu => hdirs u (hu.head hstep)) s
      · exact ⟨s, if_neg htag⟩
    -- a missing output is the only thing that could go wrong
    have hadd : ∃ s', addDir metapackage dirExists s₁ dep (.out dep) = .ok s' := by
      unfold addDir
      by_cases hseen : .out dep ∈ s₁.seen
      · exact ⟨_, if_pos hseen⟩
      · rw [if_neg hseen]
        cases hmeta : metapackage dep.1 with
        | true => exact ⟨_, rfl⟩
        | false =>
          have hexists : s₁.exists dirExists (.out dep) = true := by
            simp [Layers.exists, hdirs dep .refl hmeta]
          simp only [checkDepDirExist, hexists, Bool.or_true, if_true, Bool.false_eq_true, if_false]
          exact ⟨_, rfl⟩
    obtain ⟨s', hs'⟩ := hadd
    refine ⟨s', ?_⟩
    rw [visitLayer]
    exact Machine.bind_eq_ok.2 ⟨(s, .out dep), rfl, Machine.bind_eq_ok.2 ⟨s₁, hs₁, hs'⟩⟩

/-- The sandbox of a build whose only dependency is `dep` has the outputs of what that needs. -/
theorem depLayerDirs_of_only_dep (ho : bs.Ordered) {dep : BuildKey} (hdep : dep ∈ bs.buildlist)
    (hn : bs.buildlist.length ≤ n)
    (hdirs : ∀ u, Relation.ReflTransGen bs.graph.Transitive dep u → metapackage u.1 = false →
      dirExists (.out u) = true) {bs' : Builds} {q : BuildKey} {tags : List Text}
    (hq : (bs'.build q).deps = [(dep, tags)]) (hhost : (bs'.build q).hostdeps = [])
    (hsame : ∀ u, Relation.ReflTransGen bs.graph.Transitive dep u →
      (bs'.build u).deps = (bs.build u).deps) :
    ∃ dirs, depLayerDirs bs' metapackage dirExists n q = .ok dirs ∧
      ∀ u, .out u ∈ dirs ↔
        metapackage u.1 = false ∧ Relation.ReflTransGen bs.graph.Transitive dep u := by
  obtain ⟨s, hs⟩ := exists_visitLayer ho hdep
    (Nat.lt_of_lt_of_le (List.idxOf_lt_length_of_mem hdep) hn) hdirs {}
  obtain ⟨part, hstack, -, hmem⟩ := visitLayer_adds (Layers.Stack.empty bs _ _) hs
  -- the new build is not below `dep`, so the visit is the same in the larger graph
  rw [← visitLayer_congr n hsame {}] at hs
  refine ⟨s.dirs, ?_, fun u => ?_⟩
  · have hloop : depLayers bs' metapackage dirExists n q = .ok (s, s) := by
      rw [depLayers, hq, hhost, List.foldlM_cons, hs]
      rfl
    rw [depLayerDirs, hloop]
    simp [Except.map]
  · have hout : .out u ∈ s.dirs ↔ u ∈ part := by
      rw [hstack.dirs]
      simp [partDir]
    rw [hout, hmem]
    exact or_iff_right List.not_mem_nil

end Sandbox

/-- A build that depends on `dep` is not below it if there is no cycle. -/
theorem not_reach_of_acyclic {bs' : Builds} {q dep : BuildKey} (hdep : bs'.Dep q dep)
    (hsame : ∀ k, k ≠ q → (bs'.build k).deps = (bs.build k).deps)
    (hacyc : ¬ Relation.TransGen bs'.Dep q q) :
    ¬ Relation.ReflTransGen bs.graph.Transitive dep q := by
  -- a path of `bs` is one of `bs'` up to where it comes to `q`
  have key : ∀ u, Relation.ReflTransGen bs.graph.Transitive dep u →
      Relation.ReflTransGen bs'.graph.Transitive dep u ∨
        Relation.ReflTransGen bs'.graph.Transitive dep q := by
    intro u hu
    induction hu with
    | refl => exact .inl .refl
    | @tail v w _ hstep ih =>
      rcases ih with ih | ih
      · by_cases hv : v = q
        · exact .inr (hv ▸ ih)
        · have hstep' : bs'.graph.Transitive v w := by
            rw [DepGraph.Transitive, Builds.graph, hsame v hv]
            exact hstep
          exact .inl (ih.tail hstep')
      · exact .inr ih
  intro hreach
  have hreach' : Relation.ReflTransGen bs'.graph.Transitive dep q :=
    (key q hreach).elim id id
  exact hacyc (.head' hdep (hreach'.lift id fun _ _ => dep_of_transitive))

/-- **The run-time closure is the same everywhere.**  In a native graph without cycles, for every
package: it and what `tansitive_deps` lists for it, what `list_deps` prints for it, and the packages
whose outputs are in the sandbox of a package that depends on nothing else, are the same but for
metapackages. -/
theorem runtime_closures_agree (src : Source) (a : Arch) (tops : List PkgName)
    (metapackage : PkgName → Bool) (t : PkgTable) (bs : Builds) (m n : ℕ)
    (htops : ∀ p ∈ tops, p ∈ src.names) (hnative : NativeOnly src a)
    (ht : resolveDeps src a a tops = .ok t) (hbs : resolveBuilds t a a m tops = .ok bs)
    (hacyc : ∀ k ∈ bs.buildlist, ¬ Relation.TransGen bs.Dep k k)
    (hn : bs.buildlist.length ≤ n) (p : PkgName) (hp : (p, a) ∈ bs.buildlist) :
    ∃ deps rows, tansitiveDeps bs n (p, a) = some deps ∧
      listDeps t n [p] "run".toList = some rows ∧
      (∀ u, metapackage u.1 = false →
        (u = (p, a) ∨ u ∈ deps ↔ u.2 = a ∧ u.1 ∈ rows.map Prod.fst)) ∧
      ∀ (bs' : Builds) (q : BuildKey) (tags : List Text) (dirExists : LayerDir → Bool),
        (bs'.build q).deps = [((p, a), tags)] → (bs'.build q).hostdeps = [] →
        (∀ k, k ≠ q → (bs'.build k).deps = (bs.build k).deps) →
        ¬ Relation.TransGen bs'.Dep q q →
        (∀ u, metapackage u.1 = false → u = (p, a) ∨ u ∈ deps → dirExists (.out u) = true) →
        ∃ dirs, depLayerDirs bs' metapackage dirExists n q = .ok dirs ∧
          ∀ u, metapackage u.1 = false → (.out u ∈ dirs ↔ u = (p, a) ∨ u ∈ deps) := by
  have hrb := resolvedBuilds_of_eq_ok hbs
  have ho := hrb.ordered hacyc
  have hpass : ∀ p, ∀ d ∈ (t p).deps, condPasses d.cond a = true :=
    fun p d hd => condPasses_of_mem_deps hnative htops ht hd
  obtain ⟨deps, hdeps, hmem, -⟩ := tansitiveDeps_spec ho hp hn
  obtain ⟨rows, hrows, hlisted⟩ := listDeps_run hrb ho hpass hp hn
  have hclosure : ∀ u, u = (p, a) ∨ u ∈ deps ↔
      Relation.ReflTransGen bs.graph.Transitive (p, a) u := by
    intro u
    rw [hmem, Relation.reflTransGen_iff_eq_or_transGen]
  refine ⟨deps, rows, hdeps, hrows, fun u _ => ?_, ?_⟩
  · rw [hclosure, hlisted]
    exact reach_iff_of_native hrb hpass hp
  · intro bs' q tags dirExists hq hhost hsame hcyc hdirs
    have hdep : bs'.Dep q (p, a) := by simp [Builds.Dep, BuildDeps.keys, hq]
    have hnot := not_reach_of_acyclic hdep hsame hcyc
    have hbelow : ∀ u, Relation.ReflTransGen bs.graph.Transitive (p, a) u →
        (bs'.build u).deps = (bs.build u).deps := by
      intro u hu
      refine hsame u ?_
      rintro rfl
      exact hnot hu
    obtain ⟨dirs, hdirs', hout⟩ := depLayerDirs_of_only_dep ho hp hn
      (fun u hu hmeta => hdirs u hmeta ((hclosure u).2 hu)) hq hhost hbelow
    refine ⟨dirs, hdirs', fun u hmeta => ?_⟩
    rw [hout, hclosure]
    exact and_iff_right hmeta

/-- An application that needs a group of libraries, one of which only under a condition, and a tool
to build it. -/
def runtimeSource : Source where
  srcroot := ["src"]
  pkgs := [
    ("app", { depends := [("libs", ⟨["transitive"], none⟩), ("headers", ⟨[], none⟩),
      ("posix", ⟨["transitive"], some ⟨fun a => decide (a = .wasm32)⟩⟩)] }),
    ("libs", { depends := [("libc", ⟨["transitive"], none⟩)], metapackage := true }),
    ("headers", {}), ("libc", {}), ("posix", {})]

/-- The builds with one more, which depends on `dep` only. -/
def withUser (bs : Builds) (q dep : BuildKey) : Builds :=
  { bs with processed := (q, { deps := [(dep, [])] }) :: bs.processed }

theorem runtimeSource_closure :
    let app : BuildKey := ("app", .x86_64)
    let test : BuildKey := ("test", .x86_64)
    let metapackage : PkgName → Bool := fun p => decide (p = "libs".toList)
    ∃ t bs deps rows dirs,
      resolveDeps runtimeSource .x86_64 .x86_64 ["app"] = .ok t ∧
      resolveBuilds t .x86_64 .x86_64 8 ["app"] = .ok bs ∧
      tansitiveDeps bs 4 app = some deps ∧
      listDeps t 4 ["app"] "run".toList = some rows ∧
      depLayerDirs (withUser bs test app) metapackage (fun _ => true) 4 test = .ok dirs ∧
      deps.map Prod.fst = ["libc".toList, "libs".toList] ∧
      rows.map Prod.fst = ["app".toList, "libs".toList, "libc".toList] ∧
      ∀ u : BuildKey, metapackage u.1 = false →
        (u = app ∨ u ∈ deps ↔ u.2 = .x86_64 ∧ u.1 ∈ rows.map Prod.fst) ∧
        (.out u ∈ dirs ↔ u = app ∨ u ∈ deps) := by
  intro app test metapackage
  have hrun : ∃ t bs deps rows,
      resolveDeps runtimeSource .x86_64 .x86_64 ["app"] = .ok t ∧
      resolveBuilds t .x86_64 .x86_64 8 ["app"] = .ok bs ∧
      tansitiveDeps bs 4 app = some deps ∧
      listDeps t 4 ["app"] "run".toList = some rows ∧
      deps.map Prod.fst = ["libc".toList, "libs".toList] ∧
      rows.map Prod.fst = ["app".toList, "libs".toList, "libc".toList] ∧
      bs.buildlist.length = 4 ∧ app ∈ bs.buildlist ∧
      (∀ k ∈ bs.buildlist, ∀ d ∈ (bs.build k).keys, d ∈ bs.buildlist ∧
        bs.buildlist.idxOf d < bs.buildlist.idxOf k) ∧
      ∀ x ∈ (withUser bs test app).processed, ∀ d ∈ x.2.keys,
        (bs.buildlist ++ [test]).idxOf d < (bs.buildlist ++ [test]).idxOf x.1 :=
    ⟨_, _, _, _, rfl, rfl, rfl, rfl, by decide, by decide, rfl, by decide, by decide, by decide⟩
  obtain ⟨t, bs, deps, rows, ht, hbs, hdeps, hrows, hd, hr, hlen, hmem, hrank, hrank'⟩ := hrun
  have hnative : NativeOnly runtimeSource .x86_64 := by
    intro p m hm
    by_cases hp : p ∈ runtimeSource.names
    · have hnone : ∀ p ∈ runtimeSource.names, (runtimeSource.directives p).archdepends = [] := by
        decide
      rw [hnone p hp] at hm
      cases hm
    · rw [Source.directives_eq_default hp] at hm
      cases hm
  obtain ⟨deps', rows', hdeps', hrows', hagree, hsandbox⟩ := runtime_closures_agree runtimeSource
    .x86_64 ["app"] metapackage t bs 8 4 (by decide) hnative ht hbs
    (fun k hk => Builds.not_transGen_self hrank hk) (by omega) "app" hmem
  rw [hdeps] at hdeps'
  rw [hrows] at hrows'
  cases hdeps'
  cases hrows'
  obtain ⟨dirs, hdirs, hout⟩ := hsandbox (withUser bs test app) test [] (fun _ => true)
    (by simp [withUser, Builds.build, Dict.get?, app])
    (by simp [withUser, Builds.build, Dict.get?])
    (fun k hk => by simp [withUser, Builds.build, Dict.get?, Ne.symm hk])
    (not_transGen_dep_of_rank _ _ hrank' test) (fun _ _ _ => rfl)
  exact ⟨t, bs, deps, rows, dirs, ht, hbs, hdeps, hrows, hdirs, hd, hr,
    fun u hu => ⟨hagree u hu, hout u hu⟩⟩

end Pbuild
