import Playbit.Package.ResolveDeps

/-!
# From packages to builds

`resolveBuilds` creates a build for every package and architecture needed, starting with the
top-level packages for the target architecture, and lists the builds in the order in which they
are finished.  Conditions are evaluated again, this time for the architecture of the build;
`BUILDTOOL` entries switch to the native architecture and `ARCHDEPENDS` entries to the one they
name.

A build is identified by its package and architecture: `intern_pkgbuild` never makes two.
-/

namespace Pbuild

open Python

/-- The package and architecture of a build. -/
abbrev BuildKey := PkgName × Arch

/-- The labels in `needed_by`. -/
inductive DepKind where
  | buildtool
  | depends
  | archdepends
  deriving DecidableEq

/-- The dependencies of a build. -/
structure BuildDeps where
  /-- Build and tags, from `DEPENDS`. -/
  deps : List (BuildKey × List Text) := []
  /-- Build and tags, from `BUILDTOOL`. -/
  hostdeps : List (BuildKey × List Text) := []
  /-- Build and mountpoint, from `ARCHDEPENDS`. -/
  archdeps : List (BuildKey × Text) := []

/-- The builds among the dependencies, in the order of `ordered_deps` (with repetitions). -/
def BuildDeps.keys (d : BuildDeps) : List BuildKey :=
  d.deps.map Prod.fst ++ d.hostdeps.map Prod.fst ++ d.archdeps.map Prod.fst

/-- The attributes of a `PkgBuild` that `resolve_builds` sets. -/
structure PkgBuild extends BuildDeps where
  neededBy : Dict BuildKey (List DepKind) := []

/-- The state of `resolve_builds`. -/
structure Builds where
  processed : Dict BuildKey PkgBuild := []
  buildlist : List BuildKey := []

namespace Builds

/-- The build for a key. -/
def build (bs : Builds) (k : BuildKey) : PkgBuild := (bs.processed.get? k).getD {}

/-- Change the attributes of a build. -/
def modify (bs : Builds) (k : BuildKey) (f : PkgBuild → PkgBuild) : Builds :=
  { bs with processed := bs.processed.alter k fun b => f (b.getD {}) }

/-- `intern_pkgbuild` for a key that is not in `processed`. -/
def intern (bs : Builds) (k : BuildKey) : Builds := bs.modify k id

/-- `buildlist.append(b)`. -/
def finish (bs : Builds) (k : BuildKey) : Builds := { bs with buildlist := bs.buildlist ++ [k] }

/-- Record the dependency `dep` of `k` with `add`, and `k` in `dep.needed_by`. -/
def connect (bs : Builds) (k dep : BuildKey) (kind : DepKind) (add : BuildDeps → BuildDeps) :
    Builds :=
  (bs.modify k fun b => { b with toBuildDeps := add b.toBuildDeps }).modify dep fun b =>
    { b with neededBy := b.neededBy.alter k fun l => l.getD [] ++ [kind] }

end Builds

/-- `b.hostdeps.append((dep_b, tags))`. -/
def BuildDeps.addHostdep (dep : BuildKey) (tags : List Text) (d : BuildDeps) : BuildDeps :=
  { d with hostdeps := d.hostdeps ++ [(dep, tags)] }

/-- `b.deps.append((dep_b, tags))`. -/
def BuildDeps.addDep (dep : BuildKey) (tags : List Text) (d : BuildDeps) : BuildDeps :=
  { d with deps := d.deps ++ [(dep, tags)] }

/-- `b.archdeps.append((dep_b, mountpoint))`. -/
def BuildDeps.addArchdep (dep : BuildKey) (mountpoint : Text) (d : BuildDeps) : BuildDeps :=
  { d with archdeps := d.archdeps ++ [(dep, mountpoint)] }

/-- The loops of `visit_dep` over the entries `l` of the package of `k`: visit the builds of those
whose condition passes for the architecture of `k`, and record them. -/
def visitEntries {ι : Type} (visit : BuildKey → Builds → Except ResolveError Builds)
    (k : BuildKey) (kind : DepKind) (cond : ι → Option Conditional) (dep : ι → BuildKey)
    (add : ι → BuildDeps → BuildDeps) (l : List ι) (bs : Builds) : Except ResolveError Builds :=
  l.foldlM (fun bs e =>
    if condPasses (cond e) k.2 then
      (visit (dep e) bs).bind fun bs => .ok (bs.connect k (dep e) kind (add e))
    else .ok bs) bs

/-- The entries of `pkg.hostdeps`. -/
def visitHostdeps (visit : BuildKey → Builds → Except ResolveError Builds) (native : Arch)
    (k : BuildKey) : List PkgDep → Builds → Except ResolveError Builds :=
  visitEntries visit k .buildtool PkgDep.cond (fun d => (d.pkg, native))
    fun d => BuildDeps.addHostdep (d.pkg, native) d.tags

/-- The entries of `pkg.deps`. -/
def visitDeps (visit : BuildKey → Builds → Except ResolveError Builds) (k : BuildKey) :
    List PkgDep → Builds → Except ResolveError Builds :=
  visitEntries visit k .depends PkgDep.cond (fun d => (d.pkg, k.2))
    fun d => BuildDeps.addDep (d.pkg, k.2) d.tags

/-- The entries of `pkg.archdeps[dep_arch]`. -/
def visitArchdeps (visit : BuildKey → Builds → Except ResolveError Builds) (k : BuildKey)
    (depArch : Arch) : List PkgArchDep → Builds → Except ResolveError Builds :=
  visitEntries visit k .archdepends PkgArchDep.cond (fun d => (d.pkg, depArch))
    fun d => BuildDeps.addArchdep (d.pkg, depArch) d.mountpoint

/-- `visit_dep`.  The fuel bounds the depth of the recursion. -/
def visitDep (pkgs : PkgTable) (native : Arch) :
    ℕ → BuildKey → Builds → Except ResolveError Builds
  | 0, k, bs => if k ∈ bs.processed.map Prod.fst then .ok bs else .error .recursion
  | n + 1, k, bs =>
    if k ∈ bs.processed.map Prod.fst then .ok bs
    else
      let visit := visitDep pkgs native n
      (visitHostdeps visit native k (pkgs k.1).hostdeps (bs.intern k)).bind fun bs =>
        (visitDeps visit k (pkgs k.1).deps bs).bind fun bs =>
          ((pkgs k.1).archdeps.foldlM (fun bs m => visitArchdeps visit k m.1 m.2 bs) bs).bind
            fun bs => .ok (bs.finish k)

/-- `resolve_builds(top_level_pkgs)`. -/
def resolveBuilds (pkgs : PkgTable) (native target : Arch) (n : ℕ) (tops : List PkgName) :
    Except ResolveError Builds :=
  tops.foldlM (fun bs p => visitDep pkgs native n (p, target) bs) {}

end Pbuild
