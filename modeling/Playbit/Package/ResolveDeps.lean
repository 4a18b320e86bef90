import Mathlib.Logic.Function.Basic
import Playbit.Package.Basic

/-!
# Resolving the dependencies of packages

`resolveDeps` walks the packages reachable from the top-level ones depth first and records, in
each package, the dependencies its directives declare.  A package is resolved once, under the
architecture settings (`Ctx`) of the first package that refers to it; entries whose condition
holds for none of these architectures are dropped, and an entry that leads back to a package
being resolved for the same architecture raises `PkgCyclicDepError`.

`Pbuild.Package.Resolution` relates it to the depth-first search of `Pbuild.Graph.Search`.
-/

namespace Pbuild

open Python

/-- A resolved `DEPENDS` or `BUILDTOOL` entry. -/
structure PkgDep where
  pkg : PkgName
  tags : List Text
  cond : Option Conditional

/-- A resolved `ARCHDEPENDS` entry. -/
structure PkgArchDep where
  pkg : PkgName
  mountpoint : Text
  cond : Option Conditional

/-- The attributes of a `Pkg` that resolution sets. -/
structure Pkg where
  deps : List PkgDep := []
  hostdeps : List PkgDep := []
  /-- Architecture to entries. -/
  archdeps : Dict Arch (List PkgArchDep) := []
  depsResolved : Bool := false

/-- The packages, by name. -/
abbrev PkgTable := PkgName → Pkg

/-- Change the attributes of one package. -/
def PkgTable.modify (t : PkgTable) (p : PkgName) (f : Pkg → Pkg) : PkgTable :=
  Function.update t p (f (t p))

/-- The architecture arguments of `Pkg.resolve_deps`. -/
structure Ctx where
  /-- The architecture the package is resolved for. -/
  arch : Arch
  /-- `cond_ARCH` (`none` for the empty string). -/
  condArch : Option Arch
  /-- `archdep_archs` (`[]` for `None`). -/
  archdepArchs : List Arch
  deriving DecidableEq

/-- The architectures `_resolve_deps` evaluates conditions for. -/
def Ctx.archs (c : Ctx) : List Arch :=
  if c.archdepArchs ≠ [] then c.archdepArchs
  else match c.condArch with
    | some a => [a]
    | none => [c.arch]

/-- `Pkg.check_cond_OR`: the condition holds for one of the architectures. -/
def checkCondOR (cond : Conditional) (archs : List Arch) : Bool := archs.any cond.eval

/-- An entry is kept unless its condition holds for none of the architectures. -/
def keeps (cond : Option Conditional) (archs : List Arch) : Bool :=
  match cond with
  | none => true
  | some c => checkCondOR c archs

/-- `Pkg._load_dep`. -/
def Pkg._loadDep (src : Source) (depname : Text) (deppath : List (PkgName × Arch))
    (arch : Arch) : Except ResolveError PkgName :=
  (loadDependencyPkg src depname deppath).bind fun dep =>
    if (dep, arch) ∈ deppath then .error (.cyclicDep deppath depname arch) else .ok dep

/-- Append an entry unless one for the same package (`pkg`) is in the list. -/
def appendNew {α : Type*} (pkg : α → PkgName) (l : List α) (d : α) : List α :=
  if l.any (pkg · = pkg d) then l else l ++ [d]

/-- `self.deps`, extended by an entry. -/
def Pkg.addDep (p : Pkg) (d : PkgDep) : Pkg := { p with deps := appendNew PkgDep.pkg p.deps d }

/-- `self.hostdeps`, extended by an entry. -/
def Pkg.addHostdep (p : Pkg) (d : PkgDep) : Pkg :=
  { p with hostdeps := appendNew PkgDep.pkg p.hostdeps d }

/-- `self.archdeps.setdefault(arch, [])`. -/
def Pkg.touchArch (a : Arch) (p : Pkg) : Pkg :=
  { p with archdeps := p.archdeps.alter a (·.getD []) }

/-- `self.archdeps[arch]`, extended by an entry. -/
def Pkg.addArchdep (a : Arch) (p : Pkg) (d : PkgArchDep) : Pkg :=
  { p with archdeps := p.archdeps.alter a fun l => appendNew PkgArchDep.pkg (l.getD []) d }

/-- The recursive calls `dep_pkg.resolve_deps(deppath, ...)`. -/
abbrev Resolver := PkgName → List (PkgName × Arch) → Ctx → PkgTable → Except ResolveError PkgTable

/-- The body of the loops below, for the entry `depname`: load the package, resolve it if that
has not been done, and record it in `self` with `add`. -/
def resolveEntry (src : Source) (resolve : Resolver) (self : PkgName)
    (deppath : List (PkgName × Arch)) (c : Ctx) (depname : Text) (add : PkgName → Pkg → Pkg)
    (t : PkgTable) : Except ResolveError PkgTable :=
  (Pkg._loadDep src depname deppath c.arch).bind fun dep =>
    (if (t dep).depsResolved then .ok t else resolve dep deppath c t).bind fun t =>
      .ok (t.modify self (add dep))

/-- The loop of `_resolve_deps` and `_resolve_archdeps` over the entries `m` of `self`. -/
def resolveEntries {ι : Type} (src : Source) (resolve : Resolver) (self : PkgName)
    (deppath : List (PkgName × Arch)) (c : Ctx) (keep : ι → Bool)
    (add : ι → PkgName → Pkg → Pkg) (m : Dict Text ι) (t : PkgTable) :
    Except ResolveError PkgTable :=
  m.foldlM (fun t e =>
    if keep e.2 then resolveEntry src resolve self deppath c e.1 (add e.2) t else .ok t) t

/-- `_resolve_deps` drops an entry whose condition holds for none of the architectures. -/
def DepInfo.keep (c : Ctx) (i : DepInfo) : Bool := keeps i.cond c.archs

/-- `_resolve_archdeps` evaluates the conditions for all of `archdep_archs`. -/
def ArchDepInfo.keep (c : Ctx) (i : ArchDepInfo) : Bool := keeps i.cond c.archdepArchs

/-- How an entry is recorded in `self.deps` or `self.hostdeps`. -/
def DepInfo.record (add : Pkg → PkgDep → Pkg) (i : DepInfo) (dep : PkgName) (p : Pkg) : Pkg :=
  add p ⟨dep, i.tags, i.cond⟩

/-- How an entry is recorded in `self.archdeps[arch]`. -/
def ArchDepInfo.record (a : Arch) (i : ArchDepInfo) (dep : PkgName) (p : Pkg) : Pkg :=
  p.addArchdep a ⟨dep, i.mountpoint, i.cond⟩

/-- `Pkg._resolve_deps`: record the entries `depinfomap` of `self` with `add` (in `self.deps` or
`self.hostdeps`). -/
def Pkg._resolveDeps (src : Source) (resolve : Resolver) (self : PkgName)
    (add : Pkg → PkgDep → Pkg) (deppath : List (PkgName × Arch)) (c : Ctx)
    (depinfomap : Dict Text DepInfo) (t : PkgTable) : Except ResolveError PkgTable :=
  resolveEntries src resolve self deppath c (DepInfo.keep c) (DepInfo.record add) depinfomap t

/-- `Pkg._resolve_archdeps`: record the entries of `self` for the architecture `c.arch`. -/
def Pkg._resolveArchdeps (src : Source) (resolve : Resolver) (self : PkgName)
    (deppath : List (PkgName × Arch)) (c : Ctx) (pkgnameToInfo : Dict Text ArchDepInfo)
    (t : PkgTable) : Except ResolveError PkgTable :=
  resolveEntries src resolve self deppath c (ArchDepInfo.keep c) (ArchDepInfo.record c.arch)
    pkgnameToInfo t

/-- The settings under which the `BUILDTOOL` entries of a package are resolved. -/
def Ctx.buildtool (native target : Arch) (c : Ctx) : Ctx := ⟨native, some target, c.archdepArchs⟩

/-- The settings under which the `ARCHDEPENDS` entries for `a` are resolved, for a package with
entries for `archs`. -/
def Ctx.archdep (archs : List Arch) (a : Arch) : Ctx := ⟨a, none, archs⟩

/-- `Pkg.resolve_deps`.  The fuel bounds the depth of the recursion. -/
def Pkg.resolveDeps (src : Source) (native target : Arch) : ℕ → Resolver
  | 0, _, _, _, _ => .error .recursion
  | n + 1, self, deppath, c, t =>
    if (t self).depsResolved then .error .assertion
    else
      let resolve := Pkg.resolveDeps src native target n
      let d := src.directives self
      let deppath := deppath ++ [(self, c.arch)]
      let archs := d.archdepends.map Prod.fst
      (Pkg._resolveDeps src resolve self Pkg.addDep deppath c d.depends
          (t.modify self fun p => { p with depsResolved := true })).bind fun t =>
        (Pkg._resolveDeps src resolve self Pkg.addHostdep deppath (c.buildtool native target)
            d.buildtool t).bind fun t =>
          d.archdepends.foldlM (fun t m =>
            Pkg._resolveArchdeps src resolve self deppath (.archdep archs m.1) m.2
              (t.modify self (Pkg.touchArch m.1))) t

/-- The settings under which top-level packages are resolved. -/
def Ctx.top (target : Arch) : Ctx := ⟨target, none, []⟩

/-- `resolve_deps(top_level_pkgs)`. -/
def resolveDeps (src : Source) (native target : Arch) (topLevelPkgs : List PkgName) :
    Except ResolveError PkgTable :=
  topLevelPkgs.foldlM (fun t p =>
    if (t p).depsResolved then .ok t
    else Pkg.resolveDeps src native target src.pkgs.length p [] (.top target) t) fun _ => {}

end Pbuild
