import Playbit.Python.Path
import Playbit.Python.Dict

/-!
# Packages and their directives

A source tree is a finite set of packages, each with the directives scanned from its index file.
A package is named by its path below the source root; the entries of its `DEPENDS`, `BUILDTOOL`
and `ARCHDEPENDS` directives name other packages by path and may carry a condition on the
architecture.

`loadDependencyPkg` is the package that an entry names, seen from the package it is declared in.
-/

namespace Pbuild

open Python

instance : Coe String Text := ⟨String.toList⟩

/-- A machine architecture, as `platform.machine()` and `--arch` name them. -/
structure Arch where
  /-- The name, e.g. `x86_64`. -/
  name : Text
  noDot : '.' ∉ name
  unspaced : Unspaced name
  deriving DecidableEq

/-- `x86_64`, one of `VALID_ARCHS`. -/
def Arch.x86_64 : Arch := ⟨"x86_64", by decide, by decide⟩

/-- `wasm32`, one of `VALID_ARCHS`. -/
def Arch.wasm32 : Arch := ⟨"wasm32", by decide, by decide⟩

/-- `aarch64`, one of `VALID_ARCHS`. -/
def Arch.aarch64 : Arch := ⟨"aarch64", by decide, by decide⟩

/-- `VALID_ARCHS`. -/
def validArchs : List Arch := [.aarch64, .x86_64, .wasm32]

/-- The condition of a directive: a Python expression, by its value for every architecture in one
invocation.  `eval` also sees the globals of pbuild, so that a condition may come out differently
with other options (`DEBUG`, `TOPLEVEL_DEFINES`). -/
structure Conditional where
  /-- `Conditional.eval(ARCH)`. -/
  eval : Arch → Bool

/-- The condition of an entry is absent or holds for `ARCH = a`. -/
def condPasses (cond : Option Conditional) (a : Arch) : Bool :=
  match cond with
  | none => true
  | some c => c.eval a

/-- A package is identified by its name (the key of `pkgindex`). -/
abbrev PkgName := Text

instance instLawfulBEqPkgNameArch : LawfulBEq (PkgName × Arch) := inferInstance

/-- What a `DEPENDS` or `BUILDTOOL` entry says about the package it names. -/
structure DepInfo where
  tags : List Text
  cond : Option Conditional

/-- What an `ARCHDEPENDS` entry says about the package it names. -/
structure ArchDepInfo where
  mountpoint : Text
  cond : Option Conditional

/-- The directives of a package that decide what it depends on and whether it is built. -/
structure Directives where
  /-- `DEPENDS`: package path to tags and condition. -/
  depends : Dict Text DepInfo := []
  /-- `BUILDTOOL`: package path to tags and condition. -/
  buildtool : Dict Text DepInfo := []
  /-- `ARCHDEPENDS`: architecture to package path to mountpoint and condition. -/
  archdepends : Dict Arch (Dict Text ArchDepInfo) := []
  archdepends_nodup : (archdepends.map Prod.fst).Nodup := by first | exact List.nodup_nil | decide
  /-- `METAPACKAGE`: a group of dependencies, without sources or output of its own. -/
  metapackage : Bool := false

/-- A source tree. -/
structure Source where
  /-- The components of `SRCROOT`. -/
  srcroot : List Text
  /-- The packages that exist, with their directives. -/
  pkgs : List (PkgName × Directives)

/-- Errors raised while dependencies are resolved. -/
inductive ResolveError where
  /-- `PkgNotFound`. -/
  | pkgNotFound (pkgpath : Text) (deppath : List (PkgName × Arch))
  /-- `PkgCyclicDepError`: the stack of packages being resolved, and the entry closing the
  cycle. -/
  | cyclicDep (deppath : List (PkgName × Arch)) (depname : Text) (arch : Arch)
  /-- A failed `assert`. -/
  | assertion
  /-- The recursion did not end within the fuel. -/
  | recursion

namespace Source

variable (src : Source)

/-- The names of the packages that exist. -/
def names : List PkgName := src.pkgs.map Prod.fst

/-- The directives of a package. -/
def directives (p : PkgName) : Directives := (Dict.get? src.pkgs p).getD {}

end Source

/-- The name `load_pkg` gives to a package directory below the source root. -/
def rootPkg : PkgName := "_root"

/-- The components, below the source root, of the directory of a package. -/
def pkgDir (p : PkgName) : List Text := if p = rootPkg then [] else pathParts p

/-- `load_pkg` for the directory with the given components below the source root: the package,
if it has an index file. -/
def loadPkg (src : Source) (dir : List Text) : Option PkgName :=
  let pkgname := if dir = [] then rootPkg else List.intercalate ['/'] dir
  if pkgname ∈ src.names then some pkgname else none

/-- `load_dependency_pkg`: the package that `pkgpath` names in the last package of `deppath`. -/
def loadDependencyPkg (src : Source) (pkgpath : Text) (deppath : List (PkgName × Arch)) :
    Except ResolveError PkgName :=
  match deppath.getLast? with
  | none => .error .assertion
  | some (p, _) =>
    let load (dir : List Text) : Except ResolveError PkgName :=
      match loadPkg src dir with
      | some q => .ok q
      | none => .error (.pkgNotFound pkgpath deppath)
    if ['.', '/'] <+: pkgpath then
      -- relative to the package that refers to it
      load (pkgDir p ++ pathParts pkgpath)
    else if ['/'] <+: pkgpath then
      -- an absolute path replaces `SRCROOT`, and must be below it
      if src.srcroot <+: pathParts pkgpath then
        load ((pathParts pkgpath).drop src.srcroot.length)
      else .error .assertion
    else load (pathParts pkgpath)

/-- The package that `pkgpath` names in package `p`, if it exists. -/
def Source.dep (src : Source) (p : PkgName) (pkgpath : Text) : Option PkgName :=
  if ['.', '/'] <+: pkgpath then loadPkg src (pkgDir p ++ pathParts pkgpath)
  else if ['/'] <+: pkgpath then
    if src.srcroot <+: pathParts pkgpath then
      loadPkg src ((pathParts pkgpath).drop src.srcroot.length)
    else none
  else loadPkg src (pathParts pkgpath)

theorem Source.directives_eq_default {src : Source} {p : PkgName} (h : p ∉ src.names) :
    src.directives p = {} := by
  rw [Source.directives, Dict.get?_of_notMem h, Option.getD_none]

theorem mem_names_of_loadPkg {src : Source} {dir : List Text} {q : PkgName}
    (h : loadPkg src dir = some q) : q ∈ src.names := by
  simp only [loadPkg] at h
  split_ifs at h with h₁ h₂ h₂ <;> cases h <;> assumption

theorem Source.mem_names_of_dep {src : Source} {p : PkgName} {pkgpath : Text} {q : PkgName}
    (h : src.dep p pkgpath = some q) : q ∈ src.names := by
  unfold Source.dep at h
  split_ifs at h <;> first | cases h | exact mem_names_of_loadPkg h

/-- `load_dependency_pkg` succeeds exactly when the package exists. -/
theorem loadDependencyPkg_eq (src : Source) (pkgpath : Text) (path : List (PkgName × Arch))
    (p : PkgName) (a : Arch) :
    match src.dep p pkgpath with
    | some q => loadDependencyPkg src pkgpath (path ++ [(p, a)]) = .ok q
    | none => loadDependencyPkg src pkgpath (path ++ [(p, a)]) = .error .assertion ∨
        loadDependencyPkg src pkgpath (path ++ [(p, a)]) =
          .error (.pkgNotFound pkgpath (path ++ [(p, a)])) := by
  simp only [loadDependencyPkg, Source.dep, List.getLast?_append, List.getLast?_singleton,
    Option.some_or]
  split_ifs
  · cases loadPkg src (pkgDir p ++ pathParts pkgpath) <;> simp
  · cases loadPkg src ((pathParts pkgpath).drop src.srcroot.length) <;> simp
  · simp
  · cases loadPkg src (pathParts pkgpath) <;> simp

end Pbuild
