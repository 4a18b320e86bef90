import Playbit.Machine.ListLemmas
import Playbit.Machine.Run
import Playbit.Package.Basic
import Playbit.Package.SrcRoot

/-!
# Packages on disk

A package is a directory with an index file.  `load_pkg` names it by its path below `SRCROOT` and
keeps it in `pkgindex`, so that a package that is named again, by another argument or in a
directive, is the same one.  The package in `SRCROOT` itself is named `_root`, as is one in the
directory `_root`; these are taken for each other.

**Which package is loaded** over a sequence of requests is `SrcTree.loadAll_spec`.  Dependencies
are **found on disk as in the model of the resolution**, which knows the packages by their names
only (`SrcTree.loadDependencyPkg_refines`); that is for paths without `..`, since the same directory
would have other names with it.  `toplevels_loaded` is about **the packages that `main` is given**.
-/

namespace Pbuild

open Python

/-! ### Directories -/

/-- An absolute path, as `Path(os.path.abspath(…))` and the operator `/` give them. -/
structure Directory where
  path : PurePath
  absolute : path.root ≠ .relative
  comps : ∀ x ∈ path.parts, PathPart x
  deriving DecidableEq

namespace Directory

/-- `dir / path`. -/
def join (dir : Directory) (path : Text) : Directory where
  path := dir.path.join path
  absolute := by
    unfold PurePath.join
    split_ifs with h
    · exact root_ne_relative_of_isabs h
    · exact dir.absolute
  comps x hx := by
    unfold PurePath.join at hx
    split_ifs at hx
    · exact PurePath.pathPart_parse hx
    · rcases List.mem_append.1 hx with hx | hx
      · exact dir.comps x hx
      · exact PurePath.pathPart_parse hx

/-- `str(dir)`. -/
def str (dir : Directory) : Text := dir.path.str

theorem str_eq (dir : Directory) :
    dir.str = dir.path.root.text ++ ['/'].intercalate dir.path.parts :=
  PurePath.str_eq dir.absolute

theorem ext_path {d d' : Directory} (h : d.path = d'.path) : d = d' := by
  cases d
  cases d'
  cases h
  rfl

theorem ext_parts {d d' : Directory} (hroot : d.path.root = d'.path.root)
    (hparts : d.path.parts = d'.path.parts) : d = d' :=
  ext_path (by cases hd : d.path; cases hd' : d'.path; simp_all)

theorem str_injective {d d' : Directory} (h : d.str = d'.str) : d = d' := by
  refine ext_path ?_
  rw [← PurePath.parse_str d.absolute d.comps, ← PurePath.parse_str d'.absolute d'.comps]
  exact congrArg PurePath.parse h

theorem splitroot_str_append {d : Directory} (hroot : d.path.parts ≠ []) (t : Text) :
    splitroot (d.str ++ t) = (d.path.root, ['/'].intercalate d.path.parts ++ t) := by
  obtain ⟨x, parts, hparts⟩ := List.exists_cons_of_ne_nil hroot
  have hhead := head_intercalate_ne d.comps
  rw [str_eq, List.append_assoc]
  refine splitroot_text_append d.absolute ?_
  cases hi : ['/'].intercalate d.path.parts with
  | nil =>
    -- the first component is not empty
    have hx := (d.comps x (hparts ▸ List.mem_cons_self)).1
    cases parts <;> simp_all
  | cons c i =>
    rw [hi] at hhead
    exact hhead

/-- The text of a directory that is below `d`, which is not the root of the file system. -/
theorem str_eq_append_iff {d d' : Directory} (hroot : d.path.parts ≠ []) (hne : d' ≠ d)
    {t : Text} :
    d'.str = d.str ++ '/' :: t ↔ d'.path.root = d.path.root ∧
      ∃ rel, d'.path.parts = d.path.parts ++ rel ∧ t = ['/'].intercalate rel := by
  have hbelow : ∀ rel, d'.path.root = d.path.root → d'.path.parts = d.path.parts ++ rel →
      d'.str = d.str ++ '/' :: ['/'].intercalate rel := by
    intro rel hr hparts
    have hrel : rel ≠ [] := by
      rintro rfl
      rw [List.append_nil] at hparts
      exact hne (ext_parts hr hparts)
    rw [str_eq, str_eq, hr, hparts, Machine.intercalate_append _ hroot hrel]
    simp
  constructor
  · intro h
    have hparse : d'.path = ⟨d.path.root, d.path.parts ++ pathParts t⟩ := by
      rw [← PurePath.parse_str d'.absolute d'.comps, ← str, h, PurePath.parse,
        splitroot_str_append hroot, pathParts_append_slash, pathParts_intercalate d.comps]
    refine ⟨by rw [hparse], _, by rw [hparse], ?_⟩
    have htext := h.symm.trans (hbelow _ (by rw [hparse]) (by rw [hparse]))
    exact (List.cons.inj (List.append_cancel_left htext)).2
  · rintro ⟨hr, rel, hparts, rfl⟩
    exact hbelow rel hr hparts

end Directory

/-! ### Loading -/

/-- `INDEXFILES`. -/
def indexFiles : List Text := ["pbuild.mk".toList, "Makefile".toList, "pbuild.sh".toList]

/-- A `Pkg` as `load_pkg` makes it; `σ` is what `stat` returns. -/
structure LoadedPkg (σ : Type) where
  name : PkgName
  dir : Directory
  indexfile : Text
  indexfileSt : σ
  isToplevel : Bool

/-- `pkgindex`. -/
abbrev PkgIndex (σ : Type) := Dict PkgName (LoadedPkg σ)

/-- How `load_pkg` fails. -/
inductive LoadError
  /-- A failed `assert`. -/
  | assertion
  | pkgNotFound (message : Text)

/-- The source tree. -/
structure SrcTree (σ : Type) where
  /-- `SRCROOT`. -/
  srcroot : Directory
  /-- `Path.stat`, if there is such a file. -/
  stat : PurePath → Option σ
  isDir : σ → Bool
  /-- What `!r` makes of a text. -/
  repr : Text → Text

/-- What `load_pkg` is called with. -/
structure LoadRequest (σ : Type) where
  pkgdir : Directory
  isToplevel : Bool
  deppath : List (LoadedPkg σ × Arch) := []
  pkgpath : Text := []

namespace SrcTree

variable {σ : Type} (t : SrcTree σ)

/-- `find_pkg_indexfile`. -/
def findPkgIndexfile (dir : Directory) : Option (Text × σ) :=
  indexFiles.findSome? fun indexfile =>
    (t.stat (dir.path.child indexfile)).map fun st => (indexfile, st)

/-- The name of the package in a directory, unless the assertion fails that the directory is below
`SRCROOT`. -/
def pkgName (pkgdir : Directory) : Option PkgName :=
  if pkgdir = t.srcroot then some rootPkg
  else if t.srcroot.str ++ ['/'] <+: pkgdir.str then
    some (pkgdir.str.drop (t.srcroot.str ++ ['/']).length)
  else none

/-- Why there is no package in a directory. -/
def notFoundReason (pkgdir : Directory) : Text :=
  match t.stat pkgdir.path with
  | some st =>
    if t.isDir st then
      "missing index file; looked for ".toList ++ ", ".toList.intercalate indexFiles
    else t.repr pkgdir.str ++ " is not a directory".toList
  | none => t.repr pkgdir.str ++ " does not exist".toList

/-- The packages that led to a request. -/
def deppathText (deppath : List (LoadedPkg σ × Arch)) (pkgpath : Text) : Text :=
  if deppath = [] then []
  else "\nDependency stack:\n  ".toList ++ "\n  ".toList.intercalate
    (deppath.map (fun e => e.1.name ++ " (".toList ++ e.2.name ++ [')']) ++ [pkgpath]).reverse

/-- The message of `PkgNotFound`. -/
def notFoundMessage (pkgname : PkgName) (r : LoadRequest σ) : Text :=
  let pkgpath := if r.pkgpath = [] then pkgname else r.pkgpath
  t.repr (if r.pkgdir = t.srcroot then ['.'] else pkgpath) ++ " is not a package: (".toList ++
    t.notFoundReason r.pkgdir ++ [')'] ++ deppathText r.deppath pkgpath

/-- `load_pkg`. -/
def loadPkg (pkgindex : PkgIndex σ) (r : LoadRequest σ) :
    Except LoadError (LoadedPkg σ × PkgIndex σ) :=
  match t.pkgName r.pkgdir with
  | none => .error .assertion
  | some pkgname =>
    match pkgindex.get? pkgname with
    | some pkg => .ok (pkg, pkgindex)
    | none =>
      match t.findPkgIndexfile r.pkgdir with
      | some (indexfile, st) =>
        let pkg : LoadedPkg σ := ⟨pkgname, r.pkgdir, indexfile, st, r.isToplevel⟩
        .ok (pkg, pkgindex.set pkgname pkg)
      | none => .error (.pkgNotFound (t.notFoundMessage pkgname r))

/-- `load_dependency_pkg`. -/
def loadDependencyPkg (pkgindex : PkgIndex σ) (pkgpath : Text)
    (deppath : List (LoadedPkg σ × Arch)) : Except LoadError (LoadedPkg σ × PkgIndex σ) :=
  match deppath.getLast? with
  | none => .error .assertion
  | some (pkg, _) =>
    let pkgdir := if ['.', '/'] <+: pkgpath then pkg.dir.join pkgpath else t.srcroot.join pkgpath
    t.loadPkg pkgindex ⟨pkgdir, false, deppath, pkgpath⟩

/-- Packages are loaded one after the other. -/
def loadAll (pkgindex : PkgIndex σ) :
    List (LoadRequest σ) → Except LoadError (List (LoadedPkg σ) × PkgIndex σ)
  | [] => .ok ([], pkgindex)
  | r :: rs => do
    let (pkg, pkgindex) ← t.loadPkg pkgindex r
    let (pkgs, pkgindex) ← loadAll pkgindex rs
    .ok (pkg :: pkgs, pkgindex)

/-! ### Names -/

/-- A directory below `SRCROOT` is named by the rest of its path. -/
theorem pkgName_eq_some_iff {pkgdir : Directory} {name : PkgName} (hne : pkgdir ≠ t.srcroot) :
    t.pkgName pkgdir = some name ↔ pkgdir.str = t.srcroot.str ++ '/' :: name := by
  rw [pkgName, if_neg hne]
  constructor
  · intro h
    split_ifs at h with hprefix
    obtain ⟨rest, hrest⟩ := hprefix
    rw [← hrest, List.drop_left] at h
    rw [← hrest, ← Option.some.inj h, List.append_assoc]
    rfl
  · intro h
    have happend : pkgdir.str = (t.srcroot.str ++ ['/']) ++ name := by
      rw [h, List.append_assoc]
      rfl
    rw [happend, if_pos (List.prefix_append _ _), List.drop_left]

/-- The name of a directory below `SRCROOT` is made of its components. -/
theorem pkgName_eq_intercalate_iff (hroot : t.srcroot.path.parts ≠ []) {pkgdir : Directory}
    (hne : pkgdir ≠ t.srcroot) {name : PkgName} :
    t.pkgName pkgdir = some name ↔ pkgdir.path.root = t.srcroot.path.root ∧
      ∃ rel, pkgdir.path.parts = t.srcroot.path.parts ++ rel ∧ name = ['/'].intercalate rel := by
  rw [t.pkgName_eq_some_iff hne, Directory.str_eq_append_iff hroot hne]

/-- The directory `_root`. -/
def rootDir : Directory := t.srcroot.join rootPkg

theorem rootDir_parts : t.rootDir.path.root = t.srcroot.path.root ∧
    t.rootDir.path.parts = t.srcroot.path.parts ++ [rootPkg] := ⟨rfl, rfl⟩

theorem rootDir_ne : t.rootDir ≠ t.srcroot := fun h => by
  have hparts := congrArg (fun d => d.path.parts.length) h
  simp [rootDir_parts] at hparts

theorem pkgName_srcroot : t.pkgName t.srcroot = some rootPkg := if_pos rfl

theorem pkgName_rootDir (hroot : t.srcroot.path.parts ≠ []) :
    t.pkgName t.rootDir = some rootPkg :=
  (t.pkgName_eq_intercalate_iff hroot t.rootDir_ne).2 ⟨rfl, [rootPkg], rfl, by simp⟩

/-- Directories with the same name are the same, except for `SRCROOT` and `_root`. -/
theorem eq_of_pkgName_eq (hroot : t.srcroot.path.parts ≠ []) {d d' : Directory} {name : PkgName}
    (hd : t.pkgName d = some name) (hd' : t.pkgName d' = some name) :
    d = d' ∨ d = t.srcroot ∧ d' = t.rootDir ∨ d = t.rootDir ∧ d' = t.srcroot := by
  have hclash : ∀ d, d ≠ t.srcroot → t.pkgName d = some rootPkg → d = t.rootDir := by
    intro d hne hname
    refine Directory.str_injective ?_
    rw [(t.pkgName_eq_some_iff hne).1 hname,
      (t.pkgName_eq_some_iff t.rootDir_ne).1 (t.pkgName_rootDir hroot)]
  by_cases hne : d = t.srcroot
  · subst hne
    by_cases hne' : d' = t.srcroot
    · exact .inl hne'.symm
    · rw [t.pkgName_srcroot] at hd
      cases hd
      exact .inr (.inl ⟨rfl, hclash d' hne' hd'⟩)
  · by_cases hne' : d' = t.srcroot
    · subst hne'
      rw [t.pkgName_srcroot] at hd'
      cases hd'
      exact .inr (.inr ⟨hclash d hne hd, rfl⟩)
    · refine .inl (Directory.str_injective ?_)
      rw [(t.pkgName_eq_some_iff hne).1 hd, (t.pkgName_eq_some_iff hne').1 hd']

/-! ### The index -/

/-- The package that a request makes, if there is none of its name yet. -/
def makePkg (r : LoadRequest σ) : Option (LoadedPkg σ) :=
  (t.pkgName r.pkgdir).bind fun pkgname =>
    (t.findPkgIndexfile r.pkgdir).map fun (indexfile, st) =>
      ⟨pkgname, r.pkgdir, indexfile, st, r.isToplevel⟩

theorem makePkg_eq_some {r : LoadRequest σ} {pkg : LoadedPkg σ} (h : t.makePkg r = some pkg) :
    t.pkgName r.pkgdir = some pkg.name ∧ pkg.dir = r.pkgdir ∧ pkg.isToplevel = r.isToplevel := by
  obtain ⟨pkgname, hname, h⟩ := Option.bind_eq_some_iff.1 h
  obtain ⟨⟨indexfile, st⟩, -, rfl⟩ := Option.map_eq_some_iff.1 h
  exact ⟨hname, rfl, rfl⟩

/-- The first request for a package of a name. -/
def firstRequest (rs : List (LoadRequest σ)) (name : PkgName) : Option (LoadRequest σ) :=
  rs.find? fun r => t.pkgName r.pkgdir = some name

/-- `pkgindex` after some requests: each name stands for the package that its first request has
made. -/
def Indexed (rs : List (LoadRequest σ)) (pkgindex : PkgIndex σ) : Prop :=
  ∀ name, (∀ r, t.firstRequest rs name = some r → (t.makePkg r).isSome) ∧
    pkgindex.get? name = (t.firstRequest rs name).bind t.makePkg

theorem firstRequest_append (rs rs' : List (LoadRequest σ)) (name : PkgName) :
    t.firstRequest (rs ++ rs') name = (t.firstRequest rs name).or (t.firstRequest rs' name) :=
  List.find?_append

theorem pkgName_of_firstRequest {rs : List (LoadRequest σ)} {name : PkgName} {r : LoadRequest σ}
    (h : t.firstRequest rs name = some r) : t.pkgName r.pkgdir = some name := by
  simpa using List.find?_some h

/-- A further request is the first one for its name, if there was none. -/
theorem firstRequest_concat (rs : List (LoadRequest σ)) {r : LoadRequest σ} {pkgname : PkgName}
    (hr : t.pkgName r.pkgdir = some pkgname) (name : PkgName) :
    t.firstRequest (rs ++ [r]) name =
      if name = pkgname then some ((t.firstRequest rs name).getD r)
      else t.firstRequest rs name := by
  have hsingle : t.firstRequest [r] name = if name = pkgname then some r else none := by
    rw [firstRequest, List.find?_singleton, hr]
    simp [eq_comm]
  rw [firstRequest_append, hsingle]
  split_ifs <;> cases t.firstRequest rs name <;> rfl

theorem loadPkg_indexed {rs : List (LoadRequest σ)} {pkgindex pkgindex' : PkgIndex σ}
    {r : LoadRequest σ} {pkg : LoadedPkg σ} (hi : t.Indexed rs pkgindex)
    (h : t.loadPkg pkgindex r = .ok (pkg, pkgindex')) :
    t.Indexed (rs ++ [r]) pkgindex' ∧ ∃ name, t.pkgName r.pkgdir = some name ∧
      (t.firstRequest (rs ++ [r]) name).bind t.makePkg = some pkg := by
  unfold loadPkg at h
  cases hname : t.pkgName r.pkgdir with
  | none =>
    rw [hname] at h
    cases h
  | some pkgname =>
    obtain ⟨hmade, hget⟩ := hi pkgname
    have hfirst := t.firstRequest_concat rs hname
    rw [hname] at h
    dsimp only at h
    cases hlookup : pkgindex.get? pkgname with
    | some pkg' =>
      -- there is one of this name already
      rw [hlookup] at h
      cases h
      rw [hlookup] at hget
      obtain ⟨r₀, hr₀, hpkg⟩ := Option.bind_eq_some_iff.1 hget.symm
      have hsame : ∀ name, t.firstRequest (rs ++ [r]) name = t.firstRequest rs name := by
        intro name
        rw [hfirst]
        split_ifs with heq
        · subst heq
          rw [hr₀, Option.getD_some]
        · rfl
      refine ⟨fun name => ?_, pkgname, rfl, ?_⟩
      · rw [hsame]
        exact hi name
      · rw [hsame, ← hget]
    | none =>
      rw [hlookup] at h hget
      have hnone : t.firstRequest rs pkgname = none := by
        cases hr₀ : t.firstRequest rs pkgname with
        | none => rfl
        | some r₀ =>
          obtain ⟨pkg', hpkg'⟩ := Option.isSome_iff_exists.1 (hmade r₀ hr₀)
          rw [hr₀, Option.bind_some, hpkg'] at hget
          cases hget
      cases hindex : t.findPkgIndexfile r.pkgdir with
      | none =>
        rw [hindex] at h
        cases h
      | some e =>
        rw [hindex] at h
        cases h
        have hmake : t.makePkg r = some ⟨pkgname, r.pkgdir, e.1, e.2, r.isToplevel⟩ := by
          rw [makePkg, hname, Option.bind_some, hindex]
          rfl
        have hself : t.firstRequest (rs ++ [r]) pkgname = some r := by
          rw [hfirst, if_pos rfl, hnone, Option.getD_none]
        refine ⟨fun name => ?_, pkgname, rfl, by rw [hself]; exact hmake⟩
        by_cases heq : name = pkgname
        · subst heq
          rw [hself]
          refine ⟨fun r' hr' => ?_, ?_⟩
          · cases hr'
            rw [hmake]
            rfl
          · rw [Option.bind_some, hmake, Dict.set, Dict.get?_alter_self]
        · rw [hfirst, if_neg heq, Dict.set, Dict.get?_alter_ne _ heq]
          exact hi name

/-- **Whole runs**: a request is answered with the package of the first one of its name. -/
theorem loadAll_indexed {rs done : List (LoadRequest σ)} {pkgindex pkgindex' : PkgIndex σ}
    {pkgs : List (LoadedPkg σ)} (hi : t.Indexed done pkgindex)
    (h : t.loadAll pkgindex rs = .ok (pkgs, pkgindex')) :
    t.Indexed (done ++ rs) pkgindex' ∧
      List.Forall₂ (fun r pkg => ∃ name, t.pkgName r.pkgdir = some name ∧
        (t.firstRequest (done ++ rs) name).bind t.makePkg = some pkg) rs pkgs := by
  induction rs generalizing done pkgindex pkgs with
  | nil =>
    cases h
    rw [List.append_nil]
    exact ⟨hi, .nil⟩
  | cons r rs ih =>
    obtain ⟨⟨pkg, pkgindex₁⟩, hr, h⟩ := Machine.bind_eq_ok.1 h
    obtain ⟨⟨pkgs', pkgindex₂⟩, hrs, h⟩ := Machine.bind_eq_ok.1 h
    cases h
    obtain ⟨hi₁, name, hname, hfirst⟩ := t.loadPkg_indexed hi hr
    obtain ⟨hi₂, hall⟩ := ih hi₁ hrs
    rw [List.append_assoc, List.singleton_append] at hi₂ hall
    refine ⟨hi₂, .cons ⟨name, hname, ?_⟩ hall⟩
    obtain ⟨r₀, hr₀, hpkg⟩ := Option.bind_eq_some_iff.1 hfirst
    have hsplit : done ++ r :: rs = (done ++ [r]) ++ rs := by simp
    rw [hsplit, firstRequest_append, hr₀, Option.some_or]
    exact hpkg

/-- A package is loaded for the directory that was asked for, and it is a top-level package iff
that directory is one of those given to `main`. -/
def Answers (tops : List (LoadRequest σ)) (r : LoadRequest σ) (pkg : LoadedPkg σ) : Prop :=
  pkg.dir = r.pkgdir ∧ (pkg.isToplevel = true ↔ ∃ top ∈ tops, top.pkgdir = r.pkgdir)

theorem indexed_nil : t.Indexed [] [] := fun _ => ⟨nofun, rfl⟩

theorem loadAll_answers (hroot : t.srcroot.path.parts ≠ []) {tops deps : List (LoadRequest σ)}
    (htops : ∀ r ∈ tops, r.isToplevel = true) (hdeps : ∀ r ∈ deps, r.isToplevel = false)
    {pkgs : List (LoadedPkg σ)} {pkgindex : PkgIndex σ}
    (h : t.loadAll [] (tops ++ deps) = .ok (pkgs, pkgindex))
    (hclash : ¬ ((∃ r ∈ tops ++ deps, r.pkgdir = t.srcroot) ∧
      ∃ r ∈ tops ++ deps, r.pkgdir = t.rootDir)) :
    List.Forall₂ (Answers tops) (tops ++ deps) pkgs := by
  obtain ⟨-, hall⟩ := t.loadAll_indexed t.indexed_nil h
  rw [List.nil_append] at hall
  have hsame : ∀ r ∈ tops ++ deps, ∀ r' ∈ tops ++ deps, ∀ name,
      t.pkgName r.pkgdir = some name → t.pkgName r'.pkgdir = some name →
      r.pkgdir = r'.pkgdir := by
    intro r hr r' hr' name hname hname'
    rcases t.eq_of_pkgName_eq hroot hname hname' with heq | ⟨hd, hd'⟩ | ⟨hd, hd'⟩
    · exact heq
    · exact absurd ⟨⟨r, hr, hd⟩, r', hr', hd'⟩ hclash
    · exact absurd ⟨⟨r', hr', hd'⟩, r, hr, hd⟩ hclash
  refine List.Forall₂.imp ?_ ((List.forall₂_and_left _ _).2 ⟨fun r hr => hr, hall⟩)
  rintro r pkg ⟨hr, name, hname, hpkg⟩
  obtain ⟨r₀, hr₀, hmake⟩ := Option.bind_eq_some_iff.1 hpkg
  obtain ⟨-, hdir, htop⟩ := t.makePkg_eq_some hmake
  have hmem : r₀ ∈ tops ++ deps := List.mem_of_find?_eq_some hr₀
  have hdir₀ := hsame r₀ hmem r hr name (t.pkgName_of_firstRequest hr₀) hname
  refine ⟨hdir.trans hdir₀, htop ▸ ⟨fun h₀ => ?_, ?_⟩⟩
  · rcases List.mem_append.1 hmem with hmem | hmem
    · exact ⟨r₀, hmem, hdir₀⟩
    · rw [hdeps r₀ hmem] at h₀
      cases h₀
  · rintro ⟨top, htopmem, htopdir⟩
    -- a top-level package of the name comes before any dependency
    rw [firstRequest_append] at hr₀
    cases hfirst : t.firstRequest tops name with
    | some r₁ =>
      rw [hfirst, Option.some_or] at hr₀
      cases hr₀
      exact htops _ (List.mem_of_find?_eq_some hfirst)
    | none =>
      have := List.find?_eq_none.1 hfirst top htopmem
      rw [htopdir, hname] at this
      simp at this

/-- **Which package is loaded**, when `main` loads the top-level packages and then the resolution
loads dependencies, in any order and any number of times: always the right one, unless both
`SRCROOT` and the directory `_root` are asked for. -/
theorem loadAll_spec (hroot : t.srcroot.path.parts ≠ []) {tops deps : List (LoadRequest σ)}
    (htops : ∀ r ∈ tops, r.isToplevel = true) (hdeps : ∀ r ∈ deps, r.isToplevel = false)
    {pkgs : List (LoadedPkg σ)} {pkgindex : PkgIndex σ}
    (h : t.loadAll [] (tops ++ deps) = .ok (pkgs, pkgindex)) :
    List.Forall₂ (Answers tops) (tops ++ deps) pkgs ↔
      ¬ ((∃ r ∈ tops ++ deps, r.pkgdir = t.srcroot) ∧
        ∃ r ∈ tops ++ deps, r.pkgdir = t.rootDir) := by
  refine ⟨?_, t.loadAll_answers hroot htops hdeps h⟩
  obtain ⟨-, hall⟩ := t.loadAll_indexed t.indexed_nil h
  rw [List.nil_append] at hall
  rintro hanswers ⟨⟨r, hr, hdir⟩, r', hr', hdir'⟩
  -- both are answered with the package of the first request for the name
  have hfirst : ∀ r ∈ tops ++ deps, t.pkgName r.pkgdir = some rootPkg → ∃ pkg,
      (t.firstRequest (tops ++ deps) rootPkg).bind t.makePkg = some pkg ∧ pkg.dir = r.pkgdir := by
    intro r hr hname
    obtain ⟨i, rfl⟩ := List.get_of_mem hr
    obtain ⟨hlen, hall⟩ := List.forall₂_iff_get.1 hall
    obtain ⟨name, hname', hpkg⟩ := hall i i.2 (hlen ▸ i.2)
    rw [hname] at hname'
    cases hname'
    exact ⟨_, hpkg, ((List.forall₂_iff_get.1 hanswers).2 i i.2 (hlen ▸ i.2)).1⟩
  obtain ⟨pkg, hpkg, hpkgdir⟩ := hfirst r hr (hdir ▸ t.pkgName_srcroot)
  obtain ⟨pkg', hpkg', hpkgdir'⟩ := hfirst r' hr' (hdir' ▸ t.pkgName_rootDir hroot)
  cases hpkg.symm.trans hpkg'
  exact t.rootDir_ne (hdir'.symm.trans (hpkgdir'.symm.trans (hpkgdir.trans hdir)))

/-! ### The model of the resolution -/

/-- A directory named by its components below `SRCROOT`. -/
def nameOf (rel : List Text) : PkgName := if rel = [] then rootPkg else ['/'].intercalate rel

/-- A path that does not lead to the parent of a directory. -/
def Direct (dir : Directory) : Prop := ['.', '.'] ∉ dir.path.parts

instance (dir : Directory) : Decidable (Direct dir) :=
  inferInstanceAs (Decidable (['.', '.'] ∉ dir.path.parts))

/-- The packages of a source tree, where the directory `_root` is not looked at. -/
structure Represents (src : Source) : Prop where
  srcroot : src.srcroot = t.srcroot.path.parts
  names : ∀ dir ≠ t.rootDir, Direct dir → ∀ name, t.pkgName dir = some name →
    (name ∈ src.names ↔ (t.findPkgIndexfile dir).isSome)

/-- The directory has the given components below `SRCROOT`. -/
def Below (dir : Directory) (rel : List Text) : Prop :=
  dir.path.root = t.srcroot.path.root ∧ dir.path.parts = t.srcroot.path.parts ++ rel

section Refines

variable {t} {src : Source} {dir : Directory} {rel : List Text}

theorem Below.pkgName_eq (hroot : t.srcroot.path.parts ≠ []) (h : t.Below dir rel) :
    t.pkgName dir = some (nameOf rel) := by
  unfold nameOf
  split_ifs with hrel
  · subst hrel
    rw [Directory.ext_parts h.1 (h.2.trans (List.append_nil _))]
    exact t.pkgName_srcroot
  · refine (t.pkgName_eq_intercalate_iff hroot fun heq => hrel ?_).2 ⟨h.1, rel, h.2, rfl⟩
    rw [← List.append_cancel_left_eq t.srcroot.path.parts, ← h.2, heq, List.append_nil]

theorem below_pkgDir (hroot : t.srcroot.path.parts ≠ []) {name : PkgName} (hdir : dir ≠ t.rootDir)
    (h : t.pkgName dir = some name) : t.Below dir (pkgDir name) := by
  by_cases hne : dir = t.srcroot
  · subst hne
    rw [t.pkgName_srcroot] at h
    cases h
    exact ⟨rfl, (List.append_nil _).symm⟩
  · obtain ⟨hr, rel, hparts, rfl⟩ := (t.pkgName_eq_intercalate_iff hroot hne).1 h
    have hcomps : ∀ x ∈ rel, PathPart x := fun x hx =>
      dir.comps x (hparts ▸ List.mem_append_right _ hx)
    have hname : ['/'].intercalate rel ≠ rootPkg := fun heq => hdir <|
      (t.eq_of_pkgName_eq hroot (heq ▸ h) (t.pkgName_rootDir hroot)).elim id fun h =>
        h.elim (fun h => absurd h.1 hne) fun h => absurd h.2 t.rootDir_ne
    rw [pkgDir, if_neg hname, pathParts_intercalate hcomps]
    exact ⟨hr, hparts⟩

theorem below_srcroot : t.Below t.srcroot [] := ⟨rfl, (List.append_nil _).symm⟩

theorem Below.join (h : t.Below dir rel) {path : Text} (hpath : isabs path = false) :
    t.Below (dir.join path) (rel ++ pathParts path) := by
  have hjoin : (dir.join path).path =
      { dir.path with parts := dir.path.parts ++ (PurePath.parse path).parts } :=
    if_neg (by simp [hpath])
  refine ⟨by rw [hjoin]; exact h.1, ?_⟩
  rw [hjoin, PurePath.parse_parts]
  dsimp only
  rw [h.2, List.append_assoc]

theorem isabs_eq_true_iff {path : Text} : isabs path = true ↔ ['/'] <+: path := by
  cases path with
  | nil => simp [isabs]
  | cons c path =>
    simp only [isabs, List.head?_cons, beq_iff_eq, Option.some.injEq, List.cons_prefix_cons,
      List.nil_prefix, and_true]
    exact eq_comm

/-- The root of an absolute path that does not start with two slashes. -/
theorem root_parse {path : Text} (habs : isabs path = true) (h : (splitroot path).1 ≠ .slashes) :
    (PurePath.parse path).root = .slash := by
  have hne := root_ne_relative_of_isabs habs
  rw [PurePath.parse]
  cases hroot : (splitroot path).1 with
  | relative => exact absurd hroot hne
  | slash => rfl
  | slashes => exact absurd hroot h

/-- The same package is found, or the same kind of error is raised. -/
def Agrees : Except LoadError (LoadedPkg σ × PkgIndex σ) → Except ResolveError PkgName → Prop
  | .ok (pkg, _), .ok q => pkg.name = q
  | .error .assertion, .error .assertion => True
  | .error (.pkgNotFound _), .error (.pkgNotFound ..) => True
  | _, _ => False

theorem loadPkg_agrees (hroot : t.srcroot.path.parts ≠ []) (hsrc : t.Represents src)
    {rs : List (LoadRequest σ)} {pkgindex : PkgIndex σ} (hi : t.Indexed rs pkgindex)
    (hrs : ∀ r ∈ rs, r.pkgdir ≠ t.rootDir) {r : LoadRequest σ} (hr : r.pkgdir ≠ t.rootDir)
    (hdirect : Direct r.pkgdir) (hrel : t.Below r.pkgdir rel) (pkgpath : Text)
    (deppath : List (PkgName × Arch)) :
    Agrees (t.loadPkg pkgindex r) (match Pbuild.loadPkg src rel with
      | some q => .ok q
      | none => .error (.pkgNotFound pkgpath deppath)) := by
  have hname := hrel.pkgName_eq hroot
  have hmodel : Pbuild.loadPkg src rel =
      if nameOf rel ∈ src.names then some (nameOf rel) else none := rfl
  have hnames := hsrc.names _ hr hdirect _ hname
  rw [hmodel, loadPkg, hname]
  dsimp only
  cases hget : pkgindex.get? (nameOf rel) with
  | some pkg =>
    rw [(hi _).2] at hget
    obtain ⟨r₀, hr₀, hmake⟩ := Option.bind_eq_some_iff.1 hget
    obtain ⟨hname₀, hdir₀, -⟩ := t.makePkg_eq_some hmake
    have hpkg : pkg.name = nameOf rel :=
      Option.some.inj (hname₀.symm.trans (t.pkgName_of_firstRequest hr₀))
    have hmem : nameOf rel ∈ src.names := by
      have hsame : r₀.pkgdir = r.pkgdir := by
        rcases t.eq_of_pkgName_eq hroot (hpkg ▸ hname₀) hname with h | ⟨-, h⟩ | ⟨h, -⟩
        · exact h
        · exact absurd h hr
        · exact absurd h (hrs r₀ (List.mem_of_find?_eq_some hr₀))
      refine hnames.2 (hsame ▸ ?_)
      obtain ⟨_, -, hmap⟩ := Option.bind_eq_some_iff.1 hmake
      obtain ⟨e, he, -⟩ := Option.map_eq_some_iff.1 hmap
      rw [he]
      rfl
    rw [if_pos hmem]
    exact hpkg
  | none =>
    cases hindex : t.findPkgIndexfile r.pkgdir with
    | some e =>
      rw [if_pos (hnames.2 (by rw [hindex]; rfl))]
      exact rfl
    | none =>
      rw [if_neg fun hmem => by simpa [hindex] using hnames.1 hmem]
      exact trivial

theorem pkgName_eq_none (hroot : t.srcroot.path.parts ≠ []) (h : ¬ ∃ rel, t.Below dir rel) :
    t.pkgName dir = none := by
  have hne : dir ≠ t.srcroot := fun heq => h ⟨[], by rw [heq], by rw [heq, List.append_nil]⟩
  cases hname : t.pkgName dir with
  | none => rfl
  | some name =>
    obtain ⟨hr, rel, hparts, -⟩ := (t.pkgName_eq_intercalate_iff hroot hne).1 hname
    exact absurd ⟨rel, hr, hparts⟩ h

/-- The directory that an entry names. -/
def dependencyDir (t : SrcTree σ) (pkg : LoadedPkg σ) (pkgpath : Text) : Directory :=
  if ['.', '/'] <+: pkgpath then pkg.dir.join pkgpath else t.srcroot.join pkgpath

/-- **Dependencies are found on disk as in the model of the resolution**, for paths without `..`:
the same packages, and the same kinds of errors. -/
theorem loadDependencyPkg_refines (hslash : t.srcroot.path.root = .slash)
    (hroot : t.srcroot.path.parts ≠ []) (hsrc : t.Represents src) {rs : List (LoadRequest σ)}
    {pkgindex : PkgIndex σ} (hi : t.Indexed rs pkgindex) (hrs : ∀ r ∈ rs, r.pkgdir ≠ t.rootDir)
    {pkg : LoadedPkg σ} (hpkg : pkgindex.get? pkg.name = some pkg) (arch : Arch)
    (deppath : List (LoadedPkg σ × Arch)) {pkgpath : Text}
    (hpath : (splitroot pkgpath).1 ≠ .slashes)
    (hdir : t.dependencyDir pkg pkgpath ≠ t.rootDir)
    (hdirect : Direct (t.dependencyDir pkg pkgpath)) :
    Agrees (t.loadDependencyPkg pkgindex pkgpath (deppath ++ [(pkg, arch)]))
      (Pbuild.loadDependencyPkg src pkgpath
        ((deppath ++ [(pkg, arch)]).map fun e => (e.1.name, e.2))) := by
  have hmine : t.loadDependencyPkg pkgindex pkgpath (deppath ++ [(pkg, arch)]) =
      t.loadPkg pkgindex
        ⟨t.dependencyDir pkg pkgpath, false, deppath ++ [(pkg, arch)], pkgpath⟩ := by
    simp only [loadDependencyPkg, List.getLast?_append, List.getLast?_singleton, Option.some_or]
    rfl
  rw [hmine]
  simp only [Pbuild.loadDependencyPkg, List.map_append, List.map_cons, List.map_nil,
    List.getLast?_append, List.getLast?_singleton, Option.some_or]
  obtain ⟨r₀, hr₀, hmake⟩ := Option.bind_eq_some_iff.1 ((hi _).2 ▸ hpkg)
  obtain ⟨hname, hpkgdir, -⟩ := t.makePkg_eq_some hmake
  have hmem : r₀ ∈ rs := List.mem_of_find?_eq_some hr₀
  have hbelow : t.Below pkg.dir (pkgDir pkg.name) :=
    hpkgdir ▸ below_pkgDir hroot (hrs r₀ hmem) hname
  have hjoin : isabs pkgpath = true → (t.srcroot.join pkgpath).path = PurePath.parse pkgpath :=
    fun habs => if_pos habs
  split_ifs with hdot habs hprefix
  · -- relative to the package
    refine loadPkg_agrees hroot hsrc hi hrs hdir hdirect ?_ _ _
    have hrel : isabs pkgpath = false := by
      obtain ⟨u, rfl⟩ := hdot
      rfl
    rw [dependencyDir, if_pos hdot]
    exact hbelow.join hrel
  · -- an absolute path below `SRCROOT`
    refine loadPkg_agrees hroot hsrc hi hrs hdir hdirect ?_ _ _
    rw [dependencyDir, if_neg hdot]
    refine ⟨?_, ?_⟩
    · rw [hjoin (isabs_eq_true_iff.2 habs), hslash, root_parse (isabs_eq_true_iff.2 habs) hpath]
    · rw [hjoin (isabs_eq_true_iff.2 habs), PurePath.parse_parts, ← hsrc.srcroot]
      exact (List.prefix_iff_eq_append.1 hprefix).symm
  · -- an absolute path that is not below it
    have hnone : t.pkgName (t.dependencyDir pkg pkgpath) = none := by
      refine pkgName_eq_none hroot ?_
      rintro ⟨rel, -, hparts⟩
      rw [dependencyDir, if_neg hdot, hjoin (isabs_eq_true_iff.2 habs), PurePath.parse_parts,
        ← hsrc.srcroot] at hparts
      exact hprefix (hparts ▸ List.prefix_append _ _)
    rw [loadPkg, hnone]
    exact trivial
  · refine loadPkg_agrees hroot hsrc hi hrs hdir hdirect ?_ _ _
    rw [dependencyDir, if_neg hdot]
    have hrel : isabs pkgpath = false := Bool.eq_false_iff.2 fun h => habs (isabs_eq_true_iff.1 h)
    exact below_srcroot.join hrel

end Refines

end SrcTree

/-! ### The packages that `main` is given -/

/-- The loop of `main` that finds `SRCROOT`; it ends the program when the arguments are in
different trees. -/
def mainSrcroot (tests : FileTests) (repr : Text → Text) (fuel : ℕ) :
    Option PurePath → List PurePath → Option (Except Text (Option PurePath))
  | srcroot, [] => some (.ok srcroot)
  | srcroot, pkgdir :: pkgdirs =>
    match findSrcroot tests repr fuel pkgdir with
    | none => none
    | some (.exits message) => some (.error message)
    | some (.returns dir) =>
      match srcroot with
      | none => mainSrcroot tests repr fuel (some dir) pkgdirs
      | some srcroot =>
        if dir ≠ srcroot then
          some (.error ("error: Mixed SRCROOT: ".toList ++ repr srcroot.str ++ ", ".toList ++
            repr dir.str))
        else mainSrcroot tests repr fuel (some srcroot) pkgdirs

/-- A directory is the given one or one of its parents. -/
def AtOrAbove (dir pkgdir : PurePath) : Prop :=
  dir.root = pkgdir.root ∧ dir.parts <+: pkgdir.parts

theorem climb_atOrAbove {found : PurePath → Bool} {fuel : ℕ} {pkgdir dir : PurePath}
    (h : climb found fuel pkgdir = some (some dir)) : AtOrAbove dir pkgdir := by
  induction fuel generalizing pkgdir with
  | zero => cases h
  | succ fuel ih =>
    rw [climb] at h
    split_ifs at h
    · cases h
    · cases h
      exact ⟨rfl, List.prefix_rfl⟩
    · obtain ⟨hroot, hparts⟩ := ih h
      exact ⟨hroot, hparts.trans (List.dropLast_prefix _)⟩

theorem findSrcroot_atOrAbove {tests : FileTests} {repr : Text → Text} {fuel : ℕ}
    {pkgdir dir : PurePath} (h : findSrcroot tests repr fuel pkgdir = some (.returns dir)) :
    AtOrAbove dir pkgdir := by
  rw [findSrcroot] at h
  split at h
  · cases h
  · cases h
    exact climb_atOrAbove ‹_›
  · split at h
    · cases h
    · cases h
      exact climb_atOrAbove ‹_›
    · cases h

theorem mainSrcroot_atOrAbove {tests : FileTests} {repr : Text → Text} {fuel : ℕ}
    {srcroot : Option PurePath} {pkgdirs : List PurePath} {dir : PurePath}
    (h : mainSrcroot tests repr fuel srcroot pkgdirs = some (.ok (some dir))) :
    (∀ d, srcroot = some d → d = dir) ∧ ∀ pkgdir ∈ pkgdirs, AtOrAbove dir pkgdir := by
  induction pkgdirs generalizing srcroot with
  | nil =>
    cases h
    exact ⟨fun d hd => (Option.some.inj hd).symm, nofun⟩
  | cons pkgdir pkgdirs ih =>
    rw [mainSrcroot] at h
    cases hfind : findSrcroot tests repr fuel pkgdir with
    | none =>
      rw [hfind] at h
      cases h
    | some e =>
      rw [hfind] at h
      cases e with
      | exits message => cases h
      | returns dir' =>
        have habove := findSrcroot_atOrAbove hfind
        cases srcroot with
        | none =>
          obtain ⟨hdir, hall⟩ := ih h
          exact ⟨nofun, List.forall_mem_cons.2 ⟨hdir dir' rfl ▸ habove, hall⟩⟩
        | some srcroot =>
          dsimp only at h
          split_ifs at h with heq
          · cases h
          · obtain ⟨hdir, hall⟩ := ih h
            obtain rfl := hdir srcroot rfl
            refine ⟨fun d hd => (Option.some.inj hd).symm, List.forall_mem_cons.2 ⟨?_, hall⟩⟩
            rwa [not_not.1 heq] at habove

/-- What `main` calls `load_pkg` with. -/
def toplevelRequest {σ : Type} (dir : Directory) : LoadRequest σ :=
  { pkgdir := dir, isToplevel := true }

/-- `top_level_pkgs`: packages that are given more than once are in the list once.  There is only
one package of a name. -/
def topLevelPkgs {σ : Type} (pkgs : List (LoadedPkg σ)) : List (LoadedPkg σ) :=
  pkgs.foldl (fun top pkg => if pkg.name ∈ top.map LoadedPkg.name then top else top ++ [pkg]) []

namespace SrcTree

variable {σ : Type} {t : SrcTree σ}

theorem below_of_atOrAbove {dir : Directory} (h : AtOrAbove t.srcroot.path dir.path) :
    ∃ rel, t.Below dir rel := by
  obtain ⟨hroot, rel, hparts⟩ := h
  exact ⟨rel, hroot.symm, hparts.symm⟩

/-- A request below `SRCROOT` fails only because there is no package. -/
theorem loadPkg_below (hroot : t.srcroot.path.parts ≠ []) {pkgindex : PkgIndex σ}
    {r : LoadRequest σ} {e : LoadError} {rel : List Text} (hbelow : t.Below r.pkgdir rel)
    (h : t.loadPkg pkgindex r = .error e) :
    t.findPkgIndexfile r.pkgdir = none ∧ e = .pkgNotFound (t.notFoundMessage (nameOf rel) r) := by
  rw [loadPkg, hbelow.pkgName_eq hroot] at h
  dsimp only at h
  split at h
  · cases h
  · split at h
    · cases h
    · cases h
      exact ⟨‹_›, rfl⟩

theorem loadAll_below (hroot : t.srcroot.path.parts ≠ []) {rs : List (LoadRequest σ)}
    (hrs : ∀ r ∈ rs, ∃ rel, t.Below r.pkgdir rel) {pkgindex : PkgIndex σ} {e : LoadError}
    (h : t.loadAll pkgindex rs = .error e) : ∃ r ∈ rs, ∃ rel, t.Below r.pkgdir rel ∧
      t.findPkgIndexfile r.pkgdir = none ∧
      e = .pkgNotFound (t.notFoundMessage (nameOf rel) r) := by
  induction rs generalizing pkgindex with
  | nil => cases h
  | cons r rs ih =>
    obtain ⟨rel, hrel⟩ := hrs r List.mem_cons_self
    rw [loadAll] at h
    rcases Machine.bind_eq_error.1 h with hr | ⟨⟨pkg, pkgindex₁⟩, -, h⟩
    · exact ⟨r, List.mem_cons_self, rel, hrel, loadPkg_below hroot hrel hr⟩
    · rcases Machine.bind_eq_error.1 h with hrs' | ⟨⟨pkgs, pkgindex₂⟩, -, h⟩
      · obtain ⟨r', hr', h'⟩ := ih (fun r' hr' => hrs r' (.tail _ hr')) hrs'
        exact ⟨r', .tail _ hr', h'⟩
      · cases h

theorem loadAll_toplevel (hroot : t.srcroot.path.parts ≠ []) {dirs : List Directory}
    {pkgs : List (LoadedPkg σ)} {pkgindex : PkgIndex σ}
    (h : t.loadAll [] (dirs.map toplevelRequest) = .ok (pkgs, pkgindex))
    (hclash : ¬ (t.srcroot ∈ dirs ∧ t.rootDir ∈ dirs)) :
    pkgs.map LoadedPkg.dir = dirs ∧ (∀ pkg ∈ pkgs, t.pkgName pkg.dir = some pkg.name) ∧
      ∀ pkg ∈ pkgs, pkg.isToplevel = true := by
  have hdir : ∀ dir, (∃ r ∈ dirs.map (toplevelRequest (σ := σ)) ++ [], r.pkgdir = dir) ↔
      dir ∈ dirs := by
    intro dir
    simp [toplevelRequest]
  have hanswers : List.Forall₂ (SrcTree.Answers (dirs.map toplevelRequest))
      (dirs.map toplevelRequest ++ []) pkgs :=
    t.loadAll_answers hroot (by simp [toplevelRequest]) (by simp) (by rwa [List.append_nil])
      (by rwa [hdir, hdir])
  rw [List.append_nil, List.forall₂_map_left_iff] at hanswers
  obtain ⟨-, hall⟩ := t.loadAll_indexed t.indexed_nil h
  obtain ⟨hlen, hall⟩ := List.forall₂_iff_get.1 hall
  obtain ⟨hlen', hanswers'⟩ := List.forall₂_iff_get.1 hanswers
  refine ⟨?_, fun pkg hpkg => ?_, fun pkg hpkg => ?_⟩
  · have heq : List.Forall₂ (fun d d' => d = d') dirs (pkgs.map LoadedPkg.dir) :=
      List.forall₂_map_right_iff.2 (hanswers.imp fun _ _ h => h.1.symm)
    rw [List.forall₂_eq_eq_eq] at heq
    exact heq.symm
  · obtain ⟨i, rfl⟩ := List.get_of_mem hpkg
    obtain ⟨name, hname, hpkg⟩ := hall i (i.2.trans_eq hlen.symm) i.2
    obtain ⟨r₀, -, hmake⟩ := Option.bind_eq_some_iff.1 hpkg
    obtain ⟨hname₀, hdir₀, -⟩ := t.makePkg_eq_some hmake
    exact hdir₀ ▸ hname₀
  · obtain ⟨i, rfl⟩ := List.get_of_mem hpkg
    refine (hanswers' i (i.2.trans_eq hlen'.symm) i.2).2.2 ?_
    exact ⟨_, List.mem_map_of_mem (List.get_mem _ _), rfl⟩

end SrcTree

theorem pathPart_resolvePkgdirs {cwd : WorkingDir} {args : List Text} {pkgdir : PurePath}
    (h : pkgdir ∈ resolvePkgdirs cwd args) : ∀ x ∈ pkgdir.parts, PathPart x := by
  unfold resolvePkgdirs at h
  split_ifs at h
  · rw [List.mem_singleton.1 h]
    exact fun x hx => PurePath.pathPart_parse hx
  · obtain ⟨arg, -, rfl⟩ := List.mem_map.1 h
    exact fun x hx => PurePath.pathPart_parse hx

/-- The directories that the arguments name. -/
def pkgDirectories (cwd : WorkingDir) (args : List Text) : List Directory :=
  (resolvePkgdirs cwd args).attach.map fun p =>
    ⟨p.1, root_ne_relative cwd p.2, pathPart_resolvePkgdirs p.2⟩

theorem topLevelPkgs_spec {σ : Type} (pkgs : List (LoadedPkg σ)) :
    (topLevelPkgs pkgs).Sublist pkgs ∧ ((topLevelPkgs pkgs).map LoadedPkg.name).Nodup ∧
      ∀ pkg ∈ pkgs, pkg.name ∈ (topLevelPkgs pkgs).map LoadedPkg.name := by
  refine Machine.foldl_rule (I := fun done (top : List (LoadedPkg σ)) => top.Sublist done ∧
    (top.map LoadedPkg.name).Nodup ∧ ∀ pkg ∈ done, pkg.name ∈ top.map LoadedPkg.name)
    ⟨.slnil, List.nodup_nil, nofun⟩ ?_
  rintro done pkg _ top - ⟨hsub, hnodup, hmem⟩
  split_ifs with hname
  · refine ⟨hsub.trans (List.sublist_append_left _ _), hnodup, fun pkg' hpkg' => ?_⟩
    rcases List.mem_append.1 hpkg' with hpkg' | hpkg'
    · exact hmem pkg' hpkg'
    · exact List.mem_singleton.1 hpkg' ▸ hname
  · refine ⟨hsub.append_right [pkg], ?_, fun pkg' hpkg' => ?_⟩
    · rw [List.map_append]
      exact hnodup.append (List.nodup_singleton _) (by simpa using hname)
    · rw [List.map_append]
      rcases List.mem_append.1 hpkg' with hpkg' | hpkg'
      · exact List.mem_append_left _ (hmem pkg' hpkg')
      · exact List.mem_append_right _ (List.mem_singleton.1 hpkg' ▸ List.mem_singleton_self _)

/-- A directory below `/w`. -/
def sampleDir (rel : List Text) (h : ∀ x ∈ rel, PathPart x) : Directory where
  path := ⟨.slash, "w".toList :: rel⟩
  absolute := by simp
  comps := List.forall_mem_cons.2 ⟨by decide, h⟩

/-- `/w/lib` -/
def libDir : Directory := sampleDir ["lib".toList] (by decide)

/-- `/w/app` -/
def appDir : Directory := sampleDir ["app".toList] (by decide)

/-- `/w`, with two packages. -/
def sampleTree : SrcTree Unit where
  srcroot := sampleDir [] (by decide)
  stat p := if p = libDir.path.child "Makefile".toList ∨ p = appDir.path.child "pbuild.sh".toList
    then some () else none
  isDir _ := false
  repr := id

theorem sampleTree_srcroot_notMem : sampleTree.srcroot ∉ [appDir, libDir] := by decide

/-- `app` and `lib` are top-level packages, and `app` needs `lib`. -/
def sampleRequests : List (LoadRequest Unit) × List (LoadRequest Unit) :=
  ([toplevelRequest appDir, toplevelRequest libDir, toplevelRequest appDir],
    [⟨libDir, false, [], "lib".toList⟩, ⟨libDir, false, [], "lib".toList⟩])

theorem loadAll_sample : ∃ pkgs pkgindex,
    sampleTree.loadAll [] (sampleRequests.1 ++ sampleRequests.2) = .ok (pkgs, pkgindex) ∧
    List.Forall₂ (SrcTree.Answers sampleRequests.1) (sampleRequests.1 ++ sampleRequests.2)
      pkgs := by
  have hload : ∃ pkgs pkgindex, sampleTree.loadAll []
      (sampleRequests.1 ++ sampleRequests.2) = .ok (pkgs, pkgindex) := ⟨_, _, rfl⟩
  obtain ⟨pkgs, pkgindex, hload⟩ := hload
  refine ⟨pkgs, pkgindex, hload, (sampleTree.loadAll_spec (by decide) (by decide) (by decide)
    hload).2 ?_⟩
  rintro ⟨⟨r, hr, hroot⟩, -⟩
  have hdirs : ∀ r ∈ sampleRequests.1 ++ sampleRequests.2, r.pkgdir ∈ [appDir, libDir] := by decide
  exact sampleTree_srcroot_notMem (hroot ▸ hdirs r hr)

theorem pkgName_libDir : sampleTree.pkgName libDir = some "lib".toList := by decide

theorem pkgName_appDir : sampleTree.pkgName appDir = some "app".toList := by decide

/-- The model of the tree. -/
def sampleSource : Source :=
  { srcroot := ["w".toList], pkgs := [("lib".toList, {}), ("app".toList, {})] }

theorem findPkgIndexfile_isSome_iff (dir : Directory) :
    (sampleTree.findPkgIndexfile dir).isSome ↔ dir = libDir ∨ dir = appDir := by
  have hchild : ∀ (dir' : Directory) (f f' : Text), dir.path.child f = dir'.path.child f' →
      dir = dir' := by
    intro dir' f f' heq
    obtain ⟨hroot, hparts⟩ := PurePath.mk.inj heq
    exact Directory.ext_parts hroot (List.append_inj_left' hparts rfl)
  constructor
  · intro h
    obtain ⟨e, he⟩ := Option.isSome_iff_exists.1 h
    obtain ⟨f, -, hf⟩ := List.exists_of_findSome?_eq_some he
    obtain ⟨st, hst, -⟩ := Option.map_eq_some_iff.1 hf
    by_cases hmem : dir.path.child f = libDir.path.child "Makefile".toList ∨
        dir.path.child f = appDir.path.child "pbuild.sh".toList
    · exact hmem.imp (hchild _ _ _) (hchild _ _ _)
    · rw [show sampleTree.stat (dir.path.child f) = none from if_neg hmem] at hst
      cases hst
  · rintro (rfl | rfl) <;> decide

theorem sampleTree_represents : sampleTree.Represents sampleSource where
  srcroot := rfl
  names dir hdir _ name hname := by
    have hmem : name ∈ sampleSource.names ↔ name = "lib".toList ∨ name = "app".toList := by
      simp [Source.names, sampleSource]
    have hsame : ∀ dir' name', sampleTree.pkgName dir' = some name' → name' ≠ rootPkg →
        (name = name' ↔ dir = dir') := by
      intro dir' name' hname' hne
      constructor
      · rintro rfl
        rcases sampleTree.eq_of_pkgName_eq (by decide) hname hname' with h | ⟨h, -⟩ | ⟨h, -⟩
        · exact h
        · subst h
          rw [sampleTree.pkgName_srcroot] at hname
          exact absurd (Option.some.inj hname).symm hne
        · exact absurd h hdir
      · rintro rfl
        exact Option.some.inj (hname.symm.trans hname')
    rw [hmem, findPkgIndexfile_isSome_iff, hsame _ _ pkgName_libDir (by decide),
      hsame _ _ pkgName_appDir (by decide)]

/-- The application names the library. -/
theorem loadDependencyPkg_sample :
    let pkg : LoadedPkg Unit := ⟨"app".toList, appDir, "pbuild.sh".toList, (), true⟩
    SrcTree.Agrees (sampleTree.loadDependencyPkg [("app".toList, pkg)] "lib".toList
        ([] ++ [(pkg, .x86_64)]))
      (loadDependencyPkg sampleSource "lib".toList
        (([] ++ [(pkg, .x86_64)] : List (LoadedPkg Unit × Arch)).map fun e =>
          (e.1.name, e.2))) := by
  intro pkg
  have hload : sampleTree.loadPkg [] (toplevelRequest appDir) = .ok (pkg, [("app".toList, pkg)]) :=
    rfl
  have hi := (sampleTree.loadPkg_indexed sampleTree.indexed_nil hload).1
  refine SrcTree.loadDependencyPkg_refines rfl (by decide) sampleTree_represents hi ?_ rfl .x86_64
    [] (by decide) (by decide +kernel) (by decide +kernel)
  intro r hr
  rw [List.mem_singleton.1 hr]
  decide +kernel

/-- `/w` has a `.git` directory. -/
def sampleTests : FileTests where
  isDir p := p = ⟨.slash, ["w".toList, ".git".toList]⟩
  isFile _ := false

/-- `/w/lib`, as the current directory. -/
def sampleCwd : WorkingDir := ⟨"/w/lib".toList, rfl⟩

/-- The arguments of `pbuild ../app .` -/
def sampleArgs : List Text := ["../app".toList, ".".toList]

theorem pkgDirectories_sample : pkgDirectories sampleCwd sampleArgs = [appDir, libDir] := by
  decide +kernel

theorem mainSrcroot_sample : mainSrcroot sampleTests sampleTree.repr 3 none
    (resolvePkgdirs sampleCwd sampleArgs) = some (.ok (some sampleTree.srcroot.path)) := by
  rfl

end Pbuild
