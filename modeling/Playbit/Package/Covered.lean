import Playbit.Machine.ListLemmas
import Playbit.Package.Scan

/-!
# What the scan covers

A package has sources of its own, named relative to its directory: the index file, the files in the
directory, and the `CHECK` entries that are files.  The others are in `CHECK` directories.  As long
as no `CHECK` directory has a file that is newer than all own sources before it (it is *quiet*), the
loop of `Pkg.resolve_sources` has an own source as its reference file, and every directory that it
comes to is seen (`ScannedPkg.Scanned`).

So the scan finds the latest source if that is an own source, or is in a directory with only quiet
ones before it (`resolveSources_latest`); in particular if at most one `CHECK` entry is a directory
(`ScannedPkg.resolveSources_eq_sources`), which is how the runs of `main` are modelled.  After a
directory that is not quiet, `newest_file` names a file that as a rule does not exist, and what is
newer in the next directory is lost (`checkedPkg_not_latest`).
-/

namespace Pbuild

open Python Find

variable {fs : FileSystem} {srcroot : List Text} {archs : List Arch}

/-! ### The sources of a package -/

/-- An `IGNORE` entry leaves out the file at `loc`, if its condition holds. -/
def leavesOut (isDir : Text → Bool) (pathstr : Text) (loc : List Text) : Bool :=
  if isDir (ignorePath pathstr) then
    loc.inits.any fun q =>
      decide (q.length + 2 ≤ loc.length) && decide (ignorePath pathstr = joinPath ['.'] q)
  else decide (ignorePath pathstr = joinPath ['.'] loc)

theorem leftOut_iff_exists {isDir : Text → Bool} {ignore : IgnoreEntries} {loc : List Text} :
    LeftOut isDir archs ignore loc ↔
      ∃ e ∈ ignore, evalIgnoreCond e.2 archs = true ∧ leavesOut isDir e.1 loc = true := by
  refine exists_congr fun e => and_congr_right fun _ => and_congr_right fun _ => ?_
  unfold leavesOut
  cases isDir (ignorePath e.1) with
  | false => simp
  | true =>
    simp only [Bool.true_eq_false, false_and, false_or, true_and, if_true, List.any_eq_true,
      List.mem_inits, Bool.and_eq_true, decide_eq_true_eq]
    constructor
    · rintro ⟨q, c, c', r, rfl, hpath⟩
      exact ⟨q, List.prefix_append _ _, by simp, hpath⟩
    · rintro ⟨q, ⟨r, rfl⟩, hlen, hpath⟩
      rw [List.length_append] at hlen
      match r with
      | c :: c' :: r => exact ⟨q, c, c', r, rfl, hpath⟩
      | [_] =>
        rw [List.length_singleton] at hlen
        omega
      | [] =>
        rw [List.length_nil] at hlen
        omega

/-- The files below a directory. -/
def filesBelow : Option FsNode → List (List Text × Leaf)
  | some (.dir _ tree) => tree.entries.nodes.filterMap fun x =>
    match x.2 with
    | .leaf l => some (x.1, l)
    | .dir _ => none
  | _ => []

theorem mem_filesBelow {n : Option FsNode} {loc : List Text} {l : Leaf} :
    (loc, l) ∈ filesBelow n ↔
      ∃ mtime tree, n = some (.dir mtime tree) ∧ (loc, .leaf l) ∈ tree.entries.nodes := by
  constructor
  · intro h
    rcases n with _ | (_ | ⟨mtime, tree⟩)
    · cases h
    · cases h
    · obtain ⟨⟨loc, n⟩, hx, ht⟩ := List.mem_filterMap.1 h
      cases n with
      | dir mtime => cases ht
      | leaf l =>
        cases ht
        exact ⟨mtime, tree, rfl, hx⟩
  · rintro ⟨mtime, tree, rfl, hx⟩
    exact List.mem_filterMap.2 ⟨(loc, .leaf l), hx, rfl⟩

/-- What a `CHECK` entry stands for if it is a file. -/
def leafSources : Option FsNode → List SourceFile
  | some (.leaf l) => [{ mtime := l.mtime }]
  | _ => []

/-- What a `CHECK` entry stands for. -/
def nodeSources : Option FsNode → List SourceFile
  | some (.leaf l) => [{ mtime := l.mtime }]
  | n => (filesBelow n).map fun x => { mtime := x.2.mtime }

section Sources

variable (fs : FileSystem) (srcroot : List Text) (pkg : ScannedPkg)

/-- `IGNORE .` applies. -/
def ScannedPkg.IgnoresAll (archs : List Arch) : Prop :=
  ∃ e ∈ pkg.ignore, e.1 = ".".toList ∧ evalIgnoreCond e.2 archs = true

/-- The `IGNORE` entries that are about a file in the package directory. -/
def ScannedPkg.ignoreOf (loc : List Text) : IgnoreEntries :=
  pkg.ignore.filter fun e => decide (e.1 = ".".toList) ||
    leavesOut (fun t => fs.isDir (joinDir pkg.dir t)) e.1 loc

/-- The files in the package directory, other than the index file. -/
def ScannedPkg.dirSources : List SourceFile :=
  ((filesBelow (fs.node pkg.dir)).filter fun x => x.1 ≠ [pkg.indexfile]).map fun x =>
    { mtime := x.2.mtime, ignore := (pkg.ignoreOf fs x.1).map Prod.snd }

/-- All sources of a package. -/
def ScannedPkg.sources : PkgSources where
  index := pkg.indexMtime
  files := pkg.dirSources fs ++
    pkg.check.flatMap fun filename => nodeSources (fs.node (checkPath srcroot pkg.dir filename))

/-- The package with other `CHECK` entries. -/
def ScannedPkg.withCheck (check : List Text) : ScannedPkg := { pkg with check }

/-- The sources that are named relative to the package directory: those in it, and what is a file
among the `CHECK` entries `l`. -/
def ScannedPkg.ownSources (l : List Text) : PkgSources where
  index := pkg.indexMtime
  files := pkg.dirSources fs ++
    l.flatMap fun filename => leafSources (fs.node (checkPath srcroot pkg.dir filename))

/-- The times of the files below a `CHECK` directory. -/
def ScannedPkg.checkTimes (filename : Text) : List ℤ :=
  (filesBelow (fs.node (checkPath srcroot pkg.dir filename))).map fun x => x.2.mtime

/-- Nothing in the directory `filename` is newer than the sources of the package itself, as far as
they come before it. -/
def ScannedPkg.Quiet (archs : List Arch) (l : List Text) (filename : Text) : Prop :=
  ∀ t ∈ pkg.checkTimes fs srcroot filename,
    ∃ u ∈ (pkg.ownSources fs srcroot l).times archs, t ≤ u

/-- This is so for all directories among the first `CHECK` entries. -/
def ScannedPkg.AllQuiet (archs : List Arch) (l : List Text) : Prop :=
  ∀ l₁ filename l₂, l = l₁ ++ filename :: l₂ → pkg.Quiet fs srcroot archs l₁ filename

/-- A time of a source of the package itself, or of a file in a `CHECK` directory such that all
directories before it are quiet. -/
def ScannedPkg.Covered (archs : List Arch) (t : ℤ) : Prop :=
  t ∈ (pkg.ownSources fs srcroot pkg.check).times archs ∨
  ∃ l₁ filename l₂, pkg.check = l₁ ++ filename :: l₂ ∧
    t ∈ pkg.checkTimes fs srcroot filename ∧ pkg.AllQuiet fs srcroot archs l₁

/-- What is assumed of a package: names without newlines, `IGNORE` entries without special
characters, and an index file that is no link, or an older one. -/
structure ScannedPkg.Plain : Prop where
  noNewlines : fs.NoNewlines
  ignore : ∀ e ∈ pkg.ignore, IgnorablePath e.1
  index : ∃ t ≤ pkg.indexMtime, fs.mtime (joinDir pkg.dir pkg.indexfile) = some t
  srcroot : ∀ c ∈ srcroot, PathPart c

end Sources

variable {pkg : ScannedPkg}

namespace ScannedPkg

theorem allQuiet_nil : pkg.AllQuiet fs srcroot archs [] := by
  intro l₁ filename l₂ h
  simp at h

theorem allQuiet_concat {l : List Text} {filename : Text} :
    pkg.AllQuiet fs srcroot archs (l ++ [filename]) ↔
      pkg.AllQuiet fs srcroot archs l ∧ pkg.Quiet fs srcroot archs l filename :=
  Machine.forall_concat_split_iff

theorem mem_checkTimes {filename : Text} {t : ℤ} :
    t ∈ pkg.checkTimes fs srcroot filename ↔ ∃ mtime tree loc l,
      fs.node (checkPath srcroot pkg.dir filename) = some (.dir mtime tree) ∧
      (loc, .leaf l) ∈ tree.entries.nodes ∧ l.mtime = t := by
  simp only [checkTimes, List.mem_map, Prod.exists, mem_filesBelow]
  constructor
  · rintro ⟨loc, l, ⟨mtime, tree, hnode, hx⟩, ht⟩
    exact ⟨mtime, tree, loc, l, hnode, hx, ht⟩
  · rintro ⟨mtime, tree, loc, l, hnode, hx, ht⟩
    exact ⟨loc, l, ⟨mtime, tree, hnode, hx⟩, ht⟩

theorem checkTimes_of_leaf {filename : Text} {l : Leaf}
    (h : fs.node (checkPath srcroot pkg.dir filename) = some (.leaf l)) :
    pkg.checkTimes fs srcroot filename = [] := by
  rw [checkTimes, h]
  rfl

theorem ignored_mk (mtime : ℤ) : SourceFile.ignored { mtime } archs = false := rfl

theorem mem_times_ownSources_concat {l : List Text} {filename : Text} {t : ℤ} :
    t ∈ (pkg.ownSources fs srcroot (l ++ [filename])).times archs ↔
      t ∈ (pkg.ownSources fs srcroot l).times archs ∨
      ∃ f, fs.node (checkPath srcroot pkg.dir filename) = some (.leaf f) ∧ f.mtime = t := by
  have hleaf : (∃ f ∈ leafSources (fs.node (checkPath srcroot pkg.dir filename)),
      f.ignored archs = false ∧ f.mtime = t) ↔
      ∃ f, fs.node (checkPath srcroot pkg.dir filename) = some (.leaf f) ∧ f.mtime = t := by
    rcases fs.node (checkPath srcroot pkg.dir filename) with _ | (f | ⟨mtime, tree⟩)
    · simp [leafSources]
    · simp [leafSources, ignored_mk]
    · simp [leafSources]
  rw [← hleaf]
  simp only [PkgSources.mem_times, ownSources, List.flatMap_append, List.flatMap_singleton,
    List.mem_append, or_and_right, exists_or, or_assoc]

theorem mem_times_sources_concat {l : List Text} {filename : Text} {t : ℤ} :
    t ∈ ((pkg.withCheck (l ++ [filename])).sources fs srcroot).times archs ↔
      t ∈ ((pkg.withCheck l).sources fs srcroot).times archs ∨
      (∃ f, fs.node (checkPath srcroot pkg.dir filename) = some (.leaf f) ∧ f.mtime = t) ∨
      t ∈ pkg.checkTimes fs srcroot filename := by
  have hnode : (∃ f ∈ nodeSources (fs.node (checkPath srcroot pkg.dir filename)),
      f.ignored archs = false ∧ f.mtime = t) ↔
      (∃ f, fs.node (checkPath srcroot pkg.dir filename) = some (.leaf f) ∧ f.mtime = t) ∨
      t ∈ pkg.checkTimes fs srcroot filename := by
    rw [checkTimes]
    rcases fs.node (checkPath srcroot pkg.dir filename) with _ | (f | ⟨mtime, tree⟩)
    · simp [nodeSources, filesBelow]
    · simp [nodeSources, ignored_mk, filesBelow]
    · simp [nodeSources, ignored_mk]
  -- the package directory does not depend on the `CHECK` entries
  have hdir : ∀ l, (pkg.withCheck l).dirSources fs = pkg.dirSources fs := fun _ => rfl
  rw [← hnode]
  simp only [PkgSources.mem_times, sources, hdir]
  simp only [withCheck, List.flatMap_append, List.flatMap_singleton, List.mem_append,
    or_and_right, exists_or, or_assoc]

/-- A file in the package directory is ignored if the whole directory is, or if it is left out. -/
theorem ignored_iff {loc : List Text} {mtime : ℤ} :
    SourceFile.ignored ⟨mtime, (pkg.ignoreOf fs loc).map Prod.snd⟩ archs = true ↔
      pkg.IgnoresAll archs ∨
        LeftOut (fun t => fs.isDir (joinDir pkg.dir t)) archs pkg.ignore loc := by
  rw [leftOut_iff_exists]
  simp only [SourceFile.ignored, ignoreOf, List.any_map, List.any_eq_true, List.mem_filter,
    Bool.or_eq_true, decide_eq_true_eq, Function.comp_apply]
  constructor
  · rintro ⟨e, ⟨he, hdot | hout⟩, hcond⟩
    · exact .inl ⟨e, he, hdot, hcond⟩
    · exact .inr ⟨e, he, hcond, hout⟩
  · rintro (⟨e, he, hdot, hcond⟩ | ⟨e, he, hcond, hout⟩)
    · exact ⟨e, ⟨he, .inl hdot⟩, hcond⟩
    · exact ⟨e, ⟨he, .inr hout⟩, hcond⟩

/-- The times of the files in the package directory that are not ignored. -/
theorem mem_dirSources {t : ℤ} :
    (∃ f ∈ pkg.dirSources fs, f.ignored archs = false ∧ f.mtime = t) ↔
      ∃ loc l, (loc, l) ∈ filesBelow (fs.node pkg.dir) ∧ loc ≠ [pkg.indexfile] ∧
        ¬ pkg.IgnoresAll archs ∧
        ¬ LeftOut (fun t => fs.isDir (joinDir pkg.dir t)) archs pkg.ignore loc ∧
        l.mtime = t := by
  simp only [dirSources, List.mem_map, List.mem_filter, decide_eq_true_eq, Prod.exists]
  constructor
  · rintro ⟨f, ⟨loc, l, ⟨hx, hindex⟩, rfl⟩, hign, ht⟩
    rw [Bool.eq_false_iff, Ne, ignored_iff, not_or] at hign
    exact ⟨loc, l, hx, hindex, hign.1, hign.2, ht⟩
  · rintro ⟨loc, l, hx, hindex, hdot, hout, ht⟩
    refine ⟨_, ⟨loc, l, ⟨hx, hindex⟩, rfl⟩, ?_, ht⟩
    rw [Bool.eq_false_iff, Ne, ignored_iff, not_or]
    exact ⟨hdot, hout⟩

/-! ### The scan of the package directory -/

/-- The scan after the `CHECK` entries `l`. -/
structure Scanned (fs : FileSystem) (srcroot : List Text) (archs : List Arch) (pkg : ScannedPkg)
    (l : List Text) (s : Scan) : Prop where
  own : ∀ t ∈ (pkg.ownSources fs srcroot l).times archs, t ≤ s.srcMtime
  mem : s.srcMtime ∈ ((pkg.withCheck l).sources fs srcroot).times archs
  /-- As long as the directories are quiet, `newest_file` names a file. -/
  quiet : pkg.AllQuiet fs srcroot archs l →
    s.srcMtime ∈ (pkg.ownSources fs srcroot l).times archs ∧
    ∃ f, s.newestFile = some f ∧ ∃ t ≤ s.srcMtime, fs.mtime (joinDir pkg.dir f) = some t
  /-- A directory after quiet ones is seen. -/
  seen : ∀ l₁ filename l₂, l = l₁ ++ filename :: l₂ → pkg.AllQuiet fs srcroot archs l₁ →
    ∀ t ∈ pkg.checkTimes fs srcroot filename, t ≤ s.srcMtime

theorem ignoresAll_iff : (pkg.ignore.any fun e =>
    decide (e.1 = ".".toList) && evalIgnoreCond e.2 archs) = true ↔ pkg.IgnoresAll archs := by
  simp [IgnoresAll]

/-- The scan before the `CHECK` entries, when it has found the times of the files that are not
ignored. -/
theorem Scanned.of_raises {s : Scan}
    (h : Raises (fun t => ∃ f ∈ pkg.dirSources fs, f.ignored archs = false ∧ f.mtime = t)
      pkg.indexMtime s.srcMtime)
    (hnewest : ∃ f, s.newestFile = some f ∧
      ∃ t ≤ s.srcMtime, fs.mtime (joinDir pkg.dir f) = some t) :
    Scanned fs srcroot archs pkg [] s := by
  have hmem : s.srcMtime ∈ (pkg.ownSources fs srcroot []).times archs := by
    refine PkgSources.mem_times.2 (h.mem.imp_right ?_)
    rintro ⟨f, hf, ht⟩
    exact ⟨f, List.mem_append_left _ hf, ht⟩
  refine ⟨fun t ht => ?_, hmem, fun _ => ⟨hmem, hnewest⟩, fun l₁ filename l₂ hl => ?_⟩
  · rcases PkgSources.mem_times.1 ht with rfl | ⟨f, hf, hft⟩
    · exact h.le
    · exact h.bound t ⟨f, by simpa [ownSources] using hf, hft⟩
  · simp at hl

theorem scanPkgDir_spec (hp : pkg.Plain fs srcroot) {s : Scan}
    (h : scanPkgDir fs archs pkg = .ok s) : Scanned fs srcroot archs pkg [] s := by
  obtain ⟨ρ, hρ, hindex⟩ := hp.index
  rw [scanPkgDir] at h
  split_ifs at h with hall
  · -- only the index file counts
    cases h
    refine .of_raises (.refl ?_ _) ⟨pkg.indexfile, rfl, ρ, hρ, hindex⟩
    rintro t ht
    obtain ⟨_, _, -, -, hnot, -⟩ := mem_dirSources.1 ht
    exact hnot (ignoresAll_iff.1 hall)
  · have hnotAll : ¬ pkg.IgnoresAll archs := fun hdot => hall (ignoresAll_iff.2 hdot)
    cases hnode : fs.node pkg.dir with
    | none => rw [findSources, hnode] at h; cases h
    | some n =>
      cases n with
      | leaf l => rw [findSources, hnode] at h; cases h
      | dir mtime tree =>
        have hfinds :=
          findSources_spec hp.noNewlines hnode pkg.indexfile_valid.1.1 hindex hp.ignore h
        have htime : ∀ {loc l}, (loc, Node.leaf l) ∈ tree.entries.nodes →
            fs.mtime (pkg.dir ++ loc) = some l.mtime := fun hx => by
          rw [FileSystem.mtime, fs.node_append hnode hx]
          rfl
        refine .of_raises ⟨hfinds.raises.le, fun t ht => ?_, hfinds.raises.mem.imp_right ?_⟩ ?_
        · obtain ⟨loc, l, hx, -, -, hout, rfl⟩ := mem_dirSources.1 ht
          obtain ⟨mtime', tree', hnode', hx⟩ := mem_filesBelow.1 hx
          rw [hnode] at hnode'
          cases hnode'
          -- what is not newer than the index file is not found
          by_cases hnewer : ρ < l.mtime
          · exact hfinds.raises.bound _ ⟨loc, l, hx, hnewer, hout, rfl⟩
          · have := hfinds.raises.le
            omega
        · rintro ⟨loc, l, hx, hnewer, hout, ht⟩
          refine mem_dirSources.2 ⟨loc, l, mem_filesBelow.2 ⟨mtime, tree, hnode, hx⟩, ?_,
            hnotAll, hout, ht⟩
          rintro rfl
          rw [joinDir_indexfile, htime hx] at hindex
          cases hindex
          omega
        · rcases hfinds.newest with rfl | ⟨-, loc, l, hx, hs, ht⟩
          · exact ⟨pkg.indexfile, rfl, ρ, hρ, hindex⟩
          · refine ⟨_, hs, l.mtime, Int.le_of_eq ht, ?_⟩
            rw [joinDir_found pkg.dir (ne_nil_of_mem_nodes hx) (tree.valid _ hx)]
            exact htime hx

/-! ### The loop over the `CHECK` entries -/

/-- The name that is kept for a `CHECK` entry leads to it, from the package directory. -/
theorem joinDir_checkPath (hp : pkg.Plain fs srcroot) (filename : Text) :
    joinDir pkg.dir (if filename.head? = some '/' then pathStr (checkPath srcroot pkg.dir filename)
      else filename) = checkPath srcroot pkg.dir filename := by
  unfold checkPath
  split_ifs with habs
  · refine joinDir_pathStr _ fun c hc => ?_
    rcases List.mem_append.1 hc with hc | hc
    · exact hp.srcroot c hc
    · exact pathPart_of_mem_pathParts hc
  · rw [joinDir, if_neg habs]

theorem checkSource_dir (hp : pkg.Plain fs srcroot) {filename : Text} {mtime : ℤ}
    {tree : FileTree}
    (hnode : fs.node (checkPath srcroot pkg.dir filename) = some (.dir mtime tree)) {s s' : Scan}
    (h : checkSource fs srcroot archs pkg.dir s filename = .ok s') :
    ∃ f, s.newestFile = some f ∧
      (fs.mtime (joinDir pkg.dir f) = none ∧ s' = ⟨s.srcMtime, none⟩ ∨
      ∃ ρ, fs.mtime (joinDir pkg.dir f) = some ρ ∧
        Raises (fun t => ∃ loc l, (loc, .leaf l) ∈ tree.entries.nodes ∧ ρ < l.mtime ∧ l.mtime = t)
          s.srcMtime s'.srcMtime ∧
        (s' = ⟨s.srcMtime, some (pathStr (joinDir pkg.dir f))⟩ ∨ s.srcMtime < s'.srcMtime ∧
          ∃ loc l, (loc, .leaf l) ∈ tree.entries.nodes ∧
            s'.newestFile = some ((joinPath ['.'] loc).drop 2) ∧ l.mtime = s'.srcMtime)) := by
  rw [checkSource, hnode] at h
  dsimp only at h
  cases hnewest : s.newestFile with
  | none => rw [hnewest] at h; cases h
  | some f =>
    rw [hnewest] at h
    dsimp only at h
    -- the reference is an absolute path, which does not depend on the directory it is seen from
    have href : joinDir (checkPath srcroot pkg.dir filename) (pathStr (joinDir pkg.dir f)) =
        joinDir pkg.dir f :=
      joinDir_pathStr _ fun c hc => pathPart_of_mem_joinDir pkg.dir_parts hc
    refine ⟨f, rfl, ?_⟩
    cases hr : fs.mtime (joinDir pkg.dir f) with
    | none =>
      rw [findSources_of_missing hnode (pathStr_ne_nil _) (href.symm ▸ hr)] at h
      cases h
      exact .inl ⟨rfl, rfl⟩
    | some ρ =>
      have hfinds := findSources_spec hp.noNewlines hnode (pathStr_ne_nil _) (href.symm ▸ hr)
        (List.forall_mem_nil _) h
      refine .inr ⟨ρ, rfl, hfinds.raises.congr fun t => ?_, hfinds.newest⟩
      have hleft : ∀ loc, ¬ LeftOut
          (fun t => fs.isDir (joinDir (checkPath srcroot pkg.dir filename) t)) archs [] loc := by
        rintro loc ⟨e, he, -⟩
        cases he
      simp only [hleft, not_false_eq_true, true_and]

theorem checkSource_leaf {filename : Text} {l : Leaf}
    (hnode : fs.node (checkPath srcroot pkg.dir filename) = some (.leaf l)) {s s' : Scan}
    (h : checkSource fs srcroot archs pkg.dir s filename = .ok s') :
    s' = s ∧ l.mtime ≤ s.srcMtime ∨ s.srcMtime < l.mtime ∧ s' = ⟨l.mtime, some
      (if filename.head? = some '/' then pathStr (checkPath srcroot pkg.dir filename)
      else filename)⟩ := by
  rw [checkSource, hnode] at h
  dsimp only at h
  split_ifs at h with hnewer hname
  · cases h
    exact .inr ⟨hnewer, by rw [if_pos hname]⟩
  · cases h
    exact .inr ⟨hnewer, by rw [if_neg hname]⟩
  · cases h
    exact .inl ⟨rfl, Int.not_lt.1 hnewer⟩

theorem Scanned.seen_concat {l : List Text} {s s' : Scan} (hs : Scanned fs srcroot archs pkg l s)
    (hle : s.srcMtime ≤ s'.srcMtime) {filename : Text}
    (hself : pkg.AllQuiet fs srcroot archs l →
      ∀ t ∈ pkg.checkTimes fs srcroot filename, t ≤ s'.srcMtime) :
    ∀ l₁ f l₂, l ++ [filename] = l₁ ++ f :: l₂ → pkg.AllQuiet fs srcroot archs l₁ →
      ∀ t ∈ pkg.checkTimes fs srcroot f, t ≤ s'.srcMtime :=
  Machine.forall_concat_split_iff (P := fun l₁ f => pkg.AllQuiet fs srcroot archs l₁ →
      ∀ t ∈ pkg.checkTimes fs srcroot f, t ≤ s'.srcMtime).2
    ⟨fun l₁ f l₂ hl hquiet t ht => Int.le_trans (hs.seen l₁ f l₂ hl hquiet t ht) hle, hself⟩

theorem Scanned.leaf (hp : pkg.Plain fs srcroot) {l : List Text} {s s' : Scan} {filename : Text}
    {f : Leaf} (hnode : fs.node (checkPath srcroot pkg.dir filename) = some (.leaf f))
    (hs : Scanned fs srcroot archs pkg l s)
    (h : checkSource fs srcroot archs pkg.dir s filename = .ok s') :
    Scanned fs srcroot archs pkg (l ++ [filename]) s' := by
  have hcase := checkSource_leaf hnode h
  have hle : s.srcMtime ≤ s'.srcMtime := by
    rcases hcase with ⟨rfl, -⟩ | ⟨hlt, rfl⟩
    · exact Int.le_refl _
    · exact Int.le_of_lt hlt
  refine ⟨fun t ht => ?_, ?_, fun hquiet => ?_, hs.seen_concat hle fun _ => ?_⟩
  · rcases mem_times_ownSources_concat.1 ht with ht | ⟨f', hf', rfl⟩
    · exact Int.le_trans (hs.own t ht) hle
    · rw [hnode] at hf'
      cases hf'
      rcases hcase with ⟨rfl, hold⟩ | ⟨-, rfl⟩
      · exact hold
      · exact Int.le_refl _
  · refine mem_times_sources_concat.2 ?_
    rcases hcase with ⟨rfl, -⟩ | ⟨-, rfl⟩
    · exact .inl hs.mem
    · exact .inr (.inl ⟨f, hnode, rfl⟩)
  · obtain ⟨hmem, hnewest⟩ := hs.quiet (allQuiet_concat.1 hquiet).1
    rcases hcase with ⟨rfl, -⟩ | ⟨-, rfl⟩
    · exact ⟨mem_times_ownSources_concat.2 (.inl hmem), hnewest⟩
    · refine ⟨mem_times_ownSources_concat.2 (.inr ⟨f, hnode, rfl⟩), _, rfl, f.mtime,
        Int.le_refl _, ?_⟩
      rw [joinDir_checkPath hp, FileSystem.mtime, hnode]
      rfl
  · simp [checkTimes_of_leaf hnode]

/-- After quiet directories the reference file is there, and not newer than what has been found. -/
theorem Scanned.reference {l : List Text} {s : Scan} (hs : Scanned fs srcroot archs pkg l s)
    (hquiet : pkg.AllQuiet fs srcroot archs l) {f : Text} (hf : s.newestFile = some f) :
    ∃ t ≤ s.srcMtime, fs.mtime (joinDir pkg.dir f) = some t := by
  obtain ⟨-, f', hf', h⟩ := hs.quiet hquiet
  rw [hf] at hf'
  cases hf'
  exact h

/-- The scan of a directory has seen all files in it, if the reference file was old enough. -/
theorem le_of_mem_checkTimes {filename : Text} {mtime : ℤ} {tree : FileTree}
    (hnode : fs.node (checkPath srcroot pkg.dir filename) = some (.dir mtime tree)) {ρ a b : ℤ}
    (hraises : Raises
      (fun t => ∃ loc l, (loc, .leaf l) ∈ tree.entries.nodes ∧ ρ < l.mtime ∧ l.mtime = t) a b)
    (hρ : ρ ≤ a) : ∀ t ∈ pkg.checkTimes fs srcroot filename, t ≤ b := by
  intro t ht
  obtain ⟨mtime', tree', loc, x, hnode', hx, rfl⟩ := mem_checkTimes.1 ht
  rw [hnode] at hnode'
  cases hnode'
  by_cases hnewer : ρ < x.mtime
  · exact hraises.bound _ ⟨loc, x, hx, hnewer, rfl⟩
  · exact Int.le_trans (Int.not_lt.1 hnewer) (Int.le_trans hρ hraises.le)

theorem Scanned.dir (hp : pkg.Plain fs srcroot) {l : List Text} {s s' : Scan} {filename : Text}
    {mtime : ℤ} {tree : FileTree}
    (hnode : fs.node (checkPath srcroot pkg.dir filename) = some (.dir mtime tree))
    (hs : Scanned fs srcroot archs pkg l s)
    (h : checkSource fs srcroot archs pkg.dir s filename = .ok s') :
    Scanned fs srcroot archs pkg (l ++ [filename]) s' := by
  have hown : ∀ {t}, t ∈ (pkg.ownSources fs srcroot (l ++ [filename])).times archs ↔
      t ∈ (pkg.ownSources fs srcroot l).times archs := by
    intro t
    simp [mem_times_ownSources_concat, hnode]
  obtain ⟨f, hf, ⟨hmissing, rfl⟩ | ⟨ρ, hρ, hraises, hnewest⟩⟩ := checkSource_dir hp hnode h
  · -- then the directories were not quiet
    have hloud : ¬ pkg.AllQuiet fs srcroot archs l := by
      intro hquiet
      obtain ⟨t, -, ht⟩ := hs.reference hquiet hf
      rw [hmissing] at ht
      cases ht
    exact ⟨fun t ht => hs.own t (hown.1 ht), mem_times_sources_concat.2 (.inl hs.mem),
      fun hquiet => absurd (allQuiet_concat.1 hquiet).1 hloud,
      hs.seen_concat (Int.le_refl _) fun hquiet => absurd hquiet hloud⟩
  · have hbelow : ∀ {loc x}, (loc, Node.leaf x) ∈ tree.entries.nodes →
        x.mtime ∈ pkg.checkTimes fs srcroot filename := fun hx =>
      mem_checkTimes.2 ⟨mtime, tree, _, _, hnode, hx, rfl⟩
    have hold : pkg.AllQuiet fs srcroot archs l → ρ ≤ s.srcMtime := by
      intro hquiet
      obtain ⟨t, hle, ht⟩ := hs.reference hquiet hf
      rw [hρ] at ht
      cases ht
      exact hle
    refine ⟨fun t ht => Int.le_trans (hs.own t (hown.1 ht)) hraises.le,
      mem_times_sources_concat.2 ?_, fun hquiet => ?_, hs.seen_concat hraises.le fun hquiet =>
        le_of_mem_checkTimes hnode hraises (hold hquiet)⟩
    · rcases hraises.mem with heq | ⟨loc, x, hx, -, heq⟩
      · exact .inl (heq ▸ hs.mem)
      · exact .inr (.inr (heq ▸ hbelow hx))
    · obtain ⟨hquiet, hself⟩ := allQuiet_concat.1 hquiet
      rcases hnewest with rfl | ⟨hlt, loc, x, hx, -, heq⟩
      · refine ⟨hown.2 (hs.quiet hquiet).1, _, rfl, ρ, hold hquiet, ?_⟩
        rw [joinDir_pathStr _ fun c hc => pathPart_of_mem_joinDir pkg.dir_parts hc]
        exact hρ
      · -- a quiet directory has no file that is newer
        obtain ⟨u, hu, hle⟩ := hself _ (hbelow hx)
        have := hs.own u hu
        omega

/-- **The loop keeps the invariant.** -/
theorem Scanned.step (hp : pkg.Plain fs srcroot) {l : List Text} {s s' : Scan} {filename : Text}
    (hs : Scanned fs srcroot archs pkg l s)
    (h : checkSource fs srcroot archs pkg.dir s filename = .ok s') :
    Scanned fs srcroot archs pkg (l ++ [filename]) s' := by
  cases hnode : fs.node (checkPath srcroot pkg.dir filename) with
  | none => rw [checkSource, hnode] at h; cases h
  | some n =>
    cases n with
    | leaf f => exact hs.leaf hp hnode h
    | dir mtime tree => exact hs.dir hp hnode h

theorem resolveSources_scanned (hp : pkg.Plain fs srcroot) {s : Scan}
    (h : pkg.resolveSources fs srcroot archs = .ok s) :
    Scanned fs srcroot archs pkg pkg.check s := by
  obtain ⟨s₀, hscan, h⟩ := Machine.bind_eq_ok.1 h
  exact Machine.foldlM_ok_rule h (scanPkgDir_spec hp hscan) fun l filename s s' hs h =>
    hs.step hp h

/-- **What is covered is found.** -/
theorem resolveSources_eq_of_covered (hp : pkg.Plain fs srcroot) {s : Scan}
    (h : pkg.resolveSources fs srcroot archs = .ok s)
    (hcov : pkg.Covered fs srcroot archs ((pkg.sources fs srcroot).resolveSources archs)) :
    s.srcMtime = (pkg.sources fs srcroot).resolveSources archs := by
  have hs := resolveSources_scanned hp h
  refine Int.le_antisymm (PkgSources.le_resolveSources_of_mem hs.mem) ?_
  rcases hcov with hown | ⟨l₁, filename, l₂, hl, hmem, hquiet⟩
  · exact hs.own _ hown
  · exact hs.seen l₁ filename l₂ hl hquiet _ hmem

/-- At most one `CHECK` entry is a directory with files in it. -/
def OneCheckDir (fs : FileSystem) (srcroot : List Text) (pkg : ScannedPkg) : Prop :=
  pkg.check.Pairwise fun f g => filesBelow (fs.node (checkPath srcroot pkg.dir f)) = [] ∨
    filesBelow (fs.node (checkPath srcroot pkg.dir g)) = []

theorem OneCheckDir.allQuiet (h : pkg.OneCheckDir fs srcroot) {l₁ l₂ : List Text} {filename : Text}
    (hl : pkg.check = l₁ ++ filename :: l₂) {t : ℤ} (ht : t ∈ pkg.checkTimes fs srcroot filename) :
    pkg.AllQuiet fs srcroot archs l₁ := by
  rintro l₃ f l₄ rfl u hu
  have hpair : filesBelow (fs.node (checkPath srcroot pkg.dir f)) = [] ∨
      filesBelow (fs.node (checkPath srcroot pkg.dir filename)) = [] := by
    rw [OneCheckDir, hl] at h
    exact (List.pairwise_append.1 h).2.2 f (by simp) filename List.mem_cons_self
  rcases hpair with hnil | hnil
  · rw [checkTimes, hnil] at hu
    cases hu
  · rw [checkTimes, hnil] at ht
    cases ht

/-- **With one `CHECK` directory** the scan finds the latest of all sources. -/
theorem resolveSources_eq_sources (hp : pkg.Plain fs srcroot) (hone : pkg.OneCheckDir fs srcroot)
    {s : Scan} (h : pkg.resolveSources fs srcroot archs = .ok s) :
    s.srcMtime = (pkg.sources fs srcroot).resolveSources archs := by
  have hs := resolveSources_scanned hp h
  refine Int.le_antisymm (PkgSources.le_resolveSources_of_mem hs.mem) ?_
  refine PkgSources.resolveSources_le fun t ht => ?_
  rcases PkgSources.mem_times.1 ht with rfl | ⟨f, hf, hign, rfl⟩
  · exact hs.own _ (PkgSources.mem_times.2 (.inl rfl))
  · rcases List.mem_append.1 hf with hf | hf
    · exact hs.own _ (PkgSources.mem_times.2 (.inr ⟨f, List.mem_append_left _ hf, hign, rfl⟩))
    · obtain ⟨filename, hfilename, hf⟩ := List.mem_flatMap.1 hf
      obtain ⟨l₁, l₂, hl⟩ := List.append_of_mem hfilename
      by_cases hleaf : f ∈ leafSources (fs.node (checkPath srcroot pkg.dir filename))
      · exact hs.own _ (PkgSources.mem_times.2 (.inr ⟨f, List.mem_append_right _
          (List.mem_flatMap.2 ⟨filename, hfilename, hleaf⟩), hign, rfl⟩))
      · have htime : f.mtime ∈ pkg.checkTimes fs srcroot filename := by
          rw [checkTimes]
          rcases hnode : fs.node (checkPath srcroot pkg.dir filename) with _ | (x | ⟨m, tree⟩)
          · rw [hnode] at hf
            cases hf
          · rw [hnode] at hf hleaf
            exact absurd hf hleaf
          · rw [hnode] at hf
            obtain ⟨x, hx, rfl⟩ := List.mem_map.1 hf
            exact List.mem_map.2 ⟨x, hx, rfl⟩
        exact hs.seen l₁ filename l₂ hl (hone.allQuiet hl htime) _ htime

/-! ### What is lost -/

/-- All `CHECK` entries are directories, and no file in one of them is there in the package
directory, too. -/
structure DisjointDirs (fs : FileSystem) (srcroot : List Text) (pkg : ScannedPkg) : Prop where
  dirs : ∀ filename ∈ pkg.check, ∃ mtime tree,
    fs.node (checkPath srcroot pkg.dir filename) = some (.dir mtime tree)
  names : ∀ filename ∈ pkg.check, ∀ x ∈ filesBelow (fs.node (checkPath srcroot pkg.dir filename)),
    fs.node (pkg.dir ++ x.1) = none

/-- After a directory that was not quiet, the reference file is missing. -/
structure Traced (fs : FileSystem) (srcroot : List Text) (archs : List Arch) (pkg : ScannedPkg)
    (l : List Text) (s : Scan) : Prop where
  covered : (pkg.withCheck l).Covered fs srcroot archs s.srcMtime
  lost : ¬ pkg.AllQuiet fs srcroot archs l →
    ∀ f, s.newestFile = some f → fs.mtime (joinDir pkg.dir f) = none

theorem Covered.concat {l : List Text} {t : ℤ} (filename : Text)
    (h : (pkg.withCheck l).Covered fs srcroot archs t) :
    (pkg.withCheck (l ++ [filename])).Covered fs srcroot archs t := by
  rcases h with h | ⟨l₁, f, l₂, hl, ht, hquiet⟩
  · exact .inl (mem_times_ownSources_concat.2 (.inl h))
  · change l = _ at hl
    exact .inr ⟨l₁, f, l₂ ++ [filename], by simp [withCheck, hl], ht, hquiet⟩

theorem Traced.step (hp : pkg.Plain fs srcroot) {l : List Text} {s s' : Scan} {filename : Text}
    {mtime : ℤ} {tree : FileTree}
    (hnode : fs.node (checkPath srcroot pkg.dir filename) = some (.dir mtime tree))
    (hnames : ∀ x ∈ filesBelow (fs.node (checkPath srcroot pkg.dir filename)),
      fs.node (pkg.dir ++ x.1) = none)
    (hs : Scanned fs srcroot archs pkg l s) (ht : Traced fs srcroot archs pkg l s)
    (h : checkSource fs srcroot archs pkg.dir s filename = .ok s') :
    Traced fs srcroot archs pkg (l ++ [filename]) s' := by
  obtain ⟨f, hf, ⟨-, rfl⟩ | ⟨ρ, hρ, hraises, hnewest⟩⟩ := checkSource_dir hp hnode h
  · exact ⟨ht.covered.concat filename, fun _ _ hf => by cases hf⟩
  · -- the reference file was there, so the directories before were quiet
    have hquiet : pkg.AllQuiet fs srcroot archs l := by
      by_contra hloud
      rw [ht.lost hloud f hf] at hρ
      cases hρ
    obtain ⟨t, hle, htime⟩ := hs.reference hquiet hf
    rw [hρ] at htime
    cases htime
    rcases hnewest with rfl | ⟨-, loc, x, hx, hfile, heq⟩
    · refine ⟨ht.covered.concat filename, fun hloud => ?_⟩
      exact absurd (allQuiet_concat.2 ⟨hquiet, fun t ht =>
        ⟨_, (hs.quiet hquiet).1, le_of_mem_checkTimes hnode hraises hle t ht⟩⟩) hloud
    · have hbelow : (loc, x) ∈ filesBelow (fs.node (checkPath srcroot pkg.dir filename)) :=
        mem_filesBelow.2 ⟨mtime, tree, hnode, hx⟩
      refine ⟨.inr ⟨l, filename, [], rfl, List.mem_map.2 ⟨_, hbelow, heq⟩, hquiet⟩, ?_⟩
      intro _ f'' hf''
      rw [hfile] at hf''
      cases hf''
      rw [joinDir_found pkg.dir (ne_nil_of_mem_nodes hx) (tree.valid _ hx), FileSystem.mtime,
        hnames _ hbelow]
      rfl

/-- **What is found is covered.** -/
theorem covered_of_resolveSources (hp : pkg.Plain fs srcroot) (hd : pkg.DisjointDirs fs srcroot)
    {s : Scan} (h : pkg.resolveSources fs srcroot archs = .ok s) :
    pkg.Covered fs srcroot archs s.srcMtime := by
  obtain ⟨s₀, hscan, h⟩ := Machine.bind_eq_ok.1 h
  have hs₀ := scanPkgDir_spec hp hscan
  have htraced : (∀ filename ∈ pkg.check, filename ∈ pkg.check) →
      Scanned fs srcroot archs pkg pkg.check s ∧ Traced fs srcroot archs pkg pkg.check s := by
    refine Machine.foldlM_ok_rule (I := fun l s => (∀ filename ∈ l, filename ∈ pkg.check) →
      Scanned fs srcroot archs pkg l s ∧ Traced fs srcroot archs pkg l s) h
      (fun _ => ⟨hs₀, .inl (hs₀.quiet allQuiet_nil).1, fun hloud => absurd allQuiet_nil hloud⟩) ?_
    intro l filename s s' hs h hsub
    obtain ⟨hscanned, htraced⟩ := hs fun f hf => hsub f (List.mem_append_left _ hf)
    have hmem := hsub filename (by simp)
    obtain ⟨mtime, tree, hnode⟩ := hd.dirs filename hmem
    exact ⟨hscanned.step hp h, htraced.step hp hnode (hd.names filename hmem) hscanned h⟩
  exact (htraced fun _ hf => hf).2.covered

end ScannedPkg

/-! ### The latest source -/

/-- The times of a file, or of the files below a directory. -/
def nodeTimes : Option FsNode → List ℤ
  | some (.leaf l) => [l.mtime]
  | n => (filesBelow n).map fun x => x.2.mtime

/-- The times of all sources of a package without `IGNORE` entries, apart from that of the index
file. -/
def sourceTimes (fs : FileSystem) (srcroot : List Text) (pkg : ScannedPkg) : List ℤ :=
  (filesBelow (fs.node pkg.dir)).map (fun x => x.2.mtime) ++
    pkg.check.flatMap fun filename => nodeTimes (fs.node (checkPath srcroot pkg.dir filename))

/-- The latest time of the index file and all sources. -/
def latestSource (fs : FileSystem) (srcroot : List Text) (pkg : ScannedPkg) : ℤ :=
  (sourceTimes fs srcroot pkg).foldl max pkg.indexMtime

theorem mem_nodeTimes_iff (archs : List Arch) {n : Option FsNode} {t : ℤ} :
    t ∈ nodeTimes n ↔ ∃ f ∈ nodeSources n, f.ignored archs = false ∧ f.mtime = t := by
  rcases n with _ | (f | ⟨mtime, tree⟩)
  · simp [nodeTimes, nodeSources, filesBelow]
  · simp [nodeTimes, nodeSources, ScannedPkg.ignored_mk, eq_comm (a := t)]
  · simp [nodeTimes, nodeSources, ScannedPkg.ignored_mk]

/-- Without `IGNORE` entries no file in the package directory is ignored. -/
theorem exists_mem_dirSources (archs : List Arch) (hign : pkg.ignore = []) {loc : List Text}
    {l : Leaf} (hx : (loc, l) ∈ filesBelow (fs.node pkg.dir)) (hloc : loc ≠ [pkg.indexfile]) :
    ∃ f ∈ pkg.dirSources fs, f.ignored archs = false ∧ f.mtime = l.mtime := by
  refine ScannedPkg.mem_dirSources.2 ⟨loc, l, hx, hloc, ?_, ?_, rfl⟩
  · rintro ⟨e, he, -⟩
    rw [hign] at he
    cases he
  · rintro ⟨e, he, -⟩
    rw [hign] at he
    cases he

theorem resolveSources_sources (archs : List Arch) (hp : pkg.Plain fs srcroot)
    (hign : pkg.ignore = []) :
    (pkg.sources fs srcroot).resolveSources archs = latestSource fs srcroot pkg := by
  have hall := Raises.foldl_max (sourceTimes fs srcroot pkg) pkg.indexMtime
  refine Int.le_antisymm (PkgSources.resolveSources_le fun t ht => ?_) ?_
  · rcases PkgSources.mem_times.1 ht with rfl | ⟨f, hf, hf', rfl⟩
    · exact hall.le
    · refine hall.bound _ ?_
      rcases List.mem_append.1 hf with hf | hf
      · obtain ⟨loc, l, hx, -, -, -, ht⟩ := ScannedPkg.mem_dirSources.1 ⟨f, hf, hf', rfl⟩
        exact List.mem_append_left _ (List.mem_map.2 ⟨_, hx, ht⟩)
      · obtain ⟨filename, hfilename, hf⟩ := List.mem_flatMap.1 hf
        exact List.mem_append_right _ (List.mem_flatMap.2
          ⟨filename, hfilename, (mem_nodeTimes_iff archs).2 ⟨f, hf, hf', rfl⟩⟩)
  · have hbound : ∀ {t}, t ∈ (pkg.sources fs srcroot).times archs →
        t ≤ (pkg.sources fs srcroot).resolveSources archs :=
      PkgSources.le_resolveSources_of_mem
    have hindex := hbound (PkgSources.mem_times.2 (.inl rfl))
    rcases hall.mem with heq | hmem
    · rw [latestSource, heq]
      exact hindex
    · rcases List.mem_append.1 hmem with hmem | hmem
      · obtain ⟨⟨loc, l⟩, hx, heq⟩ := List.mem_map.1 hmem
        rw [latestSource, ← heq]
        by_cases hloc : loc = [pkg.indexfile]
        · -- the index file itself, which may be an older link
          subst hloc
          obtain ⟨ρ, hρ, htime⟩ := hp.index
          obtain ⟨mtime, tree, hnode, hx⟩ := mem_filesBelow.1 hx
          rw [joinDir_indexfile, FileSystem.mtime, fs.node_append hnode hx] at htime
          cases htime
          exact Int.le_trans hρ hindex
        · obtain ⟨f, hf, hf', heq⟩ := exists_mem_dirSources archs hign hx hloc
          exact hbound (PkgSources.mem_times.2
            (.inr ⟨f, List.mem_append_left _ hf, hf', heq⟩))
      · obtain ⟨filename, hfilename, hmem⟩ := List.mem_flatMap.1 hmem
        obtain ⟨f, hf, hf'⟩ := (mem_nodeTimes_iff archs).1 hmem
        exact hbound (PkgSources.mem_times.2 (.inr ⟨f, List.mem_append_right _
          (List.mem_flatMap.2 ⟨filename, hfilename, hf⟩), hf'⟩))

/-- `/p/app`, with two directories beside it. -/
def checkedFs : FileSystem where
  node p :=
    if p = ["p", "app"] then some (.dir 1 ⟨.leaf "Makefile" ⟨1, false⟩ .nil, by decide⟩)
    else if p = ["p", "app", "..", "a"] then
      some (.dir 1 ⟨.leaf "x.c" ⟨5, false⟩ .nil, by decide⟩)
    else if p = ["p", "app", "..", "b"] then
      some (.dir 1 ⟨.leaf "y.c" ⟨7, false⟩ .nil, by decide⟩)
    else if p = ["p", "app", "Makefile"] then some (.leaf ⟨1, false⟩)
    else if p = ["p", "app", "..", "a", "x.c"] then some (.leaf ⟨5, false⟩)
    else if p = ["p", "app", "..", "b", "y.c"] then some (.leaf ⟨7, false⟩)
    else none
  node_append := by
    intro p mtime tree h loc l hx
    split_ifs at h with h₁ h₂ h₃
    all_goals cases h
    all_goals
      simp only [Entries.nodes, List.mem_singleton, Prod.mk.injEq, Node.leaf.injEq] at hx
      obtain ⟨rfl, rfl⟩ := hx
    · rw [h₁]; rfl
    · rw [h₂]; rfl
    · rw [h₃]; rfl

theorem checkedFs_noNewlines : checkedFs.NoNewlines := by
  intro p mtime tree h x hx c hc
  simp only [checkedFs] at h
  split_ifs at h
  all_goals cases h
  all_goals
    rw [Entries.nodes, Entries.nodes, List.mem_singleton] at hx
    cases hx
    rw [List.mem_singleton.1 hc]
    decide

/-- The package in `/p/app`. -/
def checkedPkg (check : List Text) : ScannedPkg where
  dir := ["p", "app"]
  indexfile := "Makefile"
  indexMtime := 1
  check
  dir_parts := by decide
  indexfile_valid := by decide

theorem checkedPkg_plain (check : List Text) : (checkedPkg check).Plain checkedFs ["p"] where
  noNewlines := checkedFs_noNewlines
  ignore := List.forall_mem_nil _
  index := ⟨1, Int.le_refl 1, by rfl⟩
  srcroot := by decide

end Pbuild
