import Playbit.Find.Walk
import Playbit.Machine.Run
import Playbit.Package.Sources

/-!
# What `IGNORE` entries leave out

`make_find_sources_args` translates the `IGNORE` entries of a package into arguments of `find`.  An
entry that is a directory becomes a pattern for what is pruned, any other entry a path that is not
printed.

The pattern is `dir/*`, which does not match the directory itself.  So `find` goes into the
directory, where it prunes the directories and prints everything else.

What the arguments mean to `find` is `exists_parse_makeFindSourcesArgs`, and `ignore_exact_iff` says
when what is printed is what is not ignored.
-/

namespace Pbuild

open Python Find

/-- An `IGNORE` directive: paths with their conditions. -/
abbrev IgnoreEntries := List (Text × Option Conditional)

/-! ### The code -/

/-- `path` in `make_find_sources_args`. -/
def ignorePath (pathstr : Text) : Text :=
  let path := (strip pathstr).rdropWhile (· == '/')
  if !"/".toList.isPrefixOf path && !"./".toList.isPrefixOf path then "./".toList ++ path else path

section Def

variable (isDir : Text → Bool) (archs : List Arch)

/-- A round of the loop over the entries, with `ign_dir_args` and `ign_file_args`; `isDir` says
whether a path leads to a directory, seen from the directory that is scanned. -/
def addIgnored (s : List Text × List Text) (e : Text × Option Conditional) :
    List Text × List Text :=
  if evalIgnoreCond e.2 archs then
    if isDir (ignorePath e.1) then
      ((if s.1.length > 0 then s.1 ++ ["-o".toList] else s.1) ++
        ["-path".toList, ignorePath e.1 ++ "/*".toList], s.2)
    else (s.1, s.2 ++ ["-not".toList, "-path".toList, ignorePath e.1])
  else s

/-- `Pkg.make_find_sources_args`. -/
def makeFindSourcesArgs (reffile : Text) (ignore : IgnoreEntries) : List Text :=
  let (dirArgs, fileArgs) := ignore.foldl (addIgnored isDir archs) ([], [])
  "/usr/bin/find".toList :: ".".toList ::
    ((if dirArgs.length > 0 then
      ["-type".toList, "d".toList] ++ ("(".toList :: dirArgs ++ [")".toList]) ++
        ["-prune".toList, "-o".toList]
    else []) ++
    (fileArgs ++ ["-not".toList, "-type".toList, "d".toList] ++
      (if reffile ≠ [] then ["-newer".toList, reffile] else [])) ++
    (if dirArgs.length > 0 then ["-print".toList] else []))

/-! ### What the arguments mean -/

/-- The path matches the pattern of a directory. -/
def matchesDir (ignore : IgnoreEntries) (path : Text) : Bool :=
  ignore.any fun e => evalIgnoreCond e.2 archs && isDir (ignorePath e.1) &&
    fnmatch (ignorePath e.1 ++ "/*".toList) path

/-- The path matches the pattern of something else. -/
def matchesFile (ignore : IgnoreEntries) (path : Text) : Bool :=
  ignore.any fun e => evalIgnoreCond e.2 archs && !isDir (ignorePath e.1) &&
    fnmatch (ignorePath e.1) path

/-- `ign_dir_args`, between parentheses, are a test for directories that match. -/
def ReadsDirs (mtime : Text → Option ℤ) (ignore : IgnoreEntries) (dirArgs : List Text) : Prop :=
  (dirArgs = [] ∧ ∀ path, matchesDir isDir archs ignore path = false) ∨
  dirArgs ≠ [] ∧ ∀ stack, ∃ frame e,
    dirArgs.foldlM (Parser.read mtime) { stack } = some { stack, frame } ∧
    frame.close = some e ∧ e.Tests fun f => matchesDir isDir archs ignore f.path

/-- `ign_file_args` are tests for files that do not match. -/
def ReadsFiles (mtime : Text → Option ℤ) (ignore : IgnoreEntries) (fileArgs : List Text) : Prop :=
  ∀ (stack : List Frame) (frame : Frame) (P : Info → Bool), frame.Tests P → ∃ frame',
    fileArgs.foldlM (Parser.read mtime) { stack, frame } = some { stack, frame := frame' } ∧
    frame'.ors = frame.ors ∧ frame'.Tests fun f => P f && !matchesFile isDir archs ignore f.path

end Def

variable {isDir : Text → Bool} {archs : List Arch} {mtime : Text → Option ℤ}

theorem matchesDir_concat (ignore : IgnoreEntries) (e : Text × Option Conditional) (path : Text) :
    matchesDir isDir archs (ignore ++ [e]) path = (matchesDir isDir archs ignore path ||
      (evalIgnoreCond e.2 archs && isDir (ignorePath e.1) &&
        fnmatch (ignorePath e.1 ++ "/*".toList) path)) := by
  rw [matchesDir, List.any_append, List.any_cons, List.any_nil, Bool.or_false]
  rfl

theorem matchesFile_concat (ignore : IgnoreEntries) (e : Text × Option Conditional)
    (path : Text) :
    matchesFile isDir archs (ignore ++ [e]) path = (matchesFile isDir archs ignore path ||
      (evalIgnoreCond e.2 archs && !isDir (ignorePath e.1) &&
        fnmatch (ignorePath e.1) path)) := by
  rw [matchesFile, List.any_append, List.any_cons, List.any_nil, Bool.or_false]
  rfl

theorem ReadsDirs.concat {ignore : IgnoreEntries} {dirArgs : List Text}
    (h : ReadsDirs isDir archs mtime ignore dirArgs) {e : Text × Option Conditional}
    (hcond : evalIgnoreCond e.2 archs = true) (hdir : isDir (ignorePath e.1) = true) :
    ReadsDirs isDir archs mtime (ignore ++ [e])
      ((if dirArgs.length > 0 then dirArgs ++ ["-o".toList] else dirArgs) ++
        ["-path".toList, ignorePath e.1 ++ "/*".toList]) := by
  have hmatch : ∀ path, matchesDir isDir archs (ignore ++ [e]) path =
      (matchesDir isDir archs ignore path || fnmatch (ignorePath e.1 ++ "/*".toList) path) := by
    intro path
    rw [matchesDir_concat, hcond, hdir]
    rfl
  refine .inr ⟨by simp, fun stack => ?_⟩
  simp only [hmatch]
  rcases h with ⟨rfl, hnone⟩ | ⟨hne, h⟩
  · refine ⟨_, _, read_path rfl _, rfl, ?_⟩
    simp only [hnone, Bool.false_or]
    exact Expr.tests_path _
  · -- `-o` closes what has been read, which becomes the left side of the disjunction
    obtain ⟨frame, e', hread, hclose, htests⟩ := h stack
    refine ⟨Frame.push { ors := some e' } (.path (ignorePath e.1 ++ "/*".toList)), _, ?_, rfl,
      htests.or (Expr.tests_path _)⟩
    rw [if_pos (List.length_pos_of_ne_nil hne), List.append_assoc, List.foldlM_append, hread]
    simp only [Option.bind_eq_bind, Option.bind_some, List.cons_append, List.nil_append]
    rw [read_word rfl (k := .or) (by decide), Parser.readKeyword, hclose]
    show List.foldlM (Parser.read mtime) { stack, frame := { ors := some e' } } _ = _
    exact read_path rfl _

theorem ReadsFiles.concat {ignore : IgnoreEntries} {fileArgs : List Text}
    (h : ReadsFiles isDir archs mtime ignore fileArgs) {e : Text × Option Conditional}
    (hcond : evalIgnoreCond e.2 archs = true) (hdir : isDir (ignorePath e.1) = false) :
    ReadsFiles isDir archs mtime (ignore ++ [e])
      (fileArgs ++ ["-not".toList, "-path".toList, ignorePath e.1]) := by
  intro stack frame₀ P hP
  obtain ⟨frame, hread, hors, htests⟩ := h stack frame₀ P hP
  refine ⟨Frame.push { frame with nots := frame.nots + 1 } (.path (ignorePath e.1)), ?_, hors, ?_⟩
  · rw [List.foldlM_append, hread]
    simp only [Option.bind_eq_bind, Option.bind_some]
    rw [read_not rfl]
    exact read_path rfl _
  · have hmatch : ∀ path, (!matchesFile isDir archs (ignore ++ [e]) path) =
        (!matchesFile isDir archs ignore path && !fnmatch (ignorePath e.1) path) := by
      intro path
      rw [matchesFile_concat, hcond, hdir, Bool.not_or]
      rfl
    simp only [hmatch, ← Bool.and_assoc]
    exact htests.pushNot (Expr.tests_path _)

theorem reads_foldl_addIgnored (isDir : Text → Bool) (archs : List Arch)
    (mtime : Text → Option ℤ) (ignore : IgnoreEntries) :
    ReadsDirs isDir archs mtime ignore (ignore.foldl (addIgnored isDir archs) ([], [])).1 ∧
      ReadsFiles isDir archs mtime ignore (ignore.foldl (addIgnored isDir archs) ([], [])).2 := by
  refine Machine.foldl_rule (I := fun ignore (s : List Text × List Text) =>
    ReadsDirs isDir archs mtime ignore s.1 ∧ ReadsFiles isDir archs mtime ignore s.2) ?_ ?_
  · refine ⟨.inl ⟨rfl, fun _ => rfl⟩, fun stack frame P hP => ⟨frame, rfl, rfl, ?_⟩⟩
    simpa [matchesFile] using hP
  · rintro l₁ e - s - ⟨hdirs, hfiles⟩
    -- an entry of one kind leaves the patterns of the other kind alone
    have hdirs' (h : (evalIgnoreCond e.2 archs && isDir (ignorePath e.1)) = false) :
        ReadsDirs isDir archs mtime (l₁ ++ [e]) s.1 := by
      simpa only [ReadsDirs, matchesDir_concat, h, Bool.false_and, Bool.or_false] using hdirs
    have hfiles' (h : (evalIgnoreCond e.2 archs && !isDir (ignorePath e.1)) = false) :
        ReadsFiles isDir archs mtime (l₁ ++ [e]) s.2 := by
      simpa only [ReadsFiles, matchesFile_concat, h, Bool.false_and, Bool.or_false] using hfiles
    by_cases hcond : evalIgnoreCond e.2 archs = true
    · by_cases hdir : isDir (ignorePath e.1) = true
      · rw [addIgnored, if_pos hcond, if_pos hdir]
        exact ⟨hdirs.concat hcond hdir, hfiles' (by simp [hdir])⟩
      · rw [addIgnored, if_pos hcond, if_neg hdir]
        exact ⟨hdirs' (by simp [hdir]), hfiles.concat hcond (by simpa using hdir)⟩
    · rw [addIgnored, if_neg hcond]
      exact ⟨hdirs' (by simp [hcond]), hfiles' (by simp [hcond])⟩

/-- What `find` does with a file. -/
structure FindsSources (isDir : Text → Bool) (archs : List Arch) (ignore : IgnoreEntries) (r : ℤ)
    (e : Expr) : Prop where
  printed : ∀ f, (e.eval f).printed =
    if !f.dir && !matchesFile isDir archs ignore f.path && decide (r < f.mtime) then [f.path]
    else []
  pruned : ∀ f, (e.eval f).pruned = (f.dir && matchesDir isDir archs ignore f.path)

theorem read_sourceTests {reffile : Text} {r : ℤ} (hr : mtime reffile = some r)
    {ignore : IgnoreEntries} {fileArgs : List Text}
    (h : ReadsFiles isDir archs mtime ignore fileArgs) (ors : Option Expr) :
    ∃ a : Expr, a.Tests (fun f => !matchesFile isDir archs ignore f.path && !f.dir &&
        decide (r < f.mtime)) ∧
      (fileArgs ++ ["-not".toList, "-type".toList, "d".toList] ++
        ["-newer".toList, reffile]).foldlM (Parser.read mtime) { frame := { ors } } =
        some { frame := { ors, ands := some a } } := by
  obtain ⟨frame, hread, hors, htests⟩ := h [] { ors } _ (Frame.Tests.empty ors)
  obtain rfl : frame.ors = ors := hors
  simp only [Bool.true_and] at htests
  obtain ⟨a, ha, htests⟩ := ((htests.pushNot Expr.tests_isDir).push
    (Expr.tests_newer r)).exists_ands
  refine ⟨a, htests, ?_⟩
  rw [List.foldlM_append, List.foldlM_append, hread]
  simp only [Option.bind_eq_bind, Option.bind_some]
  rw [read_not rfl, read_type rfl, Option.bind_some, read_newer rfl, hr]
  exact congrArg (fun f => some ({ frame := f } : Parser)) ha

theorem read_pruneTests {dirArgs : List Text} {inner : Frame} {b : Expr}
    (hargs : dirArgs.foldlM (Parser.read mtime) { stack := [({ } : Frame).push .isDir] } =
      some { stack := [({ } : Frame).push .isDir], frame := inner })
    (hclose : inner.close = some b) :
    (["-type".toList, "d".toList] ++ ("(".toList :: dirArgs ++ [")".toList]) ++
        ["-prune".toList, "-o".toList]).foldlM (Parser.read mtime) { } =
      some { frame := { ors := some (.and (.and .isDir b) .prune) } } := by
  rw [List.foldlM_append, List.foldlM_append, read_type rfl]
  show ((("(".toList :: dirArgs ++ [")".toList]).foldlM (Parser.read mtime)
    { frame := ({ } : Frame).push .isDir }).bind _) = _
  rw [read_parentheses hargs hclose, Option.bind_some, read_word rfl (k := .prune) (by decide)]
  show ["-o".toList].foldlM (Parser.read mtime)
    { frame := ((({ } : Frame).push .isDir).push b).push .prune } = _
  rw [read_word rfl (k := .or) (by decide)]
  rfl

/-- **What the arguments mean.** -/
theorem exists_parse_makeFindSourcesArgs {reffile : Text} {r : ℤ} (hne : reffile ≠ [])
    (hr : mtime reffile = some r) (isDir : Text → Bool) (archs : List Arch)
    (ignore : IgnoreEntries) :
    ∃ e args, makeFindSourcesArgs isDir archs reffile ignore =
        "/usr/bin/find".toList :: ".".toList :: args ∧
      parse mtime args = some e ∧ FindsSources isDir archs ignore r e := by
  obtain ⟨hdirs, hfiles⟩ := reads_foldl_addIgnored isDir archs mtime ignore
  unfold makeFindSourcesArgs
  generalize ignore.foldl (addIgnored isDir archs) ([], []) = s at hdirs hfiles
  obtain ⟨dirArgs, fileArgs⟩ := s
  rcases hdirs with ⟨hnil, hnone⟩ | ⟨hne', hdirs⟩
  · -- nothing is pruned, and `-print` is added by `find`
    obtain ⟨a, htests, hread⟩ := read_sourceTests hr hfiles none
    refine ⟨.and a .print, _, rfl, ?_, fun f => ?_, fun f => ?_⟩
    · have hlen : ¬ dirArgs.length > 0 := by
        rw [show dirArgs = [] from hnil]
        exact Nat.lt_irrefl 0
      rw [if_neg hlen, if_neg hlen, if_pos hne, List.nil_append, List.append_nil, parse, hread]
      simp [Frame.close, Frame.disj, htests.prints]
    · simp only [Expr.eval, htests.eval f]
      cases f.dir <;> cases matchesFile isDir archs ignore f.path <;>
        cases decide (r < f.mtime) <;> rfl
    · simp only [Expr.eval, htests.eval f, hnone, Bool.and_false]
      split_ifs <;> rfl
  · obtain ⟨inner, b, hreadDirs, hclose, hb⟩ := hdirs [({ } : Frame).push .isDir]
    obtain ⟨a, htests, hread⟩ := read_sourceTests hr hfiles
      (some (.and (.and .isDir b) .prune))
    refine ⟨.or (.and (.and .isDir b) .prune) (.and a .print), _, rfl, ?_, fun f => ?_,
      fun f => ?_⟩
    · have hlen : dirArgs.length > 0 := List.length_pos_of_ne_nil hne'
      rw [if_pos hlen, if_pos hlen, if_pos hne, parse, List.foldlM_append, List.foldlM_append,
        read_pruneTests hreadDirs hclose]
      simp only [Option.bind_eq_bind, Option.bind_some]
      rw [hread, Option.bind_some, read_word rfl (k := .print) (by decide)]
      simp [Parser.readKeyword, Parser.push, Frame.push, Frame.close, Frame.disj, Frame.conj,
        Frame.negate, Expr.prints]
    · simp only [Expr.eval, htests.eval f, hb.eval f]
      cases f.dir <;> cases matchesFile isDir archs ignore f.path <;>
        cases matchesDir isDir archs ignore f.path <;> cases decide (r < f.mtime) <;> rfl
    · simp only [Expr.eval, htests.eval f, hb.eval f]
      cases f.dir <;> cases matchesFile isDir archs ignore f.path <;>
        cases matchesDir isDir archs ignore f.path <;> cases decide (r < f.mtime) <;> rfl

theorem parse_makeFindSourcesArgs_eq_none (mtime : Text → Option ℤ) {reffile : Text}
    (hne : reffile ≠ []) (hr : mtime reffile = none) (isDir : Text → Bool) (archs : List Arch) :
    ∃ args, makeFindSourcesArgs isDir archs reffile [] =
        "/usr/bin/find".toList :: ".".toList :: args ∧ parse mtime args = none := by
  refine ⟨["-not".toList, "-type".toList, "d".toList] ++ ["-newer".toList, reffile], ?_, ?_⟩
  · rw [makeFindSourcesArgs, if_pos hne]
    rfl
  · rw [parse, List.foldlM_append, read_not rfl, read_type rfl]
    simp only [Option.bind_eq_bind, Option.bind_some]
    rw [read_newer rfl, hr]
    rfl

/-! ### What is ignored and what is left out -/

/-- The paths that an `IGNORE` entry may have: relative to the package, without special
characters. -/
def IgnorablePath (t : Text) : Prop := Literal t ∧ t.head? ≠ some '/'

instance instDecidableIgnorablePath (t : Text) : Decidable (IgnorablePath t) :=
  inferInstanceAs (Decidable (_ ∧ _))

/-- The file is named by an entry, or is somewhere below a directory that is. -/
def Ignored (archs : List Arch) (ignore : IgnoreEntries) (loc : List Text) : Prop :=
  ∃ e ∈ ignore, evalIgnoreCond e.2 archs = true ∧ pathParts (ignorePath e.1) <+: loc

/-- The file is named by an entry that is no directory, or is below a directory in one that is
named by an entry, where the entry is spelled like the paths of `find`. -/
def LeftOut (isDir : Text → Bool) (archs : List Arch) (ignore : IgnoreEntries)
    (loc : List Text) : Prop :=
  ∃ e ∈ ignore, evalIgnoreCond e.2 archs = true ∧
    (isDir (ignorePath e.1) = false ∧ ignorePath e.1 = joinPath ['.'] loc ∨
      isDir (ignorePath e.1) = true ∧ ∃ q c c' r, loc = q ++ c :: c' :: r ∧
        ignorePath e.1 = joinPath ['.'] q)

theorem mem_ignorePath {t : Text} {c : Char} (h : c ∈ ignorePath t) :
    c ∈ t ∨ c = '.' ∨ c = '/' := by
  have hsub : ∀ c ∈ (strip t).rdropWhile (· == '/'), c ∈ t := by
    intro c hc
    have hc := (List.rdropWhile_prefix _ _).subset hc
    rw [strip, rstrip, lstrip] at hc
    exact (List.dropWhile_suffix _).subset ((List.rdropWhile_prefix _ _).subset hc)
  rw [ignorePath] at h
  split_ifs at h
  · rcases List.mem_append.1 h with h | h
    · right
      simpa using h
    · exact .inl (hsub c h)
  · exact .inl (hsub c h)

theorem literal_ignorePath {t : Text} (h : Literal t) : Literal (ignorePath t) := by
  intro c hc
  rcases mem_ignorePath hc with hc | rfl | rfl
  · exact h c hc
  · decide
  · decide

variable {ignore : IgnoreEntries} {loc : List Text}

theorem pathParts_location (hloc : ∀ c ∈ loc, ValidName c) :
    pathParts (joinPath ['.'] loc) = loc :=
  pathParts_joinPath _ fun c hc => (hloc c hc).1

theorem matchesFile_iff (hpaths : ∀ e ∈ ignore, IgnorablePath e.1) {path : Text} :
    matchesFile isDir archs ignore path = true ↔ ∃ e ∈ ignore, evalIgnoreCond e.2 archs = true ∧
      isDir (ignorePath e.1) = false ∧ ignorePath e.1 = path := by
  simp only [matchesFile, List.any_eq_true, Bool.and_eq_true, Bool.not_eq_true', and_assoc]
  refine exists_congr fun e => and_congr_right fun he => ?_
  rw [fnmatch_of_literal (literal_ignorePath (hpaths e he).1), eq_comm (a := path)]

theorem matchesDir_iff (hpaths : ∀ e ∈ ignore, IgnorablePath e.1) (hloc : ∀ c ∈ loc, ValidName c) :
    matchesDir isDir archs ignore (joinPath ['.'] loc) = true ↔
      ∃ e ∈ ignore, evalIgnoreCond e.2 archs = true ∧ isDir (ignorePath e.1) = true ∧
        ∃ q c r, loc = q ++ c :: r ∧ ignorePath e.1 = joinPath ['.'] q := by
  simp only [matchesDir, List.any_eq_true, Bool.and_eq_true, and_assoc]
  refine exists_congr fun e => and_congr_right fun he => and_congr_right fun _ =>
    and_congr_right fun _ => ?_
  have hlit : Literal (ignorePath e.1 ++ ['/']) := by
    intro c hc
    rcases List.mem_append.1 hc with hc | hc
    · exact literal_ignorePath (hpaths e he).1 c hc
    · rw [List.mem_singleton.1 hc]
      decide
  rw [show ignorePath e.1 ++ "/*".toList = (ignorePath e.1 ++ ['/']) ++ ['*'] by simp,
    fnmatch_append_star hlit]
  constructor
  · rintro ⟨u, hu⟩
    rw [List.append_assoc, List.singleton_append] at hu
    obtain ⟨q, c, r, hq, hpath, -⟩ := (joinPath_eq_append_slash (by decide)
      fun c hc => (hloc c hc).1.2.1).1 hu.symm
    exact ⟨q, c, r, hq, hpath⟩
  · rintro ⟨q, c, r, rfl, hpath⟩
    exact ⟨joinPath c r, by rw [joinPath_append, joinPath_cons, hpath]; simp⟩

theorem LeftOut.ignored (h : LeftOut isDir archs ignore loc) (hloc : ∀ c ∈ loc, ValidName c) :
    Ignored archs ignore loc := by
  obtain ⟨e, he, hcond, ⟨-, hpath⟩ | ⟨-, q, c, c', r, rfl, hpath⟩⟩ := h
  · refine ⟨e, he, hcond, ?_⟩
    rw [hpath, pathParts_location hloc]
  · refine ⟨e, he, hcond, ?_⟩
    rw [hpath, pathParts_location fun c hc => hloc c (List.mem_append_left _ hc)]
    exact List.prefix_append _ _

theorem leftOut_iff (hpaths : ∀ e ∈ ignore, IgnorablePath e.1) (hloc : ∀ c ∈ loc, ValidName c) :
    LeftOut isDir archs ignore loc ↔
      matchesFile isDir archs ignore (joinPath ['.'] loc) = true ∨
      ¬ Reached (matchesDir isDir archs ignore) ['.'] loc := by
  -- `q/*` matches the directories in `q` but not `q`, so two more components are needed
  have hreached : ¬ Reached (matchesDir isDir archs ignore) ['.'] loc ↔
      ∃ e ∈ ignore, evalIgnoreCond e.2 archs = true ∧ isDir (ignorePath e.1) = true ∧
        ∃ q c c' r, loc = q ++ c :: c' :: r ∧ ignorePath e.1 = joinPath ['.'] q := by
    constructor
    · intro h
      simp only [Reached, not_forall, Bool.not_eq_false] at h
      obtain ⟨l₁, c, l₂, rfl, -, h⟩ := h
      obtain ⟨e, he, hcond, hdir, q, x, r, rfl, hpath⟩ := (matchesDir_iff hpaths
        fun c hc => hloc c (List.mem_append_left _ hc)).1 h
      refine ⟨e, he, hcond, hdir, q, x, ?_⟩
      cases r with
      | nil => exact ⟨c, l₂, by simp, hpath⟩
      | cons y r => exact ⟨y, r ++ c :: l₂, by simp, hpath⟩
    · rintro ⟨e, he, hcond, hdir, q, c, c', r, rfl, hpath⟩ h
      have hprune := h (q ++ [c]) c' r (by simp) (by simp)
      rw [(matchesDir_iff hpaths fun c'' hc'' => hloc c'' ?_).2
        ⟨e, he, hcond, hdir, q, c, [], rfl, hpath⟩] at hprune
      · cases hprune
      · simp only [List.mem_append, List.mem_cons, List.not_mem_nil, or_false] at hc'' ⊢
        exact hc''.imp_right .inl
  rw [hreached, matchesFile_iff hpaths, LeftOut]
  constructor
  · rintro ⟨e, he, hcond, h | h⟩
    · exact .inl ⟨e, he, hcond, h⟩
    · exact .inr ⟨e, he, hcond, h⟩
  · rintro (⟨e, he, hcond, h⟩ | ⟨e, he, hcond, h⟩)
    · exact ⟨e, he, hcond, .inl h⟩
    · exact ⟨e, he, hcond, .inr h⟩

/-- What is printed are the files newer than `r` that are not ignored. -/
def PrintsSources (tree : FileTree) (archs : List Arch) (ignore : IgnoreEntries) (r : ℤ)
    (printed : List Text) : Prop :=
  ∀ t, t ∈ printed ↔ ∃ loc l, (loc, .leaf l) ∈ tree.entries.nodes ∧ t = joinPath ['.'] loc ∧
    r < l.mtime ∧ ¬ Ignored archs ignore loc

theorem exists_run_makeFindSourcesArgs (mtime : Text → Option ℤ) {reffile : Text} {r : ℤ}
    (hne : reffile ≠ []) (hr : mtime reffile = some r) (hpaths : ∀ e ∈ ignore, IgnorablePath e.1)
    (tree : FileTree) (rootMtime : ℤ) (isDir : Text → Bool) (archs : List Arch) :
    ∃ printed, run mtime rootMtime tree.entries
        (makeFindSourcesArgs isDir archs reffile ignore) = some printed ∧
      ∀ t, t ∈ printed ↔ ∃ loc l, (loc, .leaf l) ∈ tree.entries.nodes ∧ t = joinPath ['.'] loc ∧
        r < l.mtime ∧ ¬ LeftOut isDir archs ignore loc := by
  obtain ⟨e, args, hargs, hparse, he⟩ :=
    exists_parse_makeFindSourcesArgs hne hr isDir archs ignore
  -- no pattern matches the directory that is scanned
  have hroot : matchesDir isDir archs ignore ".".toList = false := by
    by_contra hmatch
    obtain ⟨_, _, _, _, q, c, l, hq, _⟩ := (matchesDir_iff hpaths (List.forall_mem_nil _)).1
      (by simpa using hmatch)
    simp at hq
  refine ⟨walk e ".".toList tree.entries, ?_, fun t => ?_⟩
  · rw [hargs, run, hparse, Option.map_some]
    simp only [he.printed, he.pruned, Node.info, hroot]
    rfl
  · rw [mem_walk (matchesDir isDir archs ignore) fun path mtime => he.pruned _]
    constructor
    · rintro ⟨⟨loc, n⟩, hx, ht, hreached⟩
      rw [he.printed] at ht
      split_ifs at ht with hcond
      · cases n with
        | dir mtime => simp [Node.info] at hcond
        | leaf l =>
          simp only [Node.info, Bool.and_eq_true, Bool.not_eq_true'] at hcond
          refine ⟨loc, l, hx, List.mem_singleton.1 ht, of_decide_eq_true hcond.2, fun hout => ?_⟩
          rcases (leftOut_iff hpaths (tree.valid _ hx)).1 hout with hfile | hdir
          · exact Bool.false_ne_true (hcond.1.2.symm.trans hfile)
          · exact hdir hreached
      · cases ht
    · rintro ⟨loc, l, hx, rfl, hnewer, hout⟩
      rw [leftOut_iff hpaths (tree.valid _ hx), not_or, not_not] at hout
      refine ⟨(loc, .leaf l), hx, ?_, hout.2⟩
      have hfile : matchesFile isDir archs ignore (joinPath ['.'] loc) = false :=
        Bool.eq_false_iff.2 hout.1
      rw [he.printed, if_pos (by simp [Node.info, hnewer, hfile])]
      exact List.mem_singleton_self _

/-- **When `IGNORE` leaves out what it names.**  What `find` prints are the newer files that are
not ignored iff every newer file that is ignored is left out.  This is not the case for files
directly inside a directory that an entry names, for links to directories that are named
themselves, and for entries spelled with empty or `.` components. -/
theorem ignore_exact_iff (tree : FileTree) (rootMtime : ℤ) (isDir : Text → Bool)
    (archs : List Arch) (ignore : IgnoreEntries) (mtime : Text → Option ℤ) (reffile : Text)
    (r : ℤ) (hpaths : ∀ e ∈ ignore, IgnorablePath e.1) (hne : reffile ≠ [])
    (hr : mtime reffile = some r) :
    ∃ printed, run mtime rootMtime tree.entries
        (makeFindSourcesArgs isDir archs reffile ignore) = some printed ∧
      (PrintsSources tree archs ignore r printed ↔
        ∀ loc l, (loc, .leaf l) ∈ tree.entries.nodes → r < l.mtime → Ignored archs ignore loc →
          LeftOut isDir archs ignore loc) := by
  obtain ⟨printed, hrun, hprinted⟩ :=
    exists_run_makeFindSourcesArgs mtime hne hr hpaths tree rootMtime isDir archs
  refine ⟨printed, hrun, fun h loc l hx hnewer hign => ?_, fun h t => ?_⟩
  · by_contra hout
    obtain ⟨loc', l', hx', hpath, -, hign'⟩ :=
      (h _).1 ((hprinted _).2 ⟨loc, l, hx, rfl, hnewer, hout⟩)
    -- the path belongs to one location only
    have heq : loc = loc' := (pathParts_location (tree.valid _ hx)).symm.trans
      ((congrArg pathParts hpath).trans (pathParts_location (tree.valid _ hx')))
    exact hign' (heq ▸ hign)
  · rw [hprinted]
    refine exists_congr fun loc => exists_congr fun l => and_congr_right fun hx =>
      and_congr_right fun _ => and_congr_right fun hnewer => not_congr ?_
    exact ⟨fun hout => hout.ignored (tree.valid _ hx), h loc l hx hnewer⟩

/-- `is_dir` for paths below the directory. -/
def treeIsDir (tree : FileTree) (path : Text) : Bool :=
  tree.entries.nodes.any fun x => decide (x.1 = pathParts path) &&
    match x.2 with
    | .leaf l => l.linkToDir
    | .dir _ => true

/-- A package with a file that is ignored, and with sources of another project. -/
def vendorTree : FileTree where
  entries := .leaf "Makefile" ⟨1, false⟩ (.leaf "main.c" ⟨3, false⟩ (.leaf "upgrade.sh" ⟨5, false⟩
    (.dir "src" 5 (.dir "musl" 5 (.leaf "a.c" ⟨7, false⟩ .nil) .nil) .nil)))
  valid := by decide

theorem vendorTree_exact :
    run (fun _ => some 1) 7 vendorTree.entries (makeFindSourcesArgs (treeIsDir vendorTree)
        [.x86_64] "Makefile" [("src/", none), ("./upgrade.sh", none)]) =
      some ["./main.c".toList] ∧
    PrintsSources vendorTree [.x86_64] [("src/", none), ("./upgrade.sh", none)] 1
      ["./main.c".toList] := by
  obtain ⟨printed, hrun, hiff⟩ := ignore_exact_iff vendorTree 7 (treeIsDir vendorTree) [.x86_64]
    [("src/", none), ("./upgrade.sh", none)] (fun _ => some 1) "Makefile" 1
    (by decide) (by decide) rfl
  have hrun' : run (fun _ => some 1) 7 vendorTree.entries (makeFindSourcesArgs
      (treeIsDir vendorTree) [.x86_64] "Makefile" [("src/", none), ("./upgrade.sh", none)]) =
      some ["./main.c".toList] := by decide +kernel
  rw [hrun'] at hrun
  cases hrun
  refine ⟨hrun', hiff.2 fun loc l hx hnewer hign => ?_⟩
  have hnodes : (loc, l) ∈ [(["Makefile".toList], (⟨1, false⟩ : Leaf)),
      (["main.c".toList], ⟨3, false⟩), (["upgrade.sh".toList], ⟨5, false⟩),
      (["src".toList, "musl".toList, "a.c".toList], ⟨7, false⟩)] := by
    simpa [vendorTree, Entries.nodes] using hx
  rcases List.mem_cons.1 hnodes with h | hnodes
  · cases h
    exact absurd hnewer (by decide)
  rcases List.mem_cons.1 hnodes with h | hnodes
  · cases h
    exact absurd hign (by unfold Ignored; decide)
  rcases List.mem_cons.1 hnodes with h | hnodes
  · cases h
    exact ⟨("./upgrade.sh", none), .tail _ (.head _), rfl, .inl ⟨by decide, by decide⟩⟩
  · cases List.mem_singleton.1 hnodes
    exact ⟨("src/", none), .head _, rfl, .inr ⟨by decide, ["src"], "musl", "a.c", [], rfl,
      by decide⟩⟩

/-- A package with a directory that is ignored for the architecture. -/
def wasiTree : FileTree where
  entries := .leaf "Makefile" ⟨1, false⟩ (.dir "wasi" 1 (.leaf "a.c" ⟨5, false⟩ .nil) .nil)
  valid := by decide

/-- A file directly inside a directory that is ignored is printed. -/
theorem wasiTree_not_exact :
    ∃ printed, run (fun _ => some 1) 5 wasiTree.entries (makeFindSourcesArgs (treeIsDir wasiTree)
        [.x86_64] "Makefile" [("wasi", none)]) = some printed ∧
      printed = ["./wasi/a.c".toList] ∧ IgnorablePath "wasi" ∧
      ¬ PrintsSources wasiTree [.x86_64] [("wasi", none)] 1 printed := by
  refine ⟨["./wasi/a.c".toList], by decide +kernel, rfl, by decide, fun h => ?_⟩
  obtain ⟨loc, l, hx, -, hnewer, hign⟩ := (h "./wasi/a.c".toList).1 (by decide)
  have hnodes : (loc, l) ∈ [(["Makefile".toList], (⟨1, false⟩ : Leaf)),
      (["wasi".toList, "a.c".toList], ⟨5, false⟩)] := by
    simpa [wasiTree, Entries.nodes] using hx
  rcases List.mem_cons.1 hnodes with h | hnodes
  · cases h
    exact absurd hnewer (by decide)
  · cases List.mem_singleton.1 hnodes
    exact hign ⟨("wasi", none), .head _, rfl, by decide⟩

end Pbuild
