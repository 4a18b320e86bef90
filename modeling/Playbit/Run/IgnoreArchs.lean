import Playbit.Machine.ListLemmas
import Playbit.Package.Ignore
import Playbit.Run.Progress

/-!
# Conditional `IGNORE` entries

A package is scanned once, for all of its builds.  An `IGNORE` entry with a condition is applied if
the condition holds for all architectures that have been collected from the build list, no matter
which packages they have been collected from.  The loop does not collect the architectures of builds
that are going to be built anyway, so what has to be shown is that it collects those of the builds
that are judged by the scan.

It does (`Job.mem_archs_of_judged`), and so the scan does not leave out a source of a build that is
judged by it (`Job.applied_ignore_safe`).  On the build list of a job the loop finds what
`Job.resolveSources` says about each build by itself (`Job.judgeSources_eq_resolveSources`).
-/

namespace Pbuild

open Python

variable {Out : Type}

/-- The variables of `resolve_sources`. -/
structure SourceLoop where
  mem : BuildStates
  pkgsToCheck : List PkgName := []
  archs : List Arch := []

/-- What the scan for several architectures leaves out, the scan for each of them leaves out. -/
theorem LeftOut.of_mem {isDir : Text → Bool} {archs : List Arch} {ignore : IgnoreEntries}
    {loc : List Text} {a : Arch} (h : LeftOut isDir archs ignore loc) (ha : a ∈ archs) :
    LeftOut isDir [a] ignore loc := by
  obtain ⟨e, he, hcond, hloc⟩ := h
  exact ⟨e, he, evalIgnoreCond_of_mem hcond ha, hloc⟩

namespace Job

variable (job : Job Out) (root : BuildRoot Out)

/-- A build after its stamp has been read. -/
def withStamp (mem : BuildStates) (b : BuildKey) : BuildState :=
  readBuildStamp (mem b) (job.stampOf root b)

/-- A round of the loop of `resolve_sources`. -/
def collectSource (s : SourceLoop) (b : BuildKey) : SourceLoop :=
  let r := job.checkSource b (job.withStamp root s.mem b)
  { mem := Function.update s.mem b r.1
    pkgsToCheck := if r.2 then s.pkgsToCheck.insert b.1 else s.pkgsToCheck
    archs := if r.2 then s.archs.insert b.2 else s.archs }

/-- The loop of `resolve_sources`. -/
def collectSources (mem : BuildStates) (buildlist : List BuildKey) : SourceLoop :=
  buildlist.foldl (job.collectSource root) { mem }

/-- The builds as they are judged: the packages have been scanned, and each build has been given
the source time of its package. -/
def judgeSources (mem : BuildStates) (buildlist : List BuildKey) : BuildStates := fun b =>
  let s := job.collectSources root mem buildlist
  { s.mem b with
    srcMtime :=
      if b.1 ∈ s.pkgsToCheck then (job.sources b.1).resolveSources s.archs
      else (job.sources b.1).index }

/-- The round of a build finds a valid stamp that is not outdated; `s` is the build after its stamp
has been read. -/
structure Judged (b : BuildKey) (s : BuildState) : Prop where
  notMeta : job.metapackage b.1 = false
  notForced : (job.isToplevelPkg b && (job.inv.args.isForce || job.inv.args.interactiveShell ||
    job.inv.args.shellCmd)) = false
  mustBuild : s.mustBuild = false
  checksum : s.checksum ≠ []
  notOlder : s.srcMtime ≤ s.buildMtime

/-- The dependencies that `--skip-deps` does not look at. -/
def skips (b : BuildKey) : Bool := job.inv.args.skipDeps && !job.isToplevelPkg b

variable {job root} {mem : BuildStates} {b : BuildKey} {p : PkgName} {l l₁ l₂ : List BuildKey}

/-! ### Rounds -/

theorem Judged.scan {s : BuildState} (h : job.Judged b s) :
    (job.checkSource b s).2 = !job.skips b := by
  have hlt : ¬ s.buildMtime < s.srcMtime := Int.not_lt.2 h.notOlder
  unfold checkSource
  simp only [h.notMeta, h.notForced, h.mustBuild, h.checksum, hlt, Bool.false_eq_true, if_false,
    decide_false, Bool.or_false]
  rfl

/-- A package that is scanned is no metapackage and none that `--skip-deps` leaves out. -/
theorem of_scan {s : BuildState} (h : (job.checkSource b s).2 = true) :
    job.metapackage b.1 = false ∧ job.skips b = false := by
  unfold checkSource at h
  dsimp only at h
  split_ifs at h with hmeta
  rw [Bool.not_eq_true'] at h
  exact ⟨by simpa using hmeta, h⟩

theorem mem_pkgsToCheck_collectSource {s : SourceLoop} :
    p ∈ (job.collectSource root s b).pkgsToCheck ↔ p ∈ s.pkgsToCheck ∨
      (job.checkSource b (job.withStamp root s.mem b)).2 = true ∧ b.1 = p :=
  Machine.mem_ite_insert _ _ _ _

theorem mem_archs_collectSource {s : SourceLoop} {a : Arch} :
    a ∈ (job.collectSource root s b).archs ↔ a ∈ s.archs ∨
      (job.checkSource b (job.withStamp root s.mem b)).2 = true ∧ b.2 = a :=
  Machine.mem_ite_insert _ _ _ _

theorem mem_archs_of_scan
    (h : (job.checkSource b (job.withStamp root (job.collectSources root mem l₁).mem b)).2 = true) :
    b.2 ∈ (job.collectSources root mem (l₁ ++ b :: l₂)).archs := by
  have hround : b.2 ∈ (job.collectSource root (job.collectSources root mem l₁) b).archs :=
    mem_archs_collectSource.2 (.inr ⟨h, rfl⟩)
  rw [collectSources, List.foldl_append, List.foldl_cons]
  exact Machine.foldl_rule (I := fun _ (s : SourceLoop) => b.2 ∈ s.archs) hround
    fun _ _ _ _ _ ha => mem_archs_collectSource.2 (.inl ha)

theorem of_mem_pkgsToCheck (h : p ∈ (job.collectSources root mem l).pkgsToCheck) :
    ∃ b : BuildKey, b.1 = p ∧ job.metapackage b.1 = false ∧ job.skips b = false := by
  revert h
  refine Machine.foldl_rule (I := fun _ (s : SourceLoop) => p ∈ s.pkgsToCheck →
    ∃ b : BuildKey, b.1 = p ∧ job.metapackage b.1 = false ∧ job.skips b = false) ?_ ?_
  · intro h
    cases h
  · intro l₁ b l₂ s hl ih h
    rcases mem_pkgsToCheck_collectSource.1 h with h | ⟨hscan, rfl⟩
    · exact ih h
    · exact ⟨b, rfl, of_scan hscan⟩

/-- `--skip-deps` and metapackages concern all builds of a package alike. -/
theorem scans_of_mem_pkgsToCheck (h : b.1 ∈ (job.collectSources root mem l).pkgsToCheck) :
    job.metapackage b.1 = false ∧ job.skips b = false := by
  obtain ⟨b', hpkg, hmeta, hskip⟩ := of_mem_pkgsToCheck h
  rw [skips, isToplevelPkg, hpkg] at hskip
  exact ⟨hpkg ▸ hmeta, hskip⟩

/-- **The architectures of the builds that are judged are collected** where their package is
scanned. -/
theorem mem_archs_of_judged (hp : b.1 ∈ (job.collectSources root mem (l₁ ++ b :: l₂)).pkgsToCheck)
    (hb : job.Judged b (job.withStamp root (job.collectSources root mem l₁).mem b)) :
    b.2 ∈ (job.collectSources root mem (l₁ ++ b :: l₂)).archs := by
  refine mem_archs_of_scan ?_
  -- whoever brought the package into the collection, `--skip-deps` treats this build the same
  rw [hb.scan, (scans_of_mem_pkgsToCheck hp).2]
  rfl

/-! ### Verdicts -/

/-- The state of a build is what its last round has made of it. -/
theorem exists_checkSource (job : Job Out) (root : BuildRoot Out) (mem : BuildStates)
    (l : List BuildKey) :
    ∀ b ∈ l, ∃ t, (job.collectSources root mem l).mem b = (job.checkSource b t).1 ∧
      ((job.checkSource b t).2 = true → b.2 ∈ (job.collectSources root mem l).archs) := by
  refine Machine.foldl_rule (I := fun l (s : SourceLoop) => ∀ b ∈ l, ∃ t,
    s.mem b = (job.checkSource b t).1 ∧ ((job.checkSource b t).2 = true → b.2 ∈ s.archs)) ?_ ?_
  · intro b hb
    cases hb
  · intro l₁ b l₂ s _ ih b' hb'
    by_cases hbb : b' = b
    · subst hbb
      exact ⟨job.withStamp root s.mem b', Function.update_self _ _ _,
        fun h => mem_archs_collectSource.2 (.inr ⟨h, rfl⟩)⟩
    · obtain ⟨t, hmem, harch⟩ := ih b' (by simpa [hbb] using hb')
      exact ⟨t, (Function.update_of_ne hbb _ _).trans hmem,
        fun h => mem_archs_collectSource.2 (.inl (harch h))⟩

/-- The verdict about a build depends on the scan only if its architecture has been collected. -/
theorem mem_archs_of_not_outdated (hb : b ∈ l)
    (hp : b.1 ∈ (job.collectSources root mem l).pkgsToCheck)
    (h : ¬ (job.judgeSources root mem l b).Outdated) :
    b.2 ∈ (job.collectSources root mem l).archs := by
  obtain ⟨hmeta, hskip⟩ := scans_of_mem_pkgsToCheck hp
  obtain ⟨t, hmem, harch⟩ := exists_checkSource job root mem l b hb
  simp only [BuildState.Outdated, judgeSources, hmem, not_or, Bool.not_eq_true] at h
  obtain ⟨-, hsum, hmust⟩ := h
  rw [checkSource_checksum] at hsum
  refine harch ?_
  rw [checkSource_flag hmeta hsum hmust, ← skips, hskip]
  rfl

/-! ### The build list of a job -/

/-- What the loop has done after the builds `l`, none of which occurs twice. -/
structure Collected (job : Job Out) (root : BuildRoot Out) (l : List BuildKey) (s : SourceLoop) :
    Prop where
  mem : ∀ b, s.mem b = if b ∈ l then (job.checked root b).1 else job.initialState b
  pkgs : ∀ p, p ∈ s.pkgsToCheck ↔ ∃ b ∈ l, (job.checked root b).2 = true ∧ b.1 = p
  archs : ∀ a, a ∈ s.archs ↔ ∃ b ∈ l, (job.checked root b).2 = true ∧ b.2 = a

theorem Collected.step {s : SourceLoop} (h : job.Collected root l s) (hb : b ∉ l) :
    job.Collected root (l ++ [b]) (job.collectSource root s b) := by
  have hr : job.checkSource b (job.withStamp root s.mem b) = job.checked root b := by
    rw [withStamp, h.mem, if_neg hb, checked]
  constructor
  · intro b'
    simp only [collectSource, hr, Function.update_apply, h.mem b', List.mem_append,
      List.mem_singleton]
    by_cases hbb : b' = b
    · simp [hbb]
    · simp [hbb]
  · intro p
    rw [mem_pkgsToCheck_collectSource, hr, h.pkgs, Machine.exists_mem_concat]
  · intro a
    rw [mem_archs_collectSource, hr, h.archs, Machine.exists_mem_concat]

theorem collected (job : Job Out) (root : BuildRoot Out) (hl : l.Nodup) :
    job.Collected root l (job.collectSources root job.initialState l) := by
  refine Machine.foldl_rule (I := job.Collected root) ?_ ?_
  · exact ⟨fun _ => rfl, by simp, by simp⟩
  · intro l₁ b l₂ s hsplit h
    refine h.step fun hb => ?_
    rw [hsplit, List.nodup_append] at hl
    exact hl.2.2 b hb b List.mem_cons_self rfl

/-- **On the build list of a job** the loop finds what `resolveSources` says about each build by
itself. -/
theorem judgeSources_eq_resolveSources (hb : b ∈ job.bs.buildlist)
    (hall : job.inv.args.cleanAll = false) :
    job.judgeSources root job.initialState job.bs.buildlist b = job.resolveSources root b := by
  have h := job.collected root job.resolvedBuilds.nodup
  have hpkgs : b.1 ∈ (job.collectSources root job.initialState job.bs.buildlist).pkgsToCheck ↔
      b.1 ∈ (job.toScan root).map Prod.fst := by
    rw [h.pkgs]
    simp [toScan, and_assoc]
  have harchs : (job.sources b.1).resolveSources
      (job.collectSources root job.initialState job.bs.buildlist).archs =
      (job.sources b.1).resolveSources (job.archs root) := by
    refine PkgSources.resolveSources_congr fun a => ?_
    rw [h.archs, archs]
    simp [toScan, and_assoc]
  simp only [judgeSources, resolveSources, hall, Bool.false_eq_true, if_false, h.mem, hb, if_true,
    pkgSrcMtime, hpkgs, harchs]

/-- **No source of a build is ignored in its verdict.**  The entries that the scan of a package
applies hold for every build of the package that is judged by the scan, so the scan leaves out what
a scan for this build alone would leave out; and a build that is up to date in the end is not older
than any of the sources for its architecture. -/
theorem applied_ignore_safe (job : Job Out) (root : BuildRoot Out) (mem : BuildStates)
    (buildlist : List BuildKey) (b : BuildKey)
    (hp : b.1 ∈ (job.collectSources root mem buildlist).pkgsToCheck) :
    (∀ l₁ l₂, buildlist = l₁ ++ b :: l₂ →
      job.Judged b (job.withStamp root (job.collectSources root mem l₁).mem b) →
      ∀ ignore : IgnoreEntries,
        (∀ e ∈ ignore,
          evalIgnoreCond e.2 (job.collectSources root mem buildlist).archs = true →
          condPasses e.2 b.2 = true) ∧
        ∀ isDir loc, LeftOut isDir (job.collectSources root mem buildlist).archs ignore loc →
          LeftOut isDir [b.2] ignore loc) ∧
    (b ∈ buildlist → ¬ (job.judgeSources root mem buildlist b).Outdated →
      ∀ f ∈ (job.sources b.1).files, f.ignored [b.2] = false →
        f.mtime ≤ (job.judgeSources root mem buildlist b).buildMtime) := by
  constructor
  · rintro l₁ l₂ rfl hb ignore
    have harch := mem_archs_of_judged hp hb
    exact ⟨fun e _ hcond => evalIgnoreCond_eq_true_iff.1 hcond b.2 harch,
      fun isDir loc h => h.of_mem harch⟩
  · intro hb hout f hf hign
    have harch := mem_archs_of_not_outdated hb hp hout
    have hign' : f.ignored (job.collectSources root mem buildlist).archs = false := by
      by_contra h
      rw [SourceFile.ignored_of_mem (Bool.not_eq_false _ ▸ h) harch] at hign
      cases hign
    have hle := PkgSources.le_resolveSources hf hign'
    have hjudged : (job.judgeSources root mem buildlist b).srcMtime =
        (job.sources b.1).resolveSources (job.collectSources root mem buildlist).archs :=
      if_pos hp
    have hmtime : ¬ (job.judgeSources root mem buildlist b).buildMtime <
        (job.judgeSources root mem buildlist b).srcMtime := fun hlt => hout (.inl hlt)
    omega

end Job

/-- Sources of which one is ignored on `wasm32`. -/
def twoArchsJob : Job Bool :=
  { Job.sample with
    sources _ := { index := 1, files := [⟨5, [some ⟨fun a => a == .wasm32⟩]⟩, ⟨9, [none]⟩] } }

/-- Every build has a stamp. -/
def twoArchsRoot : BuildRoot Bool where
  stamp _ _ := some ⟨"1a\n", 7⟩
  out _ := some true
  log := []

theorem twoArchs_ignore_safe :
    let s := twoArchsJob.collectSources twoArchsRoot twoArchsJob.initialState
      [("app", .wasm32), ("app", .x86_64)]
    "app".toList ∈ s.pkgsToCheck ∧ s.archs = [.x86_64, .wasm32] ∧
    (twoArchsJob.sources "app").resolveSources s.archs = 5 ∧
    condPasses (some ⟨fun a => a == .wasm32 || a == .x86_64⟩) .x86_64 = true ∧
    5 ≤ (twoArchsJob.judgeSources twoArchsRoot twoArchsJob.initialState
      [("app", .wasm32), ("app", .x86_64)] ("app", .x86_64)).buildMtime := by
  intro s
  have hp : "app".toList ∈ s.pkgsToCheck := by decide
  obtain ⟨hentries, hverdict⟩ := Job.applied_ignore_safe twoArchsJob twoArchsRoot
    twoArchsJob.initialState [("app", .wasm32), ("app", .x86_64)] ("app", .x86_64) hp
  refine ⟨hp, by decide, by decide, ?_, ?_⟩
  · exact (hentries [("app", .wasm32)] [] rfl ⟨rfl, by decide, by decide, by decide, by decide⟩
      [("wasi", some ⟨fun a => a == .wasm32 || a == .x86_64⟩)]).1 _ List.mem_cons_self (by decide)
  · refine hverdict (by decide) ?_ _ List.mem_cons_self (by decide)
    rw [BuildState.Outdated]
    decide

end Pbuild
