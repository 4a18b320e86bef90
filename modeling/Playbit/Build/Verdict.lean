import Playbit.Build.NeedsBuild

/-!
# The verdict, by reachability

`check_needs_build` looks for changed dependencies with a recursion that stops at the first one it
finds.  Its verdict does not depend on the order: the builds it enters, were it not to stop, are a
least set, and no build is needed exactly when all edges from this set are up to date.

`checkNeedsBuild_verdict` says so for both kinds of checks, on graphs without cycles: `Entered` is
the least set, and `UpToDate` is what is left of the eager check when times are left out.
-/

namespace Pbuild

open Python DepthFirst

/-- The least set with `b` and, with any build, its dependencies that have `DEPENDS` entries
themselves. -/
inductive Entered (bs : Builds) (b : BuildKey) : BuildKey → Prop
  | self : Entered bs b b
  | dep {u v : BuildKey} (hu : Entered bs b u) (hv : v ∈ (bs.build u).orderedDeps)
    (hdeps : (bs.build v).deps ≠ []) : Entered bs b v

/-- The dependency `v` of `u` is the one that `u` was built with. -/
structure UpToDate (mem : BuildStates) (u v : BuildKey) : Prop where
  mustBuild : (mem v).mustBuild = false
  mtime : 0 < (mem v).mtime
  checksum : (mem v).checksum ≠ []
  recorded : (mem u).depChecksums.get? (buildName v) = some (mem v).checksum

variable {inv : Invocation} {bs : Builds} {mem : BuildStates} {n : ℕ} {b : BuildKey}

theorem entered_iff {u : BuildKey} :
    Entered bs b u ↔
      Relation.ReflTransGen (Enters (fun u => (bs.build u).orderedDeps) (entersDep bs)) b u := by
  constructor
  · intro h
    induction h with
    | self => exact .refl
    | dep _ hv hdeps ih => exact ih.tail ⟨hv, decide_eq_true hdeps⟩
  · intro h
    induction h with
    | refl => exact .self
    | tail _ hstep ih => exact ih.dep hstep.1 (of_decide_eq_true hstep.2)

theorem examinedBelow_iff {u v : BuildKey} :
    ExaminedBelow bs b u v ↔ Entered bs b u ∧ v ∈ (bs.build u).orderedDeps := by
  rw [entered_iff]
  rfl

theorem checkDepChanged_eq_false_iff_upToDate {u v : BuildKey} {base : ℤ} :
    checkDepChanged mem u v base = false ↔
      UpToDate mem u v ∧ (0 < base → (mem v).mtime ≤ base) := by
  rw [checkDepChanged_eq_false_iff]
  constructor
  · rintro ⟨h₁, h₂, h₃, h₄, h₅⟩
    exact ⟨⟨h₁, h₂, h₄, h₅⟩, h₃⟩
  · rintro ⟨⟨h₁, h₂, h₄, h₅⟩, h₃⟩
    exact ⟨h₁, h₂, h₃, h₄, h₅⟩

theorem not_outdated_iff {s : BuildState} :
    ¬ s.Outdated ↔ s.srcMtime ≤ s.buildMtime ∧ s.checksum ≠ [] ∧ s.mustBuild = false := by
  simp only [BuildState.Outdated, not_or, Int.not_lt, Bool.not_eq_true, ne_eq]

theorem mem_processed_of_dep {u v : BuildKey} (h : bs.Dep u v) :
    u ∈ bs.processed.map Prod.fst := by
  by_contra hu
  rw [Builds.Dep, Builds.build, Dict.get?_of_notMem hu] at h
  cases h

theorem exists_checkNeedsBuild_of_acyclic (inv : Invocation) (mem : BuildStates) (b : BuildKey)
    (hacyc : ∀ u, ¬ Relation.TransGen bs.Dep u u) (hn : bs.processed.length < n) (eager : Bool) :
    ∃ x, checkNeedsBuild inv bs mem n b eager = some x := by
  have hsucc : (fun u v => v ∈ (bs.build u).orderedDeps) = bs.Dep := by
    funext u v
    exact propext mem_orderedDeps
  obtain ⟨o, hdeps⟩ : ∃ o, checkDeps bs mem (if eager then (mem b).buildMtime else 0) n b =
      some o := by
    refine exists_scan_of_acyclic (U := bs.processed.map Prod.fst) ?_ ?_ (by simpa using hn) b
    · intro u v hv
      exact mem_processed_of_dep (mem_orderedDeps.1 hv)
    · rw [hsucc]
      exact hacyc
  exact exists_checkNeedsBuild_of_checkDeps hdeps

/-- **The verdict by reachability.**  On a graph without cycles and without `--skip-deps` and
`--clean`, both checks end.  The lazy one finds no need for a build iff the stamp of the build is
neither missing nor older than its sources and every edge from a build entered is up to date; the
eager one iff, in addition, none of these edges leads to something newer than the stamp.  So what
the lazy check finds, the eager one finds as well. -/
theorem checkNeedsBuild_verdict (inv : Invocation) (bs : Builds) (mem : BuildStates) (n : ℕ)
    (b : BuildKey) (hskip : inv.args.skipDeps = false) (hclean : inv.args.isClean = false)
    (hacyc : ∀ u, ¬ Relation.TransGen bs.Dep u u) (hn : bs.processed.length < n) :
    ∃ lazyBuild lazyReason eagerBuild eagerReason,
      checkNeedsBuild inv bs mem n b false = some (lazyBuild, lazyReason) ∧
      checkNeedsBuild inv bs mem n b true = some (eagerBuild, eagerReason) ∧
      (lazyBuild = false ↔
        ((mem b).srcMtime ≤ (mem b).buildMtime ∧ (mem b).checksum ≠ [] ∧
          (mem b).mustBuild = false) ∧
        ∀ u v, Entered bs b u → v ∈ (bs.build u).orderedDeps → UpToDate mem u v) ∧
      (eagerBuild = false ↔
        (((mem b).srcMtime ≤ (mem b).buildMtime ∧ (mem b).checksum ≠ [] ∧
          (mem b).mustBuild = false) ∧
        ∀ u v, Entered bs b u → v ∈ (bs.build u).orderedDeps → UpToDate mem u v) ∧
        (0 < (mem b).buildMtime → ∀ u v, Entered bs b u → v ∈ (bs.build u).orderedDeps →
          (mem v).mtime ≤ (mem b).buildMtime)) ∧
      (lazyBuild = true → eagerBuild = true) := by
  obtain ⟨⟨lazyBuild, lazyReason⟩, hlazy⟩ :=
    exists_checkNeedsBuild_of_acyclic inv mem b hacyc hn false
  obtain ⟨⟨eagerBuild, eagerReason⟩, heager⟩ :=
    exists_checkNeedsBuild_of_acyclic inv mem b hacyc hn true
  have hl := checkNeedsBuild_iff hskip hclean hlazy
  have he := checkNeedsBuild_iff hskip hclean heager
  simp only [not_outdated_iff, examinedBelow_iff, checkDepChanged_eq_false_iff_upToDate, and_imp,
    Bool.false_eq_true, if_false, if_true, Int.lt_irrefl, false_implies, and_true] at hl he
  refine ⟨lazyBuild, lazyReason, eagerBuild, eagerReason, hlazy, heager, hl, ?_, ?_⟩
  · rw [he]
    constructor
    · rintro ⟨hb, hedges⟩
      exact ⟨⟨hb, fun u v hu hv => (hedges u v hu hv).1⟩,
        fun hpos u v hu hv => (hedges u v hu hv).2 hpos⟩
    · rintro ⟨⟨hb, hedges⟩, hnew⟩
      exact ⟨hb, fun u v hu hv => ⟨hedges u v hu hv, fun hpos => hnew hpos u v hu hv⟩⟩
  · -- an eager verdict of `false` needs all that a lazy one needs
    intro hneeded
    by_contra hnot
    obtain ⟨hb, hedges⟩ := he.1 (Bool.not_eq_true _ ▸ hnot)
    have hfalse := hl.2 ⟨hb, fun u v hu hv => (hedges u v hu hv).1⟩
    rw [hneeded] at hfalse
    cases hfalse

/-- A rank that decreases along the dependencies shows that there are no cycles. -/
theorem not_transGen_dep_of_rank (bs : Builds) (rank : BuildKey → ℕ)
    (h : ∀ p ∈ bs.processed, ∀ d ∈ p.2.keys, rank d < rank p.1) (u : BuildKey) :
    ¬ Relation.TransGen bs.Dep u u := by
  refine DepthFirst.not_transGen_self rank ?_ u
  intro k d hd
  rw [Builds.Dep, Builds.build] at hd
  cases hk : bs.processed.get? k with
  | none => rw [hk] at hd; cases hd
  | some p =>
    rw [hk] at hd
    exact h (k, p) (Dict.mem_of_get? hk) d hd

/-- An application with a library, both of which are built with a tool. -/
def toolBuilds : Builds :=
  let app : BuildKey := ("app", .x86_64)
  let lib : BuildKey := ("lib", .x86_64)
  let make : BuildKey := ("make", .x86_64)
  { processed := [(app, { deps := [(lib, [])], hostdeps := [(make, [])] }),
      (lib, { hostdeps := [(make, [])] }), (make, {})]
    buildlist := [make, lib, app] }

/-- The library has been built after the application, with the same result as before. -/
def newerLib : BuildStates := fun k =>
  if k.1 = "lib" then { buildMtime := 5, srcMtime := 1, checksum := "22" }
  else if k.1 = "make" then { buildMtime := 2, srcMtime := 1, checksum := "33" }
  else
    { buildMtime := 4, srcMtime := 1, checksum := "11"
      depChecksums := [("lib.x86_64", "22"), ("make.x86_64", "33")] }

/-- With checksums alone the application need not be built, but the library is newer. -/
theorem toolBuilds_verdict :
    let app : BuildKey := ("app", .x86_64)
    checkNeedsBuild { native := .x86_64, target := .x86_64, tops := ["app"] } toolBuilds newerLib 4
        app false = some (false, []) ∧
      (∀ u v, Entered toolBuilds app u → v ∈ (toolBuilds.build u).orderedDeps →
        UpToDate newerLib u v) ∧
      ¬ (0 < (newerLib app).buildMtime → ∀ u v, Entered toolBuilds app u →
        v ∈ (toolBuilds.build u).orderedDeps → (newerLib v).mtime ≤ (newerLib app).buildMtime) := by
  intro app
  obtain ⟨_, _, _, _, hlazy, heager, hl, he, -⟩ := checkNeedsBuild_verdict
    { native := .x86_64, target := .x86_64, tops := ["app"] } toolBuilds newerLib 4 app rfl rfl
    (not_transGen_dep_of_rank _ (fun k => toolBuilds.buildlist.idxOf k) (by decide)) (by decide)
  have hlazy' : checkNeedsBuild { native := .x86_64, target := .x86_64, tops := ["app"] }
      toolBuilds newerLib 4 app false = some (false, []) := rfl
  have heager' : ∃ r, checkNeedsBuild { native := .x86_64, target := .x86_64, tops := ["app"] }
      toolBuilds newerLib 4 app true = some (true, r) := ⟨_, rfl⟩
  obtain ⟨r, heager'⟩ := heager'
  rw [hlazy'] at hlazy
  rw [heager'] at heager
  cases hlazy
  cases heager
  have hup := hl.1 rfl
  refine ⟨hlazy', hup.2, fun hold => ?_⟩
  have hfalse := he.2 ⟨hup, hold⟩
  cases hfalse

end Pbuild
