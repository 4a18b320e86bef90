import Playbit.Run.Consistent

/-!
# Running again

When everything was built in a run, the next run finds nothing to do.  The stamps are in the order
of the build list, each has the checksums of the stamps below it, and reading them back gives what
was written; so every edge that `check_deps` looks at is unchanged, and not newer than the stamp
of the build it is looked at for.

This is `Job.second_run_selects_nothing`.
-/

namespace Pbuild

open Python DepthFirst

/-- The same build without any flags that call for it. -/
def Invocation.again (inv : Invocation) : Invocation :=
  { inv with args := { rule := inv.args.rule, buildConfigId := inv.args.buildConfigId } }

variable {Out : Type} {H : Outputs Out} {job job₂ : Job Out} {root root' : BuildRoot Out}

namespace Job

/-- `job₂` builds the same as `job`, from the same sources and without flags. -/
structure Again (job job₂ : Job Out) : Prop where
  inv : job₂.inv = job.inv.again
  bs : job₂.bs = job.bs
  metapackage : job₂.metapackage = job.metapackage
  sources : job₂.sources = job.sources

/-! ### What was built was selected -/

/-- The events of a run that say that something was built. -/
theorem log_of_run {sel : List (BuildKey × Text) × List BuildKey} {s : RunState Out}
    (hrun : Machine.runAll (job.build H) (sel.1.map Prod.fst) ⟨job.resolveSources root, root⟩ =
      some (s, true)) :
    ∃ new, s.root.log = root.log ++ new ∧ ∀ e ∈ new, e.outcome = .built →
      ∃ k ∈ sel.1.map Prod.fst, e.dir = job.inv.buildDir k ∧ job.inv.args.dryRun = false ∧
        job.isSession k = false := by
  refine Machine.runAll_rule (I := fun done s => ∃ new, s.root.log = root.log ++ new ∧
      ∀ e ∈ new, e.outcome = .built → ∃ k ∈ done, e.dir = job.inv.buildDir k ∧
        job.inv.args.dryRun = false ∧ job.isSession k = false)
    (F := fun _ => True) hrun ⟨[], by simp, by simp⟩ ?_ fun _ _ _ _ _ _ _ _ => trivial
  rintro l₁ b l₂ s s' - ⟨new, hlog, hnew⟩ hbuild
  obtain ⟨new', hlog', hnew'⟩ := (build_cases hbuild).log
  refine ⟨new ++ new', by rw [hlog', hlog, List.append_assoc], fun e he hbuilt => ?_⟩
  rcases List.mem_append.1 he with he | he
  · obtain ⟨k, hk, h⟩ := hnew e he hbuilt
    exact ⟨k, List.mem_append_left _ hk, h⟩
  · exact ⟨b, by simp, (hnew' e he).1, (hnew' e he).2 hbuilt⟩

/-- When everything was built, everything is consistent. -/
theorem consistent_of_all_built (hmain : job.main H root = some (root', true))
    (hbuilt : ∀ k ∈ job.bs.buildlist, job.BuiltIn root root' k) :
    ∀ k ∈ job.bs.buildlist, job.Consistent root' k := by
  obtain ⟨sel, s, hsel, hrun, hroot'⟩ := main_cases hmain
  rw [if_pos rfl] at hroot'
  have hlive : ∀ k ∈ job.bs.buildlist, k ∈ sel.1.map Prod.fst ∧
      job.inv.args.dryRun = false ∧ job.isSession k = false := by
    intro k hk
    obtain ⟨new, outs, hlog, hmem⟩ := hbuilt k hk
    obtain ⟨new', hlog', hnew⟩ := log_of_run hrun
    rw [hroot', (cleanupOnly_frame _ _).2, hlog', List.append_cancel_left_eq] at hlog
    subst hlog
    obtain ⟨k', hk', hdir, h⟩ := hnew _ hmem rfl
    have hkk : k = k' := buildDir_injective hdir
    exact hkk ▸ ⟨hk', h⟩
  have hsynced := synced_of_run hsel
    (fun b hb => (hlive b (mem_buildlist_of_select hsel hb)).2)
    (fun k hk hns => absurd (hlive k hk).1 hns) hrun
  exact fun k hk => (consistent_of_builtIn hsynced hroot' (hbuilt k hk)).2

/-! ### What the next run finds -/

theorem Again.stampOf (h : Again job job₂) (k : BuildKey) :
    job₂.stampOf root k = job.stampOf root k := by
  unfold Job.stampOf
  rw [h.inv]
  rfl

theorem pkgSrcMtime_le {p : PkgName} {t : ℤ} (hindex : (job.sources p).index ≤ t)
    (hfiles : ∀ f ∈ (job.sources p).files, f.mtime ≤ t) : job.pkgSrcMtime root p ≤ t := by
  unfold pkgSrcMtime
  split_ifs
  · exact PkgSources.resolveSources_le_iff.2 ⟨hindex, fun f hf _ => hfiles f hf⟩
  · exact hindex

/-- A build that is not forced and has a good stamp, not older than the index file, is read as it
is. -/
theorem resolveSources_of_stamp {k : BuildKey} {f : Stamp}
    (hclean : job.inv.args.cleanAll = false) (hforce : job.inv.args.isForce = false)
    (hinteractive : job.inv.args.interactiveShell = false)
    (hshell : job.inv.args.shellCmd = false) (hf : job.stampOf root k = some f)
    (hsum : f.checksum ≠ []) (hindex : (job.sources k.1).index ≤ f.mtime) :
    job.resolveSources root k =
      { mustBuild := false, buildMtime := f.mtime, srcMtime := job.pkgSrcMtime root k.1,
        checksum := f.checksum, depChecksums := f.depChecksums } := by
  have hread : readBuildStamp (job.initialState k) (some f) =
      { mustBuild := false, buildMtime := f.mtime, srcMtime := (job.sources k.1).index,
        checksum := f.checksum, depChecksums := f.depChecksums } := rfl
  have hlt : ¬ (f.mtime : ℤ) < (job.sources k.1).index := Int.not_lt.2 hindex
  simp only [resolveSources, hclean, checked, hf, hread, checkSource, hforce, hinteractive, hshell,
    hsum, hlt, Bool.false_eq_true, if_false, Bool.or_self, Bool.and_false, decide_false]
  split_ifs <;> rfl

/-- A non-decreasing clock is not later at a dependency. -/
theorem clock_le_of_dep (hclock : job.bs.buildlist.Pairwise fun x y => job.clock x ≤ job.clock y)
    {b d : BuildKey} (hb : b ∈ job.bs.buildlist) (hd : job.bs.Dep b d) :
    job.clock d ≤ job.clock b := by
  obtain ⟨l₁, l₂, hl⟩ := List.append_of_mem hb
  have hd₁ := job.ordered l₁ b l₂ hl d hd
  rw [hl] at hclock
  exact (List.pairwise_append.1 hclock).2.2 d hd₁ b List.mem_cons_self

/-- What `check_deps` looks at below a build of the list. -/
theorem examined_mem (hclock : job.bs.buildlist.Pairwise fun x y => job.clock x ≤ job.clock y)
    {b u w : BuildKey} (hb : b ∈ job.bs.buildlist) (h : ExaminedBelow job.bs b u w) :
    u ∈ job.bs.buildlist ∧ job.bs.Dep u w ∧ job.clock w ≤ job.clock b := by
  obtain ⟨hbu, hw⟩ := h
  have hw' : job.bs.Dep u w := mem_orderedDeps.1 hw
  have hu : u ∈ job.bs.buildlist ∧ job.clock u ≤ job.clock b := by
    clear hw hw'
    induction hbu with
    | refl => exact ⟨hb, le_refl _⟩
    | tail _ hstep ih =>
      have hd : job.bs.Dep _ _ := mem_orderedDeps.1 hstep.1
      exact ⟨job.resolvedBuilds.mem_of_dep ih.1 hd, (clock_le_of_dep hclock ih.1 hd).trans ih.2⟩
  exact ⟨hu.1, hw', (clock_le_of_dep hclock hu.1 hw').trans hu.2⟩

theorem select_eq_nil (hclean : job.inv.args.cleanup = false)
    (h : ∀ b ∈ job.bs.buildlist,
      ∃ r, job.needsBuild (job.resolveSources root) b true = some (false, r)) :
    job.select root = some ([], []) := by
  obtain ⟨sel, hsel⟩ : ∃ sel, job.select root = some sel := exists_select root
  obtain ⟨h₁, h₂⟩ := selectWhatToBuild_eq_some hsel
  have hnil₁ : sel.1 = [] := by
    rw [h₁, List.filterMap_eq_nil_iff]
    intro b hb
    obtain ⟨r, hr⟩ := h b hb
    rw [neededBuild]
    exact congrArg (Option.bind · _) hr
  have hnil₂ : sel.2 = [] := by
    rw [h₂]
    simp [hclean]
  rw [hsel, ← hnil₁, ← hnil₂]

section SecondRun

variable {start : ℤ} (hagain : Again job job₂) (hname : ∀ k ∈ job.bs.buildlist, Unspaced k.1)
  (hcons : ∀ k ∈ job.bs.buildlist, job.Consistent root' k)
  (hsources : ∀ k ∈ job.bs.buildlist, (job.sources k.1).index ≤ start ∧
    ∀ f ∈ (job.sources k.1).files, f.mtime ≤ start)
  (hstart : ∀ k ∈ job.bs.buildlist, start ≤ job.clock k)
include hagain hsources hstart

theorem Again.srcMtime_le {k : BuildKey} (hk : k ∈ job.bs.buildlist) :
    job₂.pkgSrcMtime root' k.1 ≤ job.clock k := by
  refine (pkgSrcMtime_le ?_ ?_).trans (hstart k hk) <;> rw [hagain.sources]
  · exact (hsources k hk).1
  · exact (hsources k hk).2

include hname hcons

theorem Again.resolveSources_eq {k : BuildKey} (hk : k ∈ job.bs.buildlist) :
    job₂.resolveSources root' k =
      { mustBuild := false, buildMtime := job.clock k, srcMtime := job₂.pkgSrcMtime root' k.1,
        checksum := job.stampChecksum root' k,
        depChecksums := (job.bs.build k).sortedDeps.map fun d =>
          (buildName d, job.stampChecksum root' d) } := by
  obtain ⟨f, hf, hmtime, hsum, hdeps⟩ := (hcons k hk).read
    (fun d hd => hname d (job.resolvedBuilds.mem_of_dep hk hd))
    (fun d hd => (hcons d (job.resolvedBuilds.mem_of_dep hk hd)).stampChecksum_word.isField)
  rw [← hmtime, ← hsum, ← hdeps]
  refine resolveSources_of_stamp (by rw [hagain.inv]; rfl) (by rw [hagain.inv]; rfl)
    (by rw [hagain.inv]; rfl) (by rw [hagain.inv]; rfl) ((hagain.stampOf k).trans hf) ?_ ?_
  · rw [hsum]
    exact (hcons k hk).stampChecksum_word.1
  · rw [hmtime, hagain.sources]
    exact (hsources k hk).1.trans (hstart k hk)

theorem Again.mtime_eq {k : BuildKey} (hk : k ∈ job.bs.buildlist) :
    (job₂.resolveSources root' k).mtime = job.clock k := by
  rw [hagain.resolveSources_eq hname hcons hsources hstart hk]
  exact if_neg (Int.not_lt.2 (hagain.srcMtime_le hsources hstart hk))

theorem Again.not_outdated {k : BuildKey} (hk : k ∈ job.bs.buildlist) :
    ¬ (job₂.resolveSources root' k).Outdated := by
  rw [hagain.resolveSources_eq hname hcons hsources hstart hk]
  rintro (h | h | h)
  · exact Int.not_lt.2 (hagain.srcMtime_le hsources hstart hk) h
  · exact (hcons k hk).stampChecksum_word.1 h
  · cases h

theorem Again.checkDepChanged_eq_false
    (hclock : job.bs.buildlist.Pairwise fun x y => job.clock x ≤ job.clock y) {b u w : BuildKey}
    (hb : b ∈ job.bs.buildlist) (hex : ExaminedBelow job.bs b u w) :
    checkDepChanged (job₂.resolveSources root') u w (job₂.resolveSources root' b).buildMtime =
      false := by
  obtain ⟨hu, huw, hle⟩ := examined_mem hclock hb hex
  have hw := job.resolvedBuilds.mem_of_dep hu huw
  have hmem := fun {k : BuildKey} (hk : k ∈ job.bs.buildlist) =>
    hagain.resolveSources_eq hname hcons hsources hstart hk
  have hmtime := hagain.mtime_eq hname hcons hsources hstart hw
  refine checkDepChanged_eq_false_iff.2 ⟨by rw [hmem hw], ?_, fun _ => ?_, ?_, ?_⟩
  · rw [hmtime]
    exact (job.clock w).2
  · rw [hmtime, hmem hb]
    exact hle
  · rw [hmem hw]
    exact (hcons w hw).stampChecksum_word.1
  · rw [hmem hw, hmem hu]
    exact get?_sortedDeps (mem_sortedDeps.2 huw) _

end SecondRun

/-- **A second run is a no-op.**  After a successful run in which every build of the list was
built, with no source later than the start of the run and a clock that does not go back, the same
run without flags needs none of the builds, and selects nothing. -/
theorem second_run_selects_nothing (H : Outputs Out) (job job₂ : Job Out)
    (root root' : BuildRoot Out) (start : ℤ)
    (hname : ∀ k ∈ job.bs.buildlist, Unspaced k.1)
    (hmain : job.main H root = some (root', true))
    (hbuilt : ∀ k ∈ job.bs.buildlist, job.BuiltIn root root' k)
    (hsources : ∀ k ∈ job.bs.buildlist, (job.sources k.1).index ≤ start ∧
      ∀ f ∈ (job.sources k.1).files, f.mtime ≤ start)
    (hstart : ∀ k ∈ job.bs.buildlist, start ≤ job.clock k)
    (hclock : job.bs.buildlist.Pairwise fun x y => job.clock x ≤ job.clock y)
    (hagain : Again job job₂) :
    job₂.select root' = some ([], []) ∧ ∀ b ∈ job₂.bs.buildlist,
      ∃ r, job₂.needsBuild (job₂.resolveSources root') b true = some (false, r) := by
  have hcons := consistent_of_all_built hmain hbuilt
  have hneeds : ∀ b ∈ job₂.bs.buildlist,
      ∃ r, job₂.needsBuild (job₂.resolveSources root') b true = some (false, r) := by
    intro b hb
    obtain ⟨⟨v, r⟩, hv⟩ : ∃ x, job₂.needsBuild (job₂.resolveSources root') b true = some x :=
      exists_needsBuild _ true hb
    rw [hagain.bs] at hb
    have hfalse : v = false := by
      refine (checkNeedsBuild_iff (by rw [hagain.inv]; rfl) (by rw [hagain.inv]; rfl) hv).2
        ⟨hagain.not_outdated hname hcons hsources hstart hb, fun u w hex => ?_⟩
      rw [hagain.bs] at hex
      exact hagain.checkDepChanged_eq_false hname hcons hsources hstart hclock hb hex
    exact ⟨r, hfalse ▸ hv⟩
  exact ⟨select_eq_nil (by rw [hagain.inv]; rfl) hneeds, hneeds⟩

theorem sample_second_run : ∃ root',
    sample.main bitOutputs .empty = some (root', true) ∧
    sample.select root' = some ([], []) := by
  have hfirst : ∃ root', sample.main bitOutputs .empty = some (root', true) ∧
      ∀ k ∈ sample.bs.buildlist, sample.BuiltIn .empty root' k := by
    refine ⟨_, rfl, fun k hk => ?_⟩
    rcases List.mem_cons.1 hk with rfl | hk
    · exact ⟨_, _, rfl, .head _⟩
    · rcases List.mem_cons.1 hk with rfl | hk
      · exact ⟨_, _, rfl, .tail _ (.head _)⟩
      · cases List.mem_singleton.1 hk
        exact ⟨_, _, rfl, .tail _ (.tail _ (.head _))⟩
  obtain ⟨root', hmain, hbuilt⟩ := hfirst
  exact ⟨root', hmain, (second_run_selects_nothing bitOutputs sample sample .empty root' 1
    (by decide) hmain hbuilt (by decide) (by decide) (by decide) ⟨rfl, rfl, rfl, rfl⟩).1⟩

end Job

end Pbuild
