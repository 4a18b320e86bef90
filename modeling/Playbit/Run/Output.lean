import Playbit.Run.Consistent

/-!
# Stamps and outputs

A sandbox works directly on the output directory of its package, and the stamp is only written
when the build succeeds.  So a stamp that is found valid describes the output only if every run
of the sandbox that ended without a stamp has left the output as it was, or was made because of
sources that are newer than the stamp, and still are.

`described_of_keeps` says so for histories of such invocations (`Job.Keeps`).  A forced build that
fails leaves a valid stamp and another output (`forced_not_described`).
-/

namespace Pbuild

open Python

variable {Out : Type}

/-! ### Histories of invocations -/

/-- What invocations share: `BUILDDIR`, and the sources as they last were. -/
structure Tree (Out : Type) where
  root : BuildRoot Out
  sources : PkgName → PkgSources

/-- One invocation, whether it succeeds or not. -/
def Job.perform (H : Outputs Out) (job : Job Out) (t : Tree Out) : Option (Tree Out) :=
  (job.main H t.root).map fun r => ⟨r.1, job.sources⟩

/-- No scan finds an earlier time in `s'`. -/
def PkgSources.NotOlder (s s' : PkgSources) : Prop :=
  ∀ archs, s.resolveSources archs ≤ s'.resolveSources archs

/-- The stamp is older than the sources, whatever they are scanned for. -/
def Stamp.Stale (f : Stamp) (s : PkgSources) : Prop :=
  ∀ archs, (f.mtime : ℤ) < s.resolveSources archs

theorem not_stale {f : Stamp} {s : PkgSources} {archs : List Arch}
    (h : s.resolveSources archs ≤ f.mtime) : ¬ f.Stale s :=
  fun hstale => absurd (hstale archs) (Int.not_lt.2 h)

/-- If a run without flags judges `b` not to need a build, its stamp has the checksum of its
output. -/
def Described (H : Outputs Out) (b : BuildKey) (t : Tree Out) : Prop :=
  ∀ job : Job Out, job.inv.args = {} → b ∈ job.bs.buildlist → job.metapackage b.1 = false →
    (t.sources b.1).NotOlder (job.sources b.1) →
    ∀ eager reason, job.needsBuild (job.resolveSources t.root) b eager = some (false, reason) →
      ∃ f o, t.root.stamp (b, []) [] = some f ∧ t.root.out (b, []) = some o ∧
        H.checksumDir o = f.checksum

/-- A run of the sandbox of `b` leaves the plain stamp as it was: the build fails, is a session or
is made with a rule. -/
def Job.Unstamped (job : Job Out) (b : BuildKey) : Prop :=
  job.inv.args.dryRun = false ∧ job.isCleaned b = false ∧
    ((job.sandbox b).1 = false ∨ job.isSession b = true ∨ job.inv.stampRule b ≠ [])

/-- The invocation does not change the output of `b` while its stamp stays valid: it is not found
to need a build that ends without a stamp and with another output, nor cleaned up to another
output; except when the sources are newer than the stamp. -/
structure Job.Keeps (H : Outputs Out) (b : BuildKey) (job : Job Out) (t : Tree Out) : Prop where
  metapackage : job.metapackage b.1 = false
  sources : (t.sources b.1).NotOlder (job.sources b.1)
  sandbox : ∀ sel f o, job.select t.root = some sel → b ∈ sel.1.map Prod.fst → job.Unstamped b →
    job.inv.buildDir b = (b, []) → t.root.stamp (b, []) [] = some f →
    ¬ f.Stale (job.sources b.1) → t.root.out (b, []) = some o →
      H.checksumDir (job.sandboxOut H b) = H.checksumDir o
  cleanup : ∀ sel f o, job.select t.root = some sel → b ∈ sel.2 →
    job.inv.buildDir b = (b, []) → t.root.stamp (b, []) [] = some f →
    ¬ f.Stale (job.sources b.1) → t.root.out (b, []) = some o →
      H.checksumDir (H.cleanup b.1 o) = H.checksumDir o

/-! ### One build -/

/-- The stamp of `b` has the checksum of its output, or is older than the sources. -/
def Accurate (H : Outputs Out) (b : BuildKey) (s : PkgSources) (root : BuildRoot Out) : Prop :=
  ∀ f, root.stamp (b, []) [] = some f →
    (∃ o, root.out (b, []) = some o ∧ H.checksumDir o = f.checksum) ∨ f.Stale s

theorem Accurate.of_eq {H : Outputs Out} {b : BuildKey} {s : PkgSources}
    {root root' : BuildRoot Out} (h : Accurate H b s root)
    (hstamp : root'.stamp (b, []) [] = root.stamp (b, []) [])
    (hout : root'.out (b, []) = root.out (b, [])) : Accurate H b s root' := by
  intro f hf
  rw [hout]
  exact h f (hstamp ▸ hf)

theorem Accurate.notOlder {H : Outputs Out} {b : BuildKey} {s s' : PkgSources}
    {root : BuildRoot Out} (h : Accurate H b s root) (hs : s.NotOlder s') :
    Accurate H b s' root := by
  intro f hf
  exact (h f hf).imp_right fun hstale archs => (hstale archs).trans_le (hs archs)

namespace Job

variable {H : Outputs Out} {job : Job Out} {t : Tree Out} {b : BuildKey}

theorem Keeps.accurate_sandboxed (hk : job.Keeps H b t)
    (h : Accurate H b (job.sources b.1) t.root)
    {sel : List (BuildKey × Text) × List BuildKey} (hsel : job.select t.root = some sel)
    (hb : b ∈ sel.1.map Prod.fst) (hdry : job.inv.args.dryRun = false)
    (hdir : job.inv.buildDir b = (b, [])) {root root' : BuildRoot Out} {ok : Bool}
    (hstamp : root.stamp (b, []) [] = t.root.stamp (b, []) [])
    (hout : root.out (b, []) = t.root.out (b, [])) (hbox : job.Sandboxed H b root root' ok)
    (hun : ok = false ∨ job.isSession b = true ∨ job.inv.stampRule b ≠ []) :
    Accurate H b (job.sources b.1) root' := by
  intro f hf
  rw [hbox.stamp, hdir] at hf
  have hclean : job.isCleaned b = false := by
    by_contra hclean
    rw [if_pos ⟨rfl, by simpa using hclean⟩] at hf
    cases hf
  rw [if_neg (by simp [hclean]), hstamp] at hf
  by_cases hstale : f.Stale (job.sources b.1)
  · exact .inr hstale
  obtain ⟨o, ho, hsum⟩ := (h f hf).resolve_right hstale
  rcases hbox.out with ⟨hout', hok⟩ | ⟨hout', -⟩
  · rw [hdir] at hout'
    refine .inl ⟨_, hout', ?_⟩
    rw [hk.sandbox sel f o hsel hb ⟨hdry, hclean, hok ▸ hun⟩ hdir hf hstale ho, hsum]
  · -- the sandbox was not even entered
    rw [hdir] at hout'
    refine .inl ⟨o, ?_, hsum⟩
    rw [hout', prepared]
    simp [hclean, hdir, BuildRoot.setOut, hout, ho]

theorem accurate_stamped {sources : PkgSources} {s : RunState Out} {o : Out}
    (hmeta : job.metapackage b.1 = false) (hdir : job.inv.buildDir b = (b, []))
    (hrule : job.inv.stampRule b = []) (hout : s.root.out (job.inv.buildDir b) = some o) :
    Accurate H b sources (job.stamped H s b).root := by
  intro f hf
  refine .inl ⟨o, hdir ▸ hout, (checksum_of_stamped ?_ hmeta hout).symm⟩
  rwa [stampOf, hdir, hrule]

section Own

variable {sel : List (BuildKey × Text) × List BuildKey} {l₁ l₂ : List BuildKey}
  {s s' : RunState Out} (hk : job.Keeps H b t) (h : Accurate H b (job.sources b.1) t.root)
  (hsel : job.select t.root = some sel) (hl : sel.1.map Prod.fst = l₁ ++ b :: l₂)
  (hs : job.Untouched t.root l₁ s)
include hsel hl hs

theorem own_untouched : s.root.stamp (b, []) [] = t.root.stamp (b, []) [] ∧
    s.root.out (b, []) = t.root.out (b, []) := by
  have hdone := notMem_done hsel hl
  have hother : ∀ k ∈ l₁, (b, ([] : Text)) ≠ job.inv.buildDir k :=
    fun k hk => ne_buildDir (fun hbk : b = k => hdone (hbk ▸ hk)) []
  exact ⟨hs.stamp (b, []) hother [], hs.out (b, []) hother⟩

include hk h

/-- A stamp that is touched was not older than the sources, and so had the checksum of the
output. -/
theorem Keeps.accurate_upToDate (hdir : job.inv.buildDir b = (b, [])) {reason : Text}
    (hneeds : job.needsBuild s.mem b false = some (false, reason)) :
    Accurate H b (job.sources b.1) (s.root.setStamp (job.inv.buildDir b) (job.inv.stampRule b)
      (touched (job.clock b) (job.stampOf s.root b))) := by
  have hb : b ∈ sel.1.map Prod.fst := by simp [hl]
  have hdone := notMem_done hsel hl
  obtain ⟨hstamp, hout⟩ := own_untouched hsel hl hs
  by_cases hrule : job.inv.stampRule b = []
  · intro f hf
    have hfresh := (not_outdated_of_checkNeedsBuild (not_skipped hsel hb) hneeds).1
    rw [hs.mem b hdone] at hfresh
    obtain ⟨f₀, hf₀, hscan⟩ := exists_stamp_of_not_outdated (mem_buildlist_of_select hsel hb)
      hk.metapackage (not_skipped hsel hb) hfresh
    have hf₀' : t.root.stamp (b, []) [] = some f₀ := by rwa [stampOf, hdir, hrule] at hf₀
    obtain ⟨o, ho, hsum⟩ := (h f₀ hf₀').resolve_right (not_stale hscan)
    refine .inl ⟨o, hout.trans ho, hsum.trans ?_⟩
    simp only [BuildRoot.setStamp, hdir, hrule, and_self, if_true] at hf
    cases hf
    rw [hs.stampOf hdone, hf₀]
    rfl
  · refine h.of_eq ?_ hout
    simp only [BuildRoot.setStamp]
    rw [if_neg fun hd => hrule hd.2.symm, hstamp]

theorem Keeps.accurate_effect {ok : Bool} (heff : job.Effect H b s s' ok) :
    Accurate H b (job.sources b.1) s'.root := by
  have hb : b ∈ sel.1.map Prod.fst := by simp [hl]
  obtain ⟨hstamp, hout⟩ := own_untouched hsel hl hs
  by_cases hdir : job.inv.buildDir b = (b, [])
  · have hbox : ∀ {root : BuildRoot Out} {ok : Bool}, job.inv.args.dryRun = false →
        job.Sandboxed H b s.root root ok →
        ok = false ∨ job.isSession b = true ∨ job.inv.stampRule b ≠ [] →
        Accurate H b (job.sources b.1) root :=
      fun hdry hbox => hk.accurate_sandboxed h hsel hb hdry hdir hstamp hout hbox
    cases heff with
    | dryRun => exact h.of_eq hstamp hout
    | upToDate _ hneeds =>
      exact (hk.accurate_upToDate h hsel hl hs hdir hneeds).of_eq rfl rfl
    | built hdry _ _ hroot =>
      obtain ⟨hmeta, -⟩ | ⟨hmeta, hroot⟩ := hroot
      · rw [hk.metapackage] at hmeta; cases hmeta
      by_cases hrule : job.inv.stampRule b = []
      · exact accurate_stamped hmeta hdir hrule hroot.out_of_ok.1
      · refine (hbox hdry hroot (.inr (.inr hrule))).of_eq ?_ rfl
        simp only [stamped, BuildRoot.record, BuildRoot.setStamp]
        rw [if_neg fun hd => hrule hd.2.symm]
    | session hdry _ hsession hroot =>
      obtain ⟨hmeta, -⟩ | ⟨hmeta, hroot⟩ := hroot
      · rw [hk.metapackage] at hmeta; cases hmeta
      exact (hbox hdry hroot (.inr (.inl hsession))).of_eq rfl rfl
    | failed hdry _ _ hroot => exact (hbox hdry hroot (.inl rfl)).of_eq rfl rfl
  · -- a build with another configuration has a directory of its own
    have hframe := heff.frame
    exact h.of_eq ((hframe.stamp _ (Ne.symm hdir) []).trans hstamp)
      ((hframe.out _ (Ne.symm hdir)).trans hout)

end Own

/-! ### One invocation -/

theorem Keeps.accurate_run (hk : job.Keeps H b t) (h : Accurate H b (job.sources b.1) t.root)
    {sel : List (BuildKey × Text) × List BuildKey} (hsel : job.select t.root = some sel)
    {s : RunState Out} {ok : Bool}
    (hrun : Machine.runAll (job.build H) (sel.1.map Prod.fst)
      ⟨job.resolveSources t.root, t.root⟩ = some (s, ok)) :
    Accurate H b (job.sources b.1) s.root := by
  have hstep : ∀ l₁ k l₂ s s' ok, sel.1.map Prod.fst = l₁ ++ k :: l₂ →
      job.Untouched t.root l₁ s ∧ Accurate H b (job.sources b.1) s.root →
      job.build H k s = some (s', ok) → Accurate H b (job.sources b.1) s'.root := by
    intro l₁ k l₂ s s' ok hl hs hbuild
    have heff := build_cases hbuild
    by_cases hkb : b = k
    · subst hkb
      exact hk.accurate_effect h hsel hl hs.1 heff
    · exact hs.2.of_eq (heff.frame.stamp _ (ne_buildDir hkb []) [])
        (heff.frame.out _ (ne_buildDir hkb []))
  have hend := Machine.runAll_rule
    (I := fun done s => job.Untouched t.root done s ∧ Accurate H b (job.sources b.1) s.root)
    (F := fun s => Accurate H b (job.sources b.1) s.root) hrun ⟨.init job t.root, h⟩
    (fun l₁ k l₂ s s' hl hs hbuild => ⟨hs.1.step (build_cases hbuild).frame,
      hstep l₁ k l₂ s s' true hl hs hbuild⟩)
    (fun l₁ k l₂ s s' hl hs hbuild => hstep l₁ k l₂ s s' false hl hs hbuild)
  cases ok with
  | true => exact hend.2
  | false => exact hend

theorem cleanup_out_ne (root : BuildRoot Out) {k : BuildKey} {d : BuildDir}
    (hd : d ≠ job.inv.buildDir k) : (job.cleanup H root k).out d = root.out d := by
  unfold cleanup
  split
  · rfl
  · simp [BuildRoot.setOut, hd]

theorem cleanupOnly_out_ne (root : BuildRoot Out) {l : List BuildKey} {d : BuildDir}
    (hd : ∀ k ∈ l, d ≠ job.inv.buildDir k) : (job.cleanupOnly H root l).out d = root.out d := by
  induction l generalizing root with
  | nil => rfl
  | cons k l ih =>
    rw [List.forall_mem_cons] at hd
    exact (ih _ hd.2).trans (cleanup_out_ne root hd.1)

theorem cleanup_out (root : BuildRoot Out) (b : BuildKey) :
    (job.cleanup H root b).out (job.inv.buildDir b) =
      (root.out (job.inv.buildDir b)).map (H.cleanup b.1) := by
  unfold cleanup
  split
  · next h => rw [h]; rfl
  · next h => rw [h]; simp [BuildRoot.setOut]

theorem cleanupOnly_out (root : BuildRoot Out) {l : List BuildKey} (hl : l.Nodup) (hb : b ∈ l) :
    (job.cleanupOnly H root l).out (job.inv.buildDir b) =
      (root.out (job.inv.buildDir b)).map (H.cleanup b.1) := by
  induction l generalizing root with
  | nil => cases hb
  | cons k l ih =>
    rw [List.nodup_cons] at hl
    change (job.cleanupOnly H (job.cleanup H root k) l).out _ = _
    by_cases hkb : b = k
    · subst hkb
      rw [cleanupOnly_out_ne _ fun k hk => buildDir_ne fun hbk : b = k => hl.1 (hbk ▸ hk),
        cleanup_out]
    · rw [ih _ hl.2 ((List.mem_cons.1 hb).resolve_left hkb), cleanup_out_ne _ (buildDir_ne hkb)]

/-- **One invocation.** -/
theorem Keeps.accurate_main (hk : job.Keeps H b t) (h : Accurate H b (t.sources b.1) t.root)
    {root' : BuildRoot Out} {ok : Bool} (hmain : job.main H t.root = some (root', ok)) :
    Accurate H b (job.sources b.1) root' := by
  replace h := h.notOlder hk.sources
  obtain ⟨sel, s, hsel, hrun, rfl⟩ := main_cases hmain
  have hs := hk.accurate_run h hsel hrun
  cases ok with
  | false => exact hs
  | true =>
    rw [if_pos rfl]
    have hstamp : (job.cleanupOnly H s.root sel.2).stamp (b, []) [] = s.root.stamp (b, []) [] := by
      rw [(cleanupOnly_frame _ _).1]
    by_cases hclean : b ∈ sel.2 ∧ job.inv.buildDir b = (b, [])
    · obtain ⟨hb, hdir⟩ := hclean
      -- it was not selected, so it is as the invocation found it
      have hsel₂ := (selectWhatToBuild_eq_some hsel).2
      have hkeep : ∀ k ∈ sel.1.map Prod.fst, (b, ([] : Text)) ≠ job.inv.buildDir k :=
        fun k hk => ne_buildDir
          (fun hbk : b = k => notMem_of_mem_cleanupOnly hsel hb (hbk ▸ hk)) []
      intro f hf
      rw [hstamp, (untouched_of_run hrun).stamp _ hkeep] at hf
      by_cases hstale : f.Stale (job.sources b.1)
      · exact .inr hstale
      · obtain ⟨o, ho, hsum⟩ := (h f hf).resolve_right hstale
        refine .inl ⟨H.cleanup b.1 o, ?_, ?_⟩
        · have hnodup : sel.2.Nodup := hsel₂ ▸ job.resolvedBuilds.nodup.filter _
          have hout : (job.cleanupOnly H s.root sel.2).out (job.inv.buildDir b) =
              (s.root.out (job.inv.buildDir b)).map (H.cleanup b.1) :=
            cleanupOnly_out s.root hnodup hb
          rw [hdir, (untouched_of_run hrun).out _ hkeep, ho] at hout
          exact hout
        · rw [hk.cleanup sel f o hsel hb hdir hf hstale ho, hsum]
    · refine hs.of_eq hstamp (cleanupOnly_out_ne _ fun k hkmem hd => hclean ?_)
      have hbk : b = k := congrArg Prod.fst hd
      subst hbk
      exact ⟨hkmem, hd.symm⟩

end Job

/-- A run without flags keeps the stamps accurate when it succeeds, or fails on sources that are
newer than the stamp. -/
theorem Job.Keeps.of_plain {H : Outputs Out} {j : Job Out} {b : BuildKey} {t : Tree Out}
    (hargs : j.inv.args = {}) (hmeta : j.metapackage b.1 = false)
    (hsrc : (t.sources b.1).NotOlder (j.sources b.1))
    (hfail : (j.sandbox b).1 = false → ∀ f, t.root.stamp (b, []) [] = some f →
      f.Stale (j.sources b.1)) : j.Keeps H b t where
  metapackage := hmeta
  sources := hsrc
  sandbox := by
    rintro sel f o - - ⟨-, -, hun⟩ - hf hstale -
    rcases hun with hun | hun | hun
    · exact absurd (hfail hun f hf) hstale
    · simp [Job.isSession, hargs] at hun
    · simp [Invocation.stampRule, hargs] at hun
  cleanup := by
    intro sel f o hsel hb
    rw [(selectWhatToBuild_eq_some hsel).2] at hb
    simp [hargs] at hb

/-! ### Histories -/

theorem Accurate.described {H : Outputs Out} {b : BuildKey} {t : Tree Out}
    (h : Accurate H b (t.sources b.1) t.root) : Described H b t := by
  intro job hargs hb hmeta hsrc eager reason hneeds
  have hskip : (job.inv.args.skipDeps && !job.inv.isToplevel b) = false := by rw [hargs]; rfl
  have hfresh := (not_outdated_of_checkNeedsBuild hskip hneeds).1
  obtain ⟨f, hf, hscan⟩ := Job.exists_stamp_of_not_outdated hb hmeta hskip hfresh
  have hf' : t.root.stamp (b, []) [] = some f := by
    simpa [Job.stampOf, Invocation.buildDir, Invocation.stampRule, hargs] using hf
  obtain ⟨o, ho, hsum⟩ := (h.notOlder hsrc f hf').resolve_right (not_stale hscan)
  exact ⟨f, o, hf', ho, hsum⟩

/-- **Valid stamps describe the output.**  In a history of invocations of any kind, successful or
not, that do not change the output of `b` without a new stamp while the stamp is not older than
the sources, whose times do not go back: when a run without flags judges `b` not to need a build,
the checksum in its stamp is the one of its output. -/
theorem described_of_keeps (H : Outputs Out) (b : BuildKey) (sources : PkgName → PkgSources)
    (jobs : List (Job Out)) (t : Tree Out)
    (h : Machine.Along (Job.perform H) (Job.Keeps H b) ⟨.empty, sources⟩ jobs t) :
    Described H b t := by
  have hacc : Accurate H b (t.sources b.1) t.root := by
    refine h.invariant (I := fun t => Accurate H b (t.sources b.1) t.root) (fun f hf => ?_) ?_
    · cases hf
    · intro job t t' ht hk hnext
      obtain ⟨⟨root', ok⟩, hmain, rfl⟩ := Option.map_eq_some_iff.1 hnext
      exact hk.accurate_main ht hmain
  exact hacc.described

/-- The build graph of a package without dependencies. -/
def soloBuilds : Builds :=
  (({} : Builds).intern ("app".toList, .x86_64)).finish ("app".toList, .x86_64)

theorem soloBuilds_acyclic :
    ∀ k ∈ soloBuilds.buildlist, ¬ Relation.TransGen soloBuilds.Dep k k :=
  fun _ hk => Builds.not_transGen_self (by decide) hk

/-- An invocation for a package without dependencies: with its index file from `src`, a sandbox
that ends with `r`, and a stamp at `t`. -/
def soloJob (args : Args) (src : ℤ) (r : Bool × Bool) (t : Time) : Job Bool where
  inv := ⟨.x86_64, .x86_64, ["app"], args⟩
  pkgs _ := { depsResolved := true }
  bs := soloBuilds
  resolved := ⟨6, rfl⟩
  acyclic := soloBuilds_acyclic
  metapackage _ := false
  sources _ := { index := src }
  sandbox _ := r
  clock _ := t

/-- A build, a build that fails after the package has been edited, and the next build. -/
def soloHistory : List (Job Bool) :=
  [soloJob {} 1 (true, true) 10, soloJob {} 20 (false, false) 30,
    soloJob {} 40 (true, false) 50]

theorem soloHistory_described : ∃ t f o,
    Machine.Along (Job.perform bitOutputs) (Job.Keeps bitOutputs ("app".toList, Arch.x86_64))
      ⟨.empty, fun _ => ⟨0, []⟩⟩ soloHistory t ∧
    t.root.stamp (("app".toList, Arch.x86_64), []) [] = some f ∧
    t.root.out (("app".toList, Arch.x86_64), []) = some o ∧
    bitOutputs.checksumDir o = f.checksum := by
  obtain ⟨t₁, t₂, t₃, f₁, h₁, h₂, h₃, hsrc₁, hsrc₂, hsrc₃, hf₁, htime, hneeds⟩ :
      ∃ t₁ t₂ t₃ f₁,
        (soloJob {} 1 (true, true) 10).perform bitOutputs
          ⟨.empty, fun _ => ⟨0, []⟩⟩ = some t₁ ∧
        (soloJob {} 20 (false, false) 30).perform bitOutputs t₁ = some t₂ ∧
        (soloJob {} 40 (true, false) 50).perform bitOutputs t₂ = some t₃ ∧
        t₁.sources = (fun _ => ⟨1, []⟩) ∧ t₂.sources = (fun _ => ⟨20, []⟩) ∧
        t₃.sources = (fun _ => ⟨40, []⟩) ∧
        t₁.root.stamp (("app".toList, Arch.x86_64), []) [] = some f₁ ∧ (f₁.mtime : ℤ) = 10 ∧
        (soloJob {} 40 (true, false) 50).needsBuild
          ((soloJob {} 40 (true, false) 50).resolveSources t₃.root)
          ("app".toList, Arch.x86_64) true = some (false, []) :=
    ⟨_, _, _, _, rfl, rfl, rfl, rfl, rfl, rfl, rfl, rfl, rfl⟩
  have hk₁ := Job.Keeps.of_plain (H := bitOutputs) (b := ("app".toList, Arch.x86_64))
    (t := ⟨.empty, fun _ => ⟨0, []⟩⟩) (j := soloJob {} 1 (true, true) 10) rfl rfl
    (fun _ => (by decide : (0 : ℤ) ≤ 1)) fun h => by cases h
  have hk₂ := Job.Keeps.of_plain (H := bitOutputs) (b := ("app".toList, Arch.x86_64))
    (t := t₁) (j := soloJob {} 20 (false, false) 30) rfl rfl
    (fun _ => by rw [hsrc₁]; exact (by decide : (1 : ℤ) ≤ 20)) fun _ f hf archs => by
      cases hf.symm.trans hf₁
      rw [htime]
      exact (by decide : (10 : ℤ) < 20)
  have hk₃ := Job.Keeps.of_plain (H := bitOutputs) (b := ("app".toList, Arch.x86_64))
    (t := t₂) (j := soloJob {} 40 (true, false) 50) rfl rfl
    (fun _ => by rw [hsrc₂]; exact (by decide : (20 : ℤ) ≤ 40)) fun h => by cases h
  have h := (((Machine.Along.nil _).snoc hk₁ h₁).snoc hk₂ h₂).snoc hk₃ h₃
  obtain ⟨f, o, hf, ho, hsum⟩ := described_of_keeps _ _ _ _ _ h
    (soloJob {} 40 (true, false) 50) rfl (by decide) rfl
    (fun _ => by rw [hsrc₃]; rfl) true [] hneeds
  exact ⟨t₃, f, o, h, hf, ho, hsum⟩

/-- **A valid stamp that does not describe the output.**  A forced build fails after it has
changed the output; the stamp of the build before it is still valid. -/
theorem forced_not_described : ∃ t,
    Machine.Along (Job.perform bitOutputs) (fun job _ => job.metapackage "app".toList = false ∧
        job.sources = fun _ => ⟨1, []⟩) ⟨.empty, fun _ => ⟨1, []⟩⟩
      [soloJob {} 1 (true, true) 10,
        soloJob { force := true } 1 (false, false) 30] t ∧
    ¬ Described bitOutputs ("app".toList, Arch.x86_64) t := by
  obtain ⟨t₁, t₂, f, o, h₁, h₂, hsrc, hneeds, hf, ho, hne⟩ : ∃ t₁ t₂ f o,
      (soloJob {} 1 (true, true) 10).perform bitOutputs
        ⟨.empty, fun _ => ⟨1, []⟩⟩ = some t₁ ∧
      (soloJob { force := true } 1 (false, false) 30).perform bitOutputs t₁ =
        some t₂ ∧
      t₂.sources = (fun _ => ⟨1, []⟩) ∧
      (soloJob {} 1 (true, true) 10).needsBuild
        ((soloJob {} 1 (true, true) 10).resolveSources t₂.root)
        ("app".toList, Arch.x86_64) true = some (false, []) ∧
      t₂.root.stamp (("app".toList, Arch.x86_64), []) [] = some f ∧
      t₂.root.out (("app".toList, Arch.x86_64), []) = some o ∧
      bitOutputs.checksumDir o ≠ f.checksum :=
    ⟨_, _, _, _, rfl, rfl, rfl, rfl, rfl, rfl, by decide⟩
  refine ⟨t₂, ((Machine.Along.nil _).snoc ⟨rfl, rfl⟩ h₁).snoc ⟨rfl, rfl⟩ h₂, fun hdesc => hne ?_⟩
  obtain ⟨f', o', hf', ho', hsum⟩ := hdesc (soloJob {} 1 (true, true) 10) rfl
    (by decide) rfl (fun _ => by rw [hsrc]; rfl) true [] hneeds
  cases hf.symm.trans hf'
  cases ho.symm.trans ho'
  exact hsum

end Pbuild
