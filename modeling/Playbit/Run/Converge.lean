import Playbit.Run.Again

/-!
# Repeated runs

Whatever stamps the first of a sequence of runs finds, later runs come to rest when nothing but
the outputs of the builds changes.  A run may leave a package behind whose stamp is older than
that of a dependency it has just touched, so this takes more than one run.  It goes up the
dependency graph: once everything below a package is *clean*, the next run leaves the package
itself clean, and what is clean together with all that is below it is not selected any more.

`Repeated.clean` is this step, by the length of the chains of edges below a package, and
`repeated_selects_nothing` says that repeated runs come to rest.  The argument uses that stamps have
positive times: a dependency whose stamp has the time 0 counts as changed in every run.
-/

namespace Pbuild

open Python DepthFirst

variable {Out : Type} {H : Outputs Out} {job : Job Out} {root root' : BuildRoot Out}

/-! ### The time of sources -/

/-- Scanning for several times the same architecture is scanning for it once. -/
theorem PkgSources.resolveSources_of_forall_eq (s : PkgSources) {archs : List Arch} {a : Arch}
    (hne : archs ≠ []) (h : ∀ x ∈ archs, x = a) :
    s.resolveSources archs = s.resolveSources [a] := by
  obtain ⟨x, hx⟩ := List.exists_mem_of_ne_nil archs hne
  refine PkgSources.resolveSources_congr fun y => ⟨fun hy => ?_, fun hy => ?_⟩
  · simpa using h y hy
  · rw [List.mem_singleton.1 hy, ← h x hx]
    exact hx

namespace Job

/-- The latest source of a build, for its architecture.  Only the index file of a metapackage
counts. -/
def sourceTime (job : Job Out) (b : BuildKey) : ℤ :=
  if job.metapackage b.1 then (job.sources b.1).index else (job.sources b.1).resolveSources [b.2]

theorem index_le_sourceTime (b : BuildKey) : (job.sources b.1).index ≤ job.sourceTime b := by
  unfold sourceTime
  split_ifs
  · exact Int.le_refl _
  · exact PkgSources.index_le_resolveSources _ _

theorem sourceTime_le {b : BuildKey} {t : ℤ} (hindex : (job.sources b.1).index ≤ t)
    (hfiles : ∀ f ∈ (job.sources b.1).files, f.mtime ≤ t) : job.sourceTime b ≤ t := by
  unfold sourceTime
  split_ifs
  · exact hindex
  · exact PkgSources.resolveSources_le_iff.2 ⟨hindex, fun f hf _ => hfiles f hf⟩

theorem metapackage_of_mem_toScan {b : BuildKey} (hb : b ∈ job.toScan root) :
    job.metapackage b.1 = false := by
  have hflag := (List.mem_filter.1 hb).2
  by_contra hmeta
  rw [Bool.not_eq_false] at hmeta
  simp [checked, checkSource, hmeta] at hflag

section Native

variable (hnative : ∀ k ∈ job.bs.buildlist, k.2 = job.inv.native)
include hnative

theorem resolveSources_archs {b : BuildKey} (hb : b ∈ job.toScan root) :
    (job.sources b.1).resolveSources (job.archs root) = job.sourceTime b := by
  have hlist : ∀ k ∈ job.toScan root, k.2 = job.inv.native := fun k hk =>
    hnative k (List.mem_filter.1 hk).1
  rw [sourceTime, metapackage_of_mem_toScan hb, if_neg Bool.false_ne_true]
  refine PkgSources.resolveSources_of_forall_eq _ (List.ne_nil_of_mem (List.mem_map_of_mem hb))
    fun x hx => ?_
  obtain ⟨k, hk, rfl⟩ := List.mem_map.1 hx
  rw [hlist k hk, hlist b hb]

theorem pkgSrcMtime_le_sourceTime {b : BuildKey} (hb : b ∈ job.bs.buildlist) :
    job.pkgSrcMtime root b.1 ≤ job.sourceTime b := by
  unfold pkgSrcMtime
  split_ifs with hscan
  · obtain ⟨k, hk, hkb⟩ := List.mem_map.1 hscan
    have harch : k.2 = b.2 := (hnative k (List.mem_filter.1 hk).1).trans (hnative b hb).symm
    have heq : k = b := Prod.ext hkb harch
    exact (resolveSources_archs hnative (heq ▸ hk)).le
  · exact index_le_sourceTime b

end Native

/-! ### Clean stamps -/

/-- The stamp of `b` is not older than its sources and the stamps of its dependencies, and has the
checksums of these. -/
def Clean (job : Job Out) (root : BuildRoot Out) (b : BuildKey) : Prop :=
  ∃ f, job.stampOf root b = some f ∧ f.checksum ≠ [] ∧ job.sourceTime b ≤ f.mtime ∧
    ∀ d, job.bs.Dep b d → ∃ g, job.stampOf root d = some g ∧ g.mtime ≤ f.mtime ∧
      f.depChecksums.get? (buildName d) = some g.checksum

theorem Clean.of_stampOf {b : BuildKey} (h : job.Clean root b)
    (hb : job.stampOf root' b = job.stampOf root b)
    (hdeps : ∀ d, job.bs.Dep b d → job.stampOf root' d = job.stampOf root d) :
    job.Clean root' b := by
  obtain ⟨f, hf, hsum, hsrc, hrec⟩ := h
  refine ⟨f, hb.trans hf, hsum, hsrc, fun d hd => ?_⟩
  obtain ⟨g, hg, hle, hget⟩ := hrec d hd
  exact ⟨g, (hdeps d hd).trans hg, hle, hget⟩

/-- The run has no flags that call for builds. -/
abbrev Plain (job : Job Out) : Prop := Again job job

namespace Plain

variable (hplain : job.Plain)
include hplain

theorem skipDeps : job.inv.args.skipDeps = false := by rw [hplain.inv]; rfl

theorem isClean : job.inv.args.isClean = false := by rw [hplain.inv]; rfl

theorem cleanAll : job.inv.args.cleanAll = false := by rw [hplain.inv]; rfl

theorem dryRun : job.inv.args.dryRun = false := by rw [hplain.inv]; rfl

theorem isSession (b : BuildKey) : job.isSession b = false := by
  unfold Job.isSession; rw [hplain.inv]; rfl

theorem not_skipped (b : BuildKey) :
    (job.inv.args.skipDeps && !job.inv.isToplevel b) = false := by
  rw [hplain.skipDeps]; rfl

variable (hnative : ∀ k ∈ job.bs.buildlist, k.2 = job.inv.native)
include hnative

/-- What is clean is read as it is, and is not outdated. -/
theorem resolveSources_of_clean {b : BuildKey} {f : Stamp} (hb : b ∈ job.bs.buildlist)
    (hf : job.stampOf root b = some f) (hsum : f.checksum ≠ [])
    (hsrc : job.sourceTime b ≤ f.mtime) :
    ¬ (job.resolveSources root b).Outdated ∧ (job.resolveSources root b).mtime = f.mtime ∧
      (job.resolveSources root b).buildMtime = f.mtime ∧
      (job.resolveSources root b).checksum = f.checksum ∧
      (job.resolveSources root b).depChecksums = f.depChecksums := by
  have hle : job.pkgSrcMtime root b.1 ≤ f.mtime :=
    (pkgSrcMtime_le_sourceTime hnative hb).trans hsrc
  rw [resolveSources_of_stamp hplain.cleanAll (by rw [hplain.inv]; rfl) (by rw [hplain.inv]; rfl)
    (by rw [hplain.inv]; rfl) hf hsum ((index_le_sourceTime b).trans hsrc)]
  refine ⟨?_, if_neg (Int.not_lt.2 hle), rfl, rfl, rfl⟩
  rintro (h | h | h)
  · exact Int.not_lt.2 hle h
  · exact hsum h
  · cases h

theorem clean_of_not_needed {b : BuildKey} {r : Text} (hb : b ∈ job.bs.buildlist)
    (h : job.needsBuild (job.resolveSources root) b true = some (false, r)) :
    job.Clean root b := by
  obtain ⟨hout, hdeps⟩ := not_outdated_of_checkNeedsBuild (hplain.not_skipped b) h
  obtain ⟨f, hf, hfsum, hfdeps, hfmtime⟩ :=
    exists_stamp_of_checksum fun hsum => hout (.inr (.inl hsum))
  refine ⟨f, hf, fun hsum => hout (.inr (.inl (hfsum.trans hsum))), ?_, fun d hd => ?_⟩
  · cases hmeta : job.metapackage b.1 with
    | true =>
      have hle : ¬ (job.resolveSources root b).buildMtime < _ := fun hlt => hout (.inl hlt)
      rw [hfmtime, Int.not_lt, resolveSources_srcMtime hplain.cleanAll] at hle
      refine le_trans ?_ hle
      rw [sourceTime, if_pos hmeta, pkgSrcMtime, if_neg]
      rintro hscan
      obtain ⟨k, hk, hkb⟩ := List.mem_map.1 hscan
      have hfalse := metapackage_of_mem_toScan hk
      rw [hkb, hmeta] at hfalse
      cases hfalse
    | false =>
      have hscan : b ∈ job.toScan root :=
        mem_toScan_of_not_outdated hb hmeta (hplain.not_skipped b) hout
      obtain ⟨f', hf', hle⟩ := exists_stamp_of_not_outdated hb hmeta (hplain.not_skipped b) hout
      cases hf.symm.trans hf'
      rwa [resolveSources_archs hnative hscan] at hle
  · have hedge := hdeps b d (.edge (mem_orderedDeps.2 hd))
    obtain ⟨-, -, hle, hsum, hget⟩ := checkDepChanged_eq_false_iff.1 hedge
    obtain ⟨g, hg, hgsum, -, hgmtime⟩ := exists_stamp_of_checksum hsum
    rw [if_pos rfl, hfmtime] at hle
    refine ⟨g, hg, ?_, by rw [← hfdeps, ← hgsum]; exact hget⟩
    show (g.mtime : ℤ) ≤ f.mtime
    refine le_trans ?_ (hle f.mtime.2)
    rw [← hgmtime, BuildState.mtime]
    split_ifs with hlt
    · exact hlt.le
    · exact Int.le_refl _

/-- What is clean with everything below it is not selected. -/
theorem not_needed_of_clean {b : BuildKey} (hb : b ∈ job.bs.buildlist)
    (hclean : ∀ k, Relation.ReflTransGen job.bs.Dep b k → job.Clean root k) :
    ∃ r, job.needsBuild (job.resolveSources root) b true = some (false, r) := by
  obtain ⟨f, hf, hsum, hsrc, -⟩ := hclean b .refl
  have hread := hplain.resolveSources_of_clean hnative hb hf hsum hsrc
  -- stamps do not get newer going down
  have hbelow : ∀ k, Relation.ReflTransGen job.bs.Dep b k → k ∈ job.bs.buildlist ∧
      ∃ g, job.stampOf root k = some g ∧ g.mtime ≤ f.mtime := by
    intro k hk
    induction hk with
    | refl => exact ⟨hb, f, hf, le_rfl⟩
    | @tail u k hu hd ih =>
      obtain ⟨hmem, g, hg, hle⟩ := ih
      obtain ⟨g', hg', -, -, hrec⟩ := hclean u hu
      cases hg.symm.trans hg'
      obtain ⟨h, hh, hle', -⟩ := hrec k hd
      exact ⟨job.resolvedBuilds.mem_of_dep hmem hd, h, hh, hle'.trans hle⟩
  obtain ⟨⟨v, r⟩, hv⟩ : ∃ x, job.needsBuild (job.resolveSources root) b true = some x :=
    exists_needsBuild _ true hb
  refine ⟨r, ?_⟩
  have hfalse : v = false := by
    refine (checkNeedsBuild_iff hplain.skipDeps hplain.isClean hv).2 ⟨hread.1, fun u w hex => ?_⟩
    have hbu : Relation.ReflTransGen job.bs.Dep b u :=
      Relation.ReflTransGen.mono (fun _ _ hstep => mem_orderedDeps.1 hstep.1) _ _ hex.1
    have huw : job.bs.Dep u w := mem_orderedDeps.1 hex.2
    obtain ⟨humem, -⟩ := hbelow u hbu
    obtain ⟨hwmem, g, hg, hle⟩ := hbelow w (hbu.tail huw)
    obtain ⟨g', hg', hgsum, hgsrc, -⟩ := hclean w (hbu.tail huw)
    cases hg.symm.trans hg'
    obtain ⟨fu, hfu, husum, husrc, hrec⟩ := hclean u hbu
    obtain ⟨g', hg', -, hget⟩ := hrec w huw
    cases hg.symm.trans hg'
    obtain ⟨hwout, hwmtime, -, hwsum, -⟩ :=
      hplain.resolveSources_of_clean hnative hwmem hg hgsum hgsrc
    obtain ⟨-, -, -, -, hudeps⟩ := hplain.resolveSources_of_clean hnative humem hfu husum husrc
    refine checkDepChanged_eq_false_iff.2 ⟨?_, ?_, fun _ => ?_, ?_, ?_⟩
    · exact Bool.eq_false_iff.2 fun hmust => hwout (.inr (.inr hmust))
    · rw [hwmtime]
      exact g.mtime.2
    · rw [if_pos rfl, hwmtime, hread.2.2.1]
      exact hle
    · rwa [hwsum]
    · rw [hudeps, hwsum]
      exact hget
  exact hfalse ▸ hv

end Plain

/-! ### What a run renews -/

/-- The stamp of `b` is of this run and has the checksums of the stamps of its dependencies. -/
def Renewed (job : Job Out) (root : BuildRoot Out) (b : BuildKey) : Prop :=
  ∃ f, job.stampOf root b = some f ∧ f.mtime = job.clock b ∧ IsField f.checksum ∧
    ∀ d, job.bs.Dep b d → ∃ g, job.stampOf root d = some g ∧
      f.depChecksums.get? (buildName d) = some g.checksum

/-- Every checksum can be written to a line and read back. -/
def Legible (job : Job Out) (root : BuildRoot Out) : Prop :=
  ∀ k ∈ job.bs.buildlist, ∀ f, job.stampOf root k = some f → f.checksum ≠ [] → IsField f.checksum

theorem Renewed.of_stampOf {b : BuildKey} (h : job.Renewed root b)
    (hb : job.stampOf root' b = job.stampOf root b)
    (hdeps : ∀ d, job.bs.Dep b d → job.stampOf root' d = job.stampOf root d) :
    job.Renewed root' b := by
  obtain ⟨f, hf, hmtime, hsum, hrec⟩ := h
  refine ⟨f, hb.trans hf, hmtime, hsum, fun d hd => ?_⟩
  obtain ⟨g, hg, hget⟩ := hrec d hd
  exact ⟨g, (hdeps d hd).trans hg, hget⟩

section Step

variable {sel : List (BuildKey × Text) × List BuildKey} {l₁ l₂ : List BuildKey} {b : BuildKey}
  {s s' : RunState Out} (hplain : job.Plain) (hname : ∀ k ∈ job.bs.buildlist, Unspaced k.1)
  (hlegible : job.Legible root) (hsel : job.select root = some sel)
  (hl : sel.1.map Prod.fst = l₁ ++ b :: l₂) (hsynced : job.Synced root (sel.1.map Prod.fst) l₁ s)
  (hdone : ∀ k ∈ l₁, job.Renewed s.root k)
include hlegible hsynced hdone

/-- The checksum of a dependency that is in sync can be read back. -/
theorem InSync.isField {d : BuildKey} (hd : d ∈ job.bs.buildlist) (h : job.InSync s d) :
    ∃ g, job.stampOf s.root d = some g ∧ (s.mem d).checksum = g.checksum ∧ IsField g.checksum := by
  obtain ⟨g, hg, hsum, hne⟩ := h
  refine ⟨g, hg, hsum, ?_⟩
  by_cases hmem : d ∈ l₁
  · obtain ⟨g', hg', -, hfield, -⟩ := hdone d hmem
    cases hg.symm.trans hg'
    exact hfield
  · rw [hsynced.untouched.stampOf hmem] at hg
    exact hlegible d hd g hg (hsum ▸ hne)

include hplain hname hsel hl

/-- A build renews its own stamp, whether it is built or found to be up to date. -/
theorem Effect.renewed (heff : job.Effect H b s s' true) : job.Renewed s'.root b := by
  have hb : b ∈ job.bs.buildlist := mem_buildlist_of_select hsel (by simp [hl])
  have hframe := heff.frame
  have hdep : ∀ d, job.bs.Dep b d → d ∈ job.bs.buildlist ∧ job.InSync s d ∧
      job.stampOf s'.root d = job.stampOf s.root d := fun d hd =>
    ⟨job.resolvedBuilds.mem_of_dep hb hd, hsynced.inSync_dep hsel hl hd,
      hframe.stampOf (ne_of_dep hb hd)⟩
  cases heff with
  | dryRun hdry => rw [hplain.dryRun] at hdry; cases hdry
  | session _ _ hsession => rw [hplain.isSession] at hsession; cases hsession
  | upToDate _ hneeds =>
    obtain ⟨hout, hedges⟩ := not_outdated_of_checkNeedsBuild (hplain.not_skipped b) hneeds
    have hmem := hsynced.untouched.mem b (notMem_done hsel hl)
    rw [hmem] at hout
    obtain ⟨f, hf, hfsum, hfdeps, -⟩ :=
      exists_stamp_of_checksum fun hsum => hout (.inr (.inl hsum))
    have hne : f.checksum ≠ [] := fun hsum => hout (.inr (.inl (hfsum.trans hsum)))
    refine ⟨⟨f.text, job.clock b⟩, ?_, rfl, hlegible b hb f hf hne, fun d hd => ?_⟩
    · rw [← hsynced.untouched.stampOf (notMem_done hsel hl)] at hf
      simp [hf, Pbuild.touched]
    · obtain ⟨-, ⟨g, hg, hsum, -⟩, hstamp⟩ := hdep d hd
      obtain ⟨-, -, -, -, hget⟩ := checkDepChanged_eq_false_iff.1
        (hedges b d (.edge (mem_orderedDeps.2 hd)))
      rw [hsum, hmem, hfdeps] at hget
      exact ⟨g, hstamp.trans hg, hget⟩
  | @built _ _ _ _ root₁ hroot =>
    have hcons : job.Consistent (job.stamped H ⟨s.mem, root₁⟩ b).root b :=
      consistent_stamped hb fun d hd => (hdep d hd).2.1.frame (frame_of_sandboxed hroot)
        (ne_of_dep hb hd)
    have hstamps : ∀ d, job.bs.Dep b d → ∃ g,
        job.stampOf (job.stamped H ⟨s.mem, root₁⟩ b).root d = some g ∧ IsField g.checksum := by
      intro d hd
      obtain ⟨hdmem, hsync, hstamp⟩ := hdep d hd
      obtain ⟨g, hg, -, hfield⟩ := hsync.isField hlegible hsynced hdone hdmem
      exact ⟨g, hstamp.trans hg, hfield⟩
    obtain ⟨f, hf, hmtime, hsum, hread⟩ := hcons.read
      (fun d hd => hname d (hdep d hd).1) fun d hd => by
        obtain ⟨g, hg, hfield⟩ := hstamps d hd
        rwa [stampChecksum, hg]
    refine ⟨f, hf, hmtime, hsum ▸ hcons.stampChecksum_word.isField, fun d hd => ?_⟩
    obtain ⟨g, hg, -⟩ := hstamps d hd
    refine ⟨g, hg, ?_⟩
    rw [hread, get?_sortedDeps (mem_sortedDeps.2 hd), stampChecksum, hg]
    rfl

end Step

/-- **What a run renews**: everything that it selects. -/
theorem renewed_of_main (hplain : job.Plain) (hname : ∀ k ∈ job.bs.buildlist, Unspaced k.1)
    (hlegible : job.Legible root) {sel : List (BuildKey × Text) × List BuildKey}
    (hsel : job.select root = some sel) (hmain : job.main H root = some (root', true)) :
    (∀ b ∈ sel.1.map Prod.fst, job.Renewed root' b) ∧
      ∀ b, b ∉ sel.1.map Prod.fst → job.stampOf root' b = job.stampOf root b := by
  obtain ⟨sel', s, hsel', hrun, rfl⟩ := main_cases hmain
  cases hsel.symm.trans hsel'
  rw [if_pos rfl]
  have hrenewed := Machine.runAll_rule (F := fun _ => True)
    (I := fun done s => job.Synced root (sel.1.map Prod.fst) done s ∧
      ∀ k ∈ done, job.Renewed s.root k) hrun ?_ ?_ fun _ _ _ _ _ _ _ _ => trivial
  · rw [if_pos rfl] at hrenewed
    refine ⟨fun b hb => ?_, fun b hb => ?_⟩
    · exact (hrenewed.2 b hb).of_stampOf (stampOf_cleanupOnly _ _ _)
        fun d _ => stampOf_cleanupOnly _ _ _
    · rw [stampOf_cleanupOnly]
      exact hrenewed.1.untouched.stampOf hb
  · refine ⟨⟨.init job root, fun k hk hk' => ?_, [], by simp, by simp⟩, by simp⟩
    exact inSync_of_not_selected hplain.skipDeps hsel hk (hk'.resolve_right List.not_mem_nil)
  · rintro l₁ b l₂ s s' hl ⟨hsynced, hdone⟩ hbuild
    have heff := build_cases hbuild
    refine ⟨hsynced.step hsel hl hplain.dryRun (hplain.isSession b) heff, fun k hk => ?_⟩
    rcases List.mem_append.1 hk with hmem | hmem
    · -- nothing that the stamp of `k` speaks about is changed
      have hne : ∀ d, d = k ∨ job.bs.Dep k d → d ≠ b := by
        rintro d (rfl | hd) rfl
        · exact notMem_done hsel hl hmem
        · exact not_transGen_of_done hsel hl hmem (.single hd)
      exact (hdone k hmem).of_stampOf (heff.frame.stampOf (hne k (.inl rfl)))
        fun d hd => heff.frame.stampOf (hne d (.inr hd))
    · cases List.mem_singleton.1 hmem
      exact heff.renewed hplain hname hlegible hsel hl hsynced hdone

/-- A build of which everything below is clean is clean after the next run. -/
theorem clean_of_main (hplain : job.Plain) (hname : ∀ k ∈ job.bs.buildlist, Unspaced k.1)
    (hnative : ∀ k ∈ job.bs.buildlist, k.2 = job.inv.native) (hlegible : job.Legible root)
    (hmain : job.main H root = some (root', true)) {b : BuildKey} (hb : b ∈ job.bs.buildlist)
    (hbelow : ∀ k, Relation.TransGen job.bs.Dep b k → job.Clean root k)
    (hsrc : job.sourceTime b ≤ job.clock b)
    (hstamps : ∀ d f, job.bs.Dep b d → job.stampOf root d = some f → f.mtime ≤ job.clock b) :
    job.Clean root' b := by
  obtain ⟨sel, hsel⟩ : ∃ sel, job.select root = some sel := exists_select root
  obtain ⟨hrenewed, hkeep⟩ := renewed_of_main hplain hname hlegible hsel hmain
  -- nothing below is selected, so the stamps there do not change
  have hdeps : ∀ d, job.bs.Dep b d → job.stampOf root' d = job.stampOf root d := by
    intro d hd
    refine hkeep d fun hmem => ?_
    obtain ⟨x, hx, rfl⟩ := List.mem_map.1 hmem
    obtain ⟨hxlist, hneeds⟩ := (mem_selectWhatToBuild hsel x).1 hx
    obtain ⟨r, hr⟩ := hplain.not_needed_of_clean hnative hxlist fun k hk =>
      hbelow k (.head' hd hk)
    cases hneeds.symm.trans hr
  by_cases hmem : b ∈ sel.1.map Prod.fst
  · obtain ⟨f, hf, hmtime, hfield, hrec⟩ := hrenewed b hmem
    refine ⟨f, hf, hfield.ne_nil, hmtime ▸ hsrc, fun d hd => ?_⟩
    obtain ⟨g, hg, hget⟩ := hrec d hd
    exact ⟨g, hg, hmtime ▸ hstamps d g hd ((hdeps d hd).symm.trans hg), hget⟩
  · obtain ⟨⟨v, r⟩, hv⟩ : ∃ x, job.needsBuild (job.resolveSources root) b true = some x :=
      exists_needsBuild _ true hb
    cases v with
    | true =>
      have hx := (mem_selectWhatToBuild hsel (b, r)).2 ⟨hb, hv⟩
      exact absurd (List.mem_map.2 ⟨_, hx, rfl⟩) hmem
    | false => exact (hplain.clean_of_not_needed hnative hb hv).of_stampOf (hkeep b hmem) hdeps

end Job

/-! ### Sequences of runs -/

/-- `m` runs after each other, all without flags and successful, from `roots 0` to `roots m`, where
the run `i` is between the times `time i` and `time (i + 1)`.  Nothing is changed between the runs,
and what is there at first is not from the future. -/
structure Repeated (H : Outputs Out) (runs : ℕ → Job Out) (roots : ℕ → BuildRoot Out)
    (time : ℕ → ℤ) (m : ℕ) : Prop where
  again : ∀ i, Job.Again (runs 0) (runs i)
  names : ∀ k ∈ (runs 0).bs.buildlist, Unspaced k.1
  native : ∀ k ∈ (runs 0).bs.buildlist, k.2 = (runs 0).inv.native
  sources : ∀ k ∈ (runs 0).bs.buildlist, ((runs 0).sources k.1).index ≤ time 0 ∧
    ∀ f ∈ ((runs 0).sources k.1).files, f.mtime ≤ time 0
  stamps : ∀ k ∈ (runs 0).bs.buildlist, ∀ f, (runs 0).stampOf (roots 0) k = some f →
    f.mtime ≤ time 0
  time_le : ∀ i < m, time i ≤ time (i + 1)
  clock : ∀ i < m, ∀ k ∈ (runs 0).bs.buildlist,
    time i ≤ (runs i).clock k ∧ (runs i).clock k ≤ time (i + 1)
  main : ∀ i < m, (runs i).main H (roots i) = some (roots (i + 1), true)

/-- All chains of dependencies from `b` have at most `n` edges. -/
def Builds.ChainsLe (bs : Builds) (n : ℕ) (b : BuildKey) : Prop :=
  ∀ l, (b :: l).IsChain bs.Dep → l.length ≤ n

theorem Builds.ChainsLe.of_dep {bs : Builds} {n : ℕ} {b d : BuildKey} (h : bs.ChainsLe n b)
    (hd : bs.Dep b d) : ∃ k, n = k + 1 ∧ bs.ChainsLe k d := by
  cases n with
  | zero => exact absurd (h [d] (.cons_cons hd (.singleton d))) (by simp)
  | succ k => exact ⟨k, rfl, fun l hl => Nat.le_of_succ_le_succ (h (d :: l) (.cons_cons hd hl))⟩

theorem Builds.ChainsLe.of_transGen {bs : Builds} {n : ℕ} {b d : BuildKey} (h : bs.ChainsLe n b)
    (hd : Relation.TransGen bs.Dep b d) : ∃ k < n, bs.ChainsLe k d := by
  induction hd with
  | single hd =>
    obtain ⟨k, rfl, hk⟩ := h.of_dep hd
    exact ⟨k, Nat.lt_succ_self k, hk⟩
  | tail _ hd ih =>
    obtain ⟨k, hlt, hk⟩ := ih
    obtain ⟨j, rfl, hj⟩ := hk.of_dep hd
    exact ⟨j, by omega, hj⟩

theorem Builds.Ordered.chainsLe {bs : Builds} (ho : bs.Ordered) {n : ℕ} {b : BuildKey}
    (hb : b ∈ bs.buildlist) (hn : bs.buildlist.idxOf b ≤ n) : bs.ChainsLe n b := by
  intro l
  induction l generalizing n b with
  | nil => exact fun _ => Nat.zero_le n
  | cons d l ih =>
    rintro (- | - | ⟨hd, hl⟩)
    obtain ⟨hmem, hlt⟩ := ho.idxOf_lt hb hd
    exact Nat.succ_le_of_lt (Nat.lt_of_le_of_lt (ih hmem le_rfl hl) (Nat.lt_of_lt_of_le hlt hn))

namespace Job

theorem Again.plain {job₂ : Job Out} (h : Again job job₂) : job₂.Plain :=
  ⟨by rw [h.inv]; rfl, rfl, rfl, rfl⟩

theorem Again.clean_iff {job₂ : Job Out} (h : Again job job₂) (b : BuildKey) :
    job₂.Clean root b ↔ job.Clean root b := by
  simp only [Clean, h.stampOf, sourceTime, h.metapackage, h.sources, h.bs]

end Job

namespace Repeated

variable {runs : ℕ → Job Out} {roots : ℕ → BuildRoot Out} {time : ℕ → ℤ} {m : ℕ}
  (h : Repeated H runs roots time m)
include h

theorem native_run (i : ℕ) : ∀ k ∈ (runs i).bs.buildlist, k.2 = (runs i).inv.native := by
  rw [(h.again i).bs, (h.again i).inv]
  exact h.native

theorem names_run (i : ℕ) : ∀ k ∈ (runs i).bs.buildlist, Unspaced k.1 := by
  rw [(h.again i).bs]
  exact h.names

theorem time_zero_le {i : ℕ} (hi : i ≤ m) : time 0 ≤ time i := by
  induction i with
  | zero => exact le_rfl
  | succ i ih => exact (ih (Nat.le_of_succ_le hi)).trans (h.time_le i hi)

variable (hstrip : ∀ k ∈ (runs 0).bs.buildlist, ∀ f, (runs 0).stampOf (roots 0) k = some f →
  lstrip f.checksum = f.checksum)
include hstrip

/-- Stamps are never from the future, and can always be read back. -/
theorem stamps_run {i : ℕ} (hi : i ≤ m) :
    (runs i).Legible (roots i) ∧ ∀ k ∈ (runs 0).bs.buildlist, ∀ f,
      (runs 0).stampOf (roots i) k = some f → f.mtime ≤ time i := by
  induction i with
  | zero =>
    exact ⟨fun k hk f hf hne => f.isField_checksum hne (hstrip k hk f hf), h.stamps⟩
  | succ i ih =>
    obtain ⟨hlegible, hstamps⟩ := ih (Nat.le_of_succ_le hi)
    obtain ⟨sel, hsel⟩ : ∃ sel, (runs i).select (roots i) = some sel := Job.exists_select _
    obtain ⟨hrenewed, hkeep⟩ := Job.renewed_of_main (h.again i).plain (h.names_run i) hlegible hsel
      (h.main i hi)
    have hcases : ∀ k ∈ (runs 0).bs.buildlist, ∀ f, (runs 0).stampOf (roots (i + 1)) k = some f →
        f.mtime = (runs i).clock k ∧ IsField f.checksum ∨
          (runs 0).stampOf (roots i) k = some f := by
      intro k hk f hf
      rw [← (h.again i).stampOf] at hf ⊢
      by_cases hmem : k ∈ sel.1.map Prod.fst
      · obtain ⟨f', hf', hmtime, hfield, -⟩ := hrenewed k hmem
        cases hf.symm.trans hf'
        exact .inl ⟨hmtime, hfield⟩
      · exact .inr ((hkeep k hmem).symm.trans hf)
    constructor
    · intro k hk f hf hne
      rw [(h.again (i + 1)).bs] at hk
      rw [(h.again (i + 1)).stampOf] at hf
      rcases hcases k hk f hf with ⟨-, hfield⟩ | hf
      · exact hfield
      · exact hlegible k (by rwa [(h.again i).bs]) f (((h.again i).stampOf k).trans hf) hne
    · intro k hk f hf
      rcases hcases k hk f hf with ⟨hmtime, -⟩ | hf
      · rw [hmtime]
        exact (h.clock i hi k hk).2
      · exact (hstamps k hk f hf).trans (h.time_le i hi)

/-- **Level by level**: after more than `k` runs, everything with chains of at most `k` edges is
clean. -/
theorem clean {i k : ℕ} (hi : i ≤ m) (hk : k < i) {b : BuildKey}
    (hb : b ∈ (runs 0).bs.buildlist) (hchain : (runs 0).bs.ChainsLe k b) :
    (runs 0).Clean (roots i) b := by
  induction i generalizing k b with
  | zero => exact absurd hk (Nat.not_lt_zero k)
  | succ i ih =>
    obtain ⟨hlegible, hstamps⟩ := h.stamps_run hstrip (Nat.le_of_succ_le hi)
    have hclock := (h.clock i hi b hb).1
    rw [← (h.again i).clean_iff]
    refine Job.clean_of_main (h.again i).plain (h.names_run i) (h.native_run i) hlegible
      (h.main i hi) (by rwa [(h.again i).bs]) ?_ ?_ ?_
    · intro d hd
      rw [(h.again i).bs] at hd
      obtain ⟨j, hj, hchain'⟩ := hchain.of_transGen hd
      rw [(h.again i).clean_iff]
      exact ih (Nat.le_of_succ_le hi) (by omega) (Job.mem_buildlist_of_transGen hb hd) hchain'
    · refine (Job.sourceTime_le (t := time 0) ?_ ?_).trans
        ((h.time_zero_le (Nat.le_of_succ_le hi)).trans hclock)
      · rw [(h.again i).sources]
        exact (h.sources b hb).1
      · rw [(h.again i).sources]
        exact (h.sources b hb).2
    · intro d f hd hf
      rw [(h.again i).bs] at hd
      rw [(h.again i).stampOf] at hf
      exact (hstamps d ((runs 0).resolvedBuilds.mem_of_dep hb hd) f hf).trans hclock

end Repeated

/-- **Repeated runs come to rest.**  When all chains of dependencies have at most `n` edges, a run
after `n + 1` or more successful runs without flags selects nothing, whatever the stamps were at
first, as long as no checksum in them started with white space. -/
theorem repeated_selects_nothing (H : Outputs Out) (runs : ℕ → Job Out)
    (roots : ℕ → BuildRoot Out) (time : ℕ → ℤ) (n m : ℕ) (h : Repeated H runs roots time m)
    (hstrip : ∀ k ∈ (runs 0).bs.buildlist, ∀ f, (runs 0).stampOf (roots 0) k = some f →
      lstrip f.checksum = f.checksum)
    (hchain : ∀ b ∈ (runs 0).bs.buildlist, (runs 0).bs.ChainsLe n b) (hm : n + 1 ≤ m) :
    (runs m).select (roots m) = some ([], []) := by
  have hplain := (h.again m).plain
  refine Job.select_eq_nil (by rw [hplain.inv]; rfl) fun b hb => ?_
  refine hplain.not_needed_of_clean (h.native_run m) hb fun k hk => ?_
  rw [(h.again m).bs] at hb hk
  have hkmem : k ∈ (runs 0).bs.buildlist := by
    rcases Relation.reflTransGen_iff_eq_or_transGen.1 hk with rfl | hk
    · exact hb
    · exact Job.mem_buildlist_of_transGen hb hk
  rw [(h.again m).clean_iff]
  exact h.clean hstrip le_rfl hm hkmem (hchain k hkmem)

/-- Building the sample packages for the `i`-th time. -/
def sampleRuns (i : ℕ) : Job Bool :=
  { Job.sample with
    clock := fun k => ⟨Job.sample.clock k + 10 * i, by have := (Job.sample.clock k).2; omega⟩ }

/-- What the runs of the sample leave, starting from `root`. -/
def sampleRoots (root : BuildRoot Bool) : ℕ → BuildRoot Bool
  | 0 => root
  | i + 1 => (((sampleRuns i).main bitOutputs (sampleRoots root i)).getD (root, false)).1

/-- Outputs of all packages, and stamps of `lib` and `tool` with the given text. -/
def stampedRoot (lib tool : Text) : BuildRoot Bool where
  stamp d _ :=
    if d.1.1 = "lib".toList then some ⟨lib, 5⟩
    else if d.1.1 = "tool".toList then some ⟨tool, 4⟩
    else none
  out _ := some true
  log := []

theorem sample_repeated {lib tool : Text} {m : ℕ}
    (hmain : ∀ i < m, (sampleRuns i).main bitOutputs (sampleRoots (stampedRoot lib tool) i) =
      some (sampleRoots (stampedRoot lib tool) (i + 1), true)) :
    Repeated bitOutputs sampleRuns (sampleRoots (stampedRoot lib tool)) (fun i => 10 + 10 * i)
      m where
  again _ := ⟨rfl, rfl, rfl, rfl⟩
  names := by decide
  native := by decide
  sources := by decide
  stamps k _ f hf := by
    simp only [sampleRoots, stampedRoot, Job.stampOf] at hf
    split_ifs at hf
    · cases hf
      exact (by decide : (5 : ℤ) ≤ 10)
    · cases hf
      exact (by decide : (4 : ℤ) ≤ 10)
  time_le i _ := by omega
  clock i _ k hk := by
    have hclock : ∀ k ∈ Job.sample.bs.buildlist,
        (10 : ℤ) ≤ Job.sample.clock k ∧ (Job.sample.clock k : ℤ) ≤ 20 := by decide
    obtain ⟨h₁, h₂⟩ := hclock k hk
    simp only [sampleRuns]
    constructor <;> omega
  main := hmain

theorem sample_chainsLe : ∀ b ∈ (sampleRuns 0).bs.buildlist, (sampleRuns 0).bs.ChainsLe 2 b := by
  have hidx : ∀ b ∈ (sampleRuns 0).bs.buildlist, (sampleRuns 0).bs.buildlist.idxOf b ≤ 2 := by
    decide
  exact fun b hb => (sampleRuns 0).ordered.chainsLe hb (hidx b hb)

/-- Stamps that are out of date with each other. -/
theorem stale_stamps_settle :
    (sampleRuns 0).select (stampedRoot "old\n".toList "t\nlib.x86_64 older\n".toList) ≠
      some ([], []) ∧
    (sampleRuns 3).select (sampleRoots (stampedRoot "old\n".toList
      "t\nlib.x86_64 older\n".toList) 3) = some ([], []) := by
  refine ⟨by decide, repeated_selects_nothing bitOutputs sampleRuns _ _ 2 3
    (sample_repeated fun i hi => ?_) (fun k hk f hf => ?_) sample_chainsLe (by decide)⟩
  · match i, hi with
    | 0, _ => rfl
    | 1, _ => rfl
    | 2, _ => rfl
  · simp only [sampleRoots, stampedRoot, Job.stampOf] at hf
    split_ifs at hf <;> cases hf <;> decide

/-- **A checksum that starts with white space** is never read back from the stamps of the packages
that depend on it, so these are built in every run. -/
theorem blank_checksum_unsettled : Repeated bitOutputs sampleRuns
      (sampleRoots (stampedRoot " x\n".toList [])) (fun i => 10 + 10 * i) 3 ∧
    (∀ b ∈ (sampleRuns 0).bs.buildlist, (sampleRuns 0).bs.ChainsLe 2 b) ∧
    (sampleRuns 3).select (sampleRoots (stampedRoot " x\n".toList []) 3) ≠ some ([], []) := by
  refine ⟨sample_repeated fun i hi => ?_, sample_chainsLe, by decide⟩
  match i, hi with
  | 0, _ => rfl
  | 1, _ => rfl
  | 2, _ => rfl

end Pbuild
