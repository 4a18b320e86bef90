import Playbit.Run.Basic

/-!
# The progress of a run

The builds that are selected are built in the order of the build list.  A build that is not done
yet has the attributes and the directory that the run found; one that is done, or was not
selected, has a stamp on disk with the checksum that the run has for it in memory.

The first part is `Job.Untouched`, the second `Job.InSync`; that what is below a build comes first
is `Job.mem_done_of_transGen`.
-/

namespace Pbuild

open Python

variable {Out : Type} {H : Outputs Out} {job : Job Out} {root : BuildRoot Out}

namespace Job

/-! ### What `resolve_sources` finds -/

theorem checkSource_checksum (b : BuildKey) (s : BuildState) :
    (job.checkSource b s).1.checksum = s.checksum := by
  unfold checkSource
  dsimp only
  split_ifs <;> rfl

theorem checkSource_depChecksums (b : BuildKey) (s : BuildState) :
    (job.checkSource b s).1.depChecksums = s.depChecksums := by
  unfold checkSource
  dsimp only
  split_ifs <;> rfl

theorem checkSource_buildMtime (b : BuildKey) (s : BuildState) :
    (job.checkSource b s).1.buildMtime = s.buildMtime := by
  unfold checkSource
  dsimp only
  split_ifs <;> rfl

/-- A build that has a checksum has it from its stamp, and the rest with it. -/
theorem exists_stamp_of_checksum {k : BuildKey} (h : (job.resolveSources root k).checksum ≠ []) :
    ∃ f, job.stampOf root k = some f ∧ (job.resolveSources root k).checksum = f.checksum ∧
      (job.resolveSources root k).depChecksums = f.depChecksums ∧
      (job.resolveSources root k).buildMtime = f.mtime := by
  unfold resolveSources at h ⊢
  by_cases hall : job.inv.args.cleanAll = true
  · simp [hall, initialState] at h
  · simp only [hall, Bool.false_eq_true, if_false, checked, checkSource_checksum,
      checkSource_depChecksums, checkSource_buildMtime] at h ⊢
    cases hf : job.stampOf root k with
    | none => simp [hf, readBuildStamp, initialState] at h
    | some f => exact ⟨f, rfl, rfl, rfl, rfl⟩

theorem exists_stamp_of_depChecksums {k : BuildKey} {x c : Text}
    (h : (job.resolveSources root k).depChecksums.get? x = some c) :
    ∃ f, job.stampOf root k = some f ∧ f.depChecksums.get? x = some c := by
  unfold resolveSources at h
  by_cases hall : job.inv.args.cleanAll = true
  · simp [hall, initialState, Dict.get?] at h
  · simp only [hall, Bool.false_eq_true, if_false, checked, checkSource_depChecksums] at h
    cases hf : job.stampOf root k with
    | none => simp [hf, readBuildStamp, Dict.get?] at h
    | some f => exact ⟨f, rfl, by simpa [hf, readBuildStamp] using h⟩

theorem isToplevelPkg_of_isToplevel {b : BuildKey} (h : job.inv.isToplevel b = true) :
    job.isToplevelPkg b = true := by
  rw [Invocation.isToplevel, Bool.and_eq_true] at h
  exact h.1

theorem checkSource_flag {b : BuildKey} {s : BuildState} (hmeta : job.metapackage b.1 = false)
    (hsum : s.checksum ≠ []) (hmust : (job.checkSource b s).1.mustBuild = false) :
    (job.checkSource b s).2 = !(job.inv.args.skipDeps && !job.isToplevelPkg b) := by
  unfold checkSource at hmust ⊢
  simp only [hmeta, Bool.false_eq_true, if_false] at hmust ⊢
  split_ifs at hmust ⊢ with h₁ h₂ h₃
  · rw [Bool.or_eq_true, decide_eq_true_eq] at h₂
    rcases h₂ with h₂ | h₂
    · rw [hmust] at h₂; cases h₂
    · exact absurd h₂ hsum
  · rfl

theorem cleanAll_eq_false {b : BuildKey} (h : ¬ (job.resolveSources root b).Outdated) :
    job.inv.args.cleanAll = false := by
  by_contra hall
  rw [Bool.not_eq_false] at hall
  exact h (.inr (.inr (by simp [resolveSources, hall])))

/-- A package that is not outdated is scanned, as it has not been found to need a build before. -/
theorem mem_toScan_of_not_outdated {b : BuildKey} (hb : b ∈ job.bs.buildlist)
    (hmeta : job.metapackage b.1 = false)
    (hskip : (job.inv.args.skipDeps && !job.inv.isToplevel b) = false)
    (h : ¬ (job.resolveSources root b).Outdated) : b ∈ job.toScan root := by
  obtain ⟨f, hf, hfsum, -⟩ := exists_stamp_of_checksum fun hsum => h (.inr (.inl hsum))
  have hall := cleanAll_eq_false h
  simp only [BuildState.Outdated, not_or, Bool.not_eq_true] at h
  obtain ⟨-, hsum, hmust⟩ := h
  rw [hfsum] at hsum
  simp only [resolveSources, hall, Bool.false_eq_true, if_false] at hmust
  refine List.mem_filter.2 ⟨hb, ?_⟩
  rw [checked, hf] at hmust ⊢
  rw [checkSource_flag hmeta hsum hmust]
  cases htop : job.inv.isToplevel b with
  | true => rw [isToplevelPkg_of_isToplevel htop, Bool.not_true, Bool.and_false]; rfl
  | false =>
    rw [htop, Bool.not_false, Bool.and_true] at hskip
    rw [hskip, Bool.false_and]; rfl

theorem resolveSources_srcMtime (hall : job.inv.args.cleanAll = false) (b : BuildKey) :
    (job.resolveSources root b).srcMtime = job.pkgSrcMtime root b.1 := by
  simp [resolveSources, hall]

/-- What is not outdated has a stamp that is not older than what the scan has found. -/
theorem exists_stamp_of_not_outdated {b : BuildKey} (hb : b ∈ job.bs.buildlist)
    (hmeta : job.metapackage b.1 = false)
    (hskip : (job.inv.args.skipDeps && !job.inv.isToplevel b) = false)
    (h : ¬ (job.resolveSources root b).Outdated) :
    ∃ f, job.stampOf root b = some f ∧
      (job.sources b.1).resolveSources (job.archs root) ≤ f.mtime := by
  obtain ⟨f, hf, -, -, hmtime⟩ := exists_stamp_of_checksum fun hsum => h (.inr (.inl hsum))
  have hscan : b ∈ job.toScan root := mem_toScan_of_not_outdated hb hmeta hskip h
  have hle : ¬ (job.resolveSources root b).buildMtime < _ := fun hlt => h (.inl hlt)
  rw [hmtime, Int.not_lt, resolveSources_srcMtime (cleanAll_eq_false h), pkgSrcMtime,
    if_pos (List.mem_map_of_mem hscan)] at hle
  exact ⟨f, hf, hle⟩

/-! ### Order -/

theorem ne_of_dep {b d : BuildKey} (hb : b ∈ job.bs.buildlist) (hd : job.bs.Dep b d) : d ≠ b := by
  rintro rfl
  exact job.acyclic d hb (.single hd)

theorem mem_of_transGen {l₁ l₂ : List BuildKey} {b d : BuildKey}
    (hl : job.bs.buildlist = l₁ ++ b :: l₂) (h : Relation.TransGen job.bs.Dep b d) : d ∈ l₁ := by
  induction h with
  | single hd => exact job.ordered l₁ b l₂ hl _ hd
  | @tail u d _ hd ih =>
    obtain ⟨m₁, m₂, rfl⟩ := List.append_of_mem ih
    have hl' : job.bs.buildlist = m₁ ++ u :: (m₂ ++ b :: l₂) := by simp [hl]
    exact List.mem_append_left _ (job.ordered m₁ u _ hl' d hd)

theorem transGen_of_examined {b u w : BuildKey} (h : ExaminedBelow job.bs b u w) :
    Relation.TransGen job.bs.Dep b w := by
  obtain ⟨hbu, hw⟩ := h
  have hbu' : Relation.ReflTransGen job.bs.Dep b u :=
    Relation.ReflTransGen.mono (fun _ _ hstep => mem_orderedDeps.1 hstep.1) _ _ hbu
  exact .tail' hbu' (mem_orderedDeps.1 hw)

theorem mem_buildlist_of_transGen {b d : BuildKey} (hb : b ∈ job.bs.buildlist)
    (h : Relation.TransGen job.bs.Dep b d) : d ∈ job.bs.buildlist := by
  obtain ⟨l₁, l₂, hl⟩ := List.append_of_mem hb
  rw [hl]
  exact List.mem_append_left _ (mem_of_transGen hl h)

theorem pairwise_not_transGen (job : Job Out) :
    job.bs.buildlist.Pairwise fun x y => ¬ Relation.TransGen job.bs.Dep x y := by
  have key : ∀ m₂ m₁, job.bs.buildlist = m₁ ++ m₂ →
      m₂.Pairwise fun x y => ¬ Relation.TransGen job.bs.Dep x y := by
    intro m₂
    induction m₂ with
    | nil => exact fun _ _ => .nil
    | cons x m₂ ih =>
      intro m₁ hl
      refine .cons (fun y hy hdep => ?_) (ih (m₁ ++ [x]) (by simp [hl]))
      have hnodup := job.resolvedBuilds.nodup
      rw [hl] at hnodup
      exact (List.nodup_append.1 hnodup).2.2 y (mem_of_transGen hl hdep) y (.tail _ hy) rfl
  exact key _ [] rfl

section Order

variable {sel : List (BuildKey × Text) × List BuildKey} {l₁ l₂ : List BuildKey} {b d k : BuildKey}
  (hsel : job.select root = some sel) (hl : sel.1.map Prod.fst = l₁ ++ b :: l₂)
include hsel hl

theorem notMem_done : b ∉ l₁ := by
  have hnodup := job.resolvedBuilds.nodup.sublist (selectWhatToBuild_sublist hsel)
  rw [hl] at hnodup
  exact fun hb => (List.nodup_append.1 hnodup).2.2 b hb b List.mem_cons_self rfl

/-- What is below a build and selected too is built before. -/
theorem mem_done_of_transGen (hdep : Relation.TransGen job.bs.Dep b d)
    (hd : d ∈ sel.1.map Prod.fst) : d ∈ l₁ := by
  have hpair := job.pairwise_not_transGen.sublist (selectWhatToBuild_sublist hsel)
  have hb : b ∈ job.bs.buildlist := mem_buildlist_of_select hsel (by simp [hl])
  rw [hl] at hpair hd
  rcases List.mem_append.1 hd with hd | hd
  · exact hd
  · rcases List.mem_cons.1 hd with rfl | hd
    · exact absurd hdep (job.acyclic d hb)
    · exact absurd hdep ((List.pairwise_cons.1 (List.pairwise_append.1 hpair).2.1).1 d hd)

theorem settled_of_transGen (hdep : Relation.TransGen job.bs.Dep b d) :
    d ∉ sel.1.map Prod.fst ∨ d ∈ l₁ := by
  by_cases hd : d ∈ sel.1.map Prod.fst
  · exact .inr (mem_done_of_transGen hsel hl hdep hd)
  · exact .inl hd

/-- What is done does not depend on what is still to come. -/
theorem not_transGen_of_done (hk : k ∈ l₁) : ¬ Relation.TransGen job.bs.Dep k b := by
  have hpair := job.pairwise_not_transGen.sublist (selectWhatToBuild_sublist hsel)
  rw [hl] at hpair
  exact (List.pairwise_append.1 hpair).2.2 k hk b List.mem_cons_self

end Order

/-! ### What is not done has not changed -/

/-- What the run has not come to is as it was found; and some attributes do not change at all. -/
structure Untouched (job : Job Out) (root : BuildRoot Out) (done : List BuildKey)
    (s : RunState Out) : Prop where
  mem : ∀ k, k ∉ done → s.mem k = job.resolveSources root k
  depChecksums : ∀ k, (s.mem k).depChecksums = (job.resolveSources root k).depChecksums
  srcMtime : ∀ k, (s.mem k).srcMtime = (job.resolveSources root k).srcMtime
  stamp : ∀ d, (∀ k ∈ done, d ≠ job.inv.buildDir k) → ∀ r, s.root.stamp d r = root.stamp d r
  out : ∀ d, (∀ k ∈ done, d ≠ job.inv.buildDir k) → s.root.out d = root.out d

theorem Untouched.init (job : Job Out) (root : BuildRoot Out) :
    job.Untouched root [] ⟨job.resolveSources root, root⟩ :=
  ⟨fun _ _ => rfl, fun _ => rfl, fun _ => rfl, fun _ _ _ => rfl, fun _ _ => rfl⟩

theorem Untouched.step {done : List BuildKey} {s s' : RunState Out} {b : BuildKey}
    (h : job.Untouched root done s) (hframe : job.Frame b s s') :
    job.Untouched root (done ++ [b]) s' where
  mem k hk := by
    rw [List.mem_append, List.mem_singleton, not_or] at hk
    exact (hframe.mem k hk.2).trans (h.mem k hk.1)
  depChecksums k := (hframe.depChecksums k).trans (h.depChecksums k)
  srcMtime k := (hframe.srcMtime k).trans (h.srcMtime k)
  stamp d hd r := (hframe.stamp d (hd b (by simp)) r).trans
    (h.stamp d (fun k hk => hd k (List.mem_append_left _ hk)) r)
  out d hd := (hframe.out d (hd b (by simp))).trans
    (h.out d fun k hk => hd k (List.mem_append_left _ hk))

theorem Untouched.stampOf {done : List BuildKey} {s : RunState Out} {k : BuildKey}
    (h : job.Untouched root done s) (hk : k ∉ done) :
    job.stampOf s.root k = job.stampOf root k := by
  refine h.stamp _ (fun k' hk' => buildDir_ne ?_) _
  rintro rfl
  exact hk hk'

theorem Untouched.out_buildDir {done : List BuildKey} {s : RunState Out} {k : BuildKey}
    (h : job.Untouched root done s) (hk : k ∉ done) :
    s.root.out (job.inv.buildDir k) = root.out (job.inv.buildDir k) := by
  refine h.out _ fun k' hk' => buildDir_ne ?_
  rintro rfl
  exact hk hk'

theorem Untouched.mono {done done' : List BuildKey} {s : RunState Out}
    (h : job.Untouched root done s) (hsub : ∀ k ∈ done, k ∈ done') :
    job.Untouched root done' s where
  mem k hk := h.mem k fun hk' => hk (hsub k hk')
  depChecksums := h.depChecksums
  srcMtime := h.srcMtime
  stamp d hd := h.stamp d fun k hk => hd k (hsub k hk)
  out d hd := h.out d fun k hk => hd k (hsub k hk)

theorem untouched_of_run {l : List BuildKey} {s : RunState Out} {ok : Bool}
    (hrun : Machine.runAll (job.build H) l ⟨job.resolveSources root, root⟩ = some (s, ok)) :
    job.Untouched root l s := by
  have h := Machine.runAll_rule (I := fun done s => job.Untouched root done s)
    (F := fun s => job.Untouched root l s) hrun (.init job root)
    (fun _ _ _ _ _ _ h hb => h.step (build_cases hb).frame) ?_
  · cases ok with
    | true => exact h
    | false => exact h
  · intro l₁ b l₂ s s' hl h hb
    refine (h.step (build_cases hb).frame).mono fun k hk => ?_
    rw [hl, List.append_cons]
    exact List.mem_append_left _ hk

theorem stamp_of_main {root' : BuildRoot Out} {ok : Bool}
    (hmain : job.main H root = some (root', ok)) {d : BuildDir}
    (hd : ∀ k ∈ job.bs.buildlist, d ≠ job.inv.buildDir k) (r : Text) :
    root'.stamp d r = root.stamp d r := by
  obtain ⟨sel, s, hsel, hrun, rfl⟩ := main_cases hmain
  have hkeep := (untouched_of_run hrun).stamp d
    (fun k hk => hd k (mem_buildlist_of_select hsel hk)) r
  cases ok with
  | true => rw [if_pos rfl, (cleanupOnly_frame _ _).1, hkeep]
  | false => exact hkeep

/-! ### Memory and disk -/

/-- The build has a stamp, with the checksum that is in memory. -/
def InSync (job : Job Out) (s : RunState Out) (k : BuildKey) : Prop :=
  ∃ f, job.stampOf s.root k = some f ∧ (s.mem k).checksum = f.checksum ∧ (s.mem k).checksum ≠ []

theorem InSync.frame {b k : BuildKey} {s s' : RunState Out} (h : job.InSync s k)
    (hframe : job.Frame b s s') (hk : k ≠ b) : job.InSync s' k := by
  obtain ⟨f, hf, hsum, hne⟩ := h
  exact ⟨f, (hframe.stampOf hk).trans hf, by rw [hframe.mem k hk]; exact hsum,
    by rw [hframe.mem k hk]; exact hne⟩

/-- What the run has not come to and has a checksum is in sync. -/
theorem Untouched.inSync {done : List BuildKey} {s : RunState Out} {k : BuildKey}
    (h : job.Untouched root done s) (hk : k ∉ done) (hsum : (s.mem k).checksum ≠ []) :
    job.InSync s k := by
  rw [h.mem k hk] at hsum
  obtain ⟨f, hf, heq, -⟩ := exists_stamp_of_checksum hsum
  exact ⟨f, (h.stampOf hk).trans hf, by rw [h.mem k hk]; exact heq,
    by rw [h.mem k hk]; exact hsum⟩

theorem inSync_of_not_selected (hskip : job.inv.args.skipDeps = false)
    {sel : List (BuildKey × Text) × List BuildKey} (hsel : job.select root = some sel)
    {k : BuildKey} (hk : k ∈ job.bs.buildlist) (hns : k ∉ sel.1.map Prod.fst) :
    job.InSync ⟨job.resolveSources root, root⟩ k := by
  obtain ⟨⟨v, r⟩, hcheck⟩ : ∃ x, job.needsBuild (job.resolveSources root) k true = some x :=
    exists_needsBuild _ true hk
  cases v with
  | true =>
    have hmem := (mem_selectWhatToBuild hsel (k, r)).2 ⟨hk, hcheck⟩
    exact absurd (List.mem_map.2 ⟨(k, r), hmem, rfl⟩) hns
  | false =>
    have hout := (not_outdated_of_checkNeedsBuild (by simp [hskip]) hcheck).1
    refine (Untouched.init job root).inSync (List.not_mem_nil) ?_
    exact fun h => hout (.inr (.inl h))

theorem isWord_newChecksum (s : RunState Out) (b : BuildKey) : IsWord (job.newChecksum H s b) := by
  unfold newChecksum
  split_ifs
  · exact H.sha256_word _
  · exact H.checksumDir_word _

/-! ### After a build -/

@[simp] theorem stampOf_record (root : BuildRoot Out) (b : BuildKey) (o : Outcome) (k : BuildKey) :
    job.stampOf (root.record job.inv b o) k = job.stampOf root k := rfl

@[simp] theorem stampOf_setStamp (root : BuildRoot Out) (b : BuildKey) (f : Stamp) :
    job.stampOf (root.setStamp (job.inv.buildDir b) (job.inv.stampRule b) f) b = some f := by
  simp [stampOf, BuildRoot.setStamp]

theorem stamped_checksum (s : RunState Out) (b : BuildKey) :
    ((job.stamped H s b).mem b).checksum = job.newChecksum H s b := by
  simp [stamped]

theorem stampOf_stamped (s : RunState Out) (b : BuildKey) :
    job.stampOf (job.stamped H s b).root b =
      some ⟨writtenText job.bs (job.stamped H s b).mem b, job.clock b⟩ := by
  have htext : writtenText job.bs (Function.update s.mem b
      { s.mem b with checksum := job.newChecksum H s b }) b =
      writtenText job.bs (job.stamped H s b).mem b := by
    refine writtenText_congr fun k => ?_
    by_cases hk : k = b
    · subst hk; simp [stamped]
    · simp [stamped, hk]
  simp only [← htext]
  simp [stamped]

theorem inSync_stamped (s : RunState Out) (b : BuildKey) : job.InSync (job.stamped H s b) b := by
  have hword : IsWord (job.newChecksum H s b) := isWord_newChecksum s b
  refine ⟨_, stampOf_stamped s b, ?_, ?_⟩
  · rw [writtenText, stamped_checksum, checksum_stampText hword]
  · rw [stamped_checksum]
    exact hword.1

/-- The stamp of a package with an output has the checksum of that output. -/
theorem checksum_of_stamped {s : RunState Out} {b : BuildKey} {f : Stamp} {o : Out}
    (hf : job.stampOf (job.stamped H s b).root b = some f) (hmeta : job.metapackage b.1 = false)
    (hout : s.root.out (job.inv.buildDir b) = some o) : f.checksum = H.checksumDir o := by
  obtain ⟨f', hf', hsum, -⟩ : job.InSync (job.stamped H s b) b := inSync_stamped s b
  cases hf.symm.trans hf'
  rw [← hsum, stamped_checksum, newChecksum, hmeta, hout]
  rfl

theorem InSync.touched {s : RunState Out} {b : BuildKey} (h : job.InSync s b) :
    job.InSync ⟨s.mem, (s.root.setStamp (job.inv.buildDir b) (job.inv.stampRule b)
      (touched (job.clock b) (job.stampOf s.root b))).record job.inv b .upToDate⟩ b := by
  obtain ⟨f, hf, hsum, hne⟩ := h
  refine ⟨⟨f.text, job.clock b⟩, ?_, hsum, hne⟩
  simp [hf, Pbuild.touched]

end Job

end Pbuild
