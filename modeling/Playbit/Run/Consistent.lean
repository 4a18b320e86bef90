import Playbit.Run.Progress

/-!
# Stamps after a run

What a run builds it leaves with a stamp that lists the direct dependencies with the checksums
that they have at the end of the run: a build comes after its dependencies, and none of them
changes after it.

The stamps of what is built are `Job.built_consistent`.  At the end of a run that stamps what it
builds, memory and disk agree (`Job.synced_of_run`).
-/

namespace Pbuild

open Python

variable {Out : Type} {H : Outputs Out} {job : Job Out} {root : BuildRoot Out}

namespace Job

/-- The checksum in the stamp of a build, or the empty text. -/
def stampChecksum (job : Job Out) (root : BuildRoot Out) (k : BuildKey) : Text :=
  ((job.stampOf root k).map Stamp.checksum).getD []

/-- The stamp of `k` was written by this run, with the checksums that are in the stamps of its
dependencies. -/
def Consistent (job : Job Out) (root : BuildRoot Out) (k : BuildKey) : Prop :=
  ∃ c, IsWord c ∧ job.stampOf root k = some ⟨stampText c ((job.bs.build k).sortedDeps.map fun d =>
    (buildName d, job.stampChecksum root d)), job.clock k⟩

/-- `k` was built in a run from `root` to `root'`. -/
def BuiltIn (job : Job Out) (root root' : BuildRoot Out) (k : BuildKey) : Prop :=
  ∃ new outs, root'.log = root.log ++ new ∧ ⟨job.inv.buildDir k, .built, outs⟩ ∈ new

theorem Consistent.of_stampOf {root root' : BuildRoot Out} {k : BuildKey}
    (h : job.Consistent root k) (hk : job.stampOf root' k = job.stampOf root k)
    (hdeps : ∀ d, job.bs.Dep k d → job.stampOf root' d = job.stampOf root d) :
    job.Consistent root' k := by
  obtain ⟨c, hc, hf⟩ := h
  refine ⟨c, hc, hk.trans (hf.trans ?_)⟩
  have hmap : (job.bs.build k).sortedDeps.map (fun d => (buildName d, job.stampChecksum root d)) =
      (job.bs.build k).sortedDeps.map fun d => (buildName d, job.stampChecksum root' d) := by
    refine List.map_congr_left fun d hd => ?_
    rw [stampChecksum, stampChecksum, hdeps d (mem_sortedDeps.1 hd)]
  rw [hmap]

theorem InSync.stampChecksum_eq {s : RunState Out} {k : BuildKey} (h : job.InSync s k) :
    job.stampChecksum s.root k = (s.mem k).checksum ∧
      (s.mem k).checksumOrZero = (s.mem k).checksum := by
  obtain ⟨f, hf, hsum, hne⟩ := h
  exact ⟨by rw [stampChecksum, hf, hsum]; rfl, checksumOrZero_of_ne_nil hne⟩

/-- A build whose dependencies are in sync ends consistent. -/
theorem consistent_stamped {s : RunState Out} {b : BuildKey} (hb : b ∈ job.bs.buildlist)
    (hdeps : ∀ d, job.bs.Dep b d → job.InSync s d) :
    job.Consistent (job.stamped H s b).root b := by
  refine ⟨job.newChecksum H s b, isWord_newChecksum s b, ?_⟩
  rw [stampOf_stamped, writtenText, stamped_checksum]
  have hmap : (job.bs.build b).sortedDeps.map (fun d =>
      (buildName d, ((job.stamped H s b).mem d).checksumOrZero)) =
      (job.bs.build b).sortedDeps.map fun d =>
        (buildName d, job.stampChecksum (job.stamped H s b).root d) := by
    refine List.map_congr_left fun d hd => ?_
    have hd' := mem_sortedDeps.1 hd
    obtain ⟨h₁, h₂⟩ := ((hdeps d hd').frame (frame_stamped (H := H) s b)
      (ne_of_dep hb hd')).stampChecksum_eq
    rw [h₁, h₂]
  rw [hmap]

theorem Consistent.stampChecksum_word {k : BuildKey} (h : job.Consistent root k) :
    IsWord (job.stampChecksum root k) := by
  obtain ⟨c, hc, hf⟩ := h
  rw [stampChecksum, hf, Option.map_some, Option.getD_some, checksum_stampText hc]
  exact hc

theorem Consistent.read {k : BuildKey} (h : job.Consistent root k)
    (hname : ∀ d, job.bs.Dep k d → Unspaced d.1)
    (hfield : ∀ d, job.bs.Dep k d → IsField (job.stampChecksum root d)) :
    ∃ f, job.stampOf root k = some f ∧ f.mtime = job.clock k ∧
      f.checksum = job.stampChecksum root k ∧
      f.depChecksums = (job.bs.build k).sortedDeps.map fun d =>
        (buildName d, job.stampChecksum root d) := by
  obtain ⟨c, hc, hf⟩ := h
  refine ⟨_, hf, rfl, by rw [stampChecksum, hf]; rfl,
    depChecksums_stampText hc ?_ (nodup_sortedDeps_names _ _) _⟩
  intro e he
  obtain ⟨d, hd, rfl⟩ := List.mem_map.1 he
  exact ⟨isWord_buildName (hname d (mem_sortedDeps.1 hd)), hfield d (mem_sortedDeps.1 hd)⟩

/-! ### A run that stamps what it builds -/

/-- The run has come to `done`, and everything it will not come to any more is in sync. -/
structure Synced (job : Job Out) (root : BuildRoot Out) (sel done : List BuildKey)
    (s : RunState Out) : Prop where
  untouched : job.Untouched root done s
  inSync : ∀ k ∈ job.bs.buildlist, k ∉ sel ∨ k ∈ done → job.InSync s k
  log : ∃ new, s.root.log = root.log ++ new ∧ ∀ e ∈ new, e.outcome = .built →
    ∃ k ∈ done, e.dir = job.inv.buildDir k ∧ job.Consistent s.root k

section Synced

variable {sel : List (BuildKey × Text) × List BuildKey} (hsel : job.select root = some sel)
include hsel

theorem not_skipped {b : BuildKey} (hb : b ∈ sel.1.map Prod.fst) :
    (job.inv.args.skipDeps && !job.inv.isToplevel b) = false := by
  obtain ⟨x, hx, rfl⟩ := List.mem_map.1 hb
  exact not_skipped_of_checkNeedsBuild ((mem_selectWhatToBuild hsel x).1 hx).2

theorem Synced.inSync_dep {l₁ l₂ : List BuildKey} {b d : BuildKey} {s : RunState Out}
    (h : job.Synced root (sel.1.map Prod.fst) l₁ s) (hl : sel.1.map Prod.fst = l₁ ++ b :: l₂)
    (hd : job.bs.Dep b d) : job.InSync s d := by
  have hb : b ∈ job.bs.buildlist := mem_buildlist_of_select hsel (by simp [hl])
  exact h.inSync d (job.resolvedBuilds.mem_of_dep hb hd) (settled_of_transGen hsel hl (.single hd))

theorem Synced.step {l₁ l₂ : List BuildKey} {b : BuildKey} {s s' : RunState Out}
    (hl : sel.1.map Prod.fst = l₁ ++ b :: l₂) (hdry : job.inv.args.dryRun = false)
    (hsession : job.isSession b = false) (h : job.Synced root (sel.1.map Prod.fst) l₁ s)
    (heff : job.Effect H b s s' true) : job.Synced root (sel.1.map Prod.fst) (l₁ ++ [b]) s' := by
  have hb : b ∈ sel.1.map Prod.fst := by simp [hl]
  have hblist := mem_buildlist_of_select hsel hb
  have hdone := notMem_done hsel hl
  have hframe := heff.frame
  -- nothing that the stamps of the finished builds speak about is changed
  have hkeep : ∀ k ∈ l₁, job.Consistent s.root k → job.Consistent s'.root k := by
    intro k hk hcons
    have hne : k ≠ b := fun h => hdone (h ▸ hk)
    refine hcons.of_stampOf (hframe.stampOf hne) fun d hd => hframe.stampOf ?_
    rintro rfl
    exact not_transGen_of_done hsel hl hk (.single hd)
  -- what is left is the build itself
  suffices hself : job.InSync s' b ∧ ((∃ e ∈ s'.root.log.drop s.root.log.length,
      e.outcome = .built) → job.Consistent s'.root b) by
    obtain ⟨hsync, hcons⟩ := hself
    obtain ⟨new', hlog', hnew'⟩ := heff.log
    obtain ⟨new, hlog, hnew⟩ := h.log
    refine ⟨h.untouched.step hframe, fun k hk hk' => ?_, new ++ new', ?_, fun e he hbuilt => ?_⟩
    · by_cases hkb : k = b
      · exact hkb ▸ hsync
      · refine (h.inSync k hk (hk'.imp_right fun hmem => ?_)).frame hframe hkb
        simpa [hkb] using hmem
    · rw [hlog', hlog, List.append_assoc]
    · rcases List.mem_append.1 he with he | he
      · obtain ⟨k, hk, hdir, hcons⟩ := hnew e he hbuilt
        exact ⟨k, List.mem_append_left _ hk, hdir, hkeep k hk hcons⟩
      · refine ⟨b, by simp, (hnew' e he).1, hcons ⟨e, ?_, hbuilt⟩⟩
        rwa [hlog', List.drop_left]
  cases heff with
  | dryRun h => rw [hdry] at h; cases h
  | session _ _ h => rw [hsession] at h; cases h
  | upToDate _ hneeds =>
    have hout := (not_outdated_of_checkNeedsBuild (not_skipped hsel hb) hneeds).1
    refine ⟨(h.untouched.inSync hdone fun hsum => hout (.inr (.inl hsum))).touched, ?_⟩
    rintro ⟨e, he, hbuilt⟩
    rw [BuildRoot.record, BuildRoot.setStamp, List.drop_left, List.mem_singleton] at he
    subst he
    cases hbuilt
  | built _ _ _ hroot =>
    refine ⟨inSync_stamped _ b, fun _ => consistent_stamped hblist fun d hd => ?_⟩
    exact (h.inSync_dep hsel hl hd).frame (frame_of_sandboxed hroot) (ne_of_dep hblist hd)

theorem synced_of_run {s : RunState Out}
    (hlive : ∀ b ∈ sel.1.map Prod.fst, job.inv.args.dryRun = false ∧ job.isSession b = false)
    (hinit : ∀ k ∈ job.bs.buildlist, k ∉ sel.1.map Prod.fst →
      job.InSync ⟨job.resolveSources root, root⟩ k)
    (hrun : Machine.runAll (job.build H) (sel.1.map Prod.fst) ⟨job.resolveSources root, root⟩ =
      some (s, true)) :
    job.Synced root (sel.1.map Prod.fst) (sel.1.map Prod.fst) s := by
  refine Machine.runAll_rule (I := fun done s => job.Synced root (sel.1.map Prod.fst) done s)
    (F := fun _ => True) hrun ?_ ?_ fun _ _ _ _ _ _ _ _ => trivial
  · refine ⟨.init job root, fun k hk hk' => ?_, [], by simp, by simp⟩
    exact hinit k hk (hk'.resolve_right List.not_mem_nil)
  · intro l₁ b l₂ s s' hl h hbuild
    obtain ⟨hdry, hsession⟩ := hlive b (by simp [hl])
    exact h.step hsel hl hdry hsession (build_cases hbuild)

end Synced

/-! ### What was built -/

theorem buildDir_injective {inv : Invocation} {k b : BuildKey}
    (h : inv.buildDir k = inv.buildDir b) : k = b :=
  congrArg Prod.fst h

/-- What was built in a run was selected, and is consistent at its end. -/
theorem consistent_of_builtIn {root' : BuildRoot Out}
    {sel : List (BuildKey × Text) × List BuildKey} {s : RunState Out}
    (h : job.Synced root (sel.1.map Prod.fst) (sel.1.map Prod.fst) s)
    (hroot' : root' = job.cleanupOnly H s.root sel.2) {k : BuildKey}
    (hk : job.BuiltIn root root' k) : k ∈ sel.1.map Prod.fst ∧ job.Consistent root' k := by
  obtain ⟨new, outs, hlog, hmem⟩ := hk
  obtain ⟨new', hlog', hnew⟩ := h.log
  rw [hroot', (cleanupOnly_frame _ _).2, hlog', List.append_cancel_left_eq] at hlog
  subst hlog
  obtain ⟨k', hk', hdir, hcons⟩ := hnew _ hmem rfl
  have hkk : k = k' := buildDir_injective hdir
  subst hkk hroot'
  exact ⟨hk', hcons.of_stampOf (stampOf_cleanupOnly _ _ _) fun _ _ => stampOf_cleanupOnly _ _ _⟩

/-- **Packages built in a run end consistent.**  After a successful run, the stamp of a package
that was built has a line for each direct dependency, each once, with the checksum that is in the
stamp of that dependency. -/
theorem built_consistent (H : Outputs Out) (job : Job Out) (root root' : BuildRoot Out)
    (hskip : job.inv.args.skipDeps = false) (hdry : job.inv.args.dryRun = false)
    (hinteractive : job.inv.args.interactiveShell = false)
    (hshell : job.inv.args.shellCmd = false) (hmain : job.main H root = some (root', true))
    (k : BuildKey) (hk : job.BuiltIn root root' k) :
    ∃ f c, job.stampOf root' k = some f ∧
      f.text = stampText c ((job.bs.build k).sortedDeps.map fun d =>
        (buildName d, job.stampChecksum root' d)) ∧
      (job.bs.build k).sortedDeps.Nodup ∧
      (∀ d, d ∈ (job.bs.build k).sortedDeps ↔ job.bs.Dep k d) ∧
      ∀ d, job.bs.Dep k d → ∃ g, job.stampOf root' d = some g := by
  obtain ⟨sel, s, hsel, hrun, hroot'⟩ := main_cases hmain
  rw [if_pos rfl] at hroot'
  have hsynced := synced_of_run hsel
    (fun b _ => ⟨hdry, by simp [isSession, hinteractive, hshell]⟩)
    (fun k hk hns => inSync_of_not_selected hskip hsel hk hns) hrun
  obtain ⟨hksel, c, -, hf⟩ := consistent_of_builtIn hsynced hroot' hk
  refine ⟨_, c, hf, rfl, nodup_sortedDeps _, fun d => mem_sortedDeps, fun d hd => ?_⟩
  have hd' := job.resolvedBuilds.mem_of_dep (mem_buildlist_of_select hsel hksel) hd
  obtain ⟨f, hf, -⟩ := hsynced.inSync d hd' (Classical.em _).symm
  exact ⟨f, by rw [hroot', stampOf_cleanupOnly, hf]⟩

theorem sample_built_consistent : ∃ root' f c,
    sample.main bitOutputs .empty = some (root', true) ∧
    sample.BuiltIn .empty root' ("app".toList, Arch.x86_64) ∧
    sample.stampOf root' ("app".toList, Arch.x86_64) = some f ∧
    f.text = stampText c ((sample.bs.build ("app".toList, Arch.x86_64)).sortedDeps.map fun d =>
      (buildName d, sample.stampChecksum root' d)) := by
  have hbuilt : ∃ root', sample.main bitOutputs .empty = some (root', true) ∧
      sample.BuiltIn .empty root' ("app".toList, Arch.x86_64) :=
    ⟨_, rfl, _, _, rfl, .tail _ (.tail _ (.head _))⟩
  obtain ⟨root', hmain, hk⟩ := hbuilt
  obtain ⟨f, c, hf, htext, -⟩ :=
    built_consistent bitOutputs sample .empty root' rfl rfl rfl rfl hmain _ hk
  exact ⟨root', f, c, hmain, hk, hf, htext⟩

end Job

end Pbuild
