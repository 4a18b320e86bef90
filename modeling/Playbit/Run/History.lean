import Playbit.Run.Consistent

/-!
# What is in the sandbox of a package that is up to date

The stamp of a package records its direct dependencies, while its sandbox also holds what these
need transitively.  Whether those have changed since the package was built is found out from the
stamps of the dependencies, which another run may have rewritten in the meantime.

When every run that selects a package also selects the packages already built that have it in
their sandbox, the stamps are never ahead of those packages: `Sound` is an invariant of the runs,
and a package found up to date has in its sandbox what it was built with.

So runs that recheck (`Job.Rechecks`) only give verdicts that cover the sandbox
(`covered_of_rechecks`).  Building a dependency on its own leads to one that does not
(`chain_not_covered`).
-/

namespace Pbuild

open Python DepthFirst

variable {Out : Type}

/-! ### The log -/

/-- The event says that `d` was built. -/
def Event.isBuilt (d : BuildDir) (e : Event Out) : Bool :=
  decide (e.dir = d) && decide (e.outcome = .built)

/-- When `d` was last actually built. -/
def lastBuilt (log : List (Event Out)) (d : BuildDir) : Option (Event Out) :=
  log.reverse.find? (Event.isBuilt d)

/-- Everything found to be up to date has in its sandbox what it was built with. -/
def Covered (H : Outputs Out) (g : DepGraph) (metapackage : PkgName → Bool)
    (log : List (Event Out)) : Prop :=
  ∀ l₁ e l₂, log = l₁ ++ e :: l₂ → e.outcome = .upToDate → ∃ e', lastBuilt l₁ e.dir = some e' ∧
    ∀ u, metapackage u.1 = false → g.Below e.dir.1 u →
      (e.outputs u).map H.checksumDir = (e'.outputs u).map H.checksumDir

theorem lastBuilt_append {log new : List (Event Out)} {d : BuildDir}
    (h : ∀ e ∈ new, e.isBuilt d = false) : lastBuilt (log ++ new) d = lastBuilt log d := by
  have hnone : new.reverse.find? (Event.isBuilt d) = none := by
    rw [List.find?_eq_none]
    intro e he
    simp [h e (List.mem_reverse.1 he)]
  rw [lastBuilt, List.reverse_append, List.find?_append, hnone]
  rfl

theorem lastBuilt_append_built (log : List (Event Out)) (d : BuildDir)
    (outputs : BuildKey → Option Out) :
    lastBuilt (log ++ [⟨d, .built, outputs⟩]) d = some ⟨d, .built, outputs⟩ := by
  simp [lastBuilt, Event.isBuilt]

theorem Event.isBuilt_of_dir_ne {e : Event Out} {d : BuildDir} (h : e.dir ≠ d) :
    e.isBuilt d = false := by
  simp [Event.isBuilt, h]

/-- Events that are not verdicts, or are covered themselves, keep the log covered. -/
theorem Covered.append {H : Outputs Out} {g : DepGraph} {metapackage : PkgName → Bool}
    {log : List (Event Out)} (h : Covered H g metapackage log) {e : Event Out}
    (he : e.outcome = .upToDate → ∃ e', lastBuilt log e.dir = some e' ∧
      ∀ u, metapackage u.1 = false → g.Below e.dir.1 u →
        (e.outputs u).map H.checksumDir = (e'.outputs u).map H.checksumDir) :
    Covered H g metapackage (log ++ [e]) := by
  intro l₁ e₁ l₂ hl hout
  rcases List.eq_nil_or_concat l₂ with rfl | ⟨l₂, e₂, rfl⟩
  · obtain ⟨rfl, he₁⟩ := List.append_inj' hl rfl
    cases he₁
    exact he hout
  · rw [List.concat_eq_append, ← List.cons_append, ← List.append_assoc] at hl
    obtain ⟨hl, -⟩ := List.append_inj' hl rfl
    exact h l₁ e₁ l₂ hl hout

/-! ### Stamps that are not ahead -/

section Defs

variable (H : Outputs Out) (g : DepGraph) (metapackage : PkgName → Bool)

/-- The stamp `f` of `k` tells the truth about its output, agrees with the stamps of what is
mounted for it, and nothing in its sandbox has changed since it was built. -/
structure Covers (root : BuildRoot Out) (k : BuildKey) (f : Stamp) : Prop where
  word : IsWord f.checksum
  out : metapackage k.1 = false → ∃ o, root.out (k, []) = some o ∧ H.checksumDir o = f.checksum
  recorded : ∀ v, g.Layer k v → metapackage v.1 = false → ∃ fv, root.stamp (v, []) [] = some fv ∧
    f.depChecksums.get? (buildName v) = some fv.checksum
  sandbox : ∃ e, lastBuilt root.log (k, []) = some e ∧ ∀ v, metapackage v.1 = false →
    g.Below k v → (e.outputs v).map H.checksumDir = (root.out (v, [])).map H.checksumDir

/-- All stamps are such, and all verdicts so far are covered. -/
structure Sound (root : BuildRoot Out) : Prop where
  stamps : ∀ k f, root.stamp (k, []) [] = some f → Covers H g metapackage root k f
  covered : Covered H g metapackage root.log

/-- An invocation in which every build succeeds. -/
def Job.succeed (job : Job Out) (root : BuildRoot Out) : Option (BuildRoot Out) :=
  match job.main H root with
  | some (root', true) => some root'
  | _ => none

end Defs

theorem Job.main_of_succeed {H : Outputs Out} {job : Job Out} {root root' : BuildRoot Out}
    (h : job.succeed H root = some root') : job.main H root = some (root', true) := by
  unfold Job.succeed at h
  split at h
  · cases h
    assumption
  · cases h

/-- The invocation is a plain build, on the dependencies that the packages have in all runs; and
with a package it selects all packages already built that have it in their sandbox. -/
structure Job.Rechecks (g : DepGraph) (metapackage : PkgName → Bool) (job : Job Out)
    (root : BuildRoot Out) : Prop where
  graph : ∀ k ∈ job.bs.buildlist, job.bs.graph k = g k
  metapackages : job.metapackage = metapackage
  names : ∀ k ∈ job.bs.buildlist, Unspaced k.1
  skipDeps : job.inv.args.skipDeps = false
  interactiveShell : job.inv.args.interactiveShell = false
  shellCmd : job.inv.args.shellCmd = false
  cleanup : job.inv.args.cleanup = false
  rule : job.inv.args.rule = []
  buildConfigId : job.inv.args.buildConfigId = []
  selects : ∀ sel, job.select root = some sel → ∀ v ∈ sel.1.map Prod.fst,
    metapackage v.1 = false → ∀ u, (root.stamp (u, []) []).isSome → g.Below u v →
      u ∈ sel.1.map Prod.fst

theorem sound_empty (H : Outputs Out) (g : DepGraph) (metapackage : PkgName → Bool) :
    Sound H g metapackage .empty := by
  refine ⟨fun k f hf => ?_, fun l₁ e l₂ hl => ?_⟩
  · cases hf
  · exact absurd hl (by simp [BuildRoot.empty])

/-- What is said about `k` depends on its directory and those of its sandbox. -/
theorem Covers.transfer {H : Outputs Out} {g : DepGraph} {metapackage : PkgName → Bool}
    {root root' : BuildRoot Out} {k : BuildKey} {f : Stamp} (h : Covers H g metapackage root k f)
    (hout : root'.out (k, []) = root.out (k, []))
    (hstamp : ∀ v, metapackage v.1 = false → g.Below k v →
      root'.stamp (v, []) [] = root.stamp (v, []) [])
    (hbelow : ∀ v, metapackage v.1 = false → g.Below k v → root'.out (v, []) = root.out (v, []))
    (hlog : lastBuilt root'.log (k, []) = lastBuilt root.log (k, [])) :
    Covers H g metapackage root' k f where
  word := h.word
  out hmeta := by rw [hout]; exact h.out hmeta
  recorded v hv hmeta := by
    obtain ⟨fv, hfv, hget⟩ := h.recorded v hv hmeta
    exact ⟨fv, (hstamp v hmeta hv.below).trans hfv, hget⟩
  sandbox := by
    obtain ⟨e, he, heq⟩ := h.sandbox
    refine ⟨e, hlog.trans he, fun v hmeta hv => ?_⟩
    rw [heq v hmeta hv, hbelow v hmeta hv]

/-! ### One run -/

namespace Job

variable {H : Outputs Out} {g : DepGraph} {metapackage : PkgName → Bool} {job : Job Out}
  {root : BuildRoot Out}

namespace Rechecks

variable (hr : job.Rechecks g metapackage root)
include hr

theorem buildDir_eq (k : BuildKey) : job.inv.buildDir k = (k, []) := by
  simp [Invocation.buildDir, hr.buildConfigId]

theorem stampOf_eq (root : BuildRoot Out) (k : BuildKey) :
    job.stampOf root k = root.stamp (k, []) [] := by
  simp [stampOf, hr.buildDir_eq, Invocation.stampRule, hr.rule]

theorem isSession_eq (b : BuildKey) : job.isSession b = false := by
  simp [isSession, hr.interactiveShell, hr.shellCmd]

theorem log_stamped (s : RunState Out) (b : BuildKey) : (job.stamped H s b).root.log =
    s.root.log ++ [⟨(b, []), .built, fun v => s.root.out (v, [])⟩] := by
  simp only [stamped, BuildRoot.record, hr.buildDir_eq]
  rfl

theorem dep_of_layer {u v : BuildKey} (hu : u ∈ job.bs.buildlist) (h : g.Layer u v) :
    job.bs.Dep u v := by
  have hmem := h.mem_keys
  rwa [← hr.graph u hu] at hmem

/-- What is in the sandbox of a build is looked at from a build that has it as a layer. -/
theorem exists_examined {k v : BuildKey} (hk : k ∈ job.bs.buildlist) (h : g.Below k v) :
    ∃ u, ExaminedBelow job.bs k u v ∧ g.Layer u v := by
  obtain ⟨d, hd, hdv⟩ := h
  induction hdv with
  | refl => exact ⟨k, .edge (mem_orderedDeps.2 (hr.dep_of_layer hk hd)), hd⟩
  | @tail w v _ hwv ih =>
    obtain ⟨u, hex, -⟩ := ih
    have hw : w ∈ job.bs.buildlist := mem_buildlist_of_transGen hk (transGen_of_examined hex)
    -- `w` has a `DEPENDS` entry, so it is entered
    have henters : entersDep job.bs w = true := by
      obtain ⟨e, he, -⟩ := hwv
      rw [← hr.graph w hw] at he
      exact decide_eq_true (List.ne_nil_of_mem he)
    exact ⟨w, ⟨hex.1.tail ⟨hex.2, henters⟩, mem_orderedDeps.2 (hr.dep_of_layer hw hwv.layer)⟩,
      hwv.layer⟩

theorem transGen_of_below {k v : BuildKey} (hk : k ∈ job.bs.buildlist) (h : g.Below k v) :
    Relation.TransGen job.bs.Dep k v := by
  obtain ⟨u, hex, -⟩ := hr.exists_examined hk h
  exact transGen_of_examined hex

theorem below_iff {k u : BuildKey} (hk : k ∈ job.bs.buildlist) :
    job.bs.graph.Below k u ↔ g.Below k u := by
  constructor
  · refine DepGraph.Below.congr (S := (· ∈ job.bs.buildlist)) hr.graph (fun k d hk hd => ?_) hk
    exact job.resolvedBuilds.mem_of_dep hk (Pbuild.dep_of_layer hd)
  · refine DepGraph.Below.congr (S := (· ∈ job.bs.buildlist)) (fun k hk => (hr.graph k hk).symm)
      (fun k d hk hd => ?_) hk
    exact job.resolvedBuilds.mem_of_dep hk (hr.dep_of_layer hk hd)

end Rechecks

/-- The state of a run on a sound `root`: what the run is done with, and what it will not come to,
has stamps that are not ahead. -/
structure Covering (H : Outputs Out) (g : DepGraph) (metapackage : PkgName → Bool) (job : Job Out)
    (root : BuildRoot Out) (sel done : List BuildKey) (s : RunState Out) : Prop where
  synced : job.Synced root sel done s
  stamps : ∀ k, k ∉ sel ∨ k ∈ done → ∀ f, s.root.stamp (k, []) [] = some f →
    Covers H g metapackage s.root k f
  lastBuilt : ∀ k, k ∉ done → lastBuilt s.root.log (k, []) = lastBuilt root.log (k, [])
  covered : Covered H g metapackage s.root.log

section Step

variable {sel : List (BuildKey × Text) × List BuildKey} {l₁ l₂ : List BuildKey} {b : BuildKey}
  {s s' : RunState Out} (hr : job.Rechecks g metapackage root) (hroot : Sound H g metapackage root)
  (hsel : job.select root = some sel) (hl : sel.1.map Prod.fst = l₁ ++ b :: l₂)
  (h : job.Covering H g metapackage root (sel.1.map Prod.fst) l₁ s)
include hr hsel hl

/-- What is below the build is done, or will not be done. -/
theorem Rechecks.settled {v : BuildKey} (hv : g.Below b v) :
    v ∈ job.bs.buildlist ∧ (v ∉ sel.1.map Prod.fst ∨ v ∈ l₁) := by
  have hb : b ∈ job.bs.buildlist := mem_buildlist_of_select hsel (by simp [hl])
  have htrans := hr.transGen_of_below hb hv
  exact ⟨mem_buildlist_of_transGen hb htrans, settled_of_transGen hsel hl htrans⟩

include h

/-- The build is not in the sandbox of anything that is settled. -/
theorem Covering.not_below {k : BuildKey} {f : Stamp}
    (hk : k ∉ sel.1.map Prod.fst ∨ k ∈ l₁) (hf : s.root.stamp (k, []) [] = some f)
    (hmeta : metapackage b.1 = false) : ¬ g.Below k b := by
  intro hbelow
  have hb : b ∈ sel.1.map Prod.fst := by simp [hl]
  rcases hk with hk | hk
  · -- then it was stamped before the run, and would have been selected along with `b`
    have hout : k ∉ l₁ := fun hk' => hk (by simp [hl, hk'])
    have hf₀ := h.synced.untouched.stampOf hout
    rw [hr.stampOf_eq, hr.stampOf_eq, hf] at hf₀
    exact hk (hr.selects sel hsel b hb hmeta k (by rw [← hf₀]; rfl) hbelow)
  · have hk' : k ∈ job.bs.buildlist := mem_buildlist_of_select hsel (by simp [hl, hk])
    exact not_transGen_of_done hsel hl hk (hr.transGen_of_below hk' hbelow)

include hroot

/-- **What the second check says**: a build that is not needed has nothing in its sandbox that
has changed in this run. -/
theorem Covering.checksum_eq {reason : Text}
    (hneeds : job.needsBuild s.mem b false = some (false, reason)) {v : BuildKey}
    (hmeta : metapackage v.1 = false) (hv : g.Below b v) :
    (s.root.out (v, [])).map H.checksumDir = (root.out (v, [])).map H.checksumDir := by
  have hb : b ∈ sel.1.map Prod.fst := by simp [hl]
  have hblist := mem_buildlist_of_select hsel hb
  obtain ⟨u, hex, hlayer⟩ := hr.exists_examined hblist hv
  obtain ⟨hvlist, hvdone⟩ := hr.settled hsel hl hv
  -- the stamp of `u`, as the run read it, has the checksum that `v` has now
  have hunchanged := (not_outdated_of_checkNeedsBuild (not_skipped hsel hb) hneeds).2 u v hex
  obtain ⟨-, -, -, -, hget⟩ := checkDepChanged_eq_false_iff.1 hunchanged
  rw [h.synced.untouched.depChecksums] at hget
  obtain ⟨fu, hfu, hget⟩ := exists_stamp_of_depChecksums hget
  -- and it had the checksum that `v` had when the run started
  rw [hr.stampOf_eq] at hfu
  obtain ⟨fv₀, hfv₀, hget₀⟩ := (hroot.stamps u fu hfu).recorded v hlayer hmeta
  obtain ⟨fv, hfv, hsum, -⟩ := h.synced.inSync v hvlist hvdone
  rw [hr.stampOf_eq] at hfv
  obtain ⟨o, ho, hsumo⟩ := (h.stamps v hvdone fv hfv).out hmeta
  obtain ⟨o₀, ho₀, hsumo₀⟩ := (hroot.stamps v fv₀ hfv₀).out hmeta
  rw [hget] at hget₀
  rw [ho, ho₀, Option.map_some, Option.map_some, hsumo, hsumo₀, ← hsum, Option.some.inj hget₀]

/-- A build that is not needed has in its sandbox what it was built with. -/
theorem Covering.exists_lastBuilt {reason : Text}
    (hneeds : job.needsBuild s.mem b false = some (false, reason)) :
    ∃ f, job.stampOf s.root b = some f ∧ Covers H g metapackage root b f ∧
      (s.mem b).depChecksums = f.depChecksums ∧
      ∃ e, Pbuild.lastBuilt s.root.log (b, []) = some e ∧ ∀ v, metapackage v.1 = false →
        g.Below b v → (e.outputs v).map H.checksumDir = (s.root.out (v, [])).map H.checksumDir := by
  have hb : b ∈ sel.1.map Prod.fst := by simp [hl]
  have hdone := notMem_done hsel hl
  have hout := (not_outdated_of_checkNeedsBuild (not_skipped hsel hb) hneeds).1
  have hsum : (s.mem b).checksum ≠ [] := fun hsum => hout (.inr (.inl hsum))
  rw [h.synced.untouched.mem b hdone] at hsum ⊢
  obtain ⟨f, hf, -, hdeps, -⟩ := exists_stamp_of_checksum hsum
  have hcov := hroot.stamps b f ((hr.stampOf_eq root b).symm.trans hf)
  obtain ⟨e, he, heq⟩ := hcov.sandbox
  refine ⟨f, (h.synced.untouched.stampOf hdone).trans hf, hcov, hdeps, e,
    (h.lastBuilt b hdone).trans he, fun v hmeta hv => ?_⟩
  rw [heq v hmeta hv, h.checksum_eq hr hroot hsel hl hneeds hmeta hv]

/-- What is said about a build that is not needed stays true when its stamp is touched. -/
theorem Covering.covers_upToDate {reason : Text}
    (hneeds : job.needsBuild s.mem b false = some (false, reason))
    {root' : BuildRoot Out} {f : Stamp}
    (hf : f.text = (touched (job.clock b) (job.stampOf s.root b)).text)
    (hstamp : ∀ v, v ≠ b → job.stampOf root' v = job.stampOf s.root v)
    (hout : root'.out = s.root.out)
    (hlog : Pbuild.lastBuilt root'.log (b, []) = Pbuild.lastBuilt s.root.log (b, [])) :
    Covers H g metapackage root' b f := by
  have hb : b ∈ sel.1.map Prod.fst := by simp [hl]
  have hblist := mem_buildlist_of_select hsel hb
  obtain ⟨f₀, hf₀, hcov, hdeps, e, he, heq⟩ := h.exists_lastBuilt hr hroot hsel hl hneeds
  have htext : f.text = f₀.text := by rw [hf, hf₀]; rfl
  have hsum : f.checksum = f₀.checksum := by rw [Stamp.checksum, htext]; rfl
  refine ⟨hsum ▸ hcov.word, fun hmeta => ?_, fun v hv hmeta => ?_, e, hlog.trans he, fun v => ?_⟩
  · obtain ⟨o, ho, hsumo⟩ := hcov.out hmeta
    have hkeep := h.synced.untouched.out_buildDir (notMem_done hsel hl)
    rw [hr.buildDir_eq] at hkeep
    exact ⟨o, by rw [hout, hkeep, ho], hsumo.trans hsum.symm⟩
  · have hdep := hr.dep_of_layer hblist hv
    obtain ⟨fv, hfv, hsumv, -⟩ := h.synced.inSync_dep hsel hl hdep
    have hunchanged := (not_outdated_of_checkNeedsBuild (not_skipped hsel hb) hneeds).2 b v
      (.edge (mem_orderedDeps.2 hdep))
    obtain ⟨-, -, -, -, hget⟩ := checkDepChanged_eq_false_iff.1 hunchanged
    refine ⟨fv, ?_, ?_⟩
    · rw [← hr.stampOf_eq, hstamp v (ne_of_dep hblist hdep), hfv]
    · rw [Stamp.depChecksums, htext, ← Stamp.depChecksums, ← hdeps, hget, hsumv]
  · rw [hout]
    exact heq v

omit hroot in
theorem Covering.covers_built {root₁ : BuildRoot Out}
    (hbox : job.metapackage b.1 = true ∧ root₁ = s.root ∨
      job.metapackage b.1 = false ∧ job.Sandboxed H b s.root root₁ true) {f : Stamp}
    (hf : job.stampOf (job.stamped H ⟨s.mem, root₁⟩ b).root b = some f) :
    Covers H g metapackage (job.stamped H ⟨s.mem, root₁⟩ b).root b f := by
  have hblist : b ∈ job.bs.buildlist := mem_buildlist_of_select hsel (by simp [hl])
  have hframe := (frame_of_sandboxed hbox).trans (frame_stamped (H := H) ⟨s.mem, root₁⟩ b)
  -- the dependencies have stamps, with checksums that can be read back
  have hdeps : ∀ d, job.bs.Dep b d → ∃ fd,
      job.stampOf (job.stamped H ⟨s.mem, root₁⟩ b).root d = some fd ∧ IsWord fd.checksum := by
    intro d hd
    obtain ⟨fd, hfd, -⟩ := h.synced.inSync_dep hsel hl hd
    refine ⟨fd, (hframe.stampOf (ne_of_dep hblist hd)).trans hfd, ?_⟩
    have hfd' : s.root.stamp (d, []) [] = some fd := (hr.stampOf_eq _ d).symm.trans hfd
    exact (h.stamps d (settled_of_transGen hsel hl (.single hd)) fd hfd').word
  have hfield : ∀ d, job.bs.Dep b d →
      IsField (job.stampChecksum (job.stamped H ⟨s.mem, root₁⟩ b).root d) := by
    intro d hd
    obtain ⟨fd, hfd, hword⟩ := hdeps d hd
    rw [stampChecksum, hfd]
    exact hword.isField
  have hcons : job.Consistent (job.stamped H ⟨s.mem, root₁⟩ b).root b :=
    consistent_stamped hblist fun d hd => (h.synced.inSync_dep hsel hl hd).frame
      (frame_of_sandboxed hbox) (ne_of_dep hblist hd)
  obtain ⟨f', hf', -, hsum, hread⟩ := hcons.read
    (fun d hd => hr.names d (job.resolvedBuilds.mem_of_dep hblist hd)) hfield
  cases hf.symm.trans hf'
  refine ⟨hsum ▸ hcons.stampChecksum_word, fun hmeta => ?_, fun v hv hmeta => ?_, ?_⟩
  · rcases hbox with ⟨hmeta', -⟩ | ⟨hmeta', hbox⟩
    · rw [hr.metapackages, hmeta] at hmeta'
      cases hmeta'
    · have hout := hbox.out_of_ok.1
      exact ⟨job.sandboxOut H b, (congrArg root₁.out (hr.buildDir_eq b).symm).trans hout,
        (checksum_of_stamped hf hmeta' hout).symm⟩
  · have hdep := hr.dep_of_layer hblist hv
    obtain ⟨fv, hfv, -⟩ := hdeps v hdep
    refine ⟨fv, (hr.stampOf_eq _ v).symm.trans hfv, ?_⟩
    rw [hread]
    rw [get?_sortedDeps (mem_sortedDeps.2 hdep), stampChecksum, hfv]
    rfl
  · refine ⟨⟨(b, []), .built, fun v => root₁.out (v, [])⟩, ?_, fun v _ _ => rfl⟩
    rw [hr.log_stamped]
    exact lastBuilt_append_built _ _ _

omit hroot in
theorem Covering.covers_of_ne (hframe : job.Frame b s s')
    (hlog : ∀ k, k ≠ b →
      Pbuild.lastBuilt s'.root.log (k, []) = Pbuild.lastBuilt s.root.log (k, []))
    {k : BuildKey} (hkb : k ≠ b) (hk : k ∉ sel.1.map Prod.fst ∨ k ∈ l₁) {f : Stamp}
    (hf : s'.root.stamp (k, []) [] = some f) : Covers H g metapackage s'.root k f := by
  rw [hframe.stamp _ (ne_buildDir hkb [])] at hf
  have hne : ∀ v, metapackage v.1 = false → g.Below k v → v ≠ b := by
    rintro v hmeta hv rfl
    exact h.not_below hr hsel hl hk hf hmeta hv
  exact (h.stamps k hk f hf).transfer (hframe.out _ (ne_buildDir hkb []))
    (fun v hmeta hv => hframe.stamp _ (ne_buildDir (hne v hmeta hv) []) _)
    (fun v hmeta hv => hframe.out _ (ne_buildDir (hne v hmeta hv) [])) (hlog k hkb)

/-- **One build of a run that rechecks.** -/
theorem Covering.step (hdry : job.inv.args.dryRun = false) (heff : job.Effect H b s s' true) :
    job.Covering H g metapackage root (sel.1.map Prod.fst) (l₁ ++ [b]) s' := by
  have hframe := heff.frame
  have hlog : ∀ k, k ≠ b →
      Pbuild.lastBuilt s'.root.log (k, []) = Pbuild.lastBuilt s.root.log (k, []) := by
    intro k hkb
    obtain ⟨new, hnew, hdir⟩ := heff.log
    rw [hnew]
    refine lastBuilt_append fun e he => Event.isBuilt_of_dir_ne fun hd => hkb ?_
    rw [(hdir e he).1, hr.buildDir_eq] at hd
    exact (congrArg Prod.fst hd).symm
  suffices hself : (∀ f, s'.root.stamp (b, []) [] = some f → Covers H g metapackage s'.root b f) ∧
      Covered H g metapackage s'.root.log by
    refine ⟨h.synced.step hsel hl hdry (hr.isSession_eq b) heff, fun k hk f hf => ?_,
      fun k hk => ?_, hself.2⟩
    · by_cases hkb : k = b
      · subst hkb
        exact hself.1 f hf
      · refine h.covers_of_ne hr hsel hl hframe hlog hkb (hk.imp_right fun hmem => ?_) hf
        simpa [hkb] using hmem
    · rw [List.mem_append, List.mem_singleton, not_or] at hk
      rw [hlog k hk.2, h.lastBuilt k hk.1]
  cases heff with
  | dryRun h => rw [hdry] at h; cases h
  | session _ _ hs => rw [hr.isSession_eq] at hs; cases hs
  | upToDate _ hneeds =>
    obtain ⟨-, -, -, -, e, he, heq⟩ := h.exists_lastBuilt hr hroot hsel hl hneeds
    constructor
    · intro f hf
      rw [← hr.stampOf_eq, stampOf_record, stampOf_setStamp] at hf
      cases hf
      refine h.covers_upToDate hr hroot hsel hl hneeds rfl (fun v hv => ?_) rfl ?_
      · exact hframe.stampOf hv
      · refine lastBuilt_append fun e he => ?_
        cases List.mem_singleton.1 he
        simp [Event.isBuilt]
    · refine h.covered.append fun _ => ⟨e, ?_, ?_⟩
      · rw [hr.buildDir_eq]
        exact he
      · intro u hmeta hu
        rw [hr.buildDir_eq] at hu
        rw [heq u hmeta hu, ← hr.buildDir_eq u]
        rfl
  | built _ _ _ hbox =>
    constructor
    · intro f hf
      exact h.covers_built hr hsel hl hbox ((hr.stampOf_eq _ b).trans hf)
    · rw [hr.log_stamped]
      refine Covered.append ?_ fun hout => by cases hout
      rw [log_of_sandboxed hbox]
      exact h.covered

end Step

theorem run_of_dryRun (hdry : job.inv.args.dryRun = true) {l : List BuildKey}
    {s s' : RunState Out} {ok : Bool} (hrun : Machine.runAll (job.build H) l s = some (s', ok)) :
    s' = s := by
  have hstep : ∀ {b : BuildKey} {s₁ s₂ : RunState Out} {ok : Bool},
      job.build H b s₁ = some (s₂, ok) → s₂ = s₁ := by
    intro b s₁ s₂ ok h
    simp only [build, hdry, if_true] at h
    cases h
    rfl
  have h := Machine.runAll_rule (I := fun _ t => t = s) (F := fun t => t = s) hrun rfl
    (fun _ _ _ _ _ _ hI hb => (hstep hb).trans hI) (fun _ _ _ _ _ _ hI hb => (hstep hb).trans hI)
  cases ok with
  | true => exact h
  | false => exact h

/-- **A run that rechecks keeps the stamps sound.** -/
theorem Rechecks.sound (hr : job.Rechecks g metapackage root) (hroot : Sound H g metapackage root)
    {root' : BuildRoot Out} (hmain : job.main H root = some (root', true)) :
    Sound H g metapackage root' := by
  obtain ⟨sel, s, hsel, hrun, rfl⟩ := main_cases hmain
  have hclean : sel.2 = [] := by
    rw [(selectWhatToBuild_eq_some hsel).2]
    simp [hr.cleanup]
  rw [if_pos rfl, hclean, cleanupOnly, List.foldl_nil]
  cases hdry : job.inv.args.dryRun with
  | true =>
    rw [run_of_dryRun hdry hrun]
    exact hroot
  | false =>
    have hend := Machine.runAll_rule
      (I := fun done s => job.Covering H g metapackage root (sel.1.map Prod.fst) done s)
      (F := fun _ => True) hrun ?_ ?_ fun _ _ _ _ _ _ _ _ => trivial
    · rw [if_pos rfl] at hend
      exact ⟨fun k f hf => hend.stamps k (Classical.em _).symm f hf, hend.covered⟩
    · refine ⟨⟨.init job root, fun k hk hk' => ?_, [], by simp, by simp⟩,
        fun k _ => hroot.stamps k, fun _ _ => rfl, hroot.covered⟩
      exact inSync_of_not_selected hr.skipDeps hsel hk (hk'.resolve_right List.not_mem_nil)
    · intro l₁ b l₂ s s' hl h hbuild
      exact h.step hr hroot hsel hl hdry (build_cases hbuild)

end Job

/-! ### Histories -/

/-- **Verdicts cover the sandbox.**  In a history of successful runs that each select, with a
package, the packages already built that have it in their sandbox, a package that is found to be
up to date has in its sandbox the outputs it was built with.  What is in a sandbox is what
`depLayerDirs` puts there. -/
theorem covered_of_rechecks (H : Outputs Out) (g : DepGraph) (metapackage : PkgName → Bool)
    (jobs : List (Job Out)) (root : BuildRoot Out)
    (h : Machine.Along (Job.succeed H) (Job.Rechecks g metapackage) .empty jobs root) :
    Covered H g metapackage root.log ∧
      ∀ job ∈ jobs, ∀ b ∈ job.bs.buildlist, ∀ dirExists n dirs,
        depLayerDirs job.bs job.metapackage dirExists n b = .ok dirs → ∀ u,
          u ∈ dirs.map LayerDir.build ↔ metapackage u.1 = false ∧ g.Below b u := by
  constructor
  · have hsound : Sound H g metapackage root := by
      refine h.invariant (sound_empty H g metapackage) fun job s s' hs hr hnext => ?_
      exact hr.sound hs (Job.main_of_succeed hnext)
    exact hsound.covered
  · intro job hjob b hb dirExists n dirs hdirs u
    obtain ⟨_, hr⟩ := h.exists_of_mem hjob
    rw [mem_depLayerDirs_iff hdirs, hr.below_iff hb, hr.metapackages]

/-- A package with a dependency that passes its own dependency on. -/
def chainPkgs : PkgTable := fun p =>
  if p = "app".toList then { deps := [⟨"lib", [], none⟩], depsResolved := true }
  else if p = "lib".toList then
    { deps := [⟨"base", ["transitive".toList], none⟩], depsResolved := true }
  else { depsResolved := true }

/-- A run that starts at `t` and builds one package after the other. -/
def chainClock (t : Time) (k : BuildKey) : Time :=
  if k.1 = "app".toList then ⟨t + 2, by omega⟩
  else if k.1 = "lib".toList then ⟨t + 1, by omega⟩ else t

/-- `pbuild app`. -/
def chainFirst : Job Bool where
  inv := ⟨.x86_64, .x86_64, ["app"], {}⟩
  pkgs := chainPkgs
  bs := _
  resolved := ⟨6, rfl⟩
  acyclic _ hk := Builds.not_transGen_self (by decide) hk
  metapackage _ := false
  sources _ := { index := 1 }
  sandbox _ := (true, true)
  clock := chainClock 10

/-- `pbuild lib`, after `base` has been edited in a way that changes its output. -/
def chainSecond : Job Bool where
  inv := ⟨.x86_64, .x86_64, ["lib"], {}⟩
  pkgs := chainPkgs
  bs := _
  resolved := ⟨6, rfl⟩
  acyclic _ hk := Builds.not_transGen_self (by decide) hk
  metapackage _ := false
  sources p := if p = "base".toList then { index := 20 } else { index := 1 }
  sandbox k := (true, decide (k.1 ≠ "base".toList))
  clock := chainClock 20

/-- `pbuild app` again. -/
def chainThird : Job Bool :=
  { chainFirst with sources := chainSecond.sources, clock := chainClock 30 }

/-- `pbuild app` again, after `base` has been edited in a way that does not change its output. -/
def chainSame : Job Bool :=
  { chainFirst with sources := chainSecond.sources, clock := chainClock 20 }

theorem chainSame_covered : ∃ root,
    Machine.Along (Job.succeed bitOutputs) (Job.Rechecks chainFirst.bs.graph fun _ => false)
      .empty [chainFirst, chainSame] root ∧
    root.log.map Event.outcome = [.built, .built, .built, .built, .upToDate, .upToDate] ∧
    Covered bitOutputs chainFirst.bs.graph (fun _ => false) root.log := by
  obtain ⟨root₁, h₁, sel₂, hsel₂, hall, root₂, h₂, hlog⟩ : ∃ root₁,
      chainFirst.succeed bitOutputs .empty = some root₁ ∧ ∃ sel₂,
      chainSame.select root₁ = some sel₂ ∧ sel₂.1.map Prod.fst = chainFirst.bs.buildlist ∧ ∃ root₂,
      chainSame.succeed bitOutputs root₁ = some root₂ ∧ root₂.log.map Event.outcome =
        [.built, .built, .built, .built, .upToDate, .upToDate] :=
    ⟨_, rfl, _, rfl, rfl, _, rfl, rfl⟩
  have hr₁ : chainFirst.Rechecks chainFirst.bs.graph (fun _ => false) .empty :=
    ⟨fun _ _ => rfl, rfl, by decide, rfl, rfl, rfl, rfl, rfl, rfl,
      fun _ _ _ _ _ _ hu => by cases hu⟩
  have hr₂ : chainSame.Rechecks chainFirst.bs.graph (fun _ => false) root₁ := by
    refine ⟨fun _ _ => rfl, rfl, by decide, rfl, rfl, rfl, rfl, rfl, rfl, ?_⟩
    -- the first run has stamped the builds of its list, and the second one selects all of them
    intro sel hsel v _ _ u hu _
    cases hsel.symm.trans hsel₂
    rw [hall]
    by_contra hout
    have hnone := Job.stamp_of_main (Job.main_of_succeed h₁) (d := (u, [])) ?_ []
    · rw [hnone] at hu
      cases hu
    · intro k hk hd
      rw [hr₁.buildDir_eq] at hd
      cases hd
      exact hout hk
  have h := ((Machine.Along.nil BuildRoot.empty).snoc hr₁ h₁).snoc hr₂ h₂
  exact ⟨root₂, h, hlog, (covered_of_rechecks _ _ _ _ _ h).1⟩

/-- **A verdict that does not cover the sandbox.**  Building `lib` on its own brings its stamp up
to date with the new `base`; `app` was built with the old one. -/
theorem chain_not_covered : ∃ root dirs,
    Machine.Along (Job.succeed bitOutputs) (fun job _ => job.pkgs = chainPkgs ∧
      job.inv.args = {}) .empty [chainFirst, chainSecond, chainThird] root ∧
    depLayerDirs chainThird.bs (fun _ => false) (fun _ => true) 3 ("app".toList, Arch.x86_64) =
      .ok dirs ∧
    ("base".toList, Arch.x86_64) ∈ dirs.map LayerDir.build ∧
    ¬ Covered bitOutputs chainThird.bs.graph (fun _ => false) root.log := by
  obtain ⟨root₁, root₂, root₃, l₁, e, e', h₁, h₂, h₃, hlog, hout, hdir, hlast, hnew, hold⟩ :
      ∃ root₁ root₂ root₃ l₁ e e', chainFirst.succeed bitOutputs .empty = some root₁ ∧
        chainSecond.succeed bitOutputs root₁ = some root₂ ∧
        chainThird.succeed bitOutputs root₂ = some root₃ ∧
        root₃.log = l₁ ++ [e] ∧ e.outcome = .upToDate ∧ e.dir.1 = ("app".toList, Arch.x86_64) ∧
        lastBuilt l₁ e.dir = some e' ∧ e.outputs ("base".toList, Arch.x86_64) = some false ∧
        e'.outputs ("base".toList, Arch.x86_64) = some true :=
    ⟨_, _, _, _, _, _, rfl, rfl, rfl, rfl, rfl, rfl, rfl, rfl, rfl⟩
  obtain ⟨dirs, hdirs, hbase⟩ : ∃ dirs,
      depLayerDirs chainThird.bs (fun _ => false) (fun _ => true) 3
        ("app".toList, Arch.x86_64) = .ok dirs ∧
      ("base".toList, Arch.x86_64) ∈ dirs.map LayerDir.build :=
    ⟨_, rfl, by decide⟩
  refine ⟨root₃, dirs, ?_, hdirs, hbase, fun hcov => ?_⟩
  · exact (((Machine.Along.nil BuildRoot.empty).snoc ⟨rfl, rfl⟩ h₁).snoc ⟨rfl, rfl⟩ h₂).snoc
      ⟨rfl, rfl⟩ h₃
  · obtain ⟨e₁, he₁, heq⟩ := hcov l₁ e [] hlog hout
    cases hlast.symm.trans he₁
    rw [hdir] at heq
    have hsum := heq _ rfl ((mem_depLayerDirs_iff hdirs _).1 hbase).2
    rw [hnew, hold] at hsum
    exact absurd hsum (by decide)

end Pbuild
