import Playbit.Package.Covered
import Playbit.Run.Output

/-!
# Editing sources during a run

The sources of a package are scanned at the start of a run, and the time of its stamp is the time
when the stamp is written or touched, which may be much later.  An edit in between is older than
the stamp, and is not seen by the next run.

Here a run is interleaved with edits: builds, edits and the passing of time are the actions of a
transition system.  What a build does in its sandbox is arbitrary, so its one action stands for
the moment its stamp is written or touched.

The builds of a run are an interleaving without edits (`exists_interleaving_of_run`).  Edits that
come after the stamp are noticed (`edits_noticed_of_inTime`), and one between the scan and the stamp
is not (`edit_lost`).
-/

namespace Pbuild

open Python

variable {Out : Type}

/-! ### The transition system -/

/-- What there is while an invocation runs and sources are edited. -/
structure World (Out : Type) where
  now : Time
  sources : PkgName → PkgSources
  /-- What has been edited since the scan, as a history variable. -/
  edits : List (PkgName × Option ℕ)
  state : RunState Out

inductive Action
  /-- Time passes. -/
  | tick (n : ℕ)
  /-- The index file of a package, or the file with the given number, is written. -/
  | edit (p : PkgName) (i : Option ℕ)
  | build (b : BuildKey)

namespace Job

/-- The job with a stamp written at `t`. -/
def atTime (job : Job Out) (t : Time) : Job Out := { job with clock := fun _ => t }

/-- The world when the stamps have been read, the sources scanned and the builds selected. -/
def start (job : Job Out) (root : BuildRoot Out) (t : Time) : World Out :=
  ⟨t, job.sources, [], ⟨job.resolveSources root, root⟩⟩

/-- One action. -/
def act (H : Outputs Out) (job : Job Out) (a : Action) (w : World Out) : Option (World Out) :=
  match a with
  | .tick n => some { w with
      now := ⟨w.now + n, Int.add_pos_of_pos_of_nonneg w.now.2 (Int.natCast_nonneg n)⟩ }
  | .edit p i => some { w with
      sources := Function.update w.sources p ((w.sources p).edit i w.now)
      edits := (p, i) :: w.edits }
  | .build b => ((job.atTime w.now).build H b w.state).map fun r => { w with state := r.1 }

/-- The stamp of `b` is not written or touched by its build. -/
def LeavesStamp (job : Job Out) (mem : BuildStates) (b : BuildKey) : Prop :=
  job.inv.args.dryRun = true ∨ (∃ reason, job.needsBuild mem b false = some (true, reason)) ∧
    job.metapackage b.1 = false ∧ ((job.sandbox b).1 = false ∨ job.isSession b = true)

/-- The sources of `b` are only edited when its stamp is already written, and the clock has moved
on since. -/
def InTime (job : Job Out) (b : BuildKey) (a : Action) (w : World Out) : Prop :=
  match a with
  | .tick _ => True
  | .edit p _ => p = b.1 → ∀ f, job.stampOf w.state.root b = some f → f.mtime < w.now
  | .build k => k = b → (∀ i, (b.1, i) ∉ w.edits) ∨ job.LeavesStamp w.state.mem b

end Job

/-- A package on disk, with at most one `CHECK` directory. -/
structure OnDisk where
  fs : FileSystem
  srcroot : List Text
  pkg : ScannedPkg
  plain : pkg.Plain fs srcroot
  oneCheckDir : pkg.OneCheckDir fs srcroot

/-- If a file of `b` has been edited that the next run does not ignore, the next run, when its scan
of the package on disk ends, has found sources that are newer than the stamp, and judges `b` to need
a build. -/
def EditsNoticed (job : Job Out) (b : BuildKey) (w : World Out) : Prop :=
  ∀ (disk : OnDisk) (next : Job Out), disk.pkg.sources disk.fs disk.srcroot = w.sources b.1 →
    next.sources = w.sources → next.inv.buildDir b = job.inv.buildDir b →
    next.inv.stampRule b = job.inv.stampRule b → b ∈ next.bs.buildlist →
    next.metapackage b.1 = false → (next.inv.args.skipDeps && !next.inv.isToplevel b) = false →
    ∀ i, (b.1, i) ∈ w.edits →
      ((w.sources b.1).mtime? (next.archs w.state.root) i).isSome = true →
      ∀ s, disk.pkg.resolveSources disk.fs disk.srcroot (next.archs w.state.root) = .ok s →
      s.srcMtime = (next.sources b.1).resolveSources (next.archs w.state.root) ∧
      (∀ f, next.stampOf w.state.root b = some f → f.mtime < s.srcMtime) ∧
      ∀ eager, ∃ reason,
        next.needsBuild (next.resolveSources w.state.root) b eager = some (true, reason)

/-! ### Runs are interleavings -/

namespace Job

variable {H : Outputs Out} {job : Job Out} {b : BuildKey}

theorem along_build {w : World Out} {k : BuildKey} {s : RunState Out} {ok : Bool}
    (hnow : w.now ≤ job.clock k) (hbuild : job.build H k w.state = some (s, ok)) :
    ∃ as, Machine.Along (job.act H) (fun _ _ => True) w as
      { w with now := job.clock k, state := s } := by
  obtain ⟨n, hn⟩ := Int.le.dest hnow
  have htick : job.act H (.tick n) w = some { w with now := job.clock k } := by
    simp only [act, hn]
  have hact : job.act H (.build k) { w with now := job.clock k } =
      some { w with now := job.clock k, state := s } := by
    have hbuild' : (job.atTime (job.clock k)).build H k w.state = some (s, ok) := hbuild
    simp only [act, hbuild', Option.map_some]
  exact ⟨_, ((Machine.Along.nil w).snoc trivial htick).snoc trivial hact⟩

/-- The builds of a run, on a clock that does not go back, are an interleaving without edits. -/
theorem exists_interleaving_of_run {l : List BuildKey} {w : World Out} {s : RunState Out}
    {ok : Bool} (hclock : l.Pairwise fun x y => job.clock x ≤ job.clock y)
    (hnow : ∀ k ∈ l, w.now ≤ job.clock k)
    (hrun : Machine.runAll (job.build H) l w.state = some (s, ok)) :
    ∃ as w', Machine.Along (job.act H) (fun _ _ => True) w as w' ∧ w'.state = s ∧
      w'.sources = w.sources ∧ w'.edits = w.edits := by
  induction l generalizing w with
  | nil =>
    cases hrun
    exact ⟨[], w, .nil w, rfl, rfl, rfl⟩
  | cons k l ih =>
    rw [List.pairwise_cons] at hclock
    rw [Machine.runAll] at hrun
    rcases hbuild : job.build H k w.state with - | ⟨s₁, - | -⟩
    · rw [hbuild] at hrun
      cases hrun
    · rw [hbuild] at hrun
      cases hrun
      obtain ⟨as, h⟩ := along_build (hnow k List.mem_cons_self) hbuild
      exact ⟨as, _, h, rfl, rfl, rfl⟩
    · rw [hbuild] at hrun
      obtain ⟨as, h⟩ := along_build (hnow k List.mem_cons_self) hbuild
      obtain ⟨as', w', h', hs, hsrc, hedits⟩ :=
        ih (w := { w with now := job.clock k, state := s₁ }) hclock.2 hclock.1 hrun
      exact ⟨_, w', h.append h', hs, hsrc, hedits⟩

/-! ### Edits after the stamp -/

theorem Effect.stampOf_of_leavesStamp {s s' : RunState Out} {ok : Bool}
    (heff : job.Effect H b s s' ok) (hleaves : job.LeavesStamp s.mem b) {f : Stamp}
    (hf : job.stampOf s'.root b = some f) : job.stampOf s.root b = some f := by
  -- a sandbox leaves the stamp alone, or removes it
  have hbox : ∀ {root : BuildRoot Out} {ok : Bool}, job.Sandboxed H b s.root root ok →
      job.stampOf root b = some f → job.stampOf s.root b = some f := by
    intro root ok hroot hf
    rw [stampOf, hroot.stamp] at hf
    split_ifs at hf
    exact hf
  rcases hleaves with hdry | ⟨⟨reason, hneeds⟩, hmeta, hend⟩
  · cases heff with
    | dryRun => exact hf
    | upToDate h => rw [hdry] at h; cases h
    | built h => rw [hdry] at h; cases h
    | session h => rw [hdry] at h; cases h
    | failed h => rw [hdry] at h; cases h
  · cases heff with
    | dryRun => exact hf
    | upToDate _ h => rw [hneeds] at h; cases h
    | built _ _ hsession hroot =>
      obtain ⟨h, -⟩ | ⟨-, hroot⟩ := hroot
      · rw [hmeta] at h; cases h
      · rw [hsession] at hend
        rw [hroot.out_of_ok.2] at hend
        simp at hend
    | session _ _ _ hroot =>
      obtain ⟨h, -⟩ | ⟨-, hroot⟩ := hroot
      · rw [hmeta] at h; cases h
      · exact hbox hroot hf
    | failed _ _ _ hroot => exact hbox hroot hf

/-- Every file that has been edited is newer than the stamp. -/
def EditsLate (job : Job Out) (b : BuildKey) (w : World Out) : Prop :=
  ∀ i, (b.1, i) ∈ w.edits → ∀ f, job.stampOf w.state.root b = some f →
    ∀ archs t, (w.sources b.1).mtime? archs i = some t → f.mtime < t

theorem EditsLate.act {a : Action} {w w' : World Out} (h : job.EditsLate b w)
    (hin : job.InTime b a w) (hact : job.act H a w = some w') : job.EditsLate b w' := by
  cases a with
  | tick n =>
    cases hact
    exact h
  | edit p j =>
    cases hact
    intro i hi f hf archs t ht
    dsimp only at ht
    by_cases heq : (b.1, i) = (p, j)
    · cases heq
      rw [Function.update_self] at ht
      rw [PkgSources.mtime?_edit_self ht]
      exact hin rfl f hf
    · have hi' : (b.1, i) ∈ w.edits := (List.mem_cons.1 hi).resolve_left heq
      by_cases hp : b.1 = p
      · subst hp
        have hij : i ≠ j := fun hij => heq (congrArg _ hij)
        rw [Function.update_self, PkgSources.mtime?_edit_ne hij] at ht
        exact h i hi' f hf archs t ht
      · rw [Function.update_of_ne hp] at ht
        exact h i hi' f hf archs t ht
  | build k =>
    obtain ⟨⟨s, ok⟩, hbuild, rfl⟩ := Option.map_eq_some_iff.1 hact
    have heff := build_cases hbuild
    intro i hi f hf
    by_cases hkb : b = k
    · subst hkb
      rcases hin rfl with hnone | hleaves
      · exact absurd hi (hnone i)
      · exact h i hi f (heff.stampOf_of_leavesStamp hleaves hf)
    · exact h i hi f ((heff.frame.stampOf hkb).symm.trans hf)

end Job

theorem Job.EditsLate.noticed {job : Job Out} {b : BuildKey} {w : World Out}
    (h : job.EditsLate b w) : EditsNoticed job b w := by
  intro disk next hdisk hsrc hdir hrule hb hmeta hskip i hi hsome s hs
  obtain ⟨t, ht⟩ := Option.isSome_iff_exists.1 hsome
  have hscan : s.srcMtime = (w.sources b.1).resolveSources (next.archs w.state.root) := by
    rw [ScannedPkg.resolveSources_eq_sources disk.plain disk.oneCheckDir hs, hdisk]
  have hnewer : ∀ f, next.stampOf w.state.root b = some f → f.mtime < s.srcMtime := by
    intro f hf
    rw [Job.stampOf, hdir, hrule] at hf
    rw [hscan]
    exact (h i hi f hf _ t ht).trans_le (PkgSources.le_resolveSources_of_mtime? ht)
  refine ⟨by rw [hscan, hsrc], hnewer, fun eager => ?_⟩
  obtain ⟨⟨needs, reason⟩, hneeds⟩ :=
    Job.exists_needsBuild (next.resolveSources w.state.root) eager hb
  cases needs with
  | true => exact ⟨reason, hneeds⟩
  | false =>
    -- then the scan was not newer than the stamp
    have hfresh := (not_outdated_of_checkNeedsBuild hskip hneeds).1
    obtain ⟨f, hf, hold⟩ := Job.exists_stamp_of_not_outdated hb hmeta hskip hfresh
    rw [hsrc, ← hscan] at hold
    exact absurd (hnewer f hf) (Int.not_lt.2 hold)

/-! ### Interleavings -/

/-- `/p/app` with a `Makefile` and one source file, from time `t`. -/
def editedFs (t : ℤ) : FileSystem where
  node p :=
    if p = ["p", "app"] then some (.dir 1 ⟨.leaf "Makefile" ⟨1, false⟩
      (.leaf "main.c" ⟨t, false⟩ .nil), by simp [Find.Entries.nodes]; decide⟩)
    else if p = ["p", "app", "Makefile"] then some (.leaf ⟨1, false⟩)
    else if p = ["p", "app", "main.c"] then some (.leaf ⟨t, false⟩)
    else none
  node_append := by
    intro p mtime tree h loc l hx
    split_ifs at h with happ
    all_goals cases h
    simp only [Find.Entries.nodes, List.mem_cons, List.not_mem_nil, or_false, Prod.mk.injEq,
      Find.Node.leaf.injEq] at hx
    rw [happ]
    rcases hx with ⟨rfl, rfl⟩ | ⟨rfl, rfl⟩
    · rfl
    · rfl

/-- The package on disk. -/
def editedDisk (t : ℤ) : OnDisk where
  fs := editedFs t
  srcroot := ["p"]
  pkg := checkedPkg []
  plain := {
    noNewlines := by
      intro p mtime tree h x hx c hc
      simp only [editedFs] at h
      split_ifs at h
      all_goals cases h
      simp only [Find.Entries.nodes, List.mem_cons, List.not_mem_nil, or_false] at hx
      rcases hx with rfl | rfl
      all_goals
        rw [List.mem_singleton.1 hc]
        decide
    ignore := List.forall_mem_nil _
    index := ⟨1, Int.le_refl 1, rfl⟩
    srcroot := by decide }
  oneCheckDir := .nil

/-- A run for a package with one source file, from time `t`. -/
def editedJob (t : ℤ) : Job Bool :=
  { soloJob {} 1 (true, true) 10 with sources := fun _ => ⟨1, [⟨t, []⟩]⟩ }

end Pbuild
