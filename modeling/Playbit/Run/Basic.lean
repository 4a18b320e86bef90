import Playbit.Machine.Run
import Playbit.Package.Sources
import Playbit.Build.Layers
import Playbit.Build.Stamp

/-!
# A run of pbuild

`Job.main` is one invocation, from the stamps and sources it finds to the stamps and outputs it
leaves: `resolve_sources`, `select_what_to_build` and the builds of the selected packages, each of
which checks again whether it is needed.  What happens in a sandbox, and what time it is when a
stamp is written, are inputs of the job.

A run does not get stuck (`Job.exists_main`).  What a build can do is said once, in
`Job.build_cases`, and everything about runs is derived from it.
-/

namespace Pbuild

open Python

/-! ### The build directory -/

/-- Contents of output directories, with the functions on them that the model does not look
into. -/
structure Outputs (Out : Type) where
  /-- An empty directory. -/
  empty : Out
  /-- What `PkgBuild.cleanup` leaves of the output of a package. -/
  cleanup : PkgName → Out → Out
  /-- `checksum_dir`. -/
  checksumDir : Out → Text
  checksumDir_word : ∀ o, IsWord (checksumDir o)
  /-- The hexadecimal SHA-256 digest of a text. -/
  sha256 : Text → Text
  sha256_word : ∀ t, IsWord (sha256 t)

/-- A build directory: the build, and the configuration it is built with as a top-level package. -/
abbrev BuildDir := BuildKey × Text

/-- What came of a build. -/
inductive Outcome
  | built
  /-- Nothing was done since it did not need a build after all. -/
  | upToDate
  /-- The build succeeded and was not stamped. -/
  | session
  | failed
  deriving DecidableEq

/-- A build, with the outputs that the builds had when it ended. -/
structure Event (Out : Type) where
  dir : BuildDir
  outcome : Outcome
  outputs : BuildKey → Option Out

/-- What is under `BUILDDIR`. -/
structure BuildRoot (Out : Type) where
  /-- The files `stamp` and `stamp-RULE` of a directory, by rule. -/
  stamp : BuildDir → Text → Option Stamp
  /-- `out/distroot`. -/
  out : BuildDir → Option Out
  /-- What has been done, as a history variable. -/
  log : List (Event Out)

variable {Out : Type}

namespace BuildRoot

/-- An empty `BUILDDIR`. -/
def empty : BuildRoot Out := ⟨fun _ _ => none, fun _ => none, []⟩

variable (root : BuildRoot Out)

def setStamp (d : BuildDir) (rule : Text) (f : Stamp) : BuildRoot Out :=
  { root with stamp := fun d' r => if d' = d ∧ r = rule then some f else root.stamp d' r }

def setOut (d : BuildDir) (o : Out) : BuildRoot Out :=
  { root with out := fun d' => if d' = d then some o else root.out d' }

/-- `rmtree` of a build directory. -/
def removeDir (d : BuildDir) : BuildRoot Out :=
  { root with
    stamp := fun d' r => if d' = d then none else root.stamp d' r
    out := fun d' => if d' = d then none else root.out d' }

end BuildRoot

/-! ### One invocation -/

/-- `PkgBuild.build_dir`. -/
def Invocation.buildDir (inv : Invocation) (b : BuildKey) : BuildDir :=
  (b, if inv.isToplevel b then inv.args.buildConfigId else [])

/-- Add an event to the log. -/
def BuildRoot.record (root : BuildRoot Out) (inv : Invocation) (b : BuildKey) (o : Outcome) :
    BuildRoot Out :=
  { root with
    log := root.log ++ [⟨inv.buildDir b, o, fun k => root.out (inv.buildDir k)⟩] }

/-- The rule in the name of `PkgBuild.build_stamp`. -/
def Invocation.stampRule (inv : Invocation) (b : BuildKey) : Text :=
  if inv.isToplevel b then inv.args.rule else []

/-- An invocation with what it finds outside of `BUILDDIR`, and an acyclic build graph. -/
structure Job (Out : Type) where
  inv : Invocation
  pkgs : PkgTable
  bs : Builds
  resolved : ∃ n, resolveBuilds pkgs inv.native inv.target n inv.tops = .ok bs
  acyclic : ∀ k ∈ bs.buildlist, ¬ Relation.TransGen bs.Dep k k
  /-- `Pkg.is_metapackage`. -/
  metapackage : PkgName → Bool
  sources : PkgName → PkgSources
  /-- How a build ends in the sandbox, and the `out/distroot` it leaves. -/
  sandbox : BuildKey → Bool × Out
  /-- When the stamp of a build is written or touched. -/
  clock : BuildKey → Time

/-- The state of a run. -/
structure RunState (Out : Type) where
  mem : BuildStates
  root : BuildRoot Out

namespace Job

variable (job : Job Out)

/-- `Pkg.is_toplevel`. -/
def isToplevelPkg (b : BuildKey) : Bool := decide (b.1 ∈ job.inv.tops)

def stampOf (root : BuildRoot Out) (b : BuildKey) : Option Stamp :=
  root.stamp (job.inv.buildDir b) (job.inv.stampRule b)

/-- A `PkgBuild` as it is created. -/
def initialState (b : BuildKey) : BuildState := { srcMtime := (job.sources b.1).index }

/-- One round of the loop in `resolve_sources`, after the stamp has been read; the flag says that
the sources are to be scanned. -/
def checkSource (b : BuildKey) (s : BuildState) : BuildState × Bool :=
  let args := job.inv.args
  if job.metapackage b.1 then
    ({ s with srcMtime := if s.buildMtime > s.srcMtime then s.buildMtime else s.srcMtime }, false)
  else if job.isToplevelPkg b && (args.isForce || args.interactiveShell || args.shellCmd) then
    ({ s with mustBuild := true }, false)
  else if s.mustBuild || decide (s.checksum = []) then (s, false)
  else if s.buildMtime < s.srcMtime then ({ s with mustBuild := true }, false)
  else (s, !(args.skipDeps && !job.isToplevelPkg b))

/-- A build after its round. -/
def checked (root : BuildRoot Out) (b : BuildKey) : BuildState × Bool :=
  job.checkSource b (readBuildStamp (job.initialState b) (job.stampOf root b))

/-- The builds whose sources are scanned. -/
def toScan (root : BuildRoot Out) : List BuildKey :=
  job.bs.buildlist.filter fun b => (job.checked root b).2

/-- The architectures that sources are scanned for. -/
def archs (root : BuildRoot Out) : List Arch := (job.toScan root).map Prod.snd

/-- `Pkg.src_mtime` after `resolve_sources`. -/
def pkgSrcMtime (root : BuildRoot Out) (p : PkgName) : ℤ :=
  if p ∈ (job.toScan root).map Prod.fst then (job.sources p).resolveSources (job.archs root)
  else (job.sources p).index

/-- The builds as `main` hands them to `select_what_to_build`. -/
def resolveSources (root : BuildRoot Out) : BuildStates := fun b =>
  if job.inv.args.cleanAll then { job.initialState b with mustBuild := true }
  else { (job.checked root b).1 with srcMtime := job.pkgSrcMtime root b.1 }

/-- `check_needs_build`; the build list is long enough for the recursion. -/
def needsBuild (mem : BuildStates) (b : BuildKey) (eager : Bool) : Option (Bool × Text) :=
  checkNeedsBuild job.inv job.bs mem job.bs.buildlist.length b eager

end Job

/-- The stamp after `touch`. -/
def touched (t : Time) (f : Option Stamp) : Stamp := ⟨(f.map Stamp.text).getD [], t⟩

namespace Job

variable (H : Outputs Out) (job : Job Out)

/-- The text whose digest is the checksum of a metapackage. -/
def metaText (mem : BuildStates) (b : BuildKey) : Text :=
  (job.bs.build b).sortedDeps.flatMap fun d =>
    buildName d ++ ':' :: ((mem d).checksum ++ ['.'])

/-- The checksum that `updateChecksum` computes. -/
def newChecksum (s : RunState Out) (b : BuildKey) : Text :=
  if job.metapackage b.1 then H.sha256 (job.metaText s.mem b)
  else H.checksumDir ((s.root.out (job.inv.buildDir b)).getD H.empty)

/-- `updateChecksum`, `write_build_stamp` and the rest of `markAsBuilt`. -/
def stamped (s : RunState Out) (b : BuildKey) : RunState Out :=
  let mem := Function.update s.mem b { s.mem b with checksum := job.newChecksum H s b }
  { mem := Function.update mem b
      { mem b with buildMtime := (job.clock b : ℤ), mustBuild := false }
    root := (s.root.setStamp (job.inv.buildDir b) (job.inv.stampRule b)
      ⟨writtenText job.bs mem b, job.clock b⟩).record job.inv b .built }

/-- The build is a shell session. -/
def isSession (b : BuildKey) : Bool :=
  (job.inv.args.interactiveShell || job.inv.args.shellCmd) && job.inv.isToplevel b

/-- `PkgBuild.markAsBuilt`. -/
def markAsBuilt (s : RunState Out) (b : BuildKey) : RunState Out :=
  if job.isSession b then { s with root := s.root.record job.inv b .session }
  else job.stamped H s b

/-- The build directory is removed before the build. -/
def isCleaned (b : BuildKey) : Bool :=
  job.inv.args.isClean && (job.inv.isToplevel b || job.inv.args.cleanAll)

/-- The build directory as `buildInSandbox` sets it up. -/
def prepared (root : BuildRoot Out) (b : BuildKey) : BuildRoot Out :=
  let d := job.inv.buildDir b
  let root := if job.isCleaned b then root.removeDir d else root
  root.setOut d ((root.out d).getD H.empty)

/-- What the commands in the sandbox leave in `out/distroot`. -/
def sandboxOut (b : BuildKey) : Out :=
  if (job.sandbox b).1 && job.inv.args.cleanup then H.cleanup b.1 (job.sandbox b).2
  else (job.sandbox b).2

/-- `PkgBuild.buildInSandbox`. -/
def buildInSandbox (root : BuildRoot Out) (b : BuildKey) : BuildRoot Out × Bool :=
  let root := job.prepared H root b
  match depLayerDirs job.bs job.metapackage
      (fun dir => (root.out (job.inv.buildDir dir.build)).isSome) job.bs.buildlist.length b with
  | .error _ => (root, false)
  | .ok _ => (root.setOut (job.inv.buildDir b) (job.sandboxOut H b), (job.sandbox b).1)

/-- `PkgBuild.build`. -/
def build (b : BuildKey) (s : RunState Out) : Option (RunState Out × Bool) :=
  let d := job.inv.buildDir b
  if job.inv.args.dryRun then some (s, true)
  else (job.needsBuild s.mem b false).map fun (needs, _) =>
    if !needs then
      let f := touched (job.clock b) (job.stampOf s.root b)
      let root := s.root.setStamp d (job.inv.stampRule b) f
      ({ s with root := root.record job.inv b .upToDate }, true)
    else if job.metapackage b.1 then (job.markAsBuilt H s b, true)
    else match job.buildInSandbox H s.root b with
      | (root, false) => ({ s with root := root.record job.inv b .failed }, false)
      | (root, true) => (job.markAsBuilt H { s with root } b, true)

/-- `PkgBuild.cleanup`. -/
def cleanup (root : BuildRoot Out) (b : BuildKey) : BuildRoot Out :=
  match root.out (job.inv.buildDir b) with
  | none => root
  | some o => root.setOut (job.inv.buildDir b) (H.cleanup b.1 o)

/-- The end of `main`: cleaning up the top-level packages that were not built. -/
def cleanupOnly (root : BuildRoot Out) (l : List BuildKey) : BuildRoot Out :=
  l.foldl (job.cleanup H) root

/-- `select_what_to_build` on what `resolve_sources` finds. -/
def select (root : BuildRoot Out) : Option (List (BuildKey × Text) × List BuildKey) :=
  selectWhatToBuild job.inv job.bs (job.resolveSources root) job.bs.buildlist.length

/-- `main`: what is under `BUILDDIR` at the end, and whether all builds succeeded. -/
def main (root : BuildRoot Out) : Option (BuildRoot Out × Bool) := do
  let (sel, cleanup) ← job.select root
  let (s, ok) ← Machine.runAll (job.build H) (sel.map Prod.fst) ⟨job.resolveSources root, root⟩
  some (if ok then job.cleanupOnly H s.root cleanup else s.root, ok)

/-! ### What a build can do -/

/-- Nothing but the directory of `b` is changed in a sandbox. -/
structure Sandboxed (b : BuildKey) (root root' : BuildRoot Out) (ok : Bool) : Prop where
  stamp : ∀ d r, root'.stamp d r =
    if d = job.inv.buildDir b ∧ job.isCleaned b = true then none else root.stamp d r
  out_ne : ∀ d, d ≠ job.inv.buildDir b → root'.out d = root.out d
  out : root'.out (job.inv.buildDir b) = some (job.sandboxOut H b) ∧ ok = (job.sandbox b).1 ∨
    root'.out (job.inv.buildDir b) = (job.prepared H root b).out (job.inv.buildDir b) ∧ ok = false
  log : root'.log = root.log

/-- Everything that a build can do. -/
inductive Effect (b : BuildKey) (s : RunState Out) : RunState Out → Bool → Prop
  | dryRun (hdry : job.inv.args.dryRun = true) : Effect b s s true
  | upToDate (hdry : job.inv.args.dryRun = false) {reason : Text}
      (hneeds : job.needsBuild s.mem b false = some (false, reason)) :
      Effect b s { s with root := (s.root.setStamp (job.inv.buildDir b) (job.inv.stampRule b)
        (touched (job.clock b) (job.stampOf s.root b))).record job.inv b .upToDate } true
  | built (hdry : job.inv.args.dryRun = false) {reason : Text}
      (hneeds : job.needsBuild s.mem b false = some (true, reason))
      (hsession : job.isSession b = false) {root : BuildRoot Out}
      (hroot : job.metapackage b.1 = true ∧ root = s.root ∨
        job.metapackage b.1 = false ∧ job.Sandboxed H b s.root root true) :
      Effect b s (job.stamped H ⟨s.mem, root⟩ b) true
  | session (hdry : job.inv.args.dryRun = false) {reason : Text}
      (hneeds : job.needsBuild s.mem b false = some (true, reason))
      (hsession : job.isSession b = true) {root : BuildRoot Out}
      (hroot : job.metapackage b.1 = true ∧ root = s.root ∨
        job.metapackage b.1 = false ∧ job.Sandboxed H b s.root root true) :
      Effect b s ⟨s.mem, root.record job.inv b .session⟩ true
  | failed (hdry : job.inv.args.dryRun = false) {reason : Text}
      (hneeds : job.needsBuild s.mem b false = some (true, reason))
      (hmeta : job.metapackage b.1 = false) {root : BuildRoot Out}
      (hroot : job.Sandboxed H b s.root root false) :
      Effect b s ⟨s.mem, root.record job.inv b .failed⟩ false

variable {H job}

theorem prepared_out_ne {root : BuildRoot Out} {b : BuildKey} {d : BuildDir}
    (hd : d ≠ job.inv.buildDir b) : (job.prepared H root b).out d = root.out d := by
  unfold prepared
  dsimp only
  split_ifs <;> simp [BuildRoot.setOut, BuildRoot.removeDir, hd]

theorem prepared_stamp {root : BuildRoot Out} {b : BuildKey} (d : BuildDir) (r : Text) :
    (job.prepared H root b).stamp d r =
      if d = job.inv.buildDir b ∧ job.isCleaned b = true then none else root.stamp d r := by
  unfold prepared
  by_cases hc : job.isCleaned b = true <;>
    simp [hc, BuildRoot.setOut, BuildRoot.removeDir]

theorem prepared_log {root : BuildRoot Out} {b : BuildKey} :
    (job.prepared H root b).log = root.log := by
  unfold prepared
  dsimp only
  split_ifs <;> rfl

theorem sandboxed_of_eq {root root' : BuildRoot Out} {b : BuildKey} {ok : Bool}
    (h : job.buildInSandbox H root b = (root', ok)) : job.Sandboxed H b root root' ok := by
  unfold buildInSandbox at h
  dsimp only at h
  split at h
  · cases h
    exact ⟨prepared_stamp, fun _ => prepared_out_ne, .inr ⟨rfl, rfl⟩, prepared_log⟩
  · cases h
    refine ⟨prepared_stamp (H := H), fun d hd => ?_, .inl ⟨by simp [BuildRoot.setOut], rfl⟩,
      prepared_log (H := H)⟩
    simp [BuildRoot.setOut, hd, prepared_out_ne]

theorem Sandboxed.out_of_ok {root root' : BuildRoot Out} {b : BuildKey}
    (h : job.Sandboxed H b root root' true) :
    root'.out (job.inv.buildDir b) = some (job.sandboxOut H b) ∧ (job.sandbox b).1 = true := by
  rcases h.out with ⟨hout, hok⟩ | ⟨-, hok⟩
  · exact ⟨hout, hok.symm⟩
  · cases hok

/-- **What a build can do.** -/
theorem build_cases {b : BuildKey} {s s' : RunState Out} {ok : Bool}
    (h : job.build H b s = some (s', ok)) : job.Effect H b s s' ok := by
  unfold build at h
  cases hdry : job.inv.args.dryRun with
  | true =>
    simp only [hdry, if_true] at h
    cases h
    exact .dryRun hdry
  | false =>
    simp only [hdry, Bool.false_eq_true, if_false, Option.map_eq_some_iff] at h
    obtain ⟨⟨needs, reason⟩, hneeds, h⟩ := h
    cases needs with
    | false =>
      cases h
      exact .upToDate hdry hneeds
    | true =>
      simp only [Bool.not_true, Bool.false_eq_true, if_false] at h
      cases hmeta : job.metapackage b.1 with
      | true =>
        simp only [hmeta, if_true] at h
        cases h
        unfold markAsBuilt
        split_ifs with hs
        · exact .session hdry hneeds hs (.inl ⟨hmeta, rfl⟩)
        · exact .built hdry hneeds (by simpa using hs) (.inl ⟨hmeta, rfl⟩)
      | false =>
        simp only [hmeta, Bool.false_eq_true, if_false] at h
        rcases hbox : job.buildInSandbox H s.root b with ⟨root, - | -⟩
        · rw [hbox] at h
          cases h
          exact .failed hdry hneeds hmeta (sandboxed_of_eq hbox)
        · rw [hbox] at h
          cases h
          unfold markAsBuilt
          split_ifs with hs
          · exact .session hdry hneeds hs (.inr ⟨hmeta, sandboxed_of_eq hbox⟩)
          · exact .built hdry hneeds (by simpa using hs) (.inr ⟨hmeta, sandboxed_of_eq hbox⟩)

/-- A build changes its own attributes and its own directory. -/
structure Frame (job : Job Out) (b : BuildKey) (s s' : RunState Out) : Prop where
  mem : ∀ k, k ≠ b → s'.mem k = s.mem k
  depChecksums : ∀ k, (s'.mem k).depChecksums = (s.mem k).depChecksums
  srcMtime : ∀ k, (s'.mem k).srcMtime = (s.mem k).srcMtime
  stamp : ∀ d, d ≠ job.inv.buildDir b → ∀ r, s'.root.stamp d r = s.root.stamp d r
  out : ∀ d, d ≠ job.inv.buildDir b → s'.root.out d = s.root.out d

theorem frame_of_root {b : BuildKey} {s : RunState Out} {root : BuildRoot Out}
    (hstamp : ∀ d, d ≠ job.inv.buildDir b → ∀ r, root.stamp d r = s.root.stamp d r)
    (hout : ∀ d, d ≠ job.inv.buildDir b → root.out d = s.root.out d) :
    job.Frame b s ⟨s.mem, root⟩ :=
  ⟨fun _ _ => rfl, fun _ => rfl, fun _ => rfl, hstamp, hout⟩

theorem frame_of_sandboxed {b : BuildKey} {s : RunState Out} {root : BuildRoot Out} {ok : Bool}
    (h : job.metapackage b.1 = true ∧ root = s.root ∨
      job.metapackage b.1 = false ∧ job.Sandboxed H b s.root root ok) :
    job.Frame b s ⟨s.mem, root⟩ := by
  rcases h with ⟨-, rfl⟩ | ⟨-, h⟩
  · exact frame_of_root (fun _ _ _ => rfl) fun _ _ => rfl
  · refine frame_of_root (fun d hd r => ?_) h.out_ne
    rw [h.stamp, if_neg fun hd' => hd hd'.1]

theorem log_of_sandboxed {b : BuildKey} {root root' : BuildRoot Out} {ok : Bool}
    (h : job.metapackage b.1 = true ∧ root' = root ∨
      job.metapackage b.1 = false ∧ job.Sandboxed H b root root' ok) : root'.log = root.log := by
  rcases h with ⟨-, rfl⟩ | ⟨-, h⟩
  · rfl
  · exact h.log

theorem frame_stamped (s : RunState Out) (b : BuildKey) : job.Frame b s (job.stamped H s b) := by
  refine ⟨fun k hk => by simp [stamped, hk], fun k => ?_, fun k => ?_, fun d hd r => ?_,
    fun _ _ => rfl⟩
  · by_cases hk : k = b
    · subst hk; simp [stamped]
    · simp [stamped, hk]
  · by_cases hk : k = b
    · subst hk; simp [stamped]
    · simp [stamped, hk]
  · simp [stamped, BuildRoot.setStamp, BuildRoot.record, hd]

theorem Frame.trans {b : BuildKey} {s s₁ s₂ : RunState Out} (h₁ : job.Frame b s s₁)
    (h₂ : job.Frame b s₁ s₂) : job.Frame b s s₂ where
  mem k hk := (h₂.mem k hk).trans (h₁.mem k hk)
  depChecksums k := (h₂.depChecksums k).trans (h₁.depChecksums k)
  srcMtime k := (h₂.srcMtime k).trans (h₁.srcMtime k)
  stamp d hd r := (h₂.stamp d hd r).trans (h₁.stamp d hd r)
  out d hd := (h₂.out d hd).trans (h₁.out d hd)

theorem Effect.frame {b : BuildKey} {s s' : RunState Out} {ok : Bool}
    (h : job.Effect H b s s' ok) : job.Frame b s s' := by
  cases h with
  | dryRun => exact frame_of_root (fun _ _ _ => rfl) fun _ _ => rfl
  | upToDate =>
    refine frame_of_root (fun d hd r => ?_) fun _ _ => rfl
    simp [BuildRoot.setStamp, BuildRoot.record, hd]
  | built _ _ _ hroot => exact (frame_of_sandboxed hroot).trans (frame_stamped _ b)
  | session _ _ _ hroot =>
    have h := frame_of_sandboxed hroot
    exact frame_of_root h.stamp h.out
  | failed _ _ hmeta hroot =>
    have h := frame_of_sandboxed (.inr ⟨hmeta, hroot⟩)
    exact frame_of_root h.stamp h.out

/-- Different builds of an invocation have different directories. -/
theorem buildDir_ne {inv : Invocation} {k b : BuildKey} (h : k ≠ b) :
    inv.buildDir k ≠ inv.buildDir b :=
  fun hd => h (congrArg Prod.fst hd)

theorem ne_buildDir {inv : Invocation} {k b : BuildKey} (h : k ≠ b) (c : Text) :
    (k, c) ≠ inv.buildDir b :=
  fun hd => h (congrArg Prod.fst hd)

theorem Frame.stampOf {b k : BuildKey} {s s' : RunState Out} (h : job.Frame b s s')
    (hk : k ≠ b) : job.stampOf s'.root k = job.stampOf s.root k :=
  h.stamp _ (buildDir_ne hk) _

theorem Effect.log {b : BuildKey} {s s' : RunState Out} {ok : Bool}
    (h : job.Effect H b s s' ok) : ∃ new, s'.root.log = s.root.log ++ new ∧
      ∀ e ∈ new, e.dir = job.inv.buildDir b ∧
        (e.outcome = .built → job.inv.args.dryRun = false ∧ job.isSession b = false) := by
  cases h with
  | dryRun => exact ⟨[], by simp, by simp⟩
  | upToDate =>
    refine ⟨[_], rfl, fun e he => ?_⟩
    cases List.mem_singleton.1 he
    exact ⟨rfl, fun hbuilt => by cases hbuilt⟩
  | @built hdry _ _ hsession root₁ hroot =>
    refine ⟨[⟨job.inv.buildDir b, .built, fun k => root₁.out (job.inv.buildDir k)⟩],
      by rw [← log_of_sandboxed hroot]; rfl, fun e he => ?_⟩
    cases List.mem_singleton.1 he
    exact ⟨rfl, fun _ => ⟨hdry, hsession⟩⟩
  | session _ _ _ hroot =>
    refine ⟨[_], congrArg (· ++ [_]) (log_of_sandboxed hroot), fun e he => ?_⟩
    cases List.mem_singleton.1 he
    exact ⟨rfl, fun hbuilt => by cases hbuilt⟩
  | failed _ _ hmeta hroot =>
    refine ⟨[_], congrArg (· ++ [_]) (log_of_sandboxed (.inr ⟨hmeta, hroot⟩)), fun e he => ?_⟩
    cases List.mem_singleton.1 he
    exact ⟨rfl, fun hbuilt => by cases hbuilt⟩

/-! ### Cleaning up -/

theorem cleanup_frame (root : BuildRoot Out) (b : BuildKey) :
    (job.cleanup H root b).stamp = root.stamp ∧ (job.cleanup H root b).log = root.log := by
  unfold cleanup
  split <;> exact ⟨rfl, rfl⟩

theorem cleanupOnly_frame (root : BuildRoot Out) (l : List BuildKey) :
    (job.cleanupOnly H root l).stamp = root.stamp ∧ (job.cleanupOnly H root l).log = root.log := by
  induction l generalizing root with
  | nil => exact ⟨rfl, rfl⟩
  | cons b l ih =>
    obtain ⟨h₁, h₂⟩ : (job.cleanup H root b).stamp = root.stamp ∧
      (job.cleanup H root b).log = root.log := cleanup_frame root b
    exact ⟨(ih _).1.trans h₁, (ih _).2.trans h₂⟩

theorem stampOf_cleanupOnly (root : BuildRoot Out) (l : List BuildKey) (k : BuildKey) :
    job.stampOf (job.cleanupOnly H root l) k = job.stampOf root k := by
  rw [stampOf, (cleanupOnly_frame root l).1]
  rfl

/-! ### Runs do not get stuck -/

theorem resolvedBuilds (job : Job Out) :
    ResolvedBuilds job.pkgs job.inv.native job.inv.target job.inv.tops job.bs :=
  resolvedBuilds_of_eq_ok job.resolved.choose_spec

theorem ordered (job : Job Out) : job.bs.Ordered := job.resolvedBuilds.ordered job.acyclic

theorem exists_needsBuild (mem : BuildStates) {b : BuildKey} (eager : Bool)
    (hb : b ∈ job.bs.buildlist) : ∃ x, job.needsBuild mem b eager = some x :=
  exists_checkNeedsBuild job.ordered (Nat.le_refl _) eager hb

theorem exists_select (root : BuildRoot Out) : ∃ sel, job.select root = some sel :=
  exists_selectWhatToBuild job.ordered (Nat.le_refl _)

theorem exists_build {b : BuildKey} (hb : b ∈ job.bs.buildlist) (s : RunState Out) :
    ∃ r, job.build H b s = some r := by
  obtain ⟨x, hx⟩ := exists_needsBuild s.mem false hb
  simp only [build, hx, Option.map_some]
  split_ifs <;> exact ⟨_, rfl⟩

theorem mem_buildlist_of_select {root : BuildRoot Out}
    {sel : List (BuildKey × Text) × List BuildKey} (h : job.select root = some sel) {b : BuildKey}
    (hb : b ∈ sel.1.map Prod.fst) : b ∈ job.bs.buildlist := by
  obtain ⟨x, hx, rfl⟩ := List.mem_map.1 hb
  exact ((mem_selectWhatToBuild h x).1 hx).1

theorem exists_run (H : Outputs Out) (job : Job Out) (root : BuildRoot Out) :
    ∃ sel s ok, job.select root = some sel ∧
      Machine.runAll (job.build H) (sel.1.map Prod.fst) ⟨job.resolveSources root, root⟩ =
        some (s, ok) ∧
      job.main H root = some (if ok then job.cleanupOnly H s.root sel.2 else s.root, ok) := by
  obtain ⟨sel, hsel⟩ : ∃ sel, job.select root = some sel := exists_select root
  obtain ⟨⟨s, ok⟩, hrun⟩ := Machine.exists_runAll
    (fun b hb s => exists_build (H := H) (mem_buildlist_of_select hsel hb) s)
    ⟨job.resolveSources root, root⟩
  refine ⟨sel, s, ok, hsel, hrun, ?_⟩
  simp only [main, hsel, Option.bind_eq_bind, Option.bind_some, hrun]

/-- **A run does not get stuck.** -/
theorem exists_main (H : Outputs Out) (job : Job Out) (root : BuildRoot Out) :
    ∃ r, job.main H root = some r := by
  obtain ⟨_, _, _, -, -, h⟩ := exists_run H job root
  exact ⟨_, h⟩

theorem main_cases {root root' : BuildRoot Out} {ok : Bool}
    (h : job.main H root = some (root', ok)) : ∃ sel s, job.select root = some sel ∧
      Machine.runAll (job.build H) (sel.1.map Prod.fst) ⟨job.resolveSources root, root⟩ =
        some (s, ok) ∧
      root' = if ok then job.cleanupOnly H s.root sel.2 else s.root := by
  obtain ⟨sel, s, ok', hsel, hrun, hmain⟩ := exists_run H job root
  rw [hmain] at h
  cases h
  exact ⟨sel, s, hsel, hrun, rfl⟩

end Job

/-- Outputs with one bit of content, for examples. -/
def bitOutputs : Outputs Bool where
  empty := false
  cleanup _ o := o
  checksumDir o := if o then "on".toList else "off".toList
  checksumDir_word := by decide
  sha256 t := 's' :: t.filter (!isSpace ·)
  sha256_word t := by
    refine ⟨List.cons_ne_nil _ _, fun c hc => ?_⟩
    rcases List.mem_cons.1 hc with rfl | hc
    · rfl
    · simpa using (List.mem_filter.1 hc).2

/-- Building the sample packages for the first time, one after the other. -/
def Job.sample : Job Bool where
  inv := ⟨.x86_64, .x86_64, ["app"], {}⟩
  pkgs := samplePkgs
  bs := _
  resolved := ⟨6, rfl⟩
  acyclic _ hk := Builds.not_transGen_self (by decide) hk
  metapackage _ := false
  sources _ := { index := 1 }
  sandbox _ := (true, true)
  clock k :=
    if k.1 = "app".toList then 12
    else if k.1 = "tool".toList then 11
    else 10

end Pbuild
