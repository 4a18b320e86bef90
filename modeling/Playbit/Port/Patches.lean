import Mathlib.Data.List.Lex
import Playbit.Port.Fetch
import Playbit.Posix.Words
import Playbit.Python.Canonical

/-!
# Patches

After `pbuild_fetch_and_unpack` the build script of a port calls `pbuild_apply_patches`, which
applies the patch files of the package, one after the other, to the sources in `BUILDDIR`.  A stamp
says that this has been done.  It stands for the patch files that there were when it was left, so
that a patch file that is added later is not applied.  And there is no stamp after a patch has
failed, although others have been applied before it: the next build starts with the first patch
again, in sources that are not as they were unpacked.

The loop goes over the words that the shell makes of the output of `find`.  These are the patch
files only when their names are simple.

A call that succeeds has applied every patch file once, in order and to the sources as they were
unpacked, iff no patch file has been added since the stamp was left and nothing had been done to the
sources before (`patchedOnce_iff_undisturbed`).  Both can go wrong (`patches_missed_and_repeated`).
-/

namespace Port

open Posix (Bytes ascii IsSimple)
open Python (Text)

variable {α : Type}

/-! ### The words of the loop -/

/-- What the words of the loop depend on. -/
structure PatchShell where
  impl : Posix.Implementation
  /-- How `sort` compares lines. -/
  le : Bytes → Bytes → Bool
  total : ∀ a b, le a b = true ∨ le b a = true
  antisymm : ∀ a b, le a b = true → le b a = true → a = b
  trans : ∀ a b c, le a b = true → le b c = true → le a c = true
  /-- What becomes of a pattern. -/
  glob : Bytes → List Bytes

namespace PatchShell

variable (shell : PatchShell)

def LineLe (a b : Bytes) : Prop := shell.le a b = true

instance decidableLineLe : DecidableRel shell.LineLe := fun _ _ =>
  inferInstanceAs (Decidable (_ = true))

instance totalLineLe : Std.Total shell.LineLe := ⟨shell.total⟩

instance antisymmLineLe : Std.Antisymm shell.LineLe := ⟨shell.antisymm⟩

instance transLineLe : IsTrans Bytes shell.LineLe := ⟨shell.trans⟩

/-- `sort` -/
def sort (lines : List Bytes) : List Bytes := lines.insertionSort shell.LineLe

/-- `xargs -n1 echo`, which calls `echo` without an argument if there are none. -/
def echoEach (args : List Bytes) : Bytes :=
  if args = [] then Posix.echo shell.impl []
  else args.flatMap fun arg => Posix.echo shell.impl [arg]

/-- `$(find "$DIR" -type f -name \*.patch | xargs -n1 echo | sort)`, as the words of a loop, where
`found` are the lines of `find`. -/
def loopWords (found : List Bytes) : List Bytes :=
  let out := shell.echoEach (Posix.xargs (found.flatMap (· ++ [Posix.newline])))
  let sorted := (shell.sort (Posix.lines out)).flatMap (· ++ [Posix.newline])
  (Posix.fields sorted).flatMap (Posix.expandPath shell.glob)

end PatchShell

/-- The path of a patch file with a simple name, in a directory with a simple name. -/
structure IsPatchPath (path : Bytes) : Prop where
  simple : IsSimple path
  absolute : path.head? = some 0x2F

instance decidableIsPatchPath (path : Bytes) : Decidable (IsPatchPath path) :=
  decidable_of_iff (IsSimple path ∧ path.head? = some 0x2F)
    ⟨fun h => ⟨h.1, h.2⟩, fun h => ⟨h.1, h.2⟩⟩

/-! ### Applying patches -/

/-- What `patch` does to the sources. -/
inductive PatchOp
  | whole (patch : Bytes)
  /-- Some of the hunks were applied, and then `patch` failed. -/
  | part (patch : Bytes)
  deriving DecidableEq

def PatchOp.patch : PatchOp → Bytes
  | whole patch => patch
  | part patch => patch

/-- What becomes of a call of `patch`. -/
inductive PatchOutcome
  | applied
  /-- It fails, and has or has not changed something. -/
  | failed (changed : Bool)

/-- The loop: what has been done to the sources, and whether all calls of `patch` succeed. -/
def patchLoop (outcome : ℕ → PatchOutcome) : List Bytes → ℕ → List PatchOp → List PatchOp × Bool
  | [], _, history => (history, true)
  | f :: fs, i, history =>
    match outcome i with
    | .applied => patchLoop outcome fs (i + 1) (history ++ [.whole f])
    | .failed changed => (if changed then history ++ [.part f] else history, false)

/-- What the stamp stands for. -/
structure PatchStamp where
  /-- The patch files when it was left. -/
  patches : List Bytes
  /-- What had been done to the sources before the call that left it. -/
  before : List PatchOp
  deriving DecidableEq

/-- A call of `pbuild_apply_patches` that returned successfully. -/
structure PatchCall where
  /-- The patch files. -/
  patches : List Bytes
  /-- The stamp that it found. -/
  stamp : Option PatchStamp
  /-- What had been done to the sources before. -/
  before : List PatchOp
  /-- What has been done to the sources. -/
  history : List PatchOp
  deriving DecidableEq

/-- A port: its patch files, and what is kept between builds. -/
structure PatchState (α : Type) where
  sources : Sources α
  patches : List Bytes := []
  /-- What has been done to the sources since they were unpacked. -/
  history : List PatchOp := []
  stamp : Option PatchStamp := none
  log : List PatchCall := []

/-- What happens during a call of `pbuild_apply_patches`. -/
structure PatchEvents where
  /-- The patch files in the order in which `find` lists them. -/
  found : List Bytes
  outcome : ℕ → PatchOutcome := fun _ => .applied
  /-- `mkdir` and `touch` succeed. -/
  stamped : Bool := true

/-- `pbuild_apply_patches`: what it leaves, and whether it succeeds. -/
def applyPatches (shell : PatchShell) (s : PatchState α) (ev : PatchEvents) : PatchState α × Bool :=
  if s.stamp.isSome then (s, true)
  else
    match patchLoop ev.outcome (shell.loopWords ev.found) 0 s.history with
    | (history, false) => ({ s with history := history }, false)
    | (history, true) =>
      if ev.stamped then
        ({ s with history := history, stamp := some ⟨s.patches, s.history⟩ }, true)
      else ({ s with history := history }, false)

/-! ### Builds -/

/-- A build, up to the patches. -/
structure BuildEvents (α : Type) where
  args : FetchArgs
  fetch : FetchEvents α
  /-- The archive has a file with the name of the stamp of the patches, and it was extracted. -/
  stampInArchive : Bool := false
  apply : PatchEvents

namespace PatchState

/-- What `pbuild_fetch_and_unpack` does. -/
def fetch (sha256sum : α → Text) (downloadDir : Text) (s : PatchState α) (ev : BuildEvents α) :
    PatchState α × Bool :=
  let (sources, ok) := fetchAndUnpack sha256sum downloadDir s.sources ev.args ev.fetch
  let args : DownloadArgs := ⟨ev.args.archive downloadDir, ev.args.sha256, ev.args.url, false⟩
  if s.sources.stamp.isSome || !(download sha256sum s.sources.files args ev.fetch.net).1 then
    ({ s with sources := sources }, ok)
  else
    -- `BUILDDIR` is removed; if this fails there is no stamp, and the next build does it again
    ({ s with
        sources := sources
        history := []
        stamp := if ev.stampInArchive then some ⟨[], []⟩ else none }, ok)

/-- The two functions, the second if the first succeeds. -/
def build (shell : PatchShell) (sha256sum : α → Text) (downloadDir : Text) (s : PatchState α)
    (ev : BuildEvents α) : PatchState α :=
  match s.fetch sha256sum downloadDir ev with
  | (s, false) => s
  | (s, true) =>
    match applyPatches shell s ev.apply with
    | (s', false) => s'
    | (s', true) => { s' with log := s'.log ++ [⟨s.patches, s.stamp, s.history, s'.history⟩] }

end PatchState

/-- What happens to a port. -/
inductive PatchAction (α : Type)
  /-- A patch file is added. -/
  | add (patch : Bytes)
  | build (ev : BuildEvents α)
  /-- `BUILDDIR` is removed, as with `--clean`. -/
  | clean

namespace PatchState

/-- One action. -/
def next (shell : PatchShell) (sha256sum : α → Text) (downloadDir : Text) :
    PatchAction α → PatchState α → Option (PatchState α)
  | .add patch, s =>
    if s.patches.contains patch then none else some { s with patches := patch :: s.patches }
  | .build ev, s =>
    if ev.apply.found.Perm s.patches then some (s.build shell sha256sum downloadDir ev) else none
  | .clean, s =>
    some { s with
      sources := { s.sources with tree := none, stamp := none }
      history := []
      stamp := none }

/-- The names of patch files are simple. -/
def Simple : PatchAction α → PatchState α → Prop
  | .add patch, _ => IsPatchPath patch
  | _, _ => True

end PatchState

instance decidableSimple (a : PatchAction α) (s : PatchState α) :
    Decidable (PatchState.Simple a s) := by
  cases a <;> unfold PatchState.Simple <;> infer_instance

/-- Every patch file has been applied once, in order, to the sources as they were unpacked. -/
def PatchCall.PatchedOnce (shell : PatchShell) (e : PatchCall) : Prop :=
  e.history = (shell.sort e.patches).map .whole

/-- The call found a stamp that stands for the same patch files, left by a call that had not been
disturbed either, or no stamp and the sources as they were unpacked. -/
def PatchCall.Undisturbed (e : PatchCall) : Prop :=
  match e.stamp with
  | some stamp => stamp.patches.Perm e.patches ∧ stamp.before = []
  | none => e.before = []

instance decidablePatchedOnce (shell : PatchShell) (e : PatchCall) :
    Decidable (e.PatchedOnce shell) :=
  inferInstanceAs (Decidable (_ = _))

instance decidableUndisturbed (e : PatchCall) : Decidable e.Undisturbed := by
  unfold PatchCall.Undisturbed
  split <;> infer_instance

/-! ### Names -/

theorem IsPatchPath.echo_eq {path : Bytes} (h : IsPatchPath path) (impl : Posix.Implementation) :
    Posix.echo impl [path] = path ++ [Posix.newline] := by
  have hplain : Posix.IsPlain [path] := by
    refine ⟨List.cons_ne_nil _ _, fun heq => ?_, by simpa using h.simple.backslash_notMem⟩
    exact absurd (h.absolute.symm.trans heq) (by decide)
  rw [hplain.echo_eq, List.intercalate_singleton]

/-- **Simple names are sorted, and stay as they are.** -/
theorem loopWords_of_simple (shell : PatchShell) {found : List Bytes}
    (h : ∀ path ∈ found, IsPatchPath path) : shell.loopWords found = shell.sort found := by
  have hsimple : ∀ path ∈ found, IsSimple path := fun path hp => (h path hp).simple
  have hsorted : ∀ path ∈ shell.sort found, IsSimple path := fun path hp =>
    hsimple path ((List.mem_insertionSort _).1 hp)
  have hecho : Posix.lines (shell.echoEach found) = found ∨ found = [] := by
    rw [PatchShell.echoEach]
    split_ifs with hnil
    · exact .inr hnil
    · rw [List.flatMap_congr fun path hp => (h path hp).echo_eq shell.impl]
      exact .inl (Posix.lines_lines fun path hp => (hsimple path hp).newline_notMem)
  unfold PatchShell.loopWords
  rw [Posix.xargs_lines hsimple]
  rcases hecho with hecho | rfl
  · simp only [hecho]
    rw [Posix.fields_lines hsorted,
      List.flatMap_congr fun path hp => Posix.expandPath_of_isSimple (hsorted path hp) shell.glob]
    exact List.flatMap_singleton' _
  · rfl

/-! ### The loop -/

theorem patchLoop_eq_true {outcome : ℕ → PatchOutcome} {fs : List Bytes} {i : ℕ}
    {history history' : List PatchOp} (h : patchLoop outcome fs i history = (history', true)) :
    history' = history ++ fs.map .whole := by
  induction fs generalizing i history with
  | nil =>
    cases h
    simp
  | cons f fs ih =>
    rw [patchLoop] at h
    cases ho : outcome i with
    | applied =>
      rw [ho] at h
      rw [ih h]
      simp
    | failed changed =>
      rw [ho] at h
      cases h

theorem mem_patchLoop {outcome : ℕ → PatchOutcome} {fs : List Bytes} {i : ℕ}
    {history : List PatchOp} {op : PatchOp} (h : op ∈ (patchLoop outcome fs i history).1) :
    op ∈ history ∨ op.patch ∈ fs := by
  induction fs generalizing i history with
  | nil => exact .inl h
  | cons f fs ih =>
    rw [patchLoop] at h
    cases ho : outcome i with
    | applied =>
      rw [ho] at h
      rcases ih h with hmem | hmem
      · rcases List.mem_append.1 hmem with hmem | hmem
        · exact .inl hmem
        · rw [List.mem_singleton.1 hmem]
          exact .inr List.mem_cons_self
      · exact .inr (.tail _ hmem)
    | failed changed =>
      rw [ho] at h
      cases changed with
      | true =>
        rcases List.mem_append.1 h with hmem | hmem
        · exact .inl hmem
        · rw [List.mem_singleton.1 hmem]
          exact .inr List.mem_cons_self
      | false => exact .inl h

/-! ### Runs -/

theorem whole_injective : Function.Injective PatchOp.whole := fun _ _ h => PatchOp.whole.inj h

/-- The sources that a stamp goes with have all patches applied once just when no patch file has
been added, and nothing had been done to the sources before the call that left it: otherwise a patch
has been applied twice. -/
theorem append_sort_eq_iff {shell : PatchShell} {stamp : PatchStamp} {patches : List Bytes}
    (hnodup : patches.Nodup) (hbefore : ∀ op ∈ stamp.before, op.patch ∈ stamp.patches) :
    stamp.before ++ (shell.sort stamp.patches).map .whole = (shell.sort patches).map .whole ↔
      stamp.patches.Perm patches ∧ stamp.before = [] := by
  constructor
  · intro h
    have hempty : stamp.before = [] := List.eq_nil_iff_forall_not_mem.2 fun op hop => by
      -- the patch has been applied by the call that left the stamp as well
      have hmem : op ∈ (shell.sort patches).map PatchOp.whole := h ▸ List.mem_append_left _ hop
      obtain ⟨patch, -, rfl⟩ := List.mem_map.1 hmem
      have hagain : PatchOp.whole patch ∈ (shell.sort stamp.patches).map PatchOp.whole :=
        List.mem_map_of_mem ((List.mem_insertionSort _).2 (hbefore _ hop))
      have hsorted : ((shell.sort patches).map PatchOp.whole).Nodup :=
        ((List.perm_insertionSort _ _).nodup_iff.2 hnodup).map whole_injective
      rw [← h, List.nodup_append] at hsorted
      exact hsorted.2.2 _ hop _ hagain rfl
    rw [hempty, List.nil_append] at h
    exact ⟨Canonical.insertionSort_eq_iff_perm.1 (whole_injective.list_map h), hempty⟩
  · rintro ⟨hperm, hempty⟩
    rw [hempty, List.nil_append, PatchShell.sort, PatchShell.sort,
      Canonical.insertionSort_eq_iff_perm.2 hperm]

namespace PatchState

variable {shell : PatchShell} {sha256sum : α → Text} {downloadDir : Text} {s s' : PatchState α}

/-- What holds of the patch files, the sources and the stamp. -/
structure Tracked (shell : PatchShell) (s : PatchState α) : Prop where
  nodup : s.patches.Nodup
  simple : ∀ patch ∈ s.patches, IsPatchPath patch
  /-- Nothing but patches has been applied. -/
  applied : ∀ op ∈ s.history, op.patch ∈ s.patches
  /-- The call that left the stamp has applied the patches that there were. -/
  stamp_eq : ∀ stamp ∈ s.stamp, s.history = stamp.before ++ (shell.sort stamp.patches).map .whole
  stamp_before : ∀ stamp ∈ s.stamp, ∀ op ∈ stamp.before, op.patch ∈ stamp.patches
  calls : ∀ e ∈ s.log, e.PatchedOnce shell ↔ e.Undisturbed

theorem Tracked.fresh (h : s.Tracked shell) (sources : Sources α) (stampInArchive : Bool) :
    Tracked shell { s with
      sources := sources
      history := []
      stamp := if stampInArchive then some ⟨[], []⟩ else none } := by
  refine ⟨h.nodup, h.simple, by simp, fun stamp hstamp => ?_, fun stamp hstamp => ?_, h.calls⟩
  all_goals
    cases stampInArchive <;> cases hstamp
  · rfl
  · simp

theorem Tracked.fetch (h : s.Tracked shell) (ev : BuildEvents α) {ok : Bool}
    (hfetch : s.fetch sha256sum downloadDir ev = (s', ok)) : s'.Tracked shell := by
  rw [PatchState.fetch] at hfetch
  dsimp only at hfetch
  split at hfetch
  · cases hfetch
    exact ⟨h.nodup, h.simple, h.applied, h.stamp_eq, h.stamp_before, h.calls⟩
  · cases hfetch
    exact h.fresh _ _

theorem applyPatches_cases (shell : PatchShell) (s : PatchState α) (ev : PatchEvents) :
    (s.stamp.isSome = true ∧ applyPatches shell s ev = (s, true)) ∨
    (s.stamp = none ∧ ∃ history,
      (∀ op ∈ history, op ∈ s.history ∨ op.patch ∈ shell.loopWords ev.found) ∧
        applyPatches shell s ev = ({ s with history := history }, false)) ∨
    (s.stamp = none ∧ applyPatches shell s ev =
      ({ s with
          history := s.history ++ (shell.loopWords ev.found).map .whole
          stamp := some ⟨s.patches, s.history⟩ }, true)) := by
  rw [applyPatches]
  cases hstamp : s.stamp with
  | some stamp => exact .inl ⟨rfl, rfl⟩
  | none =>
    simp only [Option.isSome_none, Bool.false_eq_true, if_false, true_and]
    have hmem : ∀ op ∈ (patchLoop ev.outcome (shell.loopWords ev.found) 0 s.history).1,
        op ∈ s.history ∨ op.patch ∈ shell.loopWords ev.found := fun _ => mem_patchLoop
    rcases hloop : patchLoop ev.outcome (shell.loopWords ev.found) 0 s.history with ⟨history, ok⟩
    rw [hloop] at hmem
    cases ok with
    | false => exact .inr (.inl ⟨history, hmem, rfl⟩)
    | true =>
      cases ev.stamped with
      | true => exact .inr (.inr (by rw [patchLoop_eq_true hloop]; rfl))
      | false => exact .inr (.inl ⟨history, hmem, rfl⟩)

theorem patches_fetch (sha256sum : α → Text) (downloadDir : Text) (s : PatchState α)
    (ev : BuildEvents α) :
    (s.fetch sha256sum downloadDir ev).1.patches = s.patches := by
  rw [PatchState.fetch]
  dsimp only
  split <;> rfl

theorem Tracked.log (h : s.Tracked shell) {e : PatchCall}
    (he : e.PatchedOnce shell ↔ e.Undisturbed) : Tracked shell { s with log := s.log ++ [e] } := by
  refine ⟨h.nodup, h.simple, h.applied, h.stamp_eq, h.stamp_before, fun e' he' => ?_⟩
  rcases List.mem_append.1 he' with he' | he'
  · exact h.calls e' he'
  · rwa [List.mem_singleton.1 he']

theorem Tracked.call_of_stamp (h : s.Tracked shell) {stamp : PatchStamp}
    (hstamp : s.stamp = some stamp) :
    PatchCall.PatchedOnce shell ⟨s.patches, s.stamp, s.history, s.history⟩ ↔
      PatchCall.Undisturbed ⟨s.patches, s.stamp, s.history, s.history⟩ := by
  rw [PatchCall.PatchedOnce, PatchCall.Undisturbed, hstamp, h.stamp_eq stamp hstamp]
  exact append_sort_eq_iff h.nodup (h.stamp_before stamp hstamp)

theorem Tracked.build (h : s.Tracked shell) {ev : BuildEvents α}
    (hfound : ev.apply.found.Perm s.patches) :
    (s.build shell sha256sum downloadDir ev).Tracked shell := by
  rw [PatchState.build]
  have hpatches := patches_fetch sha256sum downloadDir s ev
  rcases hfetch : s.fetch sha256sum downloadDir ev with ⟨s₁, ok⟩
  have h₁ := h.fetch ev hfetch
  rw [hfetch] at hpatches
  cases ok with
  | false => exact h₁
  | true =>
    dsimp only at hpatches ⊢
    rw [← hpatches] at hfound
    have hwords : shell.loopWords ev.apply.found = shell.sort s₁.patches := by
      rw [loopWords_of_simple shell fun path hp => h₁.simple path (hfound.mem_iff.1 hp)]
      exact Canonical.insertionSort_eq_iff_perm.2 hfound
    rcases applyPatches_cases shell s₁ ev.apply with
      ⟨hstamp, hcall⟩ | ⟨hstamp, history, hmem, hcall⟩ | ⟨hstamp, hcall⟩
    · -- there is a stamp, and nothing is done
      obtain ⟨stamp, hstamp⟩ := Option.isSome_iff_exists.1 hstamp
      rw [hcall]
      exact h₁.log (h₁.call_of_stamp hstamp)
    · -- a patch has failed
      rw [hcall]
      refine ⟨h₁.nodup, h₁.simple, fun op hop => ?_, by simp [hstamp], by simp [hstamp], h₁.calls⟩
      rcases hmem op hop with hop | hop
      · exact h₁.applied op hop
      · rw [hwords] at hop
        exact (List.mem_insertionSort _).1 hop
    · -- all patches have been applied, after what had been done before
      have h₂ : Tracked shell { s₁ with
          history := s₁.history ++ (shell.sort s₁.patches).map .whole
          stamp := some ⟨s₁.patches, s₁.history⟩ } := by
        refine ⟨h₁.nodup, h₁.simple, fun op hop => ?_, ?_, ?_, h₁.calls⟩
        · rcases List.mem_append.1 hop with hop | hop
          · exact h₁.applied op hop
          · obtain ⟨patch, hpatch, rfl⟩ := List.mem_map.1 hop
            exact (List.mem_insertionSort _).1 hpatch
        · rintro _ ⟨⟩
          rfl
        · rintro _ ⟨⟩
          exact h₁.applied
      rw [hcall, hwords]
      refine h₂.log ?_
      rw [PatchCall.PatchedOnce, PatchCall.Undisturbed, hstamp]
      simp

theorem Tracked.next (h : s.Tracked shell) {a : PatchAction α} (hsimple : Simple a s)
    (hnext : next shell sha256sum downloadDir a s = some s') : s'.Tracked shell := by
  cases a with
  | add patch =>
    rw [PatchState.next] at hnext
    split_ifs at hnext with hmem
    cases hnext
    exact
      { nodup := List.nodup_cons.2 ⟨fun hin => hmem (List.contains_iff_mem.2 hin), h.nodup⟩
        simple := List.forall_mem_cons.2 ⟨hsimple, h.simple⟩
        applied := fun op hop => .tail _ (h.applied op hop)
        stamp_eq := h.stamp_eq
        stamp_before := h.stamp_before
        calls := h.calls }
  | build ev =>
    rw [PatchState.next] at hnext
    split_ifs at hnext with hfound
    cases hnext
    exact h.build hfound
  | clean =>
    cases hnext
    exact h.fresh _ false

/-- **A call that succeeds has applied the patches once** iff it is not disturbed by a patch file
that is new or by an attempt that failed: over any number of builds, with patch files that are added
and patches that fail. -/
theorem patchedOnce_iff_undisturbed {as : List (PatchAction α)} (files : Text → Option α)
    (h : Machine.Along (next shell sha256sum downloadDir) Simple { sources := { files := files } }
      as s) : ∀ e ∈ s.log, e.PatchedOnce shell ↔ e.Undisturbed := by
  have h₀ : Tracked shell ({ sources := { files := files } } : PatchState α) :=
    ⟨List.nodup_nil, by simp, by simp, by simp, by simp, by simp⟩
  exact (h.invariant h₀ fun _ _ _ hs hc => hs.next hc).calls

end PatchState

/-! ### Patches that are missed, and patches that are repeated -/

/-- A shell for runs, in a locale that compares bytes. -/
def samplePatchShell : PatchShell where
  impl :=
    { convert := fun _ arg => arg
      convert_s := fun _ => rfl
      otherPrintf := fun _ => []
      otherEcho := fun _ => [] }
  le a b := a.map UInt8.toNat ≤ b.map UInt8.toNat
  total a b := by simpa using le_total (a.map UInt8.toNat) (b.map UInt8.toNat)
  antisymm a b hab hba := by
    have hinj : Function.Injective UInt8.toNat := fun _ _ => UInt8.toNat_inj.1
    exact hinj.list_map (le_antisymm (of_decide_eq_true hab) (of_decide_eq_true hba))
  trans a b c hab hbc :=
    decide_eq_true ((of_decide_eq_true hab).trans (of_decide_eq_true hbc))
  glob w := [w]

/-- A build for which the archive can be downloaded and unpacked. -/
def buildWith (found : List Bytes) (outcome : ℕ → PatchOutcome := fun _ => .applied) :
    PatchAction Text :=
  .build
    { args := { url := "http://x/a.tar.gz".toList, sha256 := "a".toList }
      fetch := { net := { body := some "a".toList } }
      apply := { found := found, outcome := outcome } }

/-- The steps of the sample. -/
abbrev sampleNext : PatchAction Text → PatchState Text → Option (PatchState Text) :=
  PatchState.next samplePatchShell sampleSum "/d".toList

/-- A port before its first build. -/
abbrev newPort : PatchState Text := { sources := { files := fun _ => none } }

abbrev patchA : Bytes := ascii "/p/a.patch"

abbrev patchB : Bytes := ascii "/p/b.patch"

/-- Two patch files, and two builds. -/
theorem patches_applied_once : ∃ s, Machine.Along sampleNext PatchState.Simple newPort
    [.add patchB, .add patchA, buildWith [patchB, patchA], buildWith [patchA, patchB]] s ∧
    s.log.length = 2 ∧ ∀ e ∈ s.log, e.PatchedOnce samplePatchShell := by
  have hrun : ∃ s, Machine.runChecked sampleNext PatchState.Simple
      [.add patchB, .add patchA, buildWith [patchB, patchA], buildWith [patchA, patchB]]
      newPort = some s ∧ s.log.length = 2 ∧ ∀ e ∈ s.log, e.Undisturbed := ⟨_, rfl, rfl, by decide⟩
  obtain ⟨s, hs, hlog, hun⟩ := hrun
  have h := Machine.along_of_runChecked hs
  exact ⟨s, h, hlog, fun e he =>
    (PatchState.patchedOnce_iff_undisturbed _ h e he).2 (hun e he)⟩

/-- A patch file that is added after a build is not applied by the next one, which succeeds; and
when the second of two patches fails, the build after that applies the first of them again. -/
theorem patches_missed_and_repeated :
    (∃ s, Machine.Along sampleNext PatchState.Simple newPort
      [.add patchA, buildWith [patchA], .add patchB, buildWith [patchB, patchA]] s ∧
      ∃ e ∈ s.log, e.patches = [patchB, patchA] ∧ e.history = [.whole patchA] ∧
        ¬ e.PatchedOnce samplePatchShell) ∧
    (∃ s, Machine.Along sampleNext PatchState.Simple newPort
      [.add patchB, .add patchA,
        buildWith [patchB, patchA] (fun i => if i = 1 then .failed false else .applied),
        buildWith [patchB, patchA]] s ∧
      ∃ e ∈ s.log, e.history = [.whole patchA, .whole patchA, .whole patchB] ∧
        ¬ e.PatchedOnce samplePatchShell) := by
  refine ⟨⟨_, Machine.along_of_runChecked rfl, _, .tail _ List.mem_cons_self, rfl, rfl, ?_⟩,
    ⟨_, Machine.along_of_runChecked rfl, _, List.mem_cons_self, rfl, ?_⟩⟩
  · decide
  · decide

/-- A quote in the name of a patch file ends `xargs`: the build succeeds without any patches. -/
theorem quoted_name_ends_loop : ∃ s, Machine.Along sampleNext (fun _ _ => True) newPort
    [.add patchA, .add (ascii "/p/don't.patch"), buildWith [ascii "/p/don't.patch", patchA]] s ∧
    ∃ e ∈ s.log, e.Undisturbed ∧ e.history = [] :=
  ⟨_, Machine.along_of_runChecked rfl, _, List.mem_cons_self, by decide, rfl⟩

end Port
