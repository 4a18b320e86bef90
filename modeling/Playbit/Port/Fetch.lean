import Playbit.Machine.Run
import Playbit.Python.Path

/-!
# Fetching the sources of a port

The build script of a port calls `pbuild_fetch_and_unpack` with the URL and the checksum of an
archive, which is downloaded, verified and unpacked into `BUILDDIR`.  A stamp in `BUILDDIR` says
that this has been done.  `BUILDDIR` is kept from one build to the next, and the stamp does not
say for which archive it was left, so that a later call for another archive finds the sources of
the old one.

Calls for the same archive leave the sources they were asked for (`asked_of_sameArchive`), over any
number of builds.  `versionBump_keeps_sources` is a call for another archive.
-/

namespace Port

open Python (Text nameParts)

variable {α : Type}

/-! ### Downloads -/

/-- Options of `download`. -/
structure DownloadArgs where
  /-- `-o` -/
  outfile : Text
  /-- `--sha256` -/
  sha256 : Text
  url : Text
  force : Bool := false

/-- What `download` meets. -/
structure Network (α : Type) where
  /-- There is a `curl`. -/
  curl : Bool := true
  /-- What is downloaded, unless `curl` or the handling of its output fails. -/
  body : Option α

/-- The URL, which comes last among the arguments, is taken for a request for help. -/
def isHelp (url : Text) : Bool := decide (url ∈ ["-h".toList, "--help".toList])

/-- `download` with `--sha256`: the exit status, and the files it leaves. -/
def download (sha256sum : α → Text) (files : Text → Option α) (args : DownloadArgs)
    (net : Network α) : Bool × (Text → Option α) :=
  if args.sha256 = [] then (false, files)
  else if isHelp args.url then (true, files)
  else if args.url = [] ∨ ['-'] <+: args.url then (false, files)
  else if !net.curl then (false, files)
  else if !args.force && ((files args.outfile).map sha256sum == some args.sha256) then (true, files)
  else
    match net.body with
    | none => (false, files)
    | some file =>
      if sha256sum file = args.sha256 then (true, Function.update files args.outfile (some file))
      else (false, files)

/-- A successful download leaves a file with the checksum. -/
theorem sha256sum_of_download {sha256sum : α → Text} {files files' : Text → Option α}
    {args : DownloadArgs} {net : Network α} (hurl : isHelp args.url = false)
    (h : download sha256sum files args net = (true, files')) :
    (files' args.outfile).map sha256sum = some args.sha256 := by
  unfold download at h
  rw [hurl] at h
  simp only [Bool.false_eq_true, ↓reduceIte] at h
  by_cases hfail : args.sha256 = [] ∨ (args.url = [] ∨ ['-'] <+: args.url) ∨ net.curl = false
  · rcases hfail with hfail | hfail | hfail
    · rw [if_pos hfail] at h
      cases h
    · rw [if_pos hfail, ite_self] at h
      cases h
    · simp [hfail] at h
  · rw [not_or, not_or, Bool.not_eq_false] at hfail
    rw [if_neg hfail.1, if_neg hfail.2.1, if_neg (by simp [hfail.2.2])] at h
    split_ifs at h with hfound
    · cases h
      rw [Bool.and_eq_true, beq_iff_eq] at hfound
      exact hfound.2
    · cases hbody : net.body with
      | none => rw [hbody] at h; cases h
      | some file =>
        rw [hbody] at h
        dsimp only at h
        split_ifs at h with hsum
        · cases h
          rw [Function.update_self, Option.map_some, hsum]
        · cases h

/-! ### Unpacking -/

/-- What `pbuild_fetch_and_unpack` is called with. -/
structure FetchArgs where
  url : Text
  sha256 : Text
  /-- The third argument, or empty. -/
  archivefile : Text := []

/-- `basename` -/
def basename (path : Text) : Text :=
  match (nameParts path).getLast? with
  | some name => name
  | none => if path = [] then [] else ['/']

/-- `ARCHIVE`, where `DOWNLOAD` is the directory for downloads. -/
def FetchArgs.archive (args : FetchArgs) (downloadDir : Text) : Text :=
  if args.archivefile = [] then downloadDir ++ '/' :: basename args.url
  else if '/' ∈ args.archivefile then args.archivefile
  else downloadDir ++ '/' :: args.archivefile

/-- The formats that `pbuild_unpack` knows by the name of the archive. -/
def isSupported (archive : Text) : Bool :=
  archive.tails.any (".tar".toList.isPrefixOf ·) || ".zip".toList.isSuffixOf archive

/-- What happens outside of the script during a call. -/
structure FetchEvents (α : Type) where
  net : Network α
  /-- `rm -rf "$BUILDDIR"` succeeds. -/
  removed : Bool := true
  /-- The archive is extracted to the end. -/
  extracted : Bool := true
  /-- The archive has a file with the name of the stamp, and it was extracted. -/
  stampExtracted : Bool := false

/-- The files of a port that are kept between builds. -/
structure Sources (α : Type) where
  /-- The downloaded archives. -/
  files : Text → Option α
  /-- The archive that the sources in `BUILDDIR` were unpacked from, when they are complete. -/
  tree : Option α := none
  /-- The stamp, with the checksum that was asked for by the call that left it. -/
  stamp : Option Text := none
  /-- The calls that returned successfully: the checksum, and the archive in `BUILDDIR`. -/
  log : List (Text × Option α) := []

/-- `rm -rf "$BUILDDIR"`, `pbuild_unpack`, and the stamp. -/
def unpack (s : Sources α) (archive sha256 : Text) (ev : FetchEvents α) : Sources α × Bool :=
  -- whatever fails, the old sources are gone
  let s := { s with tree := none }
  if !ev.removed || !isSupported archive then (s, false)
  else
    match s.files archive with
    | none => (s, false)
    | some file =>
      if ev.extracted then ({ s with tree := some file, stamp := some sha256 }, true)
      else if ev.stampExtracted then ({ s with stamp := some sha256 }, false)
      else (s, false)

/-- `pbuild_fetch_and_unpack`: what it leaves, and whether it succeeds. -/
def fetchAndUnpack (sha256sum : α → Text) (downloadDir : Text) (s : Sources α) (args : FetchArgs)
    (ev : FetchEvents α) : Sources α × Bool :=
  let archive := args.archive downloadDir
  if s.stamp.isSome then (s, true)
  else
    match download sha256sum s.files ⟨archive, args.sha256, args.url, false⟩ ev.net with
    | (true, files) => unpack { s with files := files } archive args.sha256 ev
    | (false, files) => ({ s with files := files }, false)

/-- What happens to the sources of a port. -/
inductive FetchAction (α : Type)
  /-- A call of `pbuild_fetch_and_unpack`. -/
  | fetch (args : FetchArgs) (ev : FetchEvents α)
  /-- `BUILDDIR` is removed, as with `--clean`. -/
  | clean
  /-- The downloaded archives are changed. -/
  | change (files : Text → Option α)

namespace Sources

/-- One action. -/
def next (sha256sum : α → Text) (downloadDir : Text) : FetchAction α → Sources α →
    Option (Sources α)
  | .fetch args ev, s =>
    let (s', ok) := fetchAndUnpack sha256sum downloadDir s args ev
    some (if ok then { s' with log := s'.log ++ [(args.sha256, s'.tree)] } else s')
  | .clean, s => some { s with tree := none, stamp := none }
  | .change files, s => some { s with files := files }

/-- The stamp that a call finds was left by a call for the same archive, the URL is not taken for
a request for help, and an extraction that fails does not leave a stamp. -/
def SameArchive : FetchAction α → Sources α → Prop
  | .fetch args ev, s => (∀ x ∈ s.stamp, x = args.sha256) ∧ isHelp args.url = false ∧
    (ev.extracted = false → ev.stampExtracted = false)
  | _, _ => True

instance decidableSameArchive (a : FetchAction α) (s : Sources α) :
    Decidable (SameArchive a s) := by
  cases a <;> unfold SameArchive <;> infer_instance

/-- Every successful call left the sources it was asked for. -/
def Asked (sha256sum : α → Text) (s : Sources α) : Prop :=
  ∀ e ∈ s.log, e.2.map sha256sum = some e.1

/-- The stamp goes with the sources. -/
structure Stamped (sha256sum : α → Text) (s : Sources α) : Prop where
  stamp : ∀ x ∈ s.stamp, s.tree.map sha256sum = some x
  asked : s.Asked sha256sum

variable {sha256sum : α → Text} {downloadDir : Text} {s s' : Sources α}

theorem Stamped.unpack {archive sha256 : Text} {ev : FetchEvents α} {ok : Bool}
    (hasked : s.Asked sha256sum) (hstamp : s.stamp = none)
    (hfile : (s.files archive).map sha256sum = some sha256)
    (hext : ev.extracted = false → ev.stampExtracted = false)
    (h : Port.unpack s archive sha256 ev = (s', ok)) :
    s'.Stamped sha256sum ∧ (ok = true → s'.tree.map sha256sum = some sha256) := by
  obtain ⟨file, hf, hsum⟩ := Option.map_eq_some_iff.1 hfile
  have hempty : Stamped sha256sum { s with tree := none } := ⟨by simp [hstamp], hasked⟩
  unfold Port.unpack at h
  dsimp only at h
  rw [hf] at h
  by_cases hfail : (!ev.removed || !isSupported archive) = true
  · rw [if_pos hfail] at h
    cases h
    exact ⟨hempty, by simp⟩
  · rw [if_neg hfail] at h
    dsimp only at h
    cases hex : ev.extracted with
    | true =>
      rw [hex] at h
      cases h
      refine ⟨⟨fun x hx => ?_, hasked⟩, fun _ => congrArg some hsum⟩
      cases hx
      exact congrArg some hsum
    | false =>
      rw [hex, hext hex] at h
      cases h
      exact ⟨hempty, by simp⟩

theorem Stamped.fetchAndUnpack {args : FetchArgs} {ev : FetchEvents α} {ok : Bool}
    (hs : s.Stamped sha256sum) (hc : SameArchive (.fetch args ev) s)
    (h : fetchAndUnpack sha256sum downloadDir s args ev = (s', ok)) :
    s'.Stamped sha256sum ∧ (ok = true → s'.tree.map sha256sum = some args.sha256) := by
  obtain ⟨hstamp, hurl, hext⟩ := hc
  unfold Port.fetchAndUnpack at h
  cases hst : s.stamp with
  | some x =>
    rw [hst] at h
    cases h
    exact ⟨hs, fun _ => hstamp x hst ▸ hs.stamp x hst⟩
  | none =>
    rw [hst] at h
    simp only [Option.isSome_none, Bool.false_eq_true, ↓reduceIte] at h
    split at h
    case h_1 files hdl =>
      have hasked : Asked sha256sum { s with files := files, stamp := none } := hs.asked
      exact Stamped.unpack hasked rfl (sha256sum_of_download hurl hdl) hext h
    case h_2 files hdl =>
      cases h
      exact ⟨⟨by simp, hs.asked⟩, by simp⟩

theorem Stamped.next {a : FetchAction α} (hs : s.Stamped sha256sum) (hc : SameArchive a s)
    (h : next sha256sum downloadDir a s = some s') : s'.Stamped sha256sum := by
  cases a with
  | fetch args ev =>
    cases hf : Port.fetchAndUnpack sha256sum downloadDir s args ev with
    | mk s₁ ok =>
      obtain ⟨hs₁, hok⟩ := hs.fetchAndUnpack hc hf
      rw [Sources.next, hf] at h
      cases ok with
      | false =>
        cases h
        exact hs₁
      | true =>
        cases h
        refine ⟨hs₁.stamp, fun e he => ?_⟩
        rcases List.mem_append.1 he with he | he
        · exact hs₁.asked e he
        · rw [List.mem_singleton.1 he]
          exact hok rfl
  | clean =>
    cases h
    exact ⟨by simp, hs.asked⟩
  | change files =>
    cases h
    exact ⟨hs.stamp, hs.asked⟩

/-- **Calls for the same archive leave the sources they were asked for**, over any number of
builds. -/
theorem asked_of_sameArchive {as : List (FetchAction α)} (files : Text → Option α)
    (h : Machine.Along (next sha256sum downloadDir) SameArchive { files := files } as s') :
    s'.Asked sha256sum := by
  have h₀ : Stamped sha256sum { files := files } := ⟨by simp, by simp [Asked]⟩
  exact (h.invariant h₀ fun _ _ _ hs hc => hs.next hc).asked

end Sources

/-! ### A version bump -/

/-- Archives are taken for their own checksums. -/
def sampleSum (file : Text) : Text := file

/-- A call for the archive with the checksum `sha256`, which is downloaded and unpacked. -/
def fetchVersion (sha256 : Text) : FetchAction Text :=
  .fetch { url := "http://x/".toList ++ sha256 ++ ".tar.gz".toList, sha256 := sha256 }
    { net := { body := some sha256 } }

/-- Calls for one archive, and for another after `--clean`. -/
theorem asked_after_clean : ∃ s, Machine.Along (Sources.next sampleSum "/d".toList)
    Sources.SameArchive { files := fun _ => none }
    [fetchVersion "a".toList, fetchVersion "a".toList, .clean, fetchVersion "b".toList] s ∧
    s.Asked sampleSum ∧ s.log.length = 3 := by
  have hrun : ∃ s, Machine.runChecked (Sources.next sampleSum "/d".toList) Sources.SameArchive
      [fetchVersion "a".toList, fetchVersion "a".toList, .clean, fetchVersion "b".toList]
      { files := fun _ => none } = some s ∧ s.log.length = 3 := ⟨_, rfl, rfl⟩
  obtain ⟨s, hs, hlog⟩ := hrun
  have h := Machine.along_of_runChecked hs
  exact ⟨s, h, Sources.asked_of_sameArchive _ h, hlog⟩

/-- A call for a new version returns with the sources of the old one. -/
theorem versionBump_keeps_sources : ∃ s, Machine.Along (Sources.next sampleSum "/d".toList)
    (fun _ _ => True) { files := fun _ => none }
    [fetchVersion "a".toList, fetchVersion "b".toList] s ∧
    s.log = [("a".toList, some "a".toList), ("b".toList, some "a".toList)] ∧
    ¬ s.Asked sampleSum := by
  refine ⟨_, Machine.along_of_runChecked rfl, rfl, fun h => ?_⟩
  have := h ("b".toList, some "a".toList) (.tail _ List.mem_cons_self)
  exact absurd this (by decide)

end Port
