import Mathlib.Data.Char
import Mathlib.Data.List.Lex
import Mathlib.Data.List.Sort
import Playbit.Build.NeedsBuild
import Playbit.Machine.ListLemmas

/-!
# Build stamps

A build leaves a text file behind, its *stamp*: a line with the checksum of its output, then a
line for every direct dependency with the checksum that one had.  The time of the file is the
time of the build.  `read_build_stamp` reads the file with whatever it finds there.

The names in a stamp tell the builds apart (`buildName_injective`), and what `write_build_stamp`
writes is read back (`checksum_stampText`, `depChecksums_stampText`).
-/

namespace Pbuild

open Python

/-- A time of the clock after the epoch.  A `build_mtime` of 0 says that there is no stamp, and
`check_dep_changed` takes a time that is not positive for it. -/
abbrev Time := {t : ℤ // 0 < t}

instance (n : ℕ) : OfNat Time (n + 1) := ⟨⟨n + 1, by omega⟩⟩

/-- A build stamp on disk.  Stamps with times at or before the epoch are left out. -/
structure Stamp where
  text : Text
  mtime : Time

/-- `PkgBuild.sorted_deps`. -/
def BuildDeps.sortedDeps (d : BuildDeps) : List BuildKey :=
  d.orderedDeps.insertionSort fun a b => buildName a ≤ buildName b

/-- The line of a dependency. -/
def stampLine (e : Text × Text) : Text := e.1 ++ ' ' :: (e.2 ++ ['\n'])

/-- The text of a stamp: the checksum and the lines of the dependencies. -/
def stampText (checksum : Text) (deps : List (Text × Text)) : Text :=
  checksum ++ '\n' :: deps.flatMap stampLine

/-- The checksum that is written for a dependency: a missing one is written as `0`. -/
def BuildState.checksumOrZero (s : BuildState) : Text :=
  if s.checksum = [] then "0".toList else s.checksum

theorem checksumOrZero_of_ne_nil {s : BuildState} (h : s.checksum ≠ []) :
    s.checksumOrZero = s.checksum := if_neg h

/-- What `write_build_stamp` writes. -/
def writtenText (bs : Builds) (mem : BuildStates) (b : BuildKey) : Text :=
  stampText (mem b).checksum
    ((bs.build b).sortedDeps.map fun d => (buildName d, (mem d).checksumOrZero))

/-- A line after the first in `read_build_stamp`; lines that are not a name and a checksum are
ignored. -/
def readDepLine (depChecksums : Dict Text Text) (line : Text) : Dict Text Text :=
  match splitOnce (rstrip line) with
  | [depName, depChecksum] => depChecksums.set depName depChecksum
  | _ => depChecksums

/-- The checksum in the first line of a stamp. -/
def Stamp.checksum (f : Stamp) : Text := rstrip ((lines f.text).headD [])

/-- The checksums of the dependencies in the other lines. -/
def Stamp.depChecksums (f : Stamp) : Dict Text Text := (lines f.text).tail.foldl readDepLine []

/-- `PkgBuild.read_build_stamp`, where `none` is a missing file. -/
def readBuildStamp (s : BuildState) : Option Stamp → BuildState
  | none => { s with depChecksums := [], mustBuild := true }
  | some f =>
    { s with buildMtime := f.mtime, checksum := f.checksum, depChecksums := f.depChecksums }

/-! ### Names -/

theorem append_dot_injective {t u x y : Text} (hx : '.' ∉ x) (hy : '.' ∉ y)
    (h : t ++ '.' :: x = u ++ '.' :: y) : t = u ∧ x = y := by
  rcases List.append_eq_append_iff.1 h with ⟨v, rfl, hv⟩ | ⟨v, rfl, hv⟩
  · cases v with
    | nil => simpa using hv
    | cons c v =>
      rw [List.cons_append, List.cons.injEq] at hv
      exact absurd (by simp [hv.2]) hx
  · cases v with
    | nil => simpa [eq_comm] using hv
    | cons c v =>
      rw [List.cons_append, List.cons.injEq] at hv
      exact absurd (by simp [hv.2]) hy

/-- Architectures have no dot in them, so the last dot of a name is the one before it. -/
theorem buildName_injective : Function.Injective buildName := by
  rintro ⟨p, a⟩ ⟨q, c⟩ h
  obtain ⟨rfl, hac⟩ := append_dot_injective a.noDot c.noDot h
  obtain ⟨_, _, _⟩ := a
  obtain ⟨_, _, _⟩ := c
  cases hac
  rfl

theorem isWord_buildName {k : BuildKey} (h : Unspaced k.1) : IsWord (buildName k) := by
  refine ⟨by simp [buildName], h.append fun c hc => ?_⟩
  rcases List.mem_cons.1 hc with rfl | hc
  · rfl
  · exact k.2.unspaced c hc

/-! ### The dependencies of a stamp -/

theorem mem_sortedDeps {d : BuildDeps} {k : BuildKey} : k ∈ d.sortedDeps ↔ k ∈ d.keys :=
  (List.perm_insertionSort _ _).mem_iff.trans mem_orderedDeps

theorem nodup_sortedDeps (d : BuildDeps) : d.sortedDeps.Nodup :=
  (List.perm_insertionSort _ _).nodup_iff.2 (Machine.nodup_eraseDups _)

theorem nodup_sortedDeps_names (d : BuildDeps) (c : BuildKey → Text) :
    ((d.sortedDeps.map fun k => (buildName k, c k)).map Prod.fst).Nodup := by
  rw [List.map_map]
  exact (nodup_sortedDeps d).map buildName_injective

theorem get?_sortedDeps {d : BuildDeps} {k : BuildKey} (hk : k ∈ d.sortedDeps)
    (c : BuildKey → Text) :
    Dict.get? (d.sortedDeps.map fun k => (buildName k, c k)) (buildName k) = some (c k) :=
  Dict.get?_of_mem (nodup_sortedDeps_names d c) (List.mem_map.2 ⟨k, hk, rfl⟩)

theorem writtenText_congr {bs : Builds} {mem mem' : BuildStates} {b : BuildKey}
    (h : ∀ k, (mem k).checksum = (mem' k).checksum) :
    writtenText bs mem b = writtenText bs mem' b := by
  simp only [writtenText, BuildState.checksumOrZero, h]

/-! ### Reading back -/

/-- The checksum of a stamp, whatever is in it, is a field unless it starts with white space. -/
theorem Stamp.isField_checksum {f : Stamp} (hne : f.checksum ≠ [])
    (hstrip : lstrip f.checksum = f.checksum) : IsField f.checksum := by
  refine ⟨hne, hstrip, List.rdropWhile_idempotent _ _, ?_⟩
  cases h : lines f.text with
  | nil => exact absurd (by rw [Stamp.checksum, h]; rfl) hne
  | cons l ls =>
    have hl : l ∈ lines f.text := h ▸ .head _
    rw [Stamp.checksum, h]
    exact no_newline_rstrip hl

/-- The first line of a stamp that was written is the checksum. -/
theorem checksum_stampText {c : Text} (hc : IsWord c) (deps : List (Text × Text)) (t : Time) :
    Stamp.checksum ⟨stampText c deps, t⟩ = c := by
  obtain ⟨hn, hr⟩ := hc.2.no_newline
  rw [Stamp.checksum, stampText, lines_cons hn hr, List.headD_cons, rstrip_newline, hc.rstrip_eq]

theorem readDepLine_stampLine {e : Text × Text} (hname : IsWord e.1) (hsum : IsField e.2)
    (d : Dict Text Text) : readDepLine d (stampLine e) = d.set e.1 e.2 := by
  have hstrip : rstrip (stampLine e) = e.1 ++ ' ' :: e.2 := by
    have h : stampLine e = (e.1 ++ ' ' :: e.2) ++ ['\n'] := by simp [stampLine]
    rw [h, rstrip_newline]
    simpa using rstrip_append_field (t := e.1 ++ [' ']) hsum
  simp only [readDepLine, hstrip, splitOnce_field hname hsum]

theorem stampLine_eq : stampLine = fun e => (e.1 ++ ' ' :: e.2) ++ ['\n'] := by
  funext e
  simp [stampLine]

theorem no_newline_entry {t u : Text} (ht : IsWord t) (hu : IsField u) :
    '\n' ∉ t ++ ' ' :: u ∧ '\r' ∉ t ++ ' ' :: u := by
  obtain ⟨ht₁, ht₂⟩ := ht.2.no_newline
  obtain ⟨hu₁, hu₂⟩ := hu.no_newline
  simp [ht₁, ht₂, hu₁, hu₂]

/-- The lines of a stamp after the first, where what is behind the complete ones is `u`. -/
theorem lines_flatMap_stampLine {deps : List (Text × Text)}
    (h : ∀ e ∈ deps, IsWord e.1 ∧ IsField e.2) (u : Text) :
    lines (deps.flatMap stampLine ++ u) = deps.map stampLine ++ lines u := by
  rw [stampLine_eq]
  exact lines_flatMap (fun e he => no_newline_entry (h e he).1 (h e he).2) u

theorem foldl_readDepLine {deps : List (Text × Text)} (h : ∀ e ∈ deps, IsWord e.1 ∧ IsField e.2)
    {d : Dict Text Text} (hd : (d.map Prod.fst ++ deps.map Prod.fst).Nodup) :
    (deps.map stampLine).foldl readDepLine d = d ++ deps := by
  induction deps generalizing d with
  | nil => simp
  | cons e deps ih =>
    obtain ⟨hname, hsum⟩ := h e List.mem_cons_self
    have hnot : e.1 ∉ d.map Prod.fst := by
      intro hmem
      exact (List.nodup_append.1 hd).2.2 _ hmem _ List.mem_cons_self rfl
    rw [List.map_cons, List.foldl_cons, readDepLine_stampLine hname hsum,
      Dict.set_of_notMem hnot, ih (fun e he => h e (.tail _ he))]
    · simp
    · simpa using hd

/-- **What is written is read back**, when names are words and checksums have no white space at
their ends. -/
theorem depChecksums_stampText {c : Text} (hc : IsWord c) {deps : List (Text × Text)}
    (h : ∀ e ∈ deps, IsWord e.1 ∧ IsField e.2) (hd : (deps.map Prod.fst).Nodup) (t : Time) :
    Stamp.depChecksums ⟨stampText c deps, t⟩ = deps := by
  obtain ⟨hn, hr⟩ := hc.2.no_newline
  have hlines : lines (deps.flatMap stampLine) = deps.map stampLine := by
    simpa using lines_flatMap_stampLine h []
  rw [Stamp.depChecksums, stampText, lines_cons hn hr, List.tail_cons, hlines,
    foldl_readDepLine h (by simpa using hd), List.nil_append]

end Pbuild
