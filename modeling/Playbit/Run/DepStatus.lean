import Playbit.Run.Progress

/-!
# What has become of the dependencies

Before a package is built, `write_dep_status_file` tells its build script what has become of the
dependencies since the stamp was written: a line for every dependency that the build has, or had
then, with the checksums of then and now.

The lines, for any recorded checksums, are `depStatusLines_spec`.  Over two builds of the package
the file compares two generations of dependencies (`depStatus_across_builds`).
-/

namespace Pbuild

open Python

/-- What has become of a dependency. -/
inductive DepStatus
  | added
  | modified
  | deleted
  | unchanged
  deriving DecidableEq

/-- The letter for it in the file. -/
def DepStatus.letter : DepStatus → Char
  | added => 'A'
  | modified => 'M'
  | deleted => 'D'
  | unchanged => '-'

/-- A line of the file. -/
structure DepStatusLine where
  status : DepStatus
  name : Text
  prevChecksum : Text
  currChecksum : Text
  deriving DecidableEq

/-- The line without its newline. -/
def DepStatusLine.text (l : DepStatusLine) : Text :=
  l.status.letter :: ' ' :: (l.name ++ ' ' :: (l.prevChecksum ++ ' ' :: l.currChecksum))

/-- A checksum that there is none of. -/
def noChecksum : Text := "-"

/-- The line of a dependency that the build has, with the checksum it has. -/
def currentLine (depChecksums : Dict Text Text) (name checksum : Text) : DepStatusLine :=
  match depChecksums.get? name with
  | none => ⟨.added, name, noChecksum, checksum⟩
  | some prev =>
    if prev = [] then ⟨.added, name, noChecksum, checksum⟩
    else if prev ≠ checksum then ⟨.modified, name, prev, checksum⟩
    else ⟨.unchanged, name, prev, checksum⟩

/-- The line of a dependency that the build had. -/
def deletedLine (e : Text × Text) : DepStatusLine := ⟨.deleted, e.1, e.2, noChecksum⟩

/-- The names and checksums of the dependencies of `b`. -/
def depMap (bs : Builds) (mem : BuildStates) (b : BuildKey) : Dict Text Text :=
  (bs.build b).sortedDeps.map fun d => (buildName d, (mem d).checksum)

/-- The lines that `write_dep_status_file` writes. -/
def depStatusLines (bs : Builds) (mem : BuildStates) (b : BuildKey) : List DepStatusLine :=
  let currentDepnames := (bs.build b).sortedDeps.map buildName
  (bs.build b).sortedDeps.map
      (fun dep => currentLine (mem b).depChecksums (buildName dep) (mem dep).checksum) ++
    ((mem b).depChecksums.filter fun e => decide (e.1 ∉ currentDepnames)).map deletedLine

/-- `PkgBuild.write_dep_status_file`. -/
def writeDepStatusFile (bs : Builds) (mem : BuildStates) (b : BuildKey) : Text :=
  (depStatusLines bs mem b).flatMap fun l => l.text ++ ['\n']

/-! ### The lines -/

/-- The line says what has become of the dependency from one generation `m₁` to another `m₂`. -/
structure DepStatusLine.Compares (m₁ m₂ : Dict Text Text) (l : DepStatusLine) : Prop where
  added : l.status = .added ↔ m₁.get? l.name = none ∧ m₂.get? l.name ≠ none
  deleted : l.status = .deleted ↔ m₁.get? l.name ≠ none ∧ m₂.get? l.name = none
  modified : l.status = .modified ↔
    ∃ c₁ c₂, m₁.get? l.name = some c₁ ∧ m₂.get? l.name = some c₂ ∧ c₁ ≠ c₂
  unchanged : l.status = .unchanged ↔ ∃ c, m₁.get? l.name = some c ∧ m₂.get? l.name = some c
  prevChecksum : l.prevChecksum = (m₁.get? l.name).getD noChecksum
  currChecksum : l.currChecksum = (m₂.get? l.name).getD noChecksum

theorem compares_currentLine {m₁ m₂ : Dict Text Text} (h₁ : ∀ e ∈ m₁, e.2 ≠ []) {name c : Text}
    (h₂ : m₂.get? name = some c) : (currentLine m₁ name c).Compares m₁ m₂ := by
  cases hget : m₁.get? name with
  | none =>
    have hline : currentLine m₁ name c = ⟨.added, name, noChecksum, c⟩ := by
      rw [currentLine, hget]
    rw [hline]
    constructor <;> simp [hget, h₂]
  | some prev =>
    have hne : prev ≠ [] := h₁ _ (Dict.mem_of_get? hget)
    by_cases heq : prev = c
    · subst heq
      have hline : currentLine m₁ name prev = ⟨.unchanged, name, prev, prev⟩ := by
        simp [currentLine, hget, hne]
      rw [hline]
      constructor <;> simp [hget, h₂]
    · have hline : currentLine m₁ name c = ⟨.modified, name, prev, c⟩ := by
        simp [currentLine, hget, hne, heq]
      rw [hline]
      constructor <;> simp [hget, h₂, heq]
      exact fun h => heq h.symm

theorem compares_deletedLine {m₁ m₂ : Dict Text Text} {e : Text × Text}
    (h₁ : m₁.get? e.1 = some e.2) (h₂ : m₂.get? e.1 = none) :
    (deletedLine e).Compares m₁ m₂ := by
  rw [deletedLine]
  constructor <;> simp [h₁, h₂]

theorem name_currentLine (m : Dict Text Text) (name c : Text) :
    (currentLine m name c).name = name := by
  unfold currentLine
  split
  · rfl
  · split_ifs <;> rfl

variable {bs : Builds} {mem : BuildStates} {b : BuildKey}

theorem keys_depMap : (depMap bs mem b).map Prod.fst = (bs.build b).sortedDeps.map buildName := by
  rw [depMap, List.map_map]
  rfl

theorem names_depStatusLines : (depStatusLines bs mem b).map DepStatusLine.name =
    (depMap bs mem b).map Prod.fst ++
      ((mem b).depChecksums.map Prod.fst).filter
        fun name => decide (name ∉ (depMap bs mem b).map Prod.fst) := by
  rw [keys_depMap, depStatusLines, List.map_append, List.map_map, List.map_map, List.filter_map]
  congr 1
  exact List.map_congr_left fun d _ => name_currentLine _ _ _

/-- **The lines compare the recorded checksums with those of now.**  There is one for every name
that is in one of the two. -/
theorem depStatusLines_spec (bs : Builds) (hnodup : ((mem b).depChecksums.map Prod.fst).Nodup)
    (hne : ∀ e ∈ (mem b).depChecksums, e.2 ≠ []) :
    ((depStatusLines bs mem b).map DepStatusLine.name).Nodup ∧
      (∀ name, name ∈ (depStatusLines bs mem b).map DepStatusLine.name ↔
        name ∈ (mem b).depChecksums.map Prod.fst ∨ name ∈ (depMap bs mem b).map Prod.fst) ∧
      ∀ l ∈ depStatusLines bs mem b, l.Compares (mem b).depChecksums (depMap bs mem b) := by
  refine ⟨?_, fun name => ?_, fun l hl => ?_⟩
  · rw [names_depStatusLines]
    refine List.nodup_append.2 ⟨nodup_sortedDeps_names _ _, hnodup.filter _, ?_⟩
    rintro name hname _ hfilter rfl
    exact of_decide_eq_true (List.mem_filter.1 hfilter).2 hname
  · rw [names_depStatusLines, List.mem_append, List.mem_filter, decide_eq_true_eq]
    by_cases hname : name ∈ (depMap bs mem b).map Prod.fst
    · simp only [hname, true_or, or_true]
    · simp only [hname, false_or, or_false, not_false_eq_true, and_true]
  · rcases List.mem_append.1 hl with hl | hl
    · obtain ⟨d, hd, rfl⟩ := List.mem_map.1 hl
      exact compares_currentLine hne (get?_sortedDeps hd fun d => (mem d).checksum)
    · obtain ⟨e, he, rfl⟩ := List.mem_map.1 hl
      obtain ⟨he, hnew⟩ := List.mem_filter.1 he
      refine compares_deletedLine (Dict.get?_of_mem hnodup he) (Dict.get?_of_notMem ?_)
      rw [keys_depMap]
      exact of_decide_eq_true hnew

theorem lines_writeDepStatusFile
    (hrecorded : ∀ e ∈ (mem b).depChecksums, IsWord e.1 ∧ IsWord e.2)
    (hname : ∀ d ∈ (bs.build b).keys, Unspaced (buildName d))
    (hsum : ∀ d ∈ (bs.build b).keys, IsWord (mem d).checksum) :
    lines (writeDepStatusFile bs mem b) =
      (depStatusLines bs mem b).map fun l => l.text ++ ['\n'] := by
  have hdash : Unspaced noChecksum := by decide
  -- a line has a newline in it only if one of its fields has
  have hno : ∀ l : DepStatusLine, Unspaced l.name → Unspaced l.prevChecksum →
      Unspaced l.currChecksum → '\n' ∉ l.text ∧ '\r' ∉ l.text := by
    intro l h₁ h₂ h₃
    have hletter : l.status.letter ≠ '\n' ∧ l.status.letter ≠ '\r' := by
      cases l.status <;> decide
    simp [DepStatusLine.text, h₁.no_newline, h₂.no_newline, h₃.no_newline, hletter.1.symm,
      hletter.2.symm]
  have hlines : ∀ l ∈ depStatusLines bs mem b, '\n' ∉ l.text ∧ '\r' ∉ l.text := by
    intro l hl
    rcases List.mem_append.1 hl with hl | hl
    · obtain ⟨d, hd, rfl⟩ := List.mem_map.1 hl
      have hdk := mem_sortedDeps.1 hd
      unfold currentLine
      cases hget : (mem b).depChecksums.get? (buildName d) with
      | none => exact hno _ (hname d hdk) hdash (hsum d hdk).2
      | some prev =>
        have hprev := (hrecorded _ (Dict.mem_of_get? hget)).2.2
        dsimp only
        split_ifs
        · exact hno _ (hname d hdk) hdash (hsum d hdk).2
        · exact hno _ (hname d hdk) hprev (hsum d hdk).2
        · exact hno _ (hname d hdk) hprev (hsum d hdk).2
    · obtain ⟨e, he, rfl⟩ := List.mem_map.1 hl
      obtain ⟨h₁, h₂⟩ := hrecorded e (List.mem_filter.1 he).1
      exact hno _ h₁.2 h₂.2 hdash
  rw [writeDepStatusFile]
  simpa using lines_flatMap hlines []

/-! ### Two builds -/

theorem writtenText_eq_depMap (hsum : ∀ d ∈ (bs.build b).keys, IsWord (mem d).checksum) :
    writtenText bs mem b = stampText (mem b).checksum (depMap bs mem b) := by
  rw [writtenText, depMap]
  congr 1
  refine List.map_congr_left fun d hd => ?_
  rw [checksumOrZero_of_ne_nil (hsum d (mem_sortedDeps.1 hd)).1]

theorem isWord_of_mem_depMap (hname : ∀ d ∈ (bs.build b).keys, Unspaced (buildName d))
    (hsum : ∀ d ∈ (bs.build b).keys, IsWord (mem d).checksum) :
    ∀ e ∈ depMap bs mem b, IsWord e.1 ∧ IsWord e.2 := by
  intro e he
  obtain ⟨d, hd, rfl⟩ := List.mem_map.1 he
  have hdk := mem_sortedDeps.1 hd
  exact ⟨⟨by simp [buildName], hname d hdk⟩, hsum d hdk⟩

variable {Out : Type}

/-- **The status of the dependencies across two builds.**  After a build has been stamped, reading
the stamp restores its checksum and exactly the checksums that its dependencies had.  In a later
build, with whatever dependencies it has by then, the file has one line for every name that is
among the dependencies of then or of now, which says what has become of it. -/
theorem depStatus_across_builds (H : Outputs Out) (job : Job Out) (s : RunState Out)
    (b : BuildKey) (s₀ : BuildState) (bs' : Builds) (later : BuildStates)
    (hname : ∀ d ∈ (job.bs.build b).keys, Unspaced (buildName d))
    (hsum : ∀ d ∈ (job.bs.build b).keys, IsWord ((job.stamped H s b).mem d).checksum)
    (hname' : ∀ d ∈ (bs'.build b).keys, Unspaced (buildName d))
    (hsum' : ∀ d ∈ (bs'.build b).keys, IsWord (later d).checksum)
    (hread : (later b).depChecksums =
      (readBuildStamp s₀ (job.stampOf (job.stamped H s b).root b)).depChecksums) :
    let stamp := job.stampOf (job.stamped H s b).root b
    let m₁ := depMap job.bs (job.stamped H s b).mem b
    let m₂ := depMap bs' later b
    (readBuildStamp s₀ stamp).checksum = ((job.stamped H s b).mem b).checksum ∧
      (readBuildStamp s₀ stamp).depChecksums = m₁ ∧
      ∃ ls : List DepStatusLine,
        lines (writeDepStatusFile bs' later b) = ls.map (fun l => l.text ++ ['\n']) ∧
        (ls.map DepStatusLine.name).Nodup ∧
        (∀ name, name ∈ ls.map DepStatusLine.name ↔
          name ∈ m₁.map Prod.fst ∨ name ∈ m₂.map Prod.fst) ∧
        ∀ l ∈ ls, l.Compares m₁ m₂ := by
  intro stamp m₁ m₂
  have hb : IsWord ((job.stamped H s b).mem b).checksum := by
    rw [Job.stamped_checksum]
    exact Job.isWord_newChecksum s b
  have hstamp : job.stampOf (job.stamped H s b).root b =
      some ⟨writtenText job.bs (job.stamped H s b).mem b, job.clock b⟩ := Job.stampOf_stamped s b
  have hwords : ∀ e ∈ m₁, IsWord e.1 ∧ IsWord e.2 := isWord_of_mem_depMap hname hsum
  have hnodup : (m₁.map Prod.fst).Nodup := nodup_sortedDeps_names _ _
  rw [writtenText_eq_depMap hsum] at hstamp
  have hdeps : (readBuildStamp s₀ stamp).depChecksums = m₁ := by
    simp only [stamp, hstamp, readBuildStamp]
    exact depChecksums_stampText hb (fun e he => ⟨(hwords e he).1, (hwords e he).2.isField⟩)
      hnodup _
  have hlater : (later b).depChecksums = m₁ := hread.trans hdeps
  refine ⟨?_, hdeps, depStatusLines bs' later b, ?_, ?_⟩
  · simp only [stamp, hstamp, readBuildStamp]
    exact checksum_stampText hb _ _
  · exact lines_writeDepStatusFile (hlater.symm ▸ hwords) hname' hsum'
  · -- what has been read is what is compared with
    rw [← hlater] at hwords hnodup ⊢
    exact depStatusLines_spec bs' hnodup fun e he => (hwords e he).2.1

/-- What the dependencies of the application were built to. -/
def statusBefore : RunState Bool where
  mem k := { checksum := if k.1 = "lib" then "1a" else "2b" }
  root := .empty

/-- By then the application has a new dependency instead of the tool, and the library has
changed. -/
def statusLater : Builds where
  processed := [(("app", .x86_64), { deps := [(("lib", .x86_64), []), (("zlib", .x86_64), [])] })]
  buildlist := [("lib", .x86_64), ("zlib", .x86_64), ("app", .x86_64)]

/-- The state in which the file is written. -/
def statusStates : BuildStates := fun k =>
  { checksum := "3c"
    depChecksums := if k.1 = "app" then [("lib.x86_64", "1a"), ("tool.x86_64", "2b")] else [] }

theorem sampleStatus_across_builds :
    ∃ ls : List DepStatusLine,
      lines (writeDepStatusFile statusLater statusStates ("app", .x86_64)) =
        ls.map (fun l => l.text ++ ['\n']) ∧
      ∀ l ∈ ls, l.Compares [("lib.x86_64", "1a"), ("tool.x86_64", "2b")]
        [("lib.x86_64", "3c"), ("zlib.x86_64", "3c")] := by
  obtain ⟨-, -, ls, hlines, -, -, hcompares⟩ := depStatus_across_builds bitOutputs Job.sample
    statusBefore ("app", .x86_64) {} statusLater statusStates (by decide) (by decide) (by decide)
    (by decide) (by decide)
  exact ⟨ls, hlines, hcompares⟩

end Pbuild
