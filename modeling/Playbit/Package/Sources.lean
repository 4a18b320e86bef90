import Playbit.Package.Basic

/-!
# The sources of a package

The source time of a package is the time of its index file until its sources are scanned, and
then the latest time of the index file and the files that are not ignored.  An `IGNORE` entry
with a condition applies only when the condition holds for every architecture that is looked at.

The scan that is modelled here takes the maximum over all files, and is the least bound of the times
it sees (`PkgSources.resolveSources_le_iff`).  The scan of pbuild goes through the directories of
`CHECK` entries one after the other and can miss a file; it is modelled in `Package/Scan`, and the
two agree under the conditions of `ScannedPkg.resolveSources_eq_sources`.
-/

namespace Pbuild

/-- A source file. -/
structure SourceFile where
  mtime : ℤ
  /-- The conditions of the `IGNORE` entries that match the file. -/
  ignore : List (Option Conditional) := []

/-- The source files of a package. -/
structure PkgSources where
  /-- Time of the index file, e.g. `Makefile`. -/
  index : ℤ
  /-- The other files of the package, and those of its `CHECK` directives. -/
  files : List SourceFile := []

/-- `Pkg.eval_ignore_cond`. -/
def evalIgnoreCond (cond : Option Conditional) (archs : List Arch) : Bool :=
  match cond with
  | none => true
  | some c => archs.all c.eval

/-- The file is ignored when building for `archs`. -/
def SourceFile.ignored (f : SourceFile) (archs : List Arch) : Bool :=
  f.ignore.any (evalIgnoreCond · archs)

/-- The `src_mtime` that `Pkg.resolve_sources` is meant to compute. -/
def PkgSources.resolveSources (s : PkgSources) (archs : List Arch) : ℤ :=
  s.files.foldl (fun srcMtime f =>
    if !f.ignored archs && decide (f.mtime > srcMtime) then f.mtime else srcMtime) s.index

theorem evalIgnoreCond_eq_true_iff {cond : Option Conditional} {archs : List Arch} :
    evalIgnoreCond cond archs = true ↔ ∀ a ∈ archs, condPasses cond a = true := by
  cases cond with
  | none => exact ⟨fun _ _ _ => rfl, fun _ => rfl⟩
  | some c => exact List.all_eq_true

/-- What holds for several architectures holds for each of them. -/
theorem evalIgnoreCond_of_mem {cond : Option Conditional} {archs : List Arch} {a : Arch}
    (h : evalIgnoreCond cond archs = true) (ha : a ∈ archs) : evalIgnoreCond cond [a] = true := by
  refine evalIgnoreCond_eq_true_iff.2 fun a' ha' => ?_
  rw [List.mem_singleton.1 ha']
  exact evalIgnoreCond_eq_true_iff.1 h a ha

theorem SourceFile.ignored_of_mem {f : SourceFile} {archs : List Arch} {a : Arch}
    (h : f.ignored archs = true) (ha : a ∈ archs) : f.ignored [a] = true := by
  obtain ⟨cond, hmem, hcond⟩ := List.any_eq_true.1 h
  exact List.any_eq_true.2 ⟨cond, hmem, evalIgnoreCond_of_mem hcond ha⟩

theorem PkgSources.resolveSources_congr {s : PkgSources} {as bs : List Arch}
    (h : ∀ a, a ∈ as ↔ a ∈ bs) : s.resolveSources as = s.resolveSources bs := by
  have hcond : ∀ cond, evalIgnoreCond cond as = evalIgnoreCond cond bs := by
    intro cond
    rw [Bool.eq_iff_iff, evalIgnoreCond_eq_true_iff, evalIgnoreCond_eq_true_iff]
    simp only [h]
  have hignored : ∀ f : SourceFile, f.ignored as = f.ignored bs := fun f =>
    congrArg f.ignore.any (funext hcond)
  unfold PkgSources.resolveSources
  congr 1
  funext m f
  rw [hignored f]

theorem foldl_max_le_iff (archs : List Arch) (files : List SourceFile) (m t : ℤ) :
    files.foldl (fun srcMtime f =>
      if !f.ignored archs && decide (f.mtime > srcMtime) then f.mtime else srcMtime) m ≤ t ↔
    m ≤ t ∧ ∀ f ∈ files, f.ignored archs = false → f.mtime ≤ t := by
  induction files generalizing m with
  | nil => simp
  | cons f files ih =>
    rw [List.foldl_cons, ih, List.forall_mem_cons, ← and_assoc]
    refine and_congr_left fun _ => ?_
    cases hf : f.ignored archs with
    | true => simp
    | false =>
      by_cases hm : f.mtime > m
      · simp only [Bool.not_false, Bool.true_and, hm, decide_true, if_true, true_imp_iff]
        omega
      · simp only [Bool.not_false, Bool.true_and, hm, decide_false, Bool.false_eq_true, if_false,
          true_imp_iff]
        omega

/-- The scan is at most `t` iff everything it looks at is. -/
theorem PkgSources.resolveSources_le_iff {s : PkgSources} {archs : List Arch} {t : ℤ} :
    s.resolveSources archs ≤ t ↔
      s.index ≤ t ∧ ∀ f ∈ s.files, f.ignored archs = false → f.mtime ≤ t :=
  foldl_max_le_iff archs s.files s.index t

theorem PkgSources.index_le_resolveSources (s : PkgSources) (archs : List Arch) :
    s.index ≤ s.resolveSources archs :=
  (resolveSources_le_iff.1 (Int.le_refl _)).1

theorem PkgSources.le_resolveSources {s : PkgSources} {archs : List Arch} {f : SourceFile}
    (hf : f ∈ s.files) (hign : f.ignored archs = false) : f.mtime ≤ s.resolveSources archs :=
  (resolveSources_le_iff.1 (Int.le_refl _)).2 f hf hign

/-- The times that the scan looks at. -/
def PkgSources.times (s : PkgSources) (archs : List Arch) : List ℤ :=
  s.index :: (s.files.filter fun f => !f.ignored archs).map SourceFile.mtime

theorem PkgSources.mem_times {s : PkgSources} {archs : List Arch} {t : ℤ} :
    t ∈ s.times archs ↔ t = s.index ∨ ∃ f ∈ s.files, f.ignored archs = false ∧ f.mtime = t := by
  simp [times, and_assoc]

theorem PkgSources.le_resolveSources_of_mem {s : PkgSources} {archs : List Arch} {t : ℤ}
    (h : t ∈ s.times archs) : t ≤ s.resolveSources archs := by
  rcases mem_times.1 h with rfl | ⟨f, hf, hign, rfl⟩
  · exact s.index_le_resolveSources archs
  · exact le_resolveSources hf hign

theorem PkgSources.resolveSources_le {s : PkgSources} {archs : List Arch} {t : ℤ}
    (h : ∀ u ∈ s.times archs, u ≤ t) : s.resolveSources archs ≤ t :=
  resolveSources_le_iff.2 ⟨h _ (mem_times.2 (.inl rfl)), fun f hf hign =>
    h _ (mem_times.2 (.inr ⟨f, hf, hign, rfl⟩))⟩

/-! ### Edits -/

namespace PkgSources

variable (s : PkgSources)

/-- The sources after the index file, or the file with the given number, has been written at `t`. -/
def edit (i : Option ℕ) (t : ℤ) : PkgSources :=
  match i with
  | none => { s with index := t }
  | some i => { s with files := s.files.modify i fun f => { f with mtime := t } }

/-- The time of the index file, or of the file with the given number unless it is ignored. -/
def mtime? (archs : List Arch) (i : Option ℕ) : Option ℤ :=
  match i with
  | none => some s.index
  | some i => (s.files[i]?.filter fun f => !f.ignored archs).map SourceFile.mtime

variable {s}

theorem le_resolveSources_of_mtime? {archs : List Arch} {i : Option ℕ} {t : ℤ}
    (h : s.mtime? archs i = some t) : t ≤ s.resolveSources archs := by
  cases i with
  | none =>
    cases h
    exact s.index_le_resolveSources archs
  | some i =>
    obtain ⟨f, hf, rfl⟩ := Option.map_eq_some_iff.1 h
    rw [Option.filter_eq_some_iff] at hf
    exact le_resolveSources (List.mem_of_getElem? hf.1) (by simpa using hf.2)

theorem mtime?_edit_self {archs : List Arch} {i : Option ℕ} {t t' : ℤ}
    (h : (s.edit i t).mtime? archs i = some t') : t' = t := by
  cases i with
  | none => cases h; rfl
  | some i =>
    obtain ⟨f, hf, rfl⟩ := Option.map_eq_some_iff.1 h
    rw [Option.filter_eq_some_iff, edit, List.getElem?_modify_eq, Option.map_eq_map,
      Option.map_eq_some_iff] at hf
    obtain ⟨⟨f₀, -, rfl⟩, -⟩ := hf
    rfl

theorem mtime?_edit_ne {archs : List Arch} {i j : Option ℕ} (hij : j ≠ i) (t : ℤ) :
    (s.edit i t).mtime? archs j = s.mtime? archs j := by
  rcases i with - | i <;> rcases j with - | j
  · exact absurd rfl hij
  · rfl
  · rfl
  · have hne : i ≠ j := fun h => hij (congrArg some h.symm)
    simp only [mtime?, edit, List.getElem?_modify_ne _ _ hne]

end PkgSources

end Pbuild
