import Playbit.Find.Walk
import Playbit.Python.Canonical
import Playbit.Run.Basic

/-!
# Checksums of outputs

The checksum of a package is what its dependants compare to find out whether they are up to date.
That of a directory is computed by a pipeline: `find` lists the regular files, `sha1sum` is run for
each of them in parallel, and the sorted lines go to `sha256sum`.  That of a metapackage, which has
no output, is computed from the names and checksums of its dependencies.

Symbolic links do not get into the pipeline, so that trees that differ only in these have the same
checksum.

With hash functions that do not collide, the checksums of two directories tell these apart unless
they differ in symbolic links only (`checksumDir_separates_iff`), and those of metapackages their
dependencies (`metaChecksum_eq_iff`).
-/

namespace Pbuild

open Python

variable {α : Type}

/-! ### File trees -/

/-- What is in a directory of an output, in the order in which it is read. -/
inductive OutEntries (α : Type)
  | nil
  | file (name : Text) (contents : α) (rest : OutEntries α)
  | link (name target : Text) (rest : OutEntries α)
  | dir (name : Text) (children rest : OutEntries α)

/-- A name without newlines, quotes and backslashes, which `xargs` and `sha1sum` read and print as
it is. -/
def PlainName (name : Text) : Prop :=
  Find.ValidName name ∧ '\n' ∉ name ∧ '\'' ∉ name ∧ '"' ∉ name ∧ '\\' ∉ name

instance decidablePlainName (name : Text) : Decidable (PlainName name) :=
  inferInstanceAs (Decidable (_ ∧ _))

namespace OutEntries

/-- The names in the directory. -/
def names : OutEntries α → List Text
  | nil => []
  | file name _ rest => name :: rest.names
  | link name _ rest => name :: rest.names
  | dir name _ rest => name :: rest.names

/-- The names are plain, and no two files of a directory have the same. -/
def WellFormed : OutEntries α → Prop
  | nil => True
  | file name _ rest => PlainName name ∧ name ∉ rest.names ∧ rest.WellFormed
  | link name _ rest => PlainName name ∧ name ∉ rest.names ∧ rest.WellFormed
  | dir name children rest =>
    PlainName name ∧ name ∉ rest.names ∧ children.WellFormed ∧ rest.WellFormed

instance decidableWellFormed : (e : OutEntries α) → Decidable e.WellFormed
  | nil => isTrue trivial
  | file _ _ rest =>
    haveI := rest.decidableWellFormed
    inferInstanceAs (Decidable (_ ∧ _ ∧ _))
  | link _ _ rest =>
    haveI := rest.decidableWellFormed
    inferInstanceAs (Decidable (_ ∧ _ ∧ _))
  | dir _ children rest =>
    haveI := children.decidableWellFormed
    haveI := rest.decidableWellFormed
    inferInstanceAs (Decidable (_ ∧ _ ∧ _ ∧ _))

/-- The regular files, with the names on the way to them. -/
def files : OutEntries α → List (List Text × α)
  | nil => []
  | file name contents rest => ([name], contents) :: rest.files
  | link _ _ rest => rest.files
  | dir name children rest =>
    children.files.map (fun x => (name :: x.1, x.2)) ++ rest.files

/-- The symbolic links, with the names on the way to them. -/
def links : OutEntries α → List (List Text × Text)
  | nil => []
  | file _ _ rest => rest.links
  | link name target rest => ([name], target) :: rest.links
  | dir name children rest =>
    children.links.map (fun x => (name :: x.1, x.2)) ++ rest.links

end OutEntries

/-- An `out/distroot`. -/
structure Distroot (α : Type) where
  entries : OutEntries α
  wellFormed : entries.WellFormed

/-- The regular files are the same. -/
def Distroot.SameFiles (t t' : Distroot α) : Prop :=
  ∀ x, x ∈ t.entries.files ↔ x ∈ t'.entries.files

/-- The symbolic links are the same. -/
def Distroot.SameLinks (t t' : Distroot α) : Prop :=
  ∀ x, x ∈ t.entries.links ↔ x ∈ t'.entries.links

/-! ### The pipeline -/

/-- The digests of files and texts, in hexadecimal. -/
structure Sums (α : Type) where
  sha1 : α → Text
  sha1_word : ∀ c, IsWord (sha1 c)
  sha256 : Text → Text
  sha256_word : ∀ t, IsWord (sha256 t)

/-- How the locale compares texts. -/
structure Collation where
  le : Text → Text → Bool
  total : ∀ t u, le t u = true ∨ le u t = true
  trans : ∀ t u v, le t u = true → le u v = true → le t v = true

/-- The key of `sort -k2`: from the second field, with the blanks before it, to the end of the
line. -/
def sortKey (line : Text) : Text := line.dropWhile fun c => c ≠ ' ' && c ≠ '\t'

/-- The order of `sort -k2`, which compares whole lines when the keys compare equal. -/
def Collation.LineLe (C : Collation) (a b : Text) : Prop :=
  if C.le (sortKey a) (sortKey b) && C.le (sortKey b) (sortKey a) then a ≤ b
  else C.le (sortKey a) (sortKey b) = true

instance decidableLineLe (C : Collation) : DecidableRel C.LineLe := fun _ _ =>
  inferInstanceAs (Decidable (ite _ _ _))

/-- `sort -k2`. -/
def Collation.sort (C : Collation) (lines : List Text) : Text :=
  (lines.insertionSort C.LineLe).flatMap (· ++ ['\n'])

/-- What `sha1sum` prints for a file. -/
def Sums.sha1Line (S : Sums α) (x : List Text × α) : Text :=
  S.sha1 x.2 ++ ' ' :: ' ' :: Find.joinPath ['.'] x.1

/-- What the `sha1sum` processes print, one for each file of `find . -type f`. -/
def Sums.sha1Lines (S : Sums α) (t : Distroot α) : List Text := t.entries.files.map S.sha1Line

/-- `xargs`: the processes are run one after the other, or `JOBS` at a time, and then they end in
any order. -/
def Finishes (jobs : ℕ) (lines out : List Text) : Prop :=
  if 1 < jobs then out.Perm lines else out = lines

/-- `checksum_dir`, where the `sha1sum` processes have printed `out`. -/
def Sums.checksumDir (S : Sums α) (C : Collation) (out : List Text) : Text :=
  (splitOnce (strip (S.sha256 (C.sort out) ++ "  -\n".toList))).headD []

/-! ### Files of a tree -/

namespace OutEntries

variable {e : OutEntries α} {loc : List Text}

theorem exists_cons_of_mem_files (h : loc ∈ e.files.map Prod.fst) :
    ∃ name l, loc = name :: l ∧ name ∈ e.names := by
  induction e generalizing loc with
  | nil => cases h
  | file name contents rest ih =>
    rcases List.mem_cons.1 h with rfl | h
    · exact ⟨name, [], rfl, List.mem_cons_self⟩
    · obtain ⟨n, l, rfl, hn⟩ := ih h
      exact ⟨n, l, rfl, .tail _ hn⟩
  | link name target rest ih =>
    obtain ⟨n, l, rfl, hn⟩ := ih h
    exact ⟨n, l, rfl, .tail _ hn⟩
  | dir name children rest _ ih =>
    rw [files, List.map_append, List.mem_append, List.map_map] at h
    rcases h with h | h
    · obtain ⟨x, -, rfl⟩ := List.mem_map.1 h
      exact ⟨name, x.1, rfl, List.mem_cons_self⟩
    · obtain ⟨n, l, rfl, hn⟩ := ih h
      exact ⟨n, l, rfl, .tail _ hn⟩

theorem WellFormed.plainName (he : e.WellFormed) (h : loc ∈ e.files.map Prod.fst) :
    ∀ name ∈ loc, PlainName name := by
  induction e generalizing loc with
  | nil => cases h
  | file name contents rest ih =>
    rcases List.mem_cons.1 h with rfl | h
    · exact List.forall_mem_singleton.2 he.1
    · exact ih he.2.2 h
  | link name target rest ih => exact ih he.2.2 h
  | dir name children rest ih ih' =>
    rw [files, List.map_append, List.mem_append, List.map_map] at h
    rcases h with h | h
    · obtain ⟨x, hx, rfl⟩ := List.mem_map.1 h
      exact List.forall_mem_cons.2 ⟨he.1, ih he.2.2.1 (List.mem_map_of_mem hx)⟩
    · exact ih' he.2.2.2 h

theorem WellFormed.nodup_files (he : e.WellFormed) : (e.files.map Prod.fst).Nodup := by
  induction e with
  | nil => exact List.nodup_nil
  | file name contents rest ih =>
    refine List.nodup_cons.2 ⟨fun h => ?_, ih he.2.2⟩
    obtain ⟨n, l, heq, hn⟩ := exists_cons_of_mem_files h
    cases heq
    exact he.2.1 hn
  | link name target rest ih => exact ih he.2.2
  | dir name children rest ih ih' =>
    rw [files, List.map_append, List.map_map]
    have hchildren : (children.files.map (Prod.fst ∘ fun x => (name :: x.1, x.2))) =
        (children.files.map Prod.fst).map (name :: ·) := by
      rw [List.map_map]
      rfl
    rw [hchildren]
    refine List.nodup_append.2 ⟨(ih he.2.2.1).map fun _ _ h => (List.cons.inj h).2,
      ih' he.2.2.2, ?_⟩
    -- the files below the directory have its name, and the others do not
    rintro a ha b hb rfl
    obtain ⟨l, -, rfl⟩ := List.mem_map.1 ha
    obtain ⟨n, l', heq, hn⟩ := exists_cons_of_mem_files hb
    cases heq
    exact he.2.1 hn

end OutEntries

/-! ### Lines -/

namespace Sums

variable {S : Sums α} {t t' : Distroot α} {x y : List Text × α}

theorem plainName_of_mem (hx : x ∈ t.entries.files) : ∀ name ∈ x.1, PlainName name :=
  t.wellFormed.plainName (List.mem_map_of_mem hx)

theorem newline_notMem_sha1Line (hx : x ∈ t.entries.files) : '\n' ∉ S.sha1Line x := by
  have hpath : '\n' ∉ Find.joinPath ['.'] x.1 := by
    rw [Find.joinPath, List.mem_append, List.mem_flatMap]
    rintro (h | ⟨name, hname, h⟩)
    · revert h
      decide
    · rcases List.mem_cons.1 h with h | h
      · revert h
        decide
      · exact (plainName_of_mem hx name hname).2.1 h
  have hsum := ((S.sha1_word x.2).2.no_newline).1
  simp [sha1Line, hpath, hsum]

theorem sha1Line_inj (hx : x ∈ t.entries.files) (hy : y ∈ t'.entries.files)
    (hsha1 : S.sha1 x.2 = S.sha1 y.2 → x.2 = y.2) (h : S.sha1Line x = S.sha1Line y) : x = y := by
  have hblank : ∀ c, ' ' ∉ S.sha1 c := fun c hc => absurd ((S.sha1_word c).2 _ hc) (by decide)
  obtain ⟨hsum, hpath⟩ := Canonical.split_at_first (hblank x.2) (hblank y.2) h
  have hslash : ∀ {t : Distroot α} {x : List Text × α}, x ∈ t.entries.files →
      ∀ name ∈ x.1, '/' ∉ name := fun hx name hname => (plainName_of_mem hx name hname).1.1.2.1
  have hloc : x.1 = y.1 := by
    have hsplit := congrArg (List.splitOn '/') (List.cons.inj hpath).2
    rw [Find.splitOn_joinPath (by decide) (hslash hx),
      Find.splitOn_joinPath (by decide) (hslash hy)] at hsplit
    exact (List.cons.inj hsplit).2
  exact Prod.ext hloc (hsha1 hsum)

end Sums

/-! ### Checksums of directories -/

section Order

variable (C : Collation)

instance totalLineLe : Std.Total C.LineLe where
  total a b := by
    unfold Collation.LineLe
    rw [Bool.and_comm (C.le (sortKey b) (sortKey a))]
    split_ifs
    · exact le_total a b
    · exact C.total _ _

instance antisymmLineLe : Std.Antisymm C.LineLe where
  antisymm a b hab hba := by
    unfold Collation.LineLe at hab hba
    rw [Bool.and_comm (C.le (sortKey b) (sortKey a))] at hba
    split_ifs at hab hba with h
    · exact le_antisymm hab hba
    · exact absurd (Bool.and_eq_true_iff.2 ⟨hab, hba⟩) h

instance transLineLe : IsTrans Text C.LineLe where
  trans a b c hab hbc := by
    have key : ∀ {a b}, C.LineLe a b → C.le (sortKey a) (sortKey b) = true := by
      intro a b h
      unfold Collation.LineLe at h
      split_ifs at h with heq
      · exact (Bool.and_eq_true_iff.1 heq).1
      · exact h
    have hac := C.trans _ _ _ (key hab) (key hbc)
    unfold Collation.LineLe
    split_ifs with h
    · -- all three keys compare equal, so that the lines decide
      have hca := (Bool.and_eq_true_iff.1 h).2
      have hba := C.trans _ _ _ (key hbc) hca
      have hcb := C.trans _ _ _ hca (key hab)
      rw [Collation.LineLe, if_pos (Bool.and_eq_true_iff.2 ⟨key hab, hba⟩)] at hab
      rw [Collation.LineLe, if_pos (Bool.and_eq_true_iff.2 ⟨key hbc, hcb⟩)] at hbc
      exact hab.trans hbc
    · exact hac

end Order

theorem Finishes.perm {jobs : ℕ} {lines out : List Text} (h : Finishes jobs lines out) :
    out.Perm lines := by
  unfold Finishes at h
  split_ifs at h
  · exact h
  · exact h ▸ .refl _

theorem Collation.sort_eq_iff_perm (C : Collation) {l l' : List Text} (hl : ∀ t ∈ l, '\n' ∉ t)
    (hl' : ∀ t ∈ l', '\n' ∉ t) : C.sort l = C.sort l' ↔ l.Perm l' := by
  have hcode : Canonical.IsCode (fun t : Text => '\n' ∉ t) (· ++ ['\n']) :=
    .of_end (fun _ _ h => h) fun h => h
  have hmem : ∀ {l : List Text}, (∀ t ∈ l, '\n' ∉ t) → ∀ t ∈ l.insertionSort C.LineLe, '\n' ∉ t :=
    fun hl t ht => hl t ((List.mem_insertionSort _).1 ht)
  rw [Collation.sort, Collation.sort, hcode.flatMap_inj (hmem hl) (hmem hl')]
  exact Canonical.insertionSort_eq_iff_perm

namespace Sums

variable {S : Sums α} {C : Collation} {t t' : Distroot α} {out out' : List Text} {jobs jobs' : ℕ}

/-- The first word that `sha256sum` prints is the digest. -/
theorem checksumDir_eq (S : Sums α) (C : Collation) (out : List Text) :
    S.checksumDir C out = S.sha256 (C.sort out) := by
  have hword := S.sha256_word (C.sort out)
  have hdash : IsWord ['-'] := by decide
  have hstrip : strip (S.sha256 (C.sort out) ++ "  -\n".toList) =
      S.sha256 (C.sort out) ++ ' ' :: ' ' :: ['-'] := by
    have hline : S.sha256 (C.sort out) ++ "  -\n".toList =
        (S.sha256 (C.sort out) ++ [' ', ' '] ++ ['-']) ++ ['\n'] := by simp
    rw [strip, Unspaced.lstrip_append hword, hline, rstrip_newline, rstrip_append_word hdash]
    simp
  rw [checksumDir, hstrip, splitOnce_word_append hword (by decide)]
  rfl

theorem sha1Lines_perm_iff
    (hsha1 : ∀ x ∈ t.entries.files, ∀ y ∈ t'.entries.files, S.sha1 x.2 = S.sha1 y.2 → x.2 = y.2) :
    (S.sha1Lines t).Perm (S.sha1Lines t') ↔ t.SameFiles t' := by
  constructor
  · intro h x
    have hmem := fun line => h.mem_iff (a := line)
    constructor
    · intro hx
      obtain ⟨y, hy, heq⟩ := List.mem_map.1 ((hmem _).1 (List.mem_map_of_mem hx))
      rwa [sha1Line_inj hx hy (hsha1 x hx y hy) heq.symm]
    · intro hx
      obtain ⟨y, hy, heq⟩ := List.mem_map.1 ((hmem _).2 (List.mem_map_of_mem hx))
      rwa [← sha1Line_inj hy hx (hsha1 y hy x hx) heq]
  · intro h
    exact ((List.perm_ext_iff_of_nodup t.wellFormed.nodup_files.of_map
      t'.wellFormed.nodup_files.of_map).2 h).map S.sha1Line

/-- Checksums are the same when the regular files are, whatever the number of jobs and the order
in which the processes end. -/
theorem checksumDir_eq_iff (hout : Finishes jobs (S.sha1Lines t) out)
    (hout' : Finishes jobs' (S.sha1Lines t') out')
    (hsha1 : ∀ x ∈ t.entries.files, ∀ y ∈ t'.entries.files, S.sha1 x.2 = S.sha1 y.2 → x.2 = y.2)
    (hsha256 : S.sha256 (C.sort out) = S.sha256 (C.sort out') → C.sort out = C.sort out') :
    S.checksumDir C out = S.checksumDir C out' ↔ t.SameFiles t' := by
  have hnewline : ∀ {t : Distroot α} {jobs : ℕ} {out : List Text},
      Finishes jobs (S.sha1Lines t) out → ∀ line ∈ out, '\n' ∉ line := by
    intro t jobs out hout line hline
    obtain ⟨x, hx, rfl⟩ := List.mem_map.1 (hout.perm.mem_iff.1 hline)
    exact newline_notMem_sha1Line hx
  calc S.checksumDir C out = S.checksumDir C out'
      ↔ C.sort out = C.sort out' := by
        rw [checksumDir_eq, checksumDir_eq]
        exact ⟨hsha256, fun h => h ▸ rfl⟩
    _ ↔ out.Perm out' := C.sort_eq_iff_perm (hnewline hout) (hnewline hout')
    _ ↔ (S.sha1Lines t).Perm (S.sha1Lines t') := by
        rw [hout.perm.congr_left, hout'.perm.congr_right]
    _ ↔ t.SameFiles t' := sha1Lines_perm_iff hsha1

end Sums

/-- Output directories with their checksums, where `cleanup` is what `PkgBuild.cleanup` leaves. -/
def Sums.outputs (S : Sums α) (C : Collation) (cleanup : PkgName → Distroot α → Distroot α) :
    Outputs (Distroot α) where
  empty := ⟨.nil, trivial⟩
  cleanup := cleanup
  checksumDir t := S.checksumDir C (S.sha1Lines t)
  checksumDir_word _ := S.checksumDir_eq C _ ▸ S.sha256_word _
  sha256 := S.sha256
  sha256_word := S.sha256_word

/-- The order in which the processes end does not matter. -/
theorem Sums.checksumDir_outputs {S : Sums α} {C : Collation}
    {cleanup : PkgName → Distroot α → Distroot α} {t : Distroot α} {jobs : ℕ} {out : List Text}
    (hout : Finishes jobs (S.sha1Lines t) out) :
    S.checksumDir C out = (S.outputs C cleanup).checksumDir t := by
  have hsort : out.insertionSort C.LineLe = (S.sha1Lines t).insertionSort C.LineLe :=
    Canonical.insertionSort_eq_iff_perm.2 hout.perm
  change S.checksumDir C out = S.checksumDir C (S.sha1Lines t)
  rw [S.checksumDir_eq, S.checksumDir_eq, Collation.sort, hsort, Collation.sort]

/-- **Which outputs have different checksums.**  For any two file trees, numbers of jobs and orders
in which the processes end, trees that differ in a regular file or in a symbolic link have
different checksums, and trees that do not have equal ones, if and only if it is not the case that
they have the same regular files and different symbolic links. -/
theorem checksumDir_separates_iff (S : Sums α) (C : Collation) (t t' : Distroot α) (jobs jobs' : ℕ)
    (out out' : List Text) (hout : Finishes jobs (S.sha1Lines t) out)
    (hout' : Finishes jobs' (S.sha1Lines t') out')
    (hsha1 : ∀ x ∈ t.entries.files, ∀ y ∈ t'.entries.files, S.sha1 x.2 = S.sha1 y.2 → x.2 = y.2)
    (hsha256 : S.sha256 (C.sort out) = S.sha256 (C.sort out') → C.sort out = C.sort out') :
    ((¬ t.SameFiles t' ∨ ¬ t.SameLinks t' → S.checksumDir C out ≠ S.checksumDir C out') ∧
      (t.SameFiles t' ∧ t.SameLinks t' → S.checksumDir C out = S.checksumDir C out')) ↔
      ¬ (t.SameFiles t' ∧ ¬ t.SameLinks t') := by
  rw [Ne, Sums.checksumDir_eq_iff hout hout' hsha1 hsha256]
  by_cases hfiles : t.SameFiles t' <;> by_cases hlinks : t.SameLinks t' <;> simp [hfiles, hlinks]

/-- Digests that keep everything but white space. -/
def Sums.plain : Sums Text where
  sha1 := bitOutputs.sha256
  sha1_word := bitOutputs.sha256_word
  sha256 := bitOutputs.sha256
  sha256_word := bitOutputs.sha256_word

/-- The order of code points. -/
def Collation.codePoints : Collation where
  le t u := decide (t ≤ u)
  total t u := (le_total t u).imp decide_eq_true decide_eq_true
  trans _ _ _ h₁ h₂ := decide_eq_true ((of_decide_eq_true h₁).trans (of_decide_eq_true h₂))

/-- A library, and a link to it. -/
def sampleDistroot (contents target : Text) : Distroot Text where
  entries := .dir "lib".toList
    (.file "a.so.1".toList contents (.file "b.so".toList "b".toList .nil))
    (.link "a.so".toList target .nil)
  wellFormed := by
    simp only [OutEntries.WellFormed, OutEntries.names]
    decide

/-- Two versions of a library, with the processes that end in opposite orders. -/
theorem checksumDir_separates_versions :
    let S := Sums.plain
    let C := Collation.codePoints
    let t := sampleDistroot "1".toList "a.so.1".toList
    let t' := sampleDistroot "2".toList "b.so".toList
    S.checksumDir C (S.sha1Lines t).reverse ≠ S.checksumDir C (S.sha1Lines t') := by
  intro S C t t'
  have hfiles : ¬ t.SameFiles t' := fun h =>
    absurd ((h (["lib".toList, "a.so.1".toList], "1".toList)).1 (by decide)) (by decide)
  have hseparates := (checksumDir_separates_iff S C t t' 4 1 (S.sha1Lines t).reverse
    (S.sha1Lines t') (List.reverse_perm _) rfl (by decide) (by decide +kernel)).2
    fun h => hfiles h.1
  exact hseparates.1 (.inl hfiles)

/-- A link that leads elsewhere does not change the checksum. -/
theorem same_checksum_of_other_link :
    let S := Sums.plain
    let C := Collation.codePoints
    let t := sampleDistroot "1".toList "a.so.1".toList
    let t' := sampleDistroot "1".toList "b.so".toList
    ¬ t.SameLinks t' ∧ S.checksumDir C (S.sha1Lines t) = S.checksumDir C (S.sha1Lines t') := by
  refine ⟨fun h => ?_, rfl⟩
  exact absurd ((h (["a.so".toList], "a.so.1".toList)).1 (by decide)) (by decide)

/-! ### Checksums of metapackages -/

/-- Hexadecimal digits. -/
def IsHex (t : Text) : Prop := ∀ c ∈ t, c ∈ "0123456789abcdef".toList

instance decidableIsHex (t : Text) : Decidable (IsHex t) := List.decidableBAll _ t

variable {Out : Type}

/-- The checksums of the dependencies of a build, by name. -/
def Job.depSums (job : Job Out) (mem : BuildStates) (b : BuildKey) (name : Text) : Option Text :=
  ((job.bs.build b).keys.find? (buildName · == name)).map fun d => (mem d).checksum

/-- A record of the text of a metapackage. -/
def metaRecord (e : Text × Text) : Text := e.1 ++ ':' :: (e.2 ++ ['.'])

theorem isCode_metaRecord :
    Canonical.IsCode (fun e : Text × Text => ':' ∉ e.1 ∧ IsHex e.2) metaRecord where
  ne_nil _ := by simp [metaRecord]
  read {a b t u} ha hb h := by
    have hdot : ∀ {t : Text}, IsHex t → '.' ∉ t := fun ht hc => absurd (ht _ hc) (by decide)
    have h : a.1 ++ ':' :: (a.2 ++ '.' :: t) = b.1 ++ ':' :: (b.2 ++ '.' :: u) := by
      simpa [metaRecord] using h
    obtain ⟨hname, h⟩ := Canonical.split_at_first ha.1 hb.1 h
    obtain ⟨hsum, htu⟩ := Canonical.split_at_first (hdot ha.2) (hdot hb.2) h
    exact ⟨Prod.ext hname hsum, htu⟩

namespace Job

variable {job job' : Job Out} {mem mem' : BuildStates} {b b' : BuildKey}

/-- The dependencies of a build with their checksums, by name and in the order of the names. -/
def sortedSums (job : Job Out) (mem : BuildStates) (b : BuildKey) : List (Text × Text) :=
  (job.bs.build b).sortedDeps.map fun d => (buildName d, (mem d).checksum)

theorem metaText_eq (job : Job Out) (mem : BuildStates) (b : BuildKey) :
    job.metaText mem b = (job.sortedSums mem b).flatMap metaRecord := by
  rw [metaText, sortedSums, List.flatMap_map]
  rfl

theorem depSums_of_mem {d : BuildKey} (hd : d ∈ (job.bs.build b).keys) :
    job.depSums mem b (buildName d) = some (mem d).checksum := by
  obtain ⟨d', hd'⟩ : ∃ d', (job.bs.build b).keys.find? (buildName · == buildName d) = some d' :=
    Option.isSome_iff_exists.1 (List.find?_isSome.2 ⟨d, hd, by simp⟩)
  have heq : d' = d := buildName_injective (eq_of_beq (List.find?_some hd' :))
  rw [depSums, hd', heq]
  rfl

theorem mem_keys_of_depSums {name sum : Text} (h : job.depSums mem b name = some sum) :
    ∃ d ∈ (job.bs.build b).keys, buildName d = name ∧ (mem d).checksum = sum := by
  obtain ⟨d, hd, hsum⟩ := Option.map_eq_some_iff.1 h
  exact ⟨d, List.mem_of_find?_eq_some hd, eq_of_beq (List.find?_some hd :), hsum⟩

theorem depSums_eq_get? (job : Job Out) (mem : BuildStates) (b : BuildKey) (name : Text) :
    job.depSums mem b name = Dict.get? (job.sortedSums mem b) name := by
  by_cases h : ∃ d ∈ (job.bs.build b).keys, buildName d = name
  · obtain ⟨d, hd, rfl⟩ := h
    rw [depSums_of_mem hd, sortedSums]
    exact (get?_sortedDeps (mem_sortedDeps.2 hd) fun d => (mem d).checksum).symm
  · have hnone : job.depSums mem b name = none := by
      by_contra hne
      obtain ⟨sum, hsum⟩ := Option.ne_none_iff_exists'.1 hne
      obtain ⟨d, hd, hname, -⟩ := mem_keys_of_depSums hsum
      exact h ⟨d, hd, hname⟩
    rw [hnone, Dict.get?_of_notMem]
    rintro hmem
    obtain ⟨e, he, rfl⟩ := List.mem_map.1 hmem
    obtain ⟨d, hd, rfl⟩ := List.mem_map.1 he
    exact h ⟨d, mem_sortedDeps.1 hd, rfl⟩

/-- The list in the order of the names depends on the map only. -/
theorem sortedSums_eq_iff :
    job.sortedSums mem b = job'.sortedSums mem' b' ↔ job.depSums mem b = job'.depSums mem' b' := by
  constructor
  · intro h
    funext name
    rw [depSums_eq_get?, depSums_eq_get?, h]
  · intro h
    have hsum : ∀ d ∈ (job.bs.build b).keys,
        d ∈ (job'.bs.build b').keys ∧ (mem d).checksum = (mem' d).checksum := by
      intro d hd
      have hd' : job'.depSums mem' b' (buildName d) = some (mem d).checksum :=
        h ▸ depSums_of_mem hd
      obtain ⟨d', hmem, hname, hsum⟩ := mem_keys_of_depSums hd'
      cases buildName_injective hname
      exact ⟨hmem, hsum.symm⟩
    have hback : ∀ d ∈ (job'.bs.build b').keys, d ∈ (job.bs.build b).keys := by
      intro d hd
      have hd' : job.depSums mem b (buildName d) = some (mem' d).checksum :=
        h ▸ depSums_of_mem hd
      obtain ⟨d', hmem, hname, -⟩ := mem_keys_of_depSums hd'
      cases buildName_injective hname
      exact hmem
    have hsorted : (job.bs.build b).sortedDeps = (job'.bs.build b').sortedDeps := by
      have : Std.Total fun a b : BuildKey => buildName a ≤ buildName b := ⟨fun _ _ => le_total _ _⟩
      have : IsTrans BuildKey fun a b => buildName a ≤ buildName b := ⟨fun _ _ _ => le_trans⟩
      have : Std.Antisymm fun a b : BuildKey => buildName a ≤ buildName b :=
        ⟨fun _ _ h h' => buildName_injective (le_antisymm h h')⟩
      refine Canonical.insertionSort_eq_iff_perm.2 ?_
      refine (List.perm_ext_iff_of_nodup (Machine.nodup_eraseDups _)
        (Machine.nodup_eraseDups _)).2 fun d => ?_
      rw [List.mem_eraseDups, List.mem_eraseDups]
      exact ⟨fun hd => (hsum d hd).1, hback d⟩
    rw [sortedSums, sortedSums, ← hsorted]
    refine List.map_congr_left fun d hd => ?_
    rw [(hsum d (mem_sortedDeps.1 hd)).2]

end Job

/-- **Which metapackages have different checksums.**  The checksums of two builds of metapackages,
with names without colons and hexadecimal checksums of their dependencies, are equal if and only if
these have the same names and checksums, whatever the directives that name them and their order. -/
theorem metaChecksum_eq_iff (H : Outputs Out) (job job' : Job Out) (s s' : RunState Out)
    (b b' : BuildKey) (hmeta : job.metapackage b.1 = true) (hmeta' : job'.metapackage b'.1 = true)
    (hdeps : ∀ d ∈ (job.bs.build b).keys, ':' ∉ buildName d ∧ IsHex (s.mem d).checksum)
    (hdeps' : ∀ d ∈ (job'.bs.build b').keys, ':' ∉ buildName d ∧ IsHex (s'.mem d).checksum)
    (hsha256 : H.sha256 (job.metaText s.mem b) = H.sha256 (job'.metaText s'.mem b') →
      job.metaText s.mem b = job'.metaText s'.mem b') :
    job.newChecksum H s b = job'.newChecksum H s' b' ↔
      job.depSums s.mem b = job'.depSums s'.mem b' := by
  have hcode : ∀ {job : Job Out} {s : RunState Out} {b : BuildKey},
      (∀ d ∈ (job.bs.build b).keys, ':' ∉ buildName d ∧ IsHex (s.mem d).checksum) →
      ∀ e ∈ job.sortedSums s.mem b, ':' ∉ e.1 ∧ IsHex e.2 := by
    intro job s b h e he
    obtain ⟨d, hd, rfl⟩ := List.mem_map.1 he
    exact h d (mem_sortedDeps.1 hd)
  calc job.newChecksum H s b = job'.newChecksum H s' b'
      ↔ job.metaText s.mem b = job'.metaText s'.mem b' := by
        rw [Job.newChecksum, Job.newChecksum, if_pos hmeta, if_pos hmeta']
        exact ⟨hsha256, fun h => h ▸ rfl⟩
    _ ↔ job.sortedSums s.mem b = job'.sortedSums s'.mem b' := by
        rw [Job.metaText_eq, Job.metaText_eq]
        exact isCode_metaRecord.flatMap_inj (hcode hdeps) (hcode hdeps')
    _ ↔ job.depSums s.mem b = job'.depSums s'.mem b' := Job.sortedSums_eq_iff

/-- A package of the sample as a metapackage, when its dependencies have one checksum or another. -/
theorem metaChecksum_ne_sample :
    let job : Job Bool := { Job.sample with metapackage := fun _ => true }
    let s (sum : Text) : RunState Bool := ⟨fun _ => { checksum := sum }, .empty⟩
    let app : BuildKey := ("app", .x86_64)
    job.newChecksum bitOutputs (s "a0") app ≠ job.newChecksum bitOutputs (s "b1") app := by
  intro job s app h
  have hsums := (metaChecksum_eq_iff bitOutputs job job (s "a0") (s "b1") app app rfl rfl
    (by decide +kernel) (by decide +kernel) (by decide +kernel)).1 h
  exact absurd (congrFun hsums "lib.x86_64") (by decide +kernel)

end Pbuild
