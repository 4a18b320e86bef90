import Playbit.Package.Ignore

/-!
# The scan for sources

`Pkg.resolve_sources` runs `find` in the package directory and in the directories of its `CHECK`
entries.  Each time, `find` prints the files that are newer than a reference file: at first the
index file, then the newest file that has been found so far.

The name of that file is relative to the directory in which it was found, but it is taken to be
relative to the package directory.  After a `CHECK` directory with newer files, the reference file
is another one, or there is none.

Here are the code, over file systems in which `lstat` and `find` agree on the files below a
directory, and what one run of `find` adds (`findSources_spec`): the latest time of the files that
are newer than the reference file and not left out, and the name of the newest one.
-/

namespace Pbuild

open Python Find

/-! ### File systems -/

/-- A file, or a directory with everything below it. -/
inductive FsNode
  | leaf (l : Leaf)
  | dir (mtime : ℤ) (tree : FileTree)

/-- The time that `lstat` gives. -/
def FsNode.mtime : FsNode → ℤ
  | leaf l => l.mtime
  | dir mtime _ => mtime

/-- What there is under each absolute path, given by its components. -/
structure FileSystem where
  node : List Text → Option FsNode
  /-- What is below a directory has a path. -/
  node_append : ∀ {p mtime tree}, node p = some (.dir mtime tree) →
    ∀ {loc l}, (loc, .leaf l) ∈ tree.entries.nodes → node (p ++ loc) = some (.leaf l)

namespace FileSystem

variable (fs : FileSystem)

/-- `lstat`. -/
def mtime (p : List Text) : Option ℤ := (fs.node p).map FsNode.mtime

/-- `is_dir`. -/
def isDir (p : List Text) : Bool :=
  match fs.node p with
  | none => false
  | some (.leaf l) => l.linkToDir
  | some (.dir _ _) => true

/-- No name has a newline in it. -/
def NoNewlines : Prop :=
  ∀ p mtime tree, fs.node p = some (.dir mtime tree) →
    ∀ x ∈ tree.entries.nodes, ∀ c ∈ x.1, '\n' ∉ c

end FileSystem

/-- `str(path)` for an absolute path. -/
def pathStr (p : List Text) : Text := if p = [] then "/" else joinPath [] p

/-- `dir / t`. -/
def joinDir (dir : List Text) (t : Text) : List Text :=
  if t.head? = some '/' then pathParts t else dir ++ pathParts t

/-! ### The code -/

/-- A package, as it is scanned. -/
structure ScannedPkg where
  /-- The package directory. -/
  dir : List Text
  indexfile : Text
  /-- `indexfile_st.st_mtime_ns`, for what the index file leads to. -/
  indexMtime : ℤ
  ignore : IgnoreEntries := []
  /-- The `CHECK` entries, in the order in which the loop takes them. -/
  check : List Text := []
  dir_parts : ∀ c ∈ dir, PathPart c
  indexfile_valid : ValidName indexfile

/-- The variables of the scan: `src_mtime`, and `newest_file`, which may be `None`. -/
structure Scan where
  srcMtime : ℤ
  newestFile : Option Text

/-- Why the scan raises an exception. -/
inductive ScanError
  /-- A file does not exist, or is not a directory. -/
  | notFound
  /-- `None` is used as a path. -/
  | typeError

/-- The names in the output of `find`, without `./`. -/
def foundFiles (stdout : Text) : List Text := (stdout.splitOn '\n').dropLast.map (List.drop 2)

section Def

variable (fs : FileSystem) (srcroot : List Text) (archs : List Arch)

/-- A round of the loop over the output of `find`. -/
def noteFile (dir : List Text) (s : Scan) (fn : Text) : Except ScanError Scan :=
  match fs.mtime (joinDir dir fn) with
  | none => .error .notFound
  | some t => .ok (if t > s.srcMtime then ⟨t, some fn⟩ else s)

/-- `Pkg.find_sources`, with the `src_mtime` before it. -/
def findSources (dir : List Text) (reffile : Text) (ignore : IgnoreEntries) (srcMtime : ℤ) :
    Except ScanError Scan :=
  match fs.node dir with
  | some (.dir mtime tree) =>
    let args := makeFindSourcesArgs (fun t => fs.isDir (joinDir dir t)) archs reffile ignore
    match run (fun t => fs.mtime (joinDir dir t)) mtime tree.entries args with
    | none => .ok ⟨srcMtime, none⟩
    | some printed =>
      (foundFiles (printed.flatMap (· ++ ['\n']))).foldlM (noteFile fs dir)
        ⟨srcMtime, some reffile⟩
  | _ => .error .notFound

/-- Where a `CHECK` entry leads to. -/
def checkPath (dir : List Text) (filename : Text) : List Text :=
  if filename.head? = some '/' then srcroot ++ pathParts filename else dir ++ pathParts filename

/-- A round of the loop over the `CHECK` entries. -/
def checkSource (dir : List Text) (s : Scan) (filename : Text) : Except ScanError Scan :=
  let path := checkPath srcroot dir filename
  match fs.node path with
  | none => .error .notFound
  | some (.dir _ _) =>
    match s.newestFile with
    | none => .error .typeError
    | some newestFile =>
      findSources fs archs path (pathStr (joinDir dir newestFile)) [] s.srcMtime
  | some (.leaf l) =>
    .ok (if l.mtime > s.srcMtime then
      ⟨l.mtime, some (if filename.head? = some '/' then pathStr path else filename)⟩ else s)

/-- The scan of the package directory, which `IGNORE .` skips. -/
def scanPkgDir (pkg : ScannedPkg) : Except ScanError Scan :=
  if pkg.ignore.any fun e => decide (e.1 = ".".toList) && evalIgnoreCond e.2 archs then
    .ok ⟨pkg.indexMtime, some pkg.indexfile⟩
  else findSources fs archs pkg.dir pkg.indexfile pkg.ignore pkg.indexMtime

/-- `Pkg.resolve_sources`. -/
def ScannedPkg.resolveSources (pkg : ScannedPkg) : Except ScanError Scan := do
  let s ← scanPkgDir fs archs pkg
  pkg.check.foldlM (checkSource fs srcroot archs pkg.dir) s

end Def

/-! ### Paths -/

theorem pathPart_of_mem_joinDir {dir : List Text} (hdir : ∀ c ∈ dir, PathPart c) {t c : Text}
    (h : c ∈ joinDir dir t) : PathPart c := by
  rw [joinDir] at h
  split_ifs at h
  · exact pathPart_of_mem_pathParts h
  · rcases List.mem_append.1 h with h | h
    · exact hdir c h
    · exact pathPart_of_mem_pathParts h

theorem joinDir_pathStr (dir : List Text) {p : List Text} (h : ∀ c ∈ p, PathPart c) :
    joinDir dir (pathStr p) = p := by
  rw [pathStr]
  split_ifs with hp
  · rw [hp]
    rfl
  · obtain ⟨c, l, rfl⟩ := List.exists_cons_of_ne_nil hp
    rw [joinDir, if_pos (by rw [joinPath_cons]; rfl), pathParts_joinPath [] h]
    rfl

theorem pathStr_ne_nil (p : List Text) : pathStr p ≠ [] := by
  rw [pathStr]
  split_ifs with hp
  · decide
  · obtain ⟨c, l, rfl⟩ := List.exists_cons_of_ne_nil hp
    rw [joinPath_cons]
    simp

/-- A name that `find` has printed, seen from the directory. -/
theorem joinDir_found (dir : List Text) {loc : List Text} (hne : loc ≠ [])
    (h : ∀ c ∈ loc, ValidName c) :
    joinDir dir ((joinPath ['.'] loc).drop 2) = dir ++ loc := by
  obtain ⟨c, l, rfl⟩ := List.exists_cons_of_ne_nil hne
  have hc := h c List.mem_cons_self
  have hdrop : (joinPath ['.'] (c :: l)).drop 2 = joinPath c l := by
    rw [joinPath_cons]
    rfl
  have hhead : (joinPath c l).head? ≠ some '/' := by
    obtain ⟨x, c, rfl⟩ := List.exists_cons_of_ne_nil hc.1.1
    intro hx
    have hx' : x = '/' := by simpa [joinPath] using hx
    exact hc.1.2.1 (by simp [hx'])
  rw [hdrop, joinDir, if_neg hhead, pathParts_joinPath c fun c hc' => (h c (.tail _ hc')).1,
    pathParts_of_pathPart hc.1, List.singleton_append]

theorem joinDir_indexfile (pkg : ScannedPkg) :
    joinDir pkg.dir pkg.indexfile = pkg.dir ++ [pkg.indexfile] := by
  have hname : ∀ c ∈ [pkg.indexfile], ValidName c := by simpa using pkg.indexfile_valid
  simpa [joinPath] using joinDir_found pkg.dir (List.cons_ne_nil _ _) hname

/-- Lines without newlines are read as they have been written. -/
theorem foundFiles_flatMap {printed : List Text} (h : ∀ t ∈ printed, '\n' ∉ t) :
    foundFiles (printed.flatMap (· ++ ['\n'])) = printed.map (List.drop 2) := by
  have hsplit : (printed.flatMap (· ++ ['\n'])).splitOn '\n' = printed ++ [[]] := by
    induction printed with
    | nil => rfl
    | cons t printed ih =>
      rw [List.flatMap_cons, List.append_assoc, List.singleton_append,
        List.splitOn_append_cons_self_of_not_mem (h t List.mem_cons_self),
        ih fun t' ht' => h t' (.tail _ ht')]
      rfl
  rw [foundFiles, hsplit, List.dropLast_concat]

/-! ### What is found -/

/-- `b` is the latest of `a` and the times of `P`. -/
structure Raises (P : ℤ → Prop) (a b : ℤ) : Prop where
  le : a ≤ b
  bound : ∀ t, P t → t ≤ b
  mem : b = a ∨ P b

namespace Raises

variable {P Q : ℤ → Prop} {a b c : ℤ}

theorem refl (h : ∀ t, ¬ P t) (a : ℤ) : Raises P a a :=
  ⟨Int.le_refl a, fun t ht => absurd ht (h t), .inl rfl⟩

theorem trans (h : Raises P a b) (h' : Raises Q b c) : Raises (fun t => P t ∨ Q t) a c := by
  refine ⟨Int.le_trans h.le h'.le, ?_, ?_⟩
  · rintro t (ht | ht)
    · exact Int.le_trans (h.bound t ht) h'.le
    · exact h'.bound t ht
  · rcases h'.mem with rfl | hc
    · exact h.mem.imp_right .inl
    · exact .inr (.inr hc)

theorem congr (h : Raises P a b) (heq : ∀ t, P t ↔ Q t) : Raises Q a b :=
  ⟨h.le, fun t ht => h.bound t ((heq t).2 ht), h.mem.imp_right (heq b).1⟩

theorem ite (s t : ℤ) : Raises (· = t) s (if t > s then t else s) := by
  split_ifs with h
  · exact ⟨Int.le_of_lt h, fun _ ht => Int.le_of_eq ht, .inr rfl⟩
  · exact ⟨Int.le_refl s, fun _ ht => ht ▸ Int.not_lt.1 h, .inl rfl⟩

/-- What is found among some of the times is the latest of all iff that is among them. -/
theorem eq_iff (h : Raises P a b) (h' : Raises Q a c) (hPQ : ∀ t, P t → Q t) :
    b = c ↔ c = a ∨ P c := by
  constructor
  · rintro rfl
    exact h.mem
  · intro hc
    refine Int.le_antisymm ?_ ?_
    · rcases h.mem with rfl | hb
      · exact h'.le
      · exact h'.bound b (hPQ b hb)
    · rcases hc with rfl | hc
      · exact h.le
      · exact h.bound c hc

theorem foldl_max (l : List ℤ) (a : ℤ) : Raises (· ∈ l) a (l.foldl max a) := by
  induction l generalizing a with
  | nil => exact refl (by simp) a
  | cons t l ih =>
    have hmax : Raises (· = t) a (max a t) :=
      ⟨Int.le_max_left a t, fun _ ht => ht ▸ Int.le_max_right a t, by omega⟩
    exact (hmax.trans (ih (max a t))).congr fun x => List.mem_cons.symm

end Raises

variable {fs : FileSystem} {srcroot : List Text} {archs : List Arch}

theorem foldlM_noteFile {dir : List Text} {fns : List Text} {s s' : Scan}
    (h : fns.foldlM (noteFile fs dir) s = .ok s') :
    Raises (fun t => ∃ fn ∈ fns, fs.mtime (joinDir dir fn) = some t) s.srcMtime s'.srcMtime ∧
      (s' = s ∨ s.srcMtime < s'.srcMtime ∧ ∃ fn ∈ fns, s'.newestFile = some fn ∧
        fs.mtime (joinDir dir fn) = some s'.srcMtime) := by
  induction fns generalizing s with
  | nil =>
    cases h
    exact ⟨.refl (by simp) _, .inl rfl⟩
  | cons fn fns ih =>
    rw [List.foldlM_cons, noteFile] at h
    cases ht : fs.mtime (joinDir dir fn) with
    | none => rw [ht] at h; cases h
    | some t =>
      rw [ht] at h
      obtain ⟨hrest, hnewest⟩ := ih h
      have hfirst : Raises (· = t) s.srcMtime
          (if t > s.srcMtime then (⟨t, some fn⟩ : Scan) else s).srcMtime := by
        have hite := Raises.ite s.srcMtime t
        split_ifs at hite ⊢ <;> exact hite
      refine ⟨(hfirst.trans hrest).congr fun t' => by simp [ht, eq_comm], ?_⟩
      rcases hnewest with rfl | ⟨hlt, fn', hfn', hnewest⟩
      · split_ifs with hnewer
        · exact .inr ⟨hnewer, fn, List.mem_cons_self, rfl, ht⟩
        · exact .inl rfl
      · exact .inr ⟨Int.lt_of_le_of_lt hfirst.le hlt, fn', .tail _ hfn', hnewest⟩

/-- What is found in a directory by a scan with a reference file from time `ρ`. -/
structure Finds (fs : FileSystem) (archs : List Arch) (dir : List Text) (reffile : Text)
    (ignore : IgnoreEntries) (tree : FileTree) (ρ : ℤ) (srcMtime : ℤ) (s : Scan) : Prop where
  raises : Raises (fun t => ∃ loc l, (loc, .leaf l) ∈ tree.entries.nodes ∧ ρ < l.mtime ∧
    ¬ LeftOut (fun t => fs.isDir (joinDir dir t)) archs ignore loc ∧ l.mtime = t)
    srcMtime s.srcMtime
  newest : s = ⟨srcMtime, some reffile⟩ ∨ srcMtime < s.srcMtime ∧ ∃ loc l,
    (loc, .leaf l) ∈ tree.entries.nodes ∧ s.newestFile = some ((joinPath ['.'] loc).drop 2) ∧
      l.mtime = s.srcMtime

/-- **What is found in one directory**, with a reference file that exists. -/
theorem findSources_spec (hnl : fs.NoNewlines) {dir : List Text} {mtime : ℤ} {tree : FileTree}
    (hnode : fs.node dir = some (.dir mtime tree)) {reffile : Text} (hne : reffile ≠ []) {ρ : ℤ}
    (hr : fs.mtime (joinDir dir reffile) = some ρ) {ignore : IgnoreEntries}
    (hpaths : ∀ e ∈ ignore, IgnorablePath e.1) {srcMtime : ℤ} {s : Scan}
    (h : findSources fs archs dir reffile ignore srcMtime = .ok s) :
    Finds fs archs dir reffile ignore tree ρ srcMtime s := by
  obtain ⟨printed, hrun, hprinted⟩ := exists_run_makeFindSourcesArgs
    (fun t => fs.mtime (joinDir dir t)) hne hr hpaths tree mtime
    (fun t => fs.isDir (joinDir dir t)) archs
  rw [findSources, hnode] at h
  dsimp only at h
  rw [hrun] at h
  dsimp only at h
  -- no path has a newline in it
  have hlines : ∀ t ∈ printed, '\n' ∉ t := by
    intro t ht
    obtain ⟨loc, l, hx, rfl, -⟩ := (hprinted t).1 ht
    simp only [joinPath, List.mem_append, List.mem_flatMap, List.mem_cons, not_or,
      not_exists, not_and]
    exact ⟨by decide, fun c hc => ⟨by decide, hnl dir mtime tree hnode _ hx c hc⟩⟩
  rw [foundFiles_flatMap hlines] at h
  have htime : ∀ loc l, (loc, .leaf l) ∈ tree.entries.nodes →
      fs.mtime (joinDir dir ((joinPath ['.'] loc).drop 2)) = some l.mtime := by
    intro loc l hx
    rw [joinDir_found dir (ne_nil_of_mem_nodes hx) (tree.valid _ hx), FileSystem.mtime,
      fs.node_append hnode hx]
    rfl
  obtain ⟨hraises, hnewest⟩ := foldlM_noteFile h
  constructor
  · refine hraises.congr fun t => ⟨?_, ?_⟩
    · rintro ⟨fn, hfn, ht⟩
      obtain ⟨path, hpath, rfl⟩ := List.mem_map.1 hfn
      obtain ⟨loc, l, hx, rfl, hnewer, hleft⟩ := (hprinted path).1 hpath
      rw [htime loc l hx] at ht
      exact ⟨loc, l, hx, hnewer, hleft, Option.some.inj ht⟩
    · rintro ⟨loc, l, hx, hnewer, hleft, rfl⟩
      exact ⟨_, List.mem_map_of_mem ((hprinted _).2 ⟨loc, l, hx, rfl, hnewer, hleft⟩),
        htime loc l hx⟩
  · refine hnewest.imp_right ?_
    rintro ⟨hlt, fn, hfn, hs, ht⟩
    obtain ⟨path, hpath, rfl⟩ := List.mem_map.1 hfn
    obtain ⟨loc, l, hx, rfl, -⟩ := (hprinted path).1 hpath
    rw [htime loc l hx] at ht
    exact ⟨hlt, loc, l, hx, hs, Option.some.inj ht⟩

/-- Without its reference file the scan of a directory finds nothing. -/
theorem findSources_of_missing {dir : List Text} {mtime : ℤ} {tree : FileTree}
    (hnode : fs.node dir = some (.dir mtime tree)) {reffile : Text} (hne : reffile ≠ [])
    (hr : fs.mtime (joinDir dir reffile) = none) (srcMtime : ℤ) :
    findSources fs archs dir reffile [] srcMtime = .ok ⟨srcMtime, none⟩ := by
  obtain ⟨args, hargs, hparse⟩ := parse_makeFindSourcesArgs_eq_none
    (fun t => fs.mtime (joinDir dir t)) hne hr (fun t => fs.isDir (joinDir dir t)) archs
  rw [findSources, hnode]
  dsimp only
  rw [hargs, run, hparse]
  rfl

end Pbuild
