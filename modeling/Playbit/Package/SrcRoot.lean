import Playbit.Python.Path

/-!
# The source root

`find_srcroot` climbs from the directory of a package to the root of the file system, first in
search of a `.git` directory and then of a `.pbuild` file.  Both loops end at `Path('/')`.  A path
that starts with two slashes has another root, `Path('//')`, which is its own parent: from there
the loop goes on forever.

So the search ends, with the nearest directory of the kind it is for, iff the path does not start
with two slashes or is below a `.git` directory (`findsNearest_iff`); `double_slash_never_ends` is
one that does not end.
-/

namespace Pbuild

open Python

/-- The current directory of a process. -/
structure WorkingDir where
  path : Text
  isabs_path : isabs path = true

/-- The directory that an argument names. -/
def resolvePkgdir (cwd : WorkingDir) (arg : Text) : PurePath := .parse (abspath cwd.path arg)

/-- `resolve_pkgdirs`. -/
def resolvePkgdirs (cwd : WorkingDir) (args : List Text) : List PurePath :=
  if args.length = 0 then [.parse cwd.path] else args.map (resolvePkgdir cwd)

/-- What `is_dir` and `is_file` say. -/
structure FileTests where
  isDir : PurePath → Bool
  isFile : PurePath → Bool

/-- `(dir / '.git').is_dir()` -/
def FileTests.hasGit (tests : FileTests) (dir : PurePath) : Bool :=
  tests.isDir (dir.child ".git".toList)

/-- `(dir / '.pbuild').is_file()` -/
def FileTests.hasPbuild (tests : FileTests) (dir : PurePath) : Bool :=
  tests.isFile (dir.child ".pbuild".toList)

/-- One of the loops of `find_srcroot`: it is left with a directory, or at the root. -/
def climb (found : PurePath → Bool) : ℕ → PurePath → Option (Option PurePath)
  | 0, _ => none
  | fuel + 1, dir =>
    if dir = .parse ['/'] then some none
    else if found dir then some (some dir)
    else climb found fuel dir.parent

/-- How `find_srcroot` ends. -/
inductive SrcrootEnd
  | returns (dir : PurePath)
  /-- `sys.exit(1)`, after a message. -/
  | exits (message : Text)
  deriving DecidableEq

/-- The message of a search in vain. -/
def srcrootMessage (repr : Text → Text) (pkgdir : PurePath) : Text :=
  "Can not infer SRCROOT of ".toList ++ repr pkgdir.str

/-- `find_srcroot`. -/
def findSrcroot (tests : FileTests) (repr : Text → Text) (fuel : ℕ) (pkgdir : PurePath) :
    Option SrcrootEnd :=
  match climb tests.hasGit fuel pkgdir with
  | none => none
  | some (some dir) => some (.returns dir)
  | some none =>
    match climb tests.hasPbuild fuel pkgdir with
    | none => none
    | some (some dir) => some (.returns dir)
    | some none => some (.exits (srcrootMessage repr pkgdir))

/-- The nearest directory with `.git`, or else with `.pbuild`. -/
def nearestSrcroot (tests : FileTests) (repr : Text → Text) (pkgdir : PurePath) : SrcrootEnd :=
  match (pkgdir.ancestors.find? tests.hasGit).or (pkgdir.ancestors.find? tests.hasPbuild) with
  | some dir => .returns dir
  | none => .exits (srcrootMessage repr pkgdir)

/-- `find_srcroot` comes to an end, with the nearest directory. -/
def FindsNearest (tests : FileTests) (repr : Text → Text) (pkgdir : PurePath) : Prop :=
  ∃ n, ∀ fuel ≥ n, findSrcroot tests repr fuel pkgdir = some (nearestSrcroot tests repr pkgdir)

/-! ### The loops -/

section Climb

variable (found : PurePath → Bool)

theorem climb_root (fuel : ℕ) : climb found (fuel + 1) ⟨.slash, []⟩ = some none := if_pos rfl

theorem climb_succ {dir : PurePath} (h : dir ≠ ⟨.slash, []⟩) (fuel : ℕ) :
    climb found (fuel + 1) dir =
      if found dir then some (some dir) else climb found fuel dir.parent := if_neg h

/-- Below `/` the loop finds the nearest directory, or comes to the root. -/
theorem climb_of_slash (parts : List Text) {fuel : ℕ} (h : parts.length < fuel) :
    climb found fuel ⟨.slash, parts⟩ = some ((PurePath.ancestors ⟨.slash, parts⟩).find? found) := by
  induction parts using List.reverseRecOn generalizing fuel with
  | nil =>
    obtain ⟨fuel, rfl⟩ := Nat.exists_eq_add_one_of_ne_zero (Nat.ne_zero_of_lt h)
    rw [climb_root, PurePath.ancestors_nil, List.find?_nil]
  | append_singleton parts x ih =>
    obtain ⟨fuel, rfl⟩ := Nat.exists_eq_add_one_of_ne_zero (Nat.ne_zero_of_lt h)
    rw [List.length_append, List.length_singleton] at h
    rw [climb_succ found (by simp), PurePath.ancestors_concat, List.find?_cons,
      PurePath.parent_concat, ih (Nat.lt_of_succ_lt_succ h)]
    cases found ⟨.slash, parts ++ [x]⟩ <;> rfl

/-- Below `//` it never comes to `/`: nothing ends the loop but a directory that is found. -/
theorem climb_of_slashes (parts : List Text) (fuel : ℕ) :
    climb found fuel ⟨.slashes, parts⟩ ≠ some none := by
  induction fuel generalizing parts with
  | zero => simp [climb]
  | succ fuel ih =>
    rw [climb_succ found (by simp)]
    split_ifs
    · simp
    · exact ih parts.dropLast

theorem climb_slashes_eq_none (h : ∀ dir, found dir = false) (parts : List Text) (fuel : ℕ) :
    climb found fuel ⟨.slashes, parts⟩ = none := by
  induction fuel generalizing parts with
  | zero => rfl
  | succ fuel ih =>
    rw [climb_succ found (by simp), h, if_neg Bool.false_ne_true]
    exact ih parts.dropLast

theorem climb_of_slashes_found {parts : List Text} {dir : PurePath}
    (hdir : (PurePath.ancestors ⟨.slashes, parts⟩).find? found = some dir) {fuel : ℕ}
    (h : parts.length < fuel) : climb found fuel ⟨.slashes, parts⟩ = some (some dir) := by
  induction parts using List.reverseRecOn generalizing fuel with
  | nil => cases hdir
  | append_singleton parts x ih =>
    obtain ⟨fuel, rfl⟩ := Nat.exists_eq_add_one_of_ne_zero (Nat.ne_zero_of_lt h)
    rw [List.length_append, List.length_singleton] at h
    rw [PurePath.ancestors_concat, List.find?_cons] at hdir
    rw [climb_succ found (by simp), PurePath.parent_concat]
    cases hx : found ⟨.slashes, parts ++ [x]⟩ with
    | true =>
      rw [hx] at hdir
      rw [if_pos rfl]
      exact congrArg some hdir
    | false =>
      rw [hx] at hdir
      rw [if_neg Bool.false_ne_true]
      exact ih hdir (Nat.lt_of_succ_lt_succ h)

/-- If the loop ends with a directory that is none of those below `//`, it is `//` itself. -/
theorem eq_root_of_climb {parts : List Text} {fuel : ℕ} {dir : PurePath}
    (hnone : (PurePath.ancestors ⟨.slashes, parts⟩).find? found = none)
    (h : climb found fuel ⟨.slashes, parts⟩ = some (some dir)) : dir = ⟨.slashes, []⟩ := by
  induction fuel generalizing parts with
  | zero => cases h
  | succ fuel ih =>
    rw [climb_succ found (by simp)] at h
    cases parts using List.reverseRecOn with
    | nil =>
      split_ifs at h
      · cases h
        rfl
      · exact ih hnone h
    | append_singleton parts x =>
      rw [PurePath.ancestors_concat, List.find?_cons] at hnone
      cases hx : found ⟨.slashes, parts ++ [x]⟩ with
      | true =>
        rw [hx] at hnone
        cases hnone
      | false =>
        rw [hx] at hnone h
        rw [if_neg Bool.false_ne_true, PurePath.parent_concat] at h
        exact ih hnone h

end Climb

/-! ### The search -/

variable {tests : FileTests} {repr : Text → Text}

theorem findsNearest_of_slash (parts : List Text) : FindsNearest tests repr ⟨.slash, parts⟩ := by
  refine ⟨parts.length + 1, fun fuel hfuel => ?_⟩
  rw [findSrcroot, climb_of_slash _ parts hfuel, climb_of_slash _ parts hfuel, nearestSrcroot]
  cases (PurePath.ancestors ⟨.slash, parts⟩).find? tests.hasGit with
  | some dir => rfl
  | none => cases (PurePath.ancestors ⟨.slash, parts⟩).find? tests.hasPbuild <;> rfl

theorem findsNearest_slashes_iff (parts : List Text) :
    FindsNearest tests repr ⟨.slashes, parts⟩ ↔
      ∃ dir ∈ PurePath.ancestors ⟨.slashes, parts⟩, tests.hasGit dir = true := by
  rw [← List.find?_isSome, Option.isSome_iff_exists]
  constructor
  · rintro ⟨n, h⟩
    by_contra hnot
    have hnone : (PurePath.ancestors ⟨.slashes, parts⟩).find? tests.hasGit = none := by
      rwa [← Option.not_isSome_iff_eq_none, Option.isSome_iff_exists]
    have hend := h n le_rfl
    rw [findSrcroot] at hend
    rcases hclimb : climb tests.hasGit n ⟨.slashes, parts⟩ with - | - | dir
    · rw [hclimb] at hend
      cases hend
    · exact climb_of_slashes _ parts n hclimb
    · -- the loop was left at `//`, which is not below the root
      rw [hclimb, eq_root_of_climb _ hnone hclimb, nearestSrcroot, hnone, Option.none_or] at hend
      cases hp : (PurePath.ancestors ⟨.slashes, parts⟩).find? tests.hasPbuild with
      | none =>
        rw [hp] at hend
        cases hend
      | some dir' =>
        rw [hp] at hend
        cases hend
        exact PurePath.parts_ne_nil_of_mem_ancestors (List.mem_of_find?_eq_some hp) rfl
  · rintro ⟨dir, hdir⟩
    refine ⟨parts.length + 1, fun fuel hfuel => ?_⟩
    rw [findSrcroot, climb_of_slashes_found _ hdir hfuel, nearestSrcroot, hdir]
    rfl

/-! ### Arguments -/

/-- A relative path has the root of the directory it is joined to. -/
theorem root_osPathJoin {cwd arg : Text} (hcwd : isabs cwd = true) (harg : isabs arg = false) :
    (splitroot (osPathJoin cwd arg)).1 = (splitroot cwd).1 := by
  have hhead : ∀ c t, arg = c :: t → c ≠ '/' := by
    rintro c t rfl rfl
    cases harg
  rw [osPathJoin, if_neg (by simp [harg])]
  rcases cwd with - | ⟨a, - | ⟨b, - | ⟨c, cwd⟩⟩⟩
  · cases hcwd
  all_goals
    obtain rfl : a = '/' := by simpa [isabs] using hcwd
  · rw [if_pos (by simp)]
    cases arg with
    | nil => rfl
    | cons d arg => simp [splitroot, hhead d arg rfl]
  · by_cases hb : b = '/'
    · subst hb
      rw [if_pos (by simp)]
      cases arg with
      | nil => rfl
      | cons d arg => simp [splitroot, hhead d arg rfl]
    · rw [if_neg (by simp [hb])]
      simp [splitroot, hb]
  · by_cases hb : b = '/'
    · subst hb
      by_cases hc : c = '/'
      · subst hc
        split_ifs <;> simp [splitroot]
      · split_ifs <;> simp [splitroot, hc]
    · split_ifs <;> simp [splitroot, hb]

theorem root_ne_relative_of_isabs {path : Text} (h : isabs path = true) :
    (splitroot path).1 ≠ .relative := fun hrel => by
  rw [splitroot_eq_relative_iff.1 hrel] at h
  cases h

theorem root_resolvePkgdir (cwd : WorkingDir) (arg : Text) :
    (resolvePkgdir cwd arg).root = (splitroot (if isabs arg then arg else cwd.path)).1 := by
  unfold resolvePkgdir abspath
  cases harg : isabs arg with
  | true => rw [if_pos rfl, if_pos rfl, PurePath.parse_normpath (root_ne_relative_of_isabs harg)]
  | false =>
    have hroot := root_osPathJoin cwd.isabs_path harg
    have hne := root_ne_relative_of_isabs cwd.isabs_path
    rw [if_neg Bool.false_ne_true, if_neg Bool.false_ne_true,
      PurePath.parse_normpath (hroot ▸ hne), hroot]

theorem findsNearest_iff_root {pkgdir : PurePath} (h : pkgdir.root ≠ .relative) :
    FindsNearest tests repr pkgdir ↔
      pkgdir.root ≠ .slashes ∨ ∃ dir ∈ pkgdir.ancestors, tests.hasGit dir = true := by
  obtain ⟨root, parts⟩ := pkgdir
  cases root with
  | relative => exact absurd rfl h
  | slash => exact iff_of_true (findsNearest_of_slash parts) (.inl (by simp))
  | slashes => simpa using findsNearest_slashes_iff parts

theorem root_ne_relative (cwd : WorkingDir) {args : List Text} {pkgdir : PurePath}
    (h : pkgdir ∈ resolvePkgdirs cwd args) : pkgdir.root ≠ .relative := by
  unfold resolvePkgdirs at h
  split_ifs at h
  · rw [List.mem_singleton.1 h]
    exact root_ne_relative_of_isabs cwd.isabs_path
  · obtain ⟨arg, -, rfl⟩ := List.mem_map.1 h
    rw [root_resolvePkgdir]
    split_ifs with harg
    · exact root_ne_relative_of_isabs harg
    · exact root_ne_relative_of_isabs cwd.isabs_path

/-- **The search ends as it should** iff the path does not start with two slashes, or is below a
directory with `.git`. -/
theorem findsNearest_iff (tests : FileTests) (repr : Text → Text) (cwd : WorkingDir) (arg : Text) :
    FindsNearest tests repr (resolvePkgdir cwd arg) ↔
      (splitroot (if isabs arg then arg else cwd.path)).1 ≠ .slashes ∨
        ∃ dir ∈ (resolvePkgdir cwd arg).ancestors, tests.hasGit dir = true := by
  have hmem : resolvePkgdir cwd arg ∈ resolvePkgdirs cwd [arg] := List.mem_singleton_self _
  rw [← root_resolvePkgdir]
  exact findsNearest_iff_root (root_ne_relative cwd hmem)

/-- Without an argument the search starts in the working directory. -/
theorem findsNearest_cwd_iff (cwd : WorkingDir) : ∀ pkgdir ∈ resolvePkgdirs cwd [],
    (FindsNearest tests repr pkgdir ↔ (splitroot cwd.path).1 ≠ .slashes ∨
      ∃ dir ∈ pkgdir.ancestors, tests.hasGit dir = true) := by
  intro pkgdir h
  have hroot := root_ne_relative cwd h
  cases List.mem_singleton.1 h
  exact findsNearest_iff_root hroot

/-- `pbuild //x` outside of a repository: whatever the number of rounds, the search goes on. -/
theorem double_slash_never_ends :
    let tests : FileTests := { isDir := fun _ => false, isFile := fun _ => false }
    let pkgdir := resolvePkgdir ⟨"/".toList, rfl⟩ "//x".toList
    (∀ fuel, findSrcroot tests id fuel pkgdir = none) ∧ ¬ FindsNearest tests id pkgdir := by
  intro tests pkgdir
  have hnone : ∀ fuel, findSrcroot tests id fuel pkgdir = none := by
    intro fuel
    have hclimb : climb tests.hasGit fuel pkgdir = none :=
      climb_slashes_eq_none _ (fun _ => rfl) ["x".toList] fuel
    rw [findSrcroot, hclimb]
  refine ⟨hnone, ?_⟩
  rintro ⟨n, h⟩
  have hend := h n le_rfl
  rw [hnone] at hend
  cases hend

end Pbuild
