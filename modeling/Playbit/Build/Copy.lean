import Mathlib.Data.Option.Basic
import Mathlib.Logic.Function.Basic
import Playbit.Build.Install
import Playbit.Graph.Parts
import Playbit.Machine.FileTree

/-!
# What an installation leaves

`install_pkg` runs `cp -udRT` for the output of a package.  A directory is merged with the one that
is there, and a file replaces one that is older, in seconds; its copy is as old as the copying.  So
what has been copied first stays: a package that brings a file which something it needs has
installed **does not replace it** (`dependency_file_stays`).

A regular file that `cp` has met before, under another name, is not copied again but linked to the
first copy, even if there is none since it could not be made.  At a path whose file has no other
name in the output, however, a copy leaves what the file there and the one in the output say
(`dest_copyFile`).
-/

namespace Pbuild

open Python
open FileTree (Entry)

variable {α : Type*}

/-! ### `cp` -/

/-- Anything but a directory, where it has been installed: what it is, and `st_mtime`. -/
structure FileLeaf (α : Type*) where
  content : α
  mtime : ℤ
  deriving DecidableEq

/-- Anything but a directory in the output of a package. -/
structure SourceLeaf (α : Type*) extends FileLeaf α where
  /-- `st_ino` of a regular file. -/
  ino : Option ℕ
  deriving DecidableEq

/-- The output of a package. -/
abbrev OutTree (α : Type*) := FileTree Text Unit (SourceLeaf α)

/-- What is at each path of the directory in which packages are installed. -/
abbrev Installed (α : Type*) := List Text → Option (Entry Unit (FileLeaf α))

/-- The times that `cp` has to do with. -/
structure CopyTimes where
  /-- When a copy is written to a path. -/
  written : List Text → ℤ
  /-- `st_mtime` of a directory at a path, when `cp` would replace it by something else. -/
  dirMtime : List Text → ℤ

/-- The state of `cp`. -/
structure Copying (α : Type*) where
  /-- `ino_dev_hashtable`: the regular files, with the paths that they have been copied to. -/
  links : List (ℕ × List Text) := []
  dest : Installed α

/-- A copy that is made at a time. -/
def FileLeaf.copy (t : ℤ) (l : FileLeaf α) : FileLeaf α :=
  { l with mtime := t }

namespace Copying

/-- Replaces what is at a path. -/
def set (s : Copying α) (path : List Text) (e : Option (Entry Unit (FileLeaf α))) : Copying α :=
  { s with dest := Function.update s.dest path e }

/-- What is at a path after a file has been created, after `unlink` if there was one.  `unlink`
fails for a directory. -/
def created (l : FileLeaf α) : Option (Entry Unit (FileLeaf α)) → Option (Entry Unit (FileLeaf α))
  | some (.dir d) => some (.dir d)
  | _ => some (.leaf l)

/-- What is at a path after `link` from what is at `target`, once more after `unlink` if that
fails. -/
def linked : Option (Entry Unit (FileLeaf α)) → Option (Entry Unit (FileLeaf α)) →
    Option (Entry Unit (FileLeaf α))
  | some (.leaf l), none => some (.leaf l)
  | some (.leaf l), some (.leaf _) => some (.leaf l)
  -- what was there is gone, and there is still nothing to link to
  | _, some (.leaf _) => none
  | _, e => e

/-- The source is not newer than what is at the path. -/
def upToDate (s : Copying α) (T : CopyTimes) (path : List Text) (l : FileLeaf α) : Bool :=
  match s.dest path with
  | none => false
  | some (.leaf d) => decide (l.mtime ≤ d.mtime)
  | some (.dir _) => decide (l.mtime ≤ T.dirMtime path)

/-- The last part of `copy_file` for anything but a directory. -/
def place (T : CopyTimes) (path : List Text) (l : SourceLeaf α) (s : Copying α) : Copying α :=
  match l.ino with
  | none => s.set path (created (l.copy (T.written path)) (s.dest path))
  | some ino =>
    match s.links.lookup ino with
    | some target => s.set path (linked (s.dest target) (s.dest path))
    | none =>
      { s with links := (ino, path) :: s.links }.set path
        (created (l.copy (T.written path)) (s.dest path))

/-- `copy_file` for anything but a directory. -/
def copyLeaf (T : CopyTimes) (path : List Text) (l : SourceLeaf α) (s : Copying α) : Copying α :=
  if s.upToDate T path l.toFileLeaf then s else s.place T path l

/-- The first part of `copy_file` for a directory: it is created, or there is one. -/
def enterDir (path : List Text) (s : Copying α) : Option (Copying α) :=
  match s.dest path with
  | none => some (s.set path (some (.dir ())))
  | some (.dir _) => some s
  -- the target is not a directory
  | some (.leaf _) => none

end Copying

/-- The loop of `copy_file` over the entries of a directory. -/
def copyDir (T : CopyTimes) : List Text → OutTree α → Copying α → Copying α
  | _, .nil, s => s
  | path, .leaf x l rest, s => copyDir T path rest (s.copyLeaf T (path ++ [x]) l)
  | path, .dir x _ sub rest, s =>
    copyDir T path rest <|
      match s.enterDir (path ++ [x]) with
      | none => s
      | some s' => copyDir T (path ++ [x]) sub s'

/-- `copy_file` for a directory. -/
def copyTree (T : CopyTimes) (path : List Text) (t : OutTree α) (s : Copying α) : Copying α :=
  match s.enterDir path with
  | none => s
  | some s' => copyDir T path t s'

/-- What `cp` leaves.  There is no source if the package has not been built. -/
def copyFile (T : CopyTimes) (source : Option (OutTree α)) (dest : Installed α) : Installed α :=
  match source with
  | none => dest
  | some t => (copyTree T [] t { dest := dest }).dest

/-! ### What is at a path after a copy -/

/-- What is at a path after something has been copied to it. -/
def copyEntry (t : ℤ) : Option (Entry Unit (SourceLeaf α)) → Option (Entry Unit (FileLeaf α)) →
    Option (Entry Unit (FileLeaf α))
  | none, dest => dest
  | some (.dir d), none => some (.dir d)
  | some (.leaf l), none => some (.leaf (l.copy t))
  | some (.leaf l), some (.leaf d) =>
    if l.mtime ≤ d.mtime then some (.leaf d) else some (.leaf (l.copy t))
  | some _, some d => some d

namespace Copying

variable {T : CopyTimes} {path p : List Text} {s s' : Copying α}

@[simp] theorem dest_set_self (e : Option (Entry Unit (FileLeaf α))) :
    (s.set path e).dest path = e := Function.update_self ..

@[simp] theorem dest_set_of_ne (h : p ≠ path) (e : Option (Entry Unit (FileLeaf α))) :
    (s.set path e).dest p = s.dest p := Function.update_of_ne h ..

@[simp] theorem links_set (e : Option (Entry Unit (FileLeaf α))) :
    (s.set path e).links = s.links := rfl

/-- Copying a file changes its path only, and only its inode becomes known. -/
theorem place_cases (l : SourceLeaf α) : ∃ e links,
    s.place T path l = { s with links := links }.set path e ∧
      ∀ i ∈ links.map Prod.fst, i ∈ s.links.map Prod.fst ∨ l.ino = some i := by
  unfold place
  cases hino : l.ino with
  | none => exact ⟨_, s.links, rfl, fun i hi => .inl hi⟩
  | some ino =>
    cases hlink : s.links.lookup ino with
    | some target =>
      simp only [hlink]
      exact ⟨_, s.links, rfl, fun i hi => .inl hi⟩
    | none =>
      simp only [hlink]
      refine ⟨_, _, rfl, fun i hi => ?_⟩
      rcases List.mem_cons.1 hi with rfl | hi
      · exact .inr rfl
      · exact .inl hi

theorem copyLeaf_cases (T : CopyTimes) (path : List Text) (s : Copying α) (l : SourceLeaf α) :
    ∃ e links, s.copyLeaf T path l = { s with links := links }.set path e ∧
      ∀ i ∈ links.map Prod.fst, i ∈ s.links.map Prod.fst ∨ l.ino = some i := by
  unfold copyLeaf
  split_ifs
  · exact ⟨s.dest path, s.links, by simp [set], fun i hi => .inl hi⟩
  · exact place_cases l

theorem dest_place {l : SourceLeaf α} (h : ∀ i, l.ino = some i → i ∉ s.links.map Prod.fst) :
    (s.place T path l).dest path = created (l.copy (T.written path)) (s.dest path) := by
  unfold place
  cases hino : l.ino with
  | none => exact dest_set_self _
  | some i =>
    have hnone : s.links.lookup i = none := by
      rw [List.lookup_eq_none_iff]
      intro e he
      rw [bne_iff_ne]
      exact fun heq => h i hino (heq ▸ List.mem_map_of_mem he)
    simp only [hnone]
    exact dest_set_self _

theorem dest_copyLeaf {l : SourceLeaf α} (h : ∀ i, l.ino = some i → i ∉ s.links.map Prod.fst) :
    (s.copyLeaf T path l).dest path =
      copyEntry (T.written path) (some (.leaf l)) (s.dest path) := by
  unfold copyLeaf upToDate
  rcases hd : s.dest path with _ | d | d
  · simp [dest_place h, hd, created, copyEntry]
  · by_cases hle : l.mtime ≤ d.mtime
    · simp [hd, hle, copyEntry]
    · simp [dest_place h, hd, hle, created, copyEntry]
  · by_cases hle : l.mtime ≤ T.dirMtime path
    · simp [hd, hle, copyEntry]
    · simp [dest_place h, hd, hle, created, copyEntry]

/-- A directory is there or is created, unless there is a file. -/
theorem enterDir_cases (path : List Text) (s : Copying α) :
    (∃ l, s.dest path = some (.leaf l) ∧ s.enterDir path = none) ∨
      (∀ l, s.dest path ≠ some (.leaf l)) ∧
        s.enterDir path = some (s.set path (some (.dir ()))) := by
  unfold enterDir
  rcases hd : s.dest path with _ | l | d
  · exact .inr ⟨by simp, rfl⟩
  · exact .inl ⟨l, rfl, rfl⟩
  · refine .inr ⟨by simp, ?_⟩
    have hset : s.set path (some (.dir ())) = s := by
      rw [set, ← hd, Function.update_eq_self]
    rw [hset]

end Copying

section CopyDir

variable {T : CopyTimes} {path p : List Text} {t : OutTree α} {s : Copying α}

theorem copyTree_of_leaf {l : FileLeaf α} (h : s.dest path = some (.leaf l)) :
    copyTree T path t s = s := by
  rcases s.enterDir_cases path with ⟨_, -, henter⟩ | ⟨hne, -⟩
  · rw [copyTree, henter]
  · exact absurd h (hne l)

theorem copyTree_of_ne_leaf (h : ∀ l, s.dest path ≠ some (.leaf l)) :
    copyTree T path t s = copyDir T path t (s.set path (some (.dir ()))) := by
  rcases s.enterDir_cases path with ⟨l, hl, -⟩ | ⟨-, henter⟩
  · exact absurd hl (h l)
  · rw [copyTree, henter]

/-- Copying the entries of a directory changes the paths of these only. -/
theorem dest_copyDir_of_ne (hd : t.Distinct)
    (h : ∀ r e, r ≠ [] → t.lookup r = some e → p ≠ path ++ r) :
    (copyDir T path t s).dest p = s.dest p := by
  induction t generalizing path s with
  | nil => rfl
  | leaf x l rest ih =>
    obtain ⟨hx, hrest⟩ := hd
    obtain ⟨e, links, he, -⟩ := s.copyLeaf_cases T (path ++ [x]) l
    rw [copyDir, he, ih hrest fun r e hr hl => h r e hr (FileTree.lookup_leaf_of_rest l hx hl)]
    exact Copying.dest_set_of_ne (h [x] _ (by simp) (FileTree.lookup_leaf_self ..)) e
  | dir x d sub rest ihsub ih =>
    obtain ⟨hx, hsub, hrest⟩ := hd
    rw [copyDir, ih hrest fun r e hr hl => h r e hr (FileTree.lookup_dir_of_rest d sub hx hl)]
    rcases s.enterDir_cases (path ++ [x]) with ⟨_, -, henter⟩ | ⟨-, henter⟩
    · rw [henter]
    · rw [henter]
      refine (ihsub hsub fun r e hr hl => ?_).trans
        (Copying.dest_set_of_ne (h [x] _ (by simp) (FileTree.lookup_dir_self ..)) _)
      rw [List.append_assoc]
      exact h (x :: r) e (by simp) (FileTree.lookup_dir_of_sub d hr hl)

theorem links_copyDir (hd : t.Distinct) {i : ℕ} (hi : i ∈ (copyDir T path t s).links.map Prod.fst) :
    i ∈ s.links.map Prod.fst ∨ ∃ r l, t.lookup r = some (.leaf l) ∧ l.ino = some i := by
  induction t generalizing path s with
  | nil => exact .inl hi
  | leaf x l rest ih =>
    obtain ⟨hx, hrest⟩ := hd
    rcases ih hrest hi with hi | ⟨r, l', hl, hino⟩
    · obtain ⟨e, links, he, hlinks⟩ := s.copyLeaf_cases T (path ++ [x]) l
      rw [he] at hi
      exact (hlinks i hi).imp_right fun hino => ⟨[x], l, FileTree.lookup_leaf_self .., hino⟩
    · exact .inr ⟨r, l', FileTree.lookup_leaf_of_rest l hx hl, hino⟩
  | dir x d sub rest ihsub ih =>
    obtain ⟨hx, hsub, hrest⟩ := hd
    rcases ih hrest hi with hi | ⟨r, l', hl, hino⟩
    · rcases s.enterDir_cases (path ++ [x]) with ⟨_, -, henter⟩ | ⟨-, henter⟩
      · rw [henter] at hi
        exact .inl hi
      · rw [henter] at hi
        refine (ihsub hsub hi).imp_right ?_
        rintro ⟨r, l', hl, hino⟩
        exact ⟨x :: r, l', FileTree.lookup_dir_of_sub d (FileTree.ne_nil_of_lookup hl) hl, hino⟩
    · exact .inr ⟨r, l', FileTree.lookup_dir_of_rest d sub hx hl, hino⟩

theorem dest_copyDir_of_name (hd : t.Distinct) {x : Text} (hx : t.lookup [x] = none)
    (r : List Text) : (copyDir T path t s).dest (path ++ x :: r) = s.dest (path ++ x :: r) := by
  refine dest_copyDir_of_ne hd ?_
  rintro q e - hq heq
  rw [← List.append_cancel_left heq, FileTree.lookup_cons_eq_none hx] at hq
  cases hq

theorem dest_copyTree_of_ne (hd : t.Distinct) (hp : p ≠ path)
    (h : ∀ r e, r ≠ [] → t.lookup r = some e → p ≠ path ++ r) :
    (copyTree T path t s).dest p = s.dest p := by
  rcases s.enterDir_cases path with ⟨l, hl, -⟩ | ⟨hne, -⟩
  · rw [copyTree_of_leaf hl]
  · rw [copyTree_of_ne_leaf hne, dest_copyDir_of_ne hd h]
    exact Copying.dest_set_of_ne hp _

theorem links_copyTree (hd : t.Distinct) {i : ℕ}
    (hi : i ∈ (copyTree T path t s).links.map Prod.fst) :
    i ∈ s.links.map Prod.fst ∨ ∃ r l, t.lookup r = some (.leaf l) ∧ l.ino = some i := by
  rcases s.enterDir_cases path with ⟨l, hl, -⟩ | ⟨hne, -⟩
  · rw [copyTree_of_leaf hl] at hi
    exact .inl hi
  · rw [copyTree_of_ne_leaf hne] at hi
    exact links_copyDir (s := s.set path (some (.dir ()))) hd hi

theorem dest_copyTree_self (hd : t.Distinct) : (copyTree T path t s).dest path =
    copyEntry (T.written path) (some (.dir ())) (s.dest path) := by
  rcases s.enterDir_cases path with ⟨l, hl, -⟩ | ⟨hne, -⟩
  · rw [copyTree_of_leaf hl, hl]
    rfl
  · rw [copyTree_of_ne_leaf hne, dest_copyDir_of_ne hd fun r _ hr _ h => hr (by simpa using h),
      Copying.dest_set_self]
    rcases hdest : s.dest path with _ | l | _
    · rfl
    · exact absurd hdest (hne l)
    · rfl

/-- The inode of the file at a path is not known, and it is that of no other file. -/
def Copying.Fresh (s : Copying α) (t : OutTree α) (p : List Text) : Prop :=
  ∀ l i, t.lookup p = some (.leaf l) → l.ino = some i → i ∉ s.links.map Prod.fst ∧
    ∀ q l', t.lookup q = some (.leaf l') → l'.ino = some i → q = p

/-- The same for a part of the directory, where only inodes of other files have become known. -/
theorem Copying.Fresh.part {s' : Copying α} {t' : OutTree α} {g : List Text → List Text}
    (hg : Function.Injective g) (h : s.Fresh t (g p))
    (hpart : ∀ q l, t'.lookup q = some (.leaf l) → t.lookup (g q) = some (.leaf l))
    (hlinks : ∀ i ∈ s'.links.map Prod.fst, i ∈ s.links.map Prod.fst ∨
      ∃ q l, t.lookup q = some (.leaf l) ∧ l.ino = some i ∧ q ≠ g p) : s'.Fresh t' p := by
  intro l i hl hi
  obtain ⟨hnew, hother⟩ := h l i (hpart p l hl) hi
  refine ⟨fun hmem => ?_, fun q l' hl' hi' => hg (hother _ l' (hpart q l' hl') hi')⟩
  rcases hlinks i hmem with hmem | ⟨q, l', hl', hi', hq⟩
  · exact hnew hmem
  · exact hq (hother q l' hl' hi')

/-- A step that leaves what is at or below a name in the directory leaves the way to it, too. -/
theorem Copying.way_congr {s' : Copying α} {y : Text} {r : List Text}
    (hdest : ∀ q, s'.dest (path ++ y :: q) = s.dest (path ++ y :: q))
    (hway : ∀ q, q <+: y :: r → q ≠ y :: r → q ≠ [] → ∀ l, s.dest (path ++ q) ≠ some (.leaf l)) :
    ∀ q, q <+: y :: r → q ≠ y :: r → q ≠ [] → ∀ l, s'.dest (path ++ q) ≠ some (.leaf l) := by
  intro q hq hne hnil
  obtain ⟨z, q, rfl⟩ := List.exists_cons_of_ne_nil hnil
  obtain ⟨rfl, -⟩ := List.cons_prefix_cons.1 hq
  rw [hdest q]
  exact hway _ hq hne hnil

/-- **What is copied to a path**, if no file is in the way of a directory above it, and if the file
there has no other name. -/
theorem dest_copyDir {r : List Text} (hd : t.Distinct) (hr : r ≠ []) (hfresh : s.Fresh t r)
    (hway : ∀ q, q <+: r → q ≠ r → q ≠ [] → ∀ l, s.dest (path ++ q) ≠ some (.leaf l)) :
    (copyDir T path t s).dest (path ++ r) =
      copyEntry (T.written (path ++ r)) (t.lookup r) (s.dest (path ++ r)) := by
  induction t generalizing path s r with
  | nil =>
    obtain ⟨y, r, rfl⟩ := List.exists_cons_of_ne_nil hr
    rfl
  | leaf x l rest ih =>
    obtain ⟨hx, hrest⟩ := hd
    obtain ⟨y, r, rfl⟩ := List.exists_cons_of_ne_nil hr
    obtain ⟨e, links, he, hlinks⟩ := s.copyLeaf_cases T (path ++ [x]) l
    rw [copyDir]
    by_cases hy : y = x
    · subst hy
      rw [dest_copyDir_of_name hrest hx]
      by_cases hr' : r = []
      · subst hr'
        rw [FileTree.lookup_leaf_self]
        exact Copying.dest_copyLeaf fun i hi => (hfresh l i (FileTree.lookup_leaf_self ..) hi).1
      · rw [he, Copying.dest_set_of_ne (by simpa using hr'), FileTree.lookup, if_pos rfl,
          if_neg hr']
        rfl
    · have hdest (q : List Text) : (s.copyLeaf T (path ++ [x]) l).dest (path ++ y :: q) =
          s.dest (path ++ y :: q) := by
        rw [he]
        exact Copying.dest_set_of_ne (by simp [hy]) e
      rw [FileTree.lookup, if_neg hy, ← hdest r]
      refine ih hrest hr (hfresh.part (g := id) Function.injective_id
        (fun q l' => FileTree.lookup_leaf_of_rest l hx) fun i hi => ?_)
        (Copying.way_congr hdest hway)
      rw [he] at hi
      exact (hlinks i hi).imp_right fun hino =>
        ⟨[x], l, FileTree.lookup_leaf_self .., hino, by simp [Ne.symm hy]⟩
  | dir x d sub rest ihsub ih =>
    obtain ⟨hx, hsub, hrest⟩ := hd
    obtain ⟨y, r, rfl⟩ := List.exists_cons_of_ne_nil hr
    have hstep : copyDir T path (.dir x d sub rest) s =
        copyDir T path rest (copyTree T (path ++ [x]) sub s) := rfl
    rw [hstep]
    by_cases hy : y = x
    · subst hy
      rw [dest_copyDir_of_name hrest hx]
      by_cases hr' : r = []
      · subst hr'
        rw [FileTree.lookup_dir_self]
        exact dest_copyTree_self hsub
      · -- no file is there, so the directory is entered
        have hdest (q : List Text) (hq : q ≠ []) :
            (s.set (path ++ [y]) (some (.dir ()))).dest (path ++ [y] ++ q) =
              s.dest (path ++ y :: q) := by
          rw [Copying.dest_set_of_ne (by simpa using hq), List.append_assoc]
          rfl
        have hpath : path ++ y :: r = path ++ [y] ++ r := by simp
        rw [copyTree_of_ne_leaf (hway [y] (by simp) (by simpa using Ne.symm hr') (by simp)),
          FileTree.lookup, if_pos rfl, if_neg hr', ← hdest r hr', hpath]
        refine ihsub hsub hr' (hfresh.part (g := (y :: ·)) List.cons_injective
          (fun q l hl => ?_) fun i hi => .inl hi) fun q hq hne hnil => ?_
        · exact FileTree.lookup_dir_of_sub d (FileTree.ne_nil_of_lookup hl) hl
        · rw [hdest q hnil]
          exact hway (y :: q) (List.cons_prefix_cons.2 ⟨rfl, hq⟩)
            (fun h => hne (List.cons.inj h).2) (by simp)
    · have hdest (q : List Text) : (copyTree T (path ++ [x]) sub s).dest (path ++ y :: q) =
          s.dest (path ++ y :: q) :=
        dest_copyTree_of_ne hsub (by simp [hy]) fun r _ _ _ => by simp [hy]
      rw [FileTree.lookup, if_neg hy, ← hdest r]
      refine ih hrest hr (hfresh.part (g := id) Function.injective_id
        (fun q l' => FileTree.lookup_dir_of_rest d sub hx) fun i hi => ?_)
        (Copying.way_congr hdest hway)
      refine (links_copyTree hsub hi).imp_right ?_
      rintro ⟨q, l', hl, hino⟩
      exact ⟨x :: q, l', FileTree.lookup_dir_of_sub d (FileTree.ne_nil_of_lookup hl) hl, hino,
        by simp [Ne.symm hy]⟩

end CopyDir

/-- What is at a path of an output. -/
def lookupOut (source : Option (OutTree α)) (p : List Text) : Option (Entry Unit (SourceLeaf α)) :=
  source.bind fun t => t.lookup p

/-- The file at a path has no other name in the output. -/
def Unlinked (source : Option (OutTree α)) (p : List Text) : Prop :=
  ∀ l i, lookupOut source p = some (.leaf l) → l.ino = some i →
    ∀ q l', lookupOut source q = some (.leaf l') → l'.ino = some i → q = p

theorem lookupOut_eq_dir {source : Option (OutTree α)} {p q : List Text} (hq : q <+: p)
    (hne : q ≠ p) (h : lookupOut source p ≠ none) : lookupOut source q = some (.dir ()) := by
  cases source with
  | none => exact absurd rfl h
  | some t =>
    obtain ⟨r, rfl⟩ := hq
    obtain ⟨e, he⟩ := Option.ne_none_iff_exists'.1 h
    have hr : r ≠ [] := by
      rintro rfl
      simp at hne
    exact (t.exists_dir_of_lookup hr he).choose_spec

/-- **What is at a path after a copy**, if no file is in the way of a directory above it, and if
the file there has no other name. -/
theorem dest_copyFile {T : CopyTimes} {source : Option (OutTree α)} {dest : Installed α}
    {p : List Text} (hsource : ∀ t ∈ source, t.Distinct) (hlink : Unlinked source p)
    (hway : ∀ q, q <+: p → q ≠ p → lookupOut source q = some (.dir ()) →
      ∀ l, dest q ≠ some (.leaf l)) :
    copyFile T source dest p = copyEntry (T.written p) (lookupOut source p) (dest p) := by
  cases source with
  | none => rfl
  | some t =>
    have hd := hsource t rfl
    by_cases hp : p = []
    · subst hp
      exact (dest_copyTree_self hd).trans (by rw [lookupOut]; simp)
    · by_cases hnone : lookupOut (some t) p = none
      · rw [hnone]
        refine dest_copyTree_of_ne hd hp fun r e _ hl heq => ?_
        rw [heq, lookupOut, List.nil_append, Option.bind_some, hl] at hnone
        cases hnone
      · have hne : ∀ l, dest [] ≠ some (.leaf l) :=
          hway [] List.nil_prefix (Ne.symm hp) (lookupOut_eq_dir List.nil_prefix (Ne.symm hp) hnone)
        have hdest (q : List Text) (hq : q ≠ []) :
            (Copying.set { dest := dest } [] (some (.dir ()))).dest q = dest q :=
          Copying.dest_set_of_ne hq _
        rw [copyFile, copyTree_of_ne_leaf hne, ← hdest p hp]
        show (copyDir T [] t _).dest ([] ++ p) = _
        refine dest_copyDir hd hp (fun l i hl hi => ⟨by simp, hlink l i hl hi⟩) ?_
        intro q hq hqp hnil
        rw [List.nil_append, hdest q hnil]
        exact hway q hq hqp (lookupOut_eq_dir hq hqp hnone)

/-- A file with two names, where there is an older directory instead of the first: the second is
linked to nothing, and is not installed. -/
example : copyFile { written := fun _ => 5, dirMtime := fun _ => 1 }
    (some (.leaf "q".toList ⟨⟨7, 2⟩, some 1⟩ (.leaf "p".toList ⟨⟨7, 2⟩, some 1⟩ .nil)))
    (fun p => if p = [] ∨ p = ["q".toList] then some (.dir ()) else none) ["p".toList] = none := by
  decide

/-! ### The copies of an installation -/

/-- The copies that `install` makes, in order, each by its own `cp`. -/
def copyAll (T : LayerDir → CopyTimes) (outs : LayerDir → Option (OutTree α))
    (dirs : List LayerDir) (dest : Installed α) : Installed α :=
  dirs.foldl (fun dest dir => copyFile (T dir) (outs dir) dest) dest

/-- A copy gets to a path where `dest` is. -/
def replaces : Option (Entry Unit (SourceLeaf α)) → Option (Entry Unit (FileLeaf α)) → Bool
  | none, _ => false
  | some _, none => true
  | some (.leaf l), some (.leaf d) => decide (d.mtime < l.mtime)
  | some _, some _ => false

/-- A copy that is made at a time. -/
def copyOf (t : ℤ) : Entry Unit (SourceLeaf α) → Entry Unit (FileLeaf α)
  | .leaf l => .leaf (l.copy t)
  | .dir d => .dir d

theorem copyEntry_eq (t : ℤ) (source : Option (Entry Unit (SourceLeaf α)))
    (dest : Option (Entry Unit (FileLeaf α))) :
    copyEntry t source dest = if replaces source dest then source.map (copyOf t) else dest := by
  rcases source with _ | l | _ <;> rcases dest with _ | d | _
  case some.leaf.some.leaf =>
    rw [copyEntry, replaces]
    by_cases h : l.mtime ≤ d.mtime
    · rw [if_pos h, if_neg (by simpa using h)]
    · rw [if_neg h, if_pos (by simpa using h)]
      rfl
  all_goals rfl

theorem replaces_copyOf {t : ℤ} {e : Entry Unit (SourceLeaf α)}
    {source : Option (Entry Unit (SourceLeaf α))}
    (h : ∀ l, source = some (.leaf l) → l.mtime ≤ t) :
    replaces source (some (copyOf t e)) = false := by
  rcases source with _ | l | _ <;> rcases e with d | _
  case some.leaf.leaf => simpa [replaces, copyOf, FileLeaf.copy] using h l rfl
  all_goals rfl

/-- No file is above the path. -/
def Way {β : Type*} (f : List Text → Option (Entry Unit β)) (p : List Text) : Prop :=
  ∀ q, q <+: p → q ≠ p → ∀ l, f q ≠ some (.leaf l)

theorem copyEntry_ne_leaf {t : ℤ} {source : Option (Entry Unit (SourceLeaf α))}
    {dest : Option (Entry Unit (FileLeaf α))} (hsource : ∀ l, source ≠ some (.leaf l))
    (hdest : ∀ l, dest ≠ some (.leaf l)) (l : FileLeaf α) :
    copyEntry t source dest ≠ some (.leaf l) := by
  rcases source with _ | l | _ <;> rcases dest with _ | d | _
  all_goals first
    | exact absurd rfl (hsource _)
    | exact absurd rfl (hdest _)
    | simp [copyEntry]

section CopyAll

variable {T : LayerDir → CopyTimes} {outs : LayerDir → Option (OutTree α)} {dirs : List LayerDir}
  {dest : Installed α} {p : List Text}

/-- **What is copied first stays.**  If no file is above the path, no file there has another name,
and none has been modified after the copies are made, then the first one that replaces what was
there is there at the end. -/
theorem dest_copyAll (hdistinct : ∀ dir ∈ dirs, ∀ t ∈ outs dir, t.Distinct)
    (hlinks : ∀ dir ∈ dirs, Unlinked (outs dir) p)
    (hdest : Way dest p) (houts : ∀ dir ∈ dirs, Way (lookupOut (outs dir)) p)
    (hclock : ∀ dir ∈ dirs, ∀ dir' ∈ dirs, ∀ l, lookupOut (outs dir') p = some (.leaf l) →
      l.mtime ≤ (T dir).written p) :
    copyAll T outs dirs dest p =
      match dirs.find? fun dir => replaces (lookupOut (outs dir) p) (dest p) with
      | none => dest p
      | some dir => (lookupOut (outs dir) p).map (copyOf ((T dir).written p)) := by
  induction dirs generalizing dest with
  | nil => rfl
  | cons dir dirs ih =>
    have hhere := houts dir List.mem_cons_self
    have hcopy (q : List Text) (hq : q <+: p) : copyFile (T dir) (outs dir) dest q =
        copyEntry ((T dir).written q) (lookupOut (outs dir) q) (dest q) := by
      refine dest_copyFile (hdistinct dir List.mem_cons_self) ?_ fun r hr hne _ => ?_
      · by_cases hqp : q = p
        · exact hqp ▸ hlinks dir List.mem_cons_self
        · exact fun l i hl => absurd hl (hhere q hq hqp l)
      · refine hdest r (hr.trans hq) ?_
        rintro rfl
        exact hne (hr.eq_of_length_le hq.length_le)
    have hway : Way (copyFile (T dir) (outs dir) dest) p := by
      intro q hq hne l
      rw [hcopy q hq]
      exact copyEntry_ne_leaf (hhere q hq hne) (hdest q hq hne) l
    have hrest := ih (fun d hd => hdistinct d (.tail _ hd)) (fun d hd => hlinks d (.tail _ hd))
      hway (fun d hd => houts d (.tail _ hd))
      (fun d hd d' hd' => hclock d (.tail _ hd) d' (.tail _ hd'))
    rw [hcopy p List.prefix_rfl, copyEntry_eq] at hrest
    refine hrest.trans ?_
    rw [List.find?_cons]
    cases hreplaces : replaces (lookupOut (outs dir) p) (dest p) with
    | false => rfl
    | true =>
      -- this copy stays, since it is not older than what comes after it
      cases hfile : lookupOut (outs dir) p with
      | none =>
        rw [hfile] at hreplaces
        cases hreplaces
      | some e =>
        have hnone : (dirs.find? fun d =>
            replaces (lookupOut (outs d) p) (some (copyOf ((T dir).written p) e))) = none := by
          refine List.find?_eq_none.2 fun d hd => ?_
          rw [replaces_copyOf fun l hl => hclock dir List.mem_cons_self d (.tail _ hd) l hl]
          exact Bool.false_ne_true
        simp only [if_true, Option.map_some, hnone, hfile]

end CopyAll

theorem install_inv (inv : Invocation) {bs : Builds} (metapackage : PkgName → Bool) {n : ℕ}
    (ho : bs.Ordered) (hn : bs.buildlist.length ≤ n) :
    ∃ s, install metapackage inv bs n = some s ∧
      s.Inv inv bs metapackage (NeededBy inv bs bs.buildlist) (NeededBy inv bs bs.buildlist) := by
  refine Machine.foldlM_rule bs.buildlist
    (I := fun l s => Installing.Inv inv bs metapackage (NeededBy inv bs l) (NeededBy inv bs l) s)
    ⟨?_, ?_, List.nodup_nil, DepthFirst.Sorted.nil, rfl⟩ (fun l₁ b l₂ s hl h => h.outer ho hn hl)
  · simp [NeededBy]
  · simp [NeededBy]

/-- **A file of a dependency stays.**  When `v` is installed, has something at a path and is needed
by `u`, and nothing was there before, then what is there at the end is not from `u`. -/
theorem dependency_file_stays {inv : Invocation} {bs : Builds} {metapackage : PkgName → Bool}
    {n : ℕ} (ho : bs.Ordered) (hn : bs.buildlist.length ≤ n) {u v : BuildKey}
    (huv : bs.graph.Transitive u v) {s : Installing} (hs : install metapackage inv bs n = some s)
    (hv : .distroot v ∈ s.copied) (T : LayerDir → CopyTimes)
    (outs : LayerDir → Option (OutTree α)) (dest : Installed α) {p : List Text}
    (hdistinct : ∀ dir ∈ s.copied, ∀ t ∈ outs dir, t.Distinct)
    (hlinks : ∀ dir ∈ s.copied, Unlinked (outs dir) p)
    (hway : Way dest p) (houts : ∀ dir ∈ s.copied, Way (lookupOut (outs dir)) p)
    (hclock : ∀ dir ∈ s.copied, ∀ dir' ∈ s.copied, ∀ l,
      lookupOut (outs dir') p = some (.leaf l) → l.mtime ≤ (T dir).written p)
    (hdest : dest p = none) (hfile : lookupOut (outs (.distroot v)) p ≠ none) :
    ∃ w ≠ u, .distroot w ∈ s.copied ∧ lookupOut (outs (.distroot w)) p ≠ none ∧
      copyAll T outs s.copied dest p =
        (lookupOut (outs (.distroot w)) p).map (copyOf ((T (.distroot w)).written p)) := by
  obtain ⟨s', hs', hinv⟩ := install_inv inv metapackage ho hn
  cases hs.symm.trans hs'
  rw [dest_copyAll hdistinct hlinks hway houts hclock, hdest]
  have hreplaces (dir : LayerDir) :
      replaces (lookupOut (outs dir) p) none = true ↔ lookupOut (outs dir) p ≠ none := by
    cases lookupOut (outs dir) p <;> simp [replaces]
  have hmem (w : BuildKey) : .distroot w ∈ s.copied ↔ w ∈ s.calls ∧ metapackage w.1 = false := by
    rw [hinv.copied]
    simp
  cases hfind : s.copied.find? fun dir => replaces (lookupOut (outs dir) p) none with
  | none => exact absurd ((hreplaces _).2 hfile) (List.find?_eq_none.1 hfind _ hv)
  | some dir =>
    obtain ⟨hdir, l₁, l₂, hl, hbefore⟩ := List.find?_eq_some_iff_append.1 hfind
    obtain ⟨w, -, rfl⟩ : ∃ w, w ∈ s.calls.filter (fun k => !metapackage k.1) ∧
        LayerDir.distroot w = dir := by
      rw [← List.mem_map, ← hinv.copied, hl]
      simp
    refine ⟨w, ?_, hl ▸ by simp, (hreplaces _).1 hdir, rfl⟩
    rintro rfl
    -- `v` comes before `u`
    have hsorted := DepthFirst.Sorted.filter hinv.order fun k => !metapackage k.1
    have hcopied := hinv.copied
    rw [hl] at hcopied
    obtain ⟨m₁, m₂, hm, rfl, hm₂⟩ := List.map_eq_append_iff.1 hcopied.symm
    obtain ⟨w, m₃, rfl, hw, -⟩ := List.map_eq_cons_iff.1 hm₂
    cases hw
    obtain ⟨hcall, hmeta⟩ := (hmem v).1 hv
    have hmem₁ : v ∈ m₁ := hsorted m₁ _ m₃ hm v
      ⟨⟨huv, ((hinv.calls v).1 hcall).2⟩, by simp [hmeta]⟩
    have hnot := hbefore _ (List.mem_map_of_mem hmem₁)
    rw [(hreplaces _).2 hfile] at hnot
    exact absurd hnot (by decide)

/-- A directory with one regular file. -/
def oneFile (name : Text) (l : FileLeaf ℕ) : Option (OutTree ℕ) :=
  some (.leaf name ⟨l, some 1⟩ .nil)

theorem lookup_oneFile {name : Text} {l : FileLeaf ℕ} {p : List Text}
    {e : Entry Unit (SourceLeaf ℕ)} (h : lookupOut (oneFile name l) p = some e) :
    p = [name] ∧ e = .leaf ⟨l, some 1⟩ ∨ p = [] ∧ e = .dir () := by
  refine (FileTree.lookup_leaf_cases h).imp id fun h => ?_
  exact FileTree.lookup_nil_cases h

theorem of_lookup_oneFile {name : Text} {l : FileLeaf ℕ} {p : List Text} {d : SourceLeaf ℕ}
    (h : lookupOut (oneFile name l) p = some (.leaf d)) : p = [name] ∧ d = ⟨l, some 1⟩ := by
  rcases lookup_oneFile h with ⟨hp, hd⟩ | ⟨-, hd⟩
  · cases hd
    exact ⟨hp, rfl⟩
  · cases hd

theorem unlinked_oneFile (name : Text) (l : FileLeaf ℕ) (p : List Text) :
    Unlinked (oneFile name l) p := by
  intro d i hd _ q d' hd' _
  rw [(of_lookup_oneFile hd).1, (of_lookup_oneFile hd').1]

/-- An application and a library that it needs have a file of the same name. -/
theorem dependency_file_stays_oneFile :
    ∃ s, install (fun _ => false) ⟨.x86_64, .x86_64, ["app"], {}⟩ installBuilds 4 = some s ∧
      ∃ w ≠ ("app".toList, Arch.x86_64), .distroot w ∈ s.copied ∧
        lookupOut (oneFile "f".toList ⟨w.1.length, 1⟩) ["f".toList] ≠ none ∧
        copyAll (fun _ => ⟨fun _ => 2, fun _ => 2⟩)
          (fun dir => oneFile "f".toList ⟨dir.build.1.length, 1⟩) s.copied
          (fun _ => none) ["f".toList] =
            (lookupOut (oneFile "f".toList ⟨w.1.length, 1⟩) ["f".toList]).map (copyOf 2) := by
  have hrun : ∃ s, install (fun _ => false) ⟨.x86_64, .x86_64, ["app"], {}⟩ installBuilds 4 =
      some s ∧ .distroot ("lib".toList, Arch.x86_64) ∈ s.copied := ⟨_, rfl, by decide⟩
  obtain ⟨s, hs, hlib⟩ := hrun
  refine ⟨s, hs, dependency_file_stays (Builds.ordered_of_zipIdx (by decide)) (by decide) ?_ hs
    hlib (fun _ => ⟨fun _ => 2, fun _ => 2⟩)
    (fun dir => oneFile "f".toList ⟨dir.build.1.length, 1⟩) (fun _ => none) ?_
    (fun dir _ => unlinked_oneFile _ _ _) ?_ ?_ ?_ rfl ?_⟩
  · exact ⟨(("lib".toList, Arch.x86_64), ["transitive".toList]), by decide, by decide, rfl⟩
  · rintro dir - c hc
    cases hc
    exact ⟨rfl, trivial⟩
  · intro q _ _ l hl
    cases hl
  · intro dir _ q _ hne l hl
    exact hne (of_lookup_oneFile hl).1
  · intro dir _ dir' _ l hl
    rw [(of_lookup_oneFile hl).2]
    show (1 : ℤ) ≤ 2
    decide
  · simp [lookupOut, oneFile]

end Pbuild
