import Mathlib.Tactic.SplitIfs
import Mathlib.Tactic.TypeStar
import Playbit.Machine.FileTree

/-!
# Overlay mounts

The view through a stack of file trees, the layers, from top to bottom.  A layer shows what is in
the layers below it, except where it has something of its own: anything but a directory hides what
is at and below its path, and so does a *whiteout*, which shows nothing itself.  Directories of
several layers are merged, unless one of them is *opaque*: then the directories below it are left
out.  Layers that agree show **what any of them has** (`Overlay.view_eq_object_iff`).

Other file systems may be mounted on top, and a path then leads into the last one that is mounted
at or above it (`Overlay.resolve`).
-/

namespace Overlay

variable {κ α : Type*}

/-! ### Layers -/

/-- What a layer has at a path: a file, a symbolic link or anything else that is not a directory;
a whiteout; or a directory, which may be opaque. -/
abbrev Entry (α : Type*) := FileTree.Entry Bool (Option α)

/-- Anything but a directory. -/
@[match_pattern] abbrev Entry.object (a : α) : Entry α := .leaf (some a)

@[match_pattern] abbrev Entry.whiteout : Entry α := .leaf none

/-- What the layers below have further down the path is not shown. -/
def Entry.stops : Entry α → Bool
  | .leaf _ => true
  | .dir isOpaque => isOpaque

/-- What a layer has at each path. -/
abbrev Layer (κ α : Type*) := List κ → Option (Entry α)

/-- There is something on the way to the path that hides it in the layers below. -/
def Layer.hides (L : Layer κ α) (p : List κ) : Bool :=
  (List.range p.length).any fun k => (L (p.take k)).any Entry.stops

theorem Layer.hides_eq_false_iff {L : Layer κ α} {p : List κ} :
    L.hides p = false ↔ ∀ q, q <+: p → q ≠ p → ∀ e, L q = some e → e.stops = false := by
  simp only [Layer.hides, List.any_eq_false, List.mem_range, Bool.not_eq_true]
  constructor
  · intro h q hq hne e he
    have hlt : q.length < p.length :=
      lt_of_le_of_ne hq.length_le fun heq => hne (hq.eq_of_length heq)
    have hk := h q.length hlt
    rw [← List.prefix_iff_eq_take.1 hq, he] at hk
    exact hk
  · intro h k hk
    cases hL : L (p.take k) with
    | none => rfl
    | some e =>
      refine h _ (List.take_prefix k p) (fun heq => ?_) e hL
      have hlen := congrArg List.length heq
      rw [List.length_take] at hlen
      omega

/-- What is seen at a path. -/
inductive Shown (α : Type*)
  | object (a : α)
  | dir
  deriving DecidableEq

/-- What an entry looks like; a whiteout is not seen. -/
def Entry.shown : Entry α → Option (Shown α)
  | .leaf a => a.map .object
  | .dir _ => some .dir

/-- What a stack of layers shows, from top to bottom. -/
def view : List (Layer κ α) → List κ → Option (Shown α)
  | [], _ => none
  | L :: Ls, p =>
    match L p with
    | some e => e.shown
    | none => if L.hides p then none else view Ls p

section View

variable {L : Layer κ α} {Ls : List (Layer κ α)} {p : List κ}

theorem view_of_some {e : Entry α} (h : L p = some e) : view (L :: Ls) p = e.shown := by
  rw [view, h]

theorem view_of_hides (h : L p = none) (hides : L.hides p = true) : view (L :: Ls) p = none := by
  rw [view, h]
  exact if_pos hides

theorem view_of_none (h : L p = none) (hides : L.hides p = false) :
    view (L :: Ls) p = view Ls p := by
  rw [view, h]
  exact if_neg (by simp [hides])

theorem view_cons_congr {Ls' : List (Layer κ α)} (h : view Ls p = view Ls' p) :
    view (L :: Ls) p = view (L :: Ls') p := by
  rw [view, view, h]

/-- The layer has `a` at a path, or it has nothing there and does not hide it. -/
def Layer.Agrees (L : Layer κ α) (p : List κ) (a : α) : Prop :=
  L p = some (Entry.object a) ∨ L p = none ∧ L.hides p = false

/-- **Layers that agree show what any of them has**, in whatever order they are. -/
theorem view_eq_object_iff {a : α} (h : ∀ L ∈ Ls, L.Agrees p a) :
    view Ls p = some (.object a) ↔ ∃ L ∈ Ls, L p = some (Entry.object a) := by
  induction Ls with
  | nil => exact iff_of_false (by simp [view]) (by simp)
  | cons L Ls ih =>
    rcases h L List.mem_cons_self with hL | ⟨hL, hhides⟩
    · rw [view_of_some hL]
      exact iff_of_true rfl ⟨L, List.mem_cons_self, hL⟩
    · rw [view_of_none hL hhides, ih fun M hM => h M (.tail _ hM)]
      simp [hL]

end View

/-! ### Trees -/

/-- What is in a directory of a layer. -/
abbrev DirTree (κ α : Type*) := FileTree κ Bool (Option α)

namespace DirTree

/-- No directory is opaque any more. -/
def clearOpaque : DirTree κ α → DirTree κ α
  | .nil => .nil
  | .leaf name a rest => .leaf name a (clearOpaque rest)
  | .dir name _ sub rest => .dir name false (clearOpaque sub) (clearOpaque rest)

variable [DecidableEq κ]

/-- The same in the directory of the given name only, itself included. -/
def clearOpaqueIn (x : κ) : DirTree κ α → DirTree κ α
  | .nil => .nil
  | .leaf name a rest => .leaf name a (clearOpaqueIn x rest)
  | .dir name isOpaque sub rest =>
    if name = x then .dir name false (clearOpaque sub) (clearOpaqueIn x rest)
    else .dir name isOpaque sub (clearOpaqueIn x rest)

end DirTree

/-- An entry that is not opaque any more. -/
def Entry.clear : Entry α → Entry α
  | .leaf a => .leaf a
  | .dir _ => .dir false

namespace DirTree

variable [DecidableEq κ]

theorem lookup_clearOpaque (t : DirTree κ α) (p : List κ) :
    (clearOpaque t).lookup p = (t.lookup p).map Entry.clear := by
  induction t generalizing p with
  | nil => cases p <;> rfl
  | leaf name a rest ih =>
    cases p with
    | nil => rfl
    | cons x p =>
      simp only [clearOpaque, FileTree.lookup, ih]
      split_ifs <;> rfl
  | dir name isOpaque sub rest ihsub ih =>
    cases p with
    | nil => rfl
    | cons x p =>
      simp only [clearOpaque, FileTree.lookup, ih, ihsub]
      split_ifs <;> rfl

/-- Below the directory of the given name nothing is opaque. -/
theorem lookup_clearOpaqueIn_self (t : DirTree κ α) (x : κ) (p : List κ) :
    (clearOpaqueIn x t).lookup (x :: p) = (t.lookup (x :: p)).map Entry.clear := by
  induction t with
  | nil => rfl
  | leaf name a rest ih =>
    simp only [clearOpaqueIn, FileTree.lookup, ih]
    split_ifs <;> rfl
  | dir name isOpaque sub rest _ ih =>
    simp only [clearOpaqueIn]
    by_cases hname : name = x
    · subst hname
      simp only [↓reduceIte, FileTree.lookup, lookup_clearOpaque]
      split_ifs <;> rfl
    · rw [if_neg hname]
      simp only [FileTree.lookup, if_neg (Ne.symm hname), ih]

theorem lookup_clearOpaqueIn_of_ne (t : DirTree κ α) {x y : κ} (h : y ≠ x) (p : List κ) :
    (clearOpaqueIn x t).lookup (y :: p) = t.lookup (y :: p) := by
  induction t with
  | nil => rfl
  | leaf name a rest ih => simp only [clearOpaqueIn, FileTree.lookup, ih]
  | dir name isOpaque sub rest _ ih =>
    simp only [clearOpaqueIn]
    by_cases hname : name = x
    · subst hname
      simp only [↓reduceIte, FileTree.lookup, if_neg h, ih]
    · rw [if_neg hname]
      simp only [FileTree.lookup, ih]

end DirTree

/-! ### Mounts -/

/-- A file system that is mounted in a directory, by what it shows. -/
structure Mounted (κ α : Type*) where
  dir : List κ
  shows : List κ → Option (Shown α)

variable [DecidableEq κ]

/-- What is seen at a path, with file systems mounted one after the other on top of `root`: what
the last one that is mounted at or above the path shows. -/
def resolve (root : List κ → Option (Shown α)) (mounts : List (Mounted κ α)) (p : List κ) :
    Option (Shown α) :=
  match mounts.findRev? fun m => decide (m.dir <+: p) with
  | some m => m.shows (p.drop m.dir.length)
  | none => root p

theorem resolve_congr {root root' : List κ → Option (Shown α)} {p : List κ}
    (h : root p = root' p) (mounts : List (Mounted κ α)) :
    resolve root mounts p = resolve root' mounts p := by
  simp only [resolve, h]

theorem resolve_of_notMounted {root : List κ → Option (Shown α)} {mounts : List (Mounted κ α)}
    {p : List κ} (h : ∀ m ∈ mounts, ¬ m.dir <+: p) : resolve root mounts p = root p := by
  have hnone : (mounts.findRev? fun m => decide (m.dir <+: p)) = none := by
    rw [List.findRev?_eq_find?_reverse, List.find?_eq_none]
    exact fun m hm => by simpa using h m (List.mem_reverse.1 hm)
  rw [resolve, hnone]

theorem resolve_of_last {root : List κ → Option (Shown α)} {l₁ l₂ : List (Mounted κ α)}
    {m : Mounted κ α} {p : List κ} (h : ∀ m' ∈ l₂, ¬ m'.dir <+: m.dir ++ p) :
    resolve root (l₁ ++ m :: l₂) (m.dir ++ p) = m.shows p := by
  have hfind : ((l₁ ++ m :: l₂).findRev? fun m' => decide (m'.dir <+: m.dir ++ p)) = some m := by
    rw [List.findRev?_eq_find?_reverse, List.find?_eq_some_iff_append]
    refine ⟨by simp, l₂.reverse, l₁.reverse, by simp, fun m' hm' => ?_⟩
    simpa using h m' (List.mem_reverse.1 hm')
  rw [resolve, hfind]
  exact congrArg m.shows List.drop_left

end Overlay
