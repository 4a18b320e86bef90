import Playbit.Find.Expression

/-!
# Walks over file trees

`find` evaluates its expression for a directory, then for everything in it, and goes into the
directories that are not pruned.  A file is given by the names on the way to it, its *location*.

When it is the path alone that decides what is pruned, what is printed is a matter of the location
and of the directories above it (`mem_walk`).
-/

namespace Find

open Python

/-! ### File trees -/

/-- A file that is not a directory. -/
structure Leaf where
  mtime : ℤ
  /-- A symbolic link that leads to a directory. -/
  linkToDir : Bool := false
  deriving DecidableEq

/-- What is in a directory, in the order in which it is read. -/
inductive Entries
  | nil
  | leaf (name : Text) (l : Leaf) (rest : Entries)
  | dir (name : Text) (mtime : ℤ) (children rest : Entries)

/-- A file or a directory, without its entries. -/
inductive Node
  | leaf (l : Leaf)
  | dir (mtime : ℤ)
  deriving DecidableEq

/-- What `lstat` says, with the path under which `find` knows the file. -/
def Node.info (path : Text) : Node → Info
  | leaf l => ⟨path, false, l.mtime⟩
  | dir mtime => ⟨path, true, mtime⟩

/-- Everything in the directory and below, with its location. -/
def Entries.nodes : Entries → List (List Text × Node)
  | nil => []
  | leaf name l rest => ([name], .leaf l) :: rest.nodes
  | dir name mtime children rest =>
    ([name], .dir mtime) :: children.nodes.map (fun x => (name :: x.1, x.2)) ++ rest.nodes

/-- What can be the name of a file. -/
def ValidName (name : Text) : Prop := PathPart name ∧ name ≠ ['.', '.']

instance instDecidableValidName (name : Text) : Decidable (ValidName name) :=
  inferInstanceAs (Decidable (_ ∧ _))

/-- A directory in which all names are valid. -/
structure FileTree where
  entries : Entries
  valid : ∀ x ∈ entries.nodes, ∀ name ∈ x.1, ValidName name

variable {entries : Entries} {loc : List Text} {n : Node}

theorem ne_nil_of_mem_nodes (h : (loc, n) ∈ entries.nodes) : loc ≠ [] := by
  induction entries generalizing loc with
  | nil => cases h
  | leaf name l rest ih =>
    rcases List.mem_cons.1 h with h | h
    · cases h
      exact List.cons_ne_nil _ _
    · exact ih h
  | dir name mtime children rest ih ih' =>
    rw [Entries.nodes, List.mem_append, List.mem_cons, List.mem_map] at h
    rcases h with (h | ⟨x, -, h⟩) | h
    · cases h
      exact List.cons_ne_nil _ _
    · cases h
      exact List.cons_ne_nil _ _
    · exact ih' h

/-! ### Paths -/

/-- The path below `base` of a file with the given location. -/
def joinPath (base : Text) (loc : List Text) : Text := base ++ loc.flatMap ('/' :: ·)

@[simp] theorem joinPath_nil (base : Text) : joinPath base [] = base := List.append_nil _

@[simp] theorem joinPath_append (base : Text) (l₁ l₂ : List Text) :
    joinPath base (l₁ ++ l₂) = joinPath (joinPath base l₁) l₂ := by
  simp [joinPath]

theorem joinPath_cons (base c : Text) (l : List Text) :
    joinPath base (c :: l) = base ++ '/' :: joinPath c l := by
  simp [joinPath]

theorem pathParts_joinPath (base : Text) {l : List Text} (h : ∀ c ∈ l, PathPart c) :
    pathParts (joinPath base l) = pathParts base ++ l := by
  induction l generalizing base with
  | nil => rw [joinPath_nil, List.append_nil]
  | cons c l ih =>
    obtain ⟨hc, hl⟩ := List.forall_mem_cons.1 h
    rw [joinPath_cons, pathParts_append_slash, ih c hl, pathParts_of_pathPart hc,
      List.singleton_append]

/-- **Slashes in a path** are between two names. -/
theorem joinPath_eq_append_slash {base t u : Text} (hbase : '/' ∉ base)
    (hloc : ∀ c ∈ loc, '/' ∉ c) :
    joinPath base loc = t ++ '/' :: u ↔
      ∃ l₁ c l₂, loc = l₁ ++ c :: l₂ ∧ t = joinPath base l₁ ∧ u = joinPath c l₂ := by
  constructor
  · intro h
    induction loc generalizing base t with
    | nil =>
      rw [joinPath_nil] at h
      exact absurd (by simp [h]) hbase
    | cons c loc ih =>
      rw [joinPath_cons] at h
      -- the first slash of the path is the one after `base`
      rcases List.append_eq_append_iff.1 h with ⟨m, rfl, hm⟩ | ⟨m, rfl, hm⟩
      · cases m with
        | nil =>
          cases hm
          exact ⟨[], c, loc, rfl, by simp, rfl⟩
        | cons x m =>
          rw [List.cons_append, List.cons.injEq] at hm
          obtain ⟨rfl, hm⟩ := hm
          obtain ⟨l₁, c', l₂, rfl, rfl, hu⟩ := ih (hloc c List.mem_cons_self)
            (fun c' hc' => hloc c' (.tail _ hc')) hm
          exact ⟨c :: l₁, c', l₂, rfl, by rw [joinPath_cons], hu⟩
      · cases m with
        | nil =>
          cases hm
          exact ⟨[], c, loc, rfl, by simp, rfl⟩
        | cons x m =>
          rw [List.cons_append, List.cons.injEq] at hm
          exact absurd (by simp [← hm.1]) hbase
  · rintro ⟨l₁, c, l₂, rfl, rfl, rfl⟩
    rw [joinPath_append, joinPath_cons]

theorem splitOn_joinPath {base : Text} (hbase : '/' ∉ base) (hloc : ∀ c ∈ loc, '/' ∉ c) :
    (joinPath base loc).splitOn '/' = base :: loc := by
  induction loc generalizing base with
  | nil => rw [joinPath_nil, List.splitOn_eq_singleton hbase]
  | cons c loc ih =>
    rw [joinPath_cons, List.splitOn_append_cons_self_of_not_mem hbase,
      ih (hloc c List.mem_cons_self) fun c' hc' => hloc c' (.tail _ hc')]

/-! ### The walk -/

/-- Evaluate the expression for everything in a directory. -/
def walk (e : Expr) (base : Text) : Entries → List Text
  | .nil => []
  | .leaf name l rest =>
    (e.eval ((Node.leaf l).info (joinPath base [name]))).printed ++ walk e base rest
  | .dir name mtime children rest =>
    let r := e.eval ((Node.dir mtime).info (joinPath base [name]))
    r.printed ++ (if r.pruned then [] else walk e (joinPath base [name]) children) ++
      walk e base rest

/-- `find start …`, where `start` is a directory: what is printed.  It fails if an argument is wrong
or a reference file does not exist. -/
def run (mtime : Text → Option ℤ) (rootMtime : ℤ) (entries : Entries) :
    List Text → Option (List Text)
  | _find :: start :: args =>
    (parse mtime args).map fun e =>
      let r := e.eval ((Node.dir rootMtime).info start)
      r.printed ++ if r.pruned then [] else walk e start entries
  | _ => none

/-- No directory on the way to the location is pruned. -/
def Reached (prune : Text → Bool) (base : Text) (loc : List Text) : Prop :=
  ∀ l₁ c l₂, loc = l₁ ++ c :: l₂ → l₁ ≠ [] → prune (joinPath base l₁) = false

theorem reached_singleton (prune : Text → Bool) (base name : Text) :
    Reached prune base [name] := by
  intro l₁ c l₂ h hne
  obtain ⟨x, l₁, rfl⟩ := List.exists_cons_of_ne_nil hne
  simp at h

theorem reached_cons {prune : Text → Bool} {base name : Text} (hloc : loc ≠ []) :
    Reached prune base (name :: loc) ↔
      prune (joinPath base [name]) = false ∧ Reached prune (joinPath base [name]) loc := by
  constructor
  · intro h
    obtain ⟨c, l, rfl⟩ := List.exists_cons_of_ne_nil hloc
    refine ⟨h [name] c l rfl (List.cons_ne_nil _ _), fun l₁ c' l₂ hl _ => ?_⟩
    rw [← joinPath_append]
    exact h (name :: l₁) c' l₂ (by rw [hl]; rfl) (List.cons_ne_nil _ _)
  · rintro ⟨hname, h⟩ l₁ c l₂ hl hne
    obtain ⟨x, l₁, rfl⟩ := List.exists_cons_of_ne_nil hne
    rw [List.cons_append, List.cons.injEq] at hl
    obtain ⟨rfl, rfl⟩ := hl
    by_cases hnil : l₁ = []
    · rw [hnil]
      exact hname
    · have := h l₁ c l₂ rfl hnil
      rwa [← joinPath_append] at this

/-- **What is printed**, when the path of a directory decides whether it is pruned. -/
theorem mem_walk {e : Expr} (prune : Text → Bool)
    (hprune : ∀ path mtime, (e.eval ((Node.dir mtime).info path)).pruned = prune path)
    {base t : Text} :
    t ∈ walk e base entries ↔ ∃ x ∈ entries.nodes,
      t ∈ (e.eval (x.2.info (joinPath base x.1))).printed ∧ Reached prune base x.1 := by
  induction entries generalizing base with
  | nil => simp [walk, Entries.nodes]
  | leaf name l rest ih =>
    simp only [walk, Entries.nodes, List.mem_append, List.exists_mem_cons_iff, ih,
      reached_singleton, and_true]
  | dir name mtime children rest ih ih' =>
    -- the children are looked at unless the directory is pruned
    have hchildren : t ∈ (if prune (joinPath base [name]) = true then []
          else walk e (joinPath base [name]) children) ↔
        ∃ x ∈ children.nodes, t ∈ (e.eval (x.2.info (joinPath base (name :: x.1)))).printed ∧
          Reached prune base (name :: x.1) := by
      have hx : ∀ x ∈ children.nodes, (Reached prune base (name :: x.1) ↔
          prune (joinPath base [name]) = false ∧ Reached prune (joinPath base [name]) x.1) :=
        fun x hx => reached_cons (ne_nil_of_mem_nodes (n := x.2) hx)
      have hjoin : ∀ l, joinPath base (name :: l) = joinPath (joinPath base [name]) l :=
        fun l => joinPath_append base [name] l
      split_ifs with hp
      · simp only [List.not_mem_nil, false_iff]
        rintro ⟨x, hmem, -, hreach⟩
        rw [hx x hmem, hp] at hreach
        cases hreach.1
      · rw [ih]
        refine exists_congr fun x => and_congr_right fun hmem => ?_
        rw [hx x hmem, hjoin x.1]
        simp [hp]
    simp only [walk, Entries.nodes, hprune, List.mem_append, hchildren, ih', List.mem_cons,
      List.mem_map, or_and_right, exists_or, exists_eq_left, reached_singleton, and_true]
    refine or_congr_left (or_congr_right ?_)
    constructor
    · rintro ⟨x, hx, h⟩
      exact ⟨_, ⟨x, hx, rfl⟩, h⟩
    · rintro ⟨_, ⟨x, hx, rfl⟩, h⟩
      exact ⟨x, hx, h⟩

end Find
