import Playbit.Python.Text

/-!
# Paths as Python handles them

Paths as texts, with the functions `join`, `normpath` and `abspath` of `os.path`, and as values of
`pathlib`: a root and the parts below it.  A path may start with one slash or with two, which are
different roots; three slashes and more are one.

A normalised absolute path is read back by `pathlib` as its root and components
(`PurePath.parse_normpath`).
-/

namespace Python

/-! ### os.path -/

/-- `os.path.isabs`. -/
def isabs (path : Text) : Bool := path.head? == some '/'

/-- `os.path.join` of two paths. -/
def osPathJoin (path b : Text) : Text :=
  if isabs b then b
  else if path = [] ∨ path.getLast? = some '/' then path ++ b
  else path ++ '/' :: b

/-- How a path starts. -/
inductive Root
  | relative
  /-- One slash, or more than two. -/
  | slash
  /-- Two slashes. -/
  | slashes
  deriving DecidableEq

/-- The root of a path, `os.path.splitroot`. -/
def splitroot : Text → Root × Text
  | '/' :: '/' :: '/' :: path => (.slash, '/' :: '/' :: path)
  | '/' :: '/' :: path => (.slashes, path)
  | '/' :: path => (.slash, path)
  | path => (.relative, path)

/-- The root as it is written. -/
def Root.text : Root → Text
  | relative => []
  | slash => ['/']
  | slashes => ['/', '/']

/-- One round of the loop of `normpath`. -/
def normStep (root : Root) (newComps : List Text) (comp : Text) : List Text :=
  if comp = [] ∨ comp = ['.'] then newComps
  else if comp ≠ ['.', '.'] ∨ (root = .relative ∧ newComps = []) ∨
      newComps.getLast? = some ['.', '.'] then newComps ++ [comp]
  else newComps.dropLast

/-- The components of a normalised path. -/
def normComps (path : Text) : List Text :=
  (path.splitOn '/').foldl (normStep (splitroot path).1) []

/-- `os.path.normpath`. -/
def normpath (path : Text) : Text :=
  let normalised := (splitroot path).1.text ++ ['/'].intercalate (normComps path)
  if normalised = [] then ['.'] else normalised

/-- `os.path.abspath`, in the working directory `cwd`. -/
def abspath (cwd path : Text) : Text :=
  if isabs path then normpath path else normpath (osPathJoin cwd path)

/-! ### Components -/

/-- What the components of a path can be. -/
def PathPart (c : Text) : Prop := c ≠ [] ∧ '/' ∉ c ∧ c ≠ ['.']

instance instDecidablePathPart (c : Text) : Decidable (PathPart c) :=
  inferInstanceAs (Decidable (_ ∧ _))

/-- What is between the slashes of a path. -/
def nameParts (path : Text) : List Text := (path.splitOn '/').filter (· ≠ [])

/-- The components of a path. -/
def pathParts (path : Text) : List Text := (nameParts path).filter (· ≠ ['.'])

theorem nameParts_append_slash (path path' : Text) :
    nameParts (path ++ '/' :: path') = nameParts path ++ nameParts path' := by
  rw [nameParts, List.splitOn_append_cons_self, List.filter_append]
  rfl

theorem nameParts_of_notMem {name : Text} (h : '/' ∉ name) (hne : name ≠ []) :
    nameParts name = [name] := by
  rw [nameParts, List.splitOn_eq_singleton h]
  simp [hne]

theorem pathPart_of_mem_pathParts {path c : Text} (h : c ∈ pathParts path) : PathPart c := by
  obtain ⟨hname, hdot⟩ := List.mem_filter.1 h
  obtain ⟨hsplit, hne⟩ := List.mem_filter.1 hname
  exact ⟨of_decide_eq_true hne, notMem_of_mem_splitOn hsplit, of_decide_eq_true hdot⟩

theorem pathParts_append_slash (path path' : Text) :
    pathParts (path ++ '/' :: path') = pathParts path ++ pathParts path' := by
  rw [pathParts, nameParts_append_slash, List.filter_append]
  rfl

theorem pathParts_of_splitOn {path : Text} {comps : List Text} (h : path.splitOn '/' = comps)
    (hcomps : ∀ x ∈ comps, PathPart x) : pathParts path = comps := by
  rw [pathParts, nameParts, h, List.filter_eq_self.2 fun x hx => decide_eq_true (hcomps x hx).1]
  exact List.filter_eq_self.2 fun x hx => decide_eq_true (hcomps x hx).2.2

theorem pathParts_slash (path : Text) : pathParts ('/' :: path) = pathParts path :=
  pathParts_append_slash [] path

theorem pathParts_of_pathPart {x : Text} (h : PathPart x) : pathParts x = [x] :=
  pathParts_of_splitOn (List.splitOn_eq_singleton h.2.1) (by simpa using h)

theorem pathParts_intercalate {comps : List Text} (h : ∀ x ∈ comps, PathPart x) :
    pathParts (['/'].intercalate comps) = comps := by
  by_cases hne : comps = []
  · subst hne
    rfl
  · exact pathParts_of_splitOn (List.splitOn_intercalate '/' (fun x hx => (h x hx).2.1) hne) h

/-! ### pathlib -/

/-- `PurePosixPath`. -/
structure PurePath where
  root : Root
  parts : List Text
  deriving DecidableEq

namespace PurePath

/-- The path of a text. -/
def parse (path : Text) : PurePath :=
  ⟨(splitroot path).1, pathParts (splitroot path).2⟩

/-- `str(path)`. -/
def str (p : PurePath) : Text :=
  let t := p.root.text ++ ['/'].intercalate p.parts
  if t = [] then ['.'] else t

/-- `path.parent`: a path without parts is its own parent. -/
def parent (p : PurePath) : PurePath := { p with parts := p.parts.dropLast }

/-- `path / name`. -/
def child (p : PurePath) (name : Text) : PurePath := { p with parts := p.parts ++ [name] }

/-- `path / segment`. -/
def join (p : PurePath) (segment : Text) : PurePath :=
  if isabs segment then parse segment else { p with parts := p.parts ++ (parse segment).parts }

/-- The path and its parents, without the root. -/
def ancestors (p : PurePath) : List PurePath :=
  (List.range p.parts.length).reverse.map fun k => { p with parts := p.parts.take (k + 1) }

theorem ancestors_nil (root : Root) : ancestors ⟨root, []⟩ = [] := rfl

theorem ancestors_concat (root : Root) (parts : List Text) (x : Text) :
    ancestors ⟨root, parts ++ [x]⟩ = ⟨root, parts ++ [x]⟩ :: ancestors ⟨root, parts⟩ := by
  unfold ancestors
  simp only [List.length_append, List.length_singleton, List.range_succ, List.reverse_append,
    List.reverse_singleton, List.singleton_append, List.map_cons]
  congr 1
  · rw [List.take_of_length_le (by simp)]
  · refine List.map_congr_left fun k hk => ?_
    have hlt := List.mem_range.1 (List.mem_reverse.1 hk)
    rw [List.take_append_of_le_length (by omega)]

theorem parts_ne_nil_of_mem_ancestors {p q : PurePath} (h : q ∈ p.ancestors) : q.parts ≠ [] := by
  obtain ⟨k, hk, rfl⟩ := List.mem_map.1 h
  have hlt := List.mem_range.1 (List.mem_reverse.1 hk)
  have hne : p.parts ≠ [] := List.ne_nil_of_length_pos (Nat.zero_lt_of_lt hlt)
  simp [hne]

theorem parent_concat (root : Root) (parts : List Text) (x : Text) :
    parent ⟨root, parts ++ [x]⟩ = ⟨root, parts⟩ := by
  rw [parent, List.dropLast_concat]

end PurePath

/-! ### Normalised paths -/

theorem pathPart_normStep {root : Root} {newComps : List Text} {comp : Text}
    (h : ∀ x ∈ newComps, PathPart x) (hcomp : '/' ∉ comp) :
    ∀ x ∈ normStep root newComps comp, PathPart x := by
  unfold normStep
  split_ifs with hskip
  · exact h
  · intro x hx
    rcases List.mem_append.1 hx with hx | hx
    · exact h x hx
    · rw [List.mem_singleton.1 hx]
      exact ⟨(not_or.1 hskip).1, hcomp, (not_or.1 hskip).2⟩
  · intro x hx
    exact h x (List.dropLast_subset _ hx)

theorem pathPart_of_mem_normComps {path x : Text} (hx : x ∈ normComps path) : PathPart x := by
  have key : ∀ comps : List Text, (∀ c ∈ comps, '/' ∉ c) → ∀ acc : List Text,
      (∀ x ∈ acc, PathPart x) →
        ∀ x ∈ comps.foldl (normStep (splitroot path).1) acc, PathPart x := by
    intro comps
    induction comps with
    | nil => exact fun _ _ hacc => hacc
    | cons c comps ih =>
      intro hcomps acc hacc
      exact ih (fun d hd => hcomps d (.tail _ hd)) _
        (pathPart_normStep hacc (hcomps c List.mem_cons_self))
  exact key _ (fun c hc => notMem_of_mem_splitOn hc) [] (by simp) x hx

theorem head_intercalate_ne {comps : List Text} (h : ∀ x ∈ comps, PathPart x) :
    (['/'].intercalate comps).head? ≠ some '/' := by
  cases comps with
  | nil => simp
  | cons x comps =>
    obtain ⟨hne, hslash, -⟩ := h x List.mem_cons_self
    obtain ⟨c, x', rfl⟩ := List.exists_cons_of_ne_nil hne
    have hc : c ≠ '/' := fun heq => hslash (heq ▸ List.mem_cons_self)
    cases comps with
    | nil => simpa using hc
    | cons y comps => simpa using hc

theorem splitroot_text_append {root : Root} (hroot : root ≠ .relative) {t : Text}
    (ht : t.head? ≠ some '/') : splitroot (root.text ++ t) = (root, t) := by
  cases t with
  | nil => cases root <;> rfl
  | cons c t =>
    have hc : c ≠ '/' := fun heq => ht (congrArg some heq)
    cases root with
    | relative => contradiction
    | slash => simp [Root.text, splitroot, hc]
    | slashes => simp [Root.text, splitroot, hc]

/-- **A normalised absolute path is read back as its root and components.** -/
theorem PurePath.parse_normpath {path : Text} (h : (splitroot path).1 ≠ .relative) :
    parse (normpath path) = ⟨(splitroot path).1, normComps path⟩ := by
  have hcomps : ∀ x ∈ normComps path, PathPart x := fun x hx => pathPart_of_mem_normComps hx
  have hne : (splitroot path).1.text ++ ['/'].intercalate (normComps path) ≠ [] := by
    cases hroot : (splitroot path).1 <;> simp_all [Root.text]
  have hsplit := splitroot_text_append h (head_intercalate_ne hcomps)
  rw [normpath]
  simp only [if_neg hne]
  rw [parse, hsplit, pathParts_intercalate hcomps]

theorem splitroot_eq_relative_iff {path : Text} :
    (splitroot path).1 = .relative ↔ isabs path = false := by
  unfold splitroot
  split
  case h_4 hne =>
    cases path with
    | nil => exact iff_of_true rfl rfl
    | cons c path =>
      have hc : c ≠ '/' := fun heq => hne path (heq ▸ rfl)
      exact iff_of_true rfl (by simp [isabs, hc])
  all_goals exact iff_of_false (by simp) (by simp [isabs])

/-! ### Paths and their texts -/

theorem PurePath.pathPart_parse {path x : Text} (hx : x ∈ (parse path).parts) : PathPart x :=
  pathPart_of_mem_pathParts hx

theorem PurePath.parse_parts (path : Text) : (parse path).parts = pathParts path := by
  rw [parse]
  unfold splitroot
  split
  · exact (pathParts_slash _).symm
  · exact ((pathParts_slash _).trans (pathParts_slash _)).symm
  · exact (pathParts_slash _).symm
  · rfl

theorem PurePath.parse_str {p : PurePath} (habs : p.root ≠ .relative)
    (h : ∀ x ∈ p.parts, PathPart x) : parse p.str = p := by
  obtain ⟨root, parts⟩ := p
  have hne : root.text ++ ['/'].intercalate parts ≠ [] := by
    cases root <;> simp_all [Root.text]
  rw [str]
  simp only [if_neg hne]
  rw [parse, splitroot_text_append habs (head_intercalate_ne h), pathParts_intercalate h]

theorem PurePath.str_eq {p : PurePath} (habs : p.root ≠ .relative) :
    p.str = p.root.text ++ ['/'].intercalate p.parts := by
  obtain ⟨root, parts⟩ := p
  exact if_neg (by cases root <;> simp_all [Root.text])

end Python
