import Playbit.Python.Path
import Mathlib.Data.List.Infix

/-!
# Expressions of `find`

An expression is made of tests (`-path`, `-type d`, `-newer`) and actions (`-print`, `-prune`) with
`-not`, `-o`, parentheses, and "and" where there is nothing between them.  It is evaluated for each
file from left to right, as far as needed.

Arguments are parsed in one pass.  A frame holds what has been read since the last open parenthesis.
Words that are not among those above are refused, although `find` knows many more.

What is used of patterns are those without a star and those with a single one at the end
(`fnmatch_of_literal`, `fnmatch_append_star`).
-/

namespace Find

open Python

/-! ### Patterns -/

/-- `fnmatch(3)` without flags.  Brackets and backslashes stand for themselves. -/
def fnmatch : Text → Text → Bool
  | [], t => t.isEmpty
  | c :: p, t =>
    if c = '*' then t.tails.any (fnmatch p)
    else
      match t with
      | [] => false
      | c' :: t => (decide (c = '?') || decide (c = c')) && fnmatch p t

/-- No character of the text is special in a pattern. -/
def Literal (t : Text) : Prop := ∀ c ∈ t, c ≠ '*' ∧ c ≠ '?' ∧ c ≠ '[' ∧ c ≠ '\\'

instance instDecidableLiteral (t : Text) : Decidable (Literal t) :=
  List.decidableBAll (fun c => c ≠ '*' ∧ c ≠ '?' ∧ c ≠ '[' ∧ c ≠ '\\') t

variable {p t u : Text}

theorem fnmatch_star (p t : Text) : fnmatch ('*' :: p) t = t.tails.any (fnmatch p) := by
  cases t <;> rfl

theorem fnmatch_append (hp : Literal p) (q : Text) :
    fnmatch (p ++ q) t = true ↔ ∃ u, t = p ++ u ∧ fnmatch q u = true := by
  induction p generalizing t with
  | nil => simp
  | cons c p ih =>
    obtain ⟨hstar, hmark, -⟩ := hp c List.mem_cons_self
    rw [List.cons_append]
    cases t with
    | nil => simp [fnmatch, hstar]
    | cons c' t =>
      simp only [fnmatch, hstar, if_false, hmark, decide_false, Bool.false_or, Bool.and_eq_true,
        decide_eq_true_eq, ih fun c hc => hp c (.tail _ hc), List.cons_append, List.cons.injEq]
      exact ⟨fun ⟨hc, u, ht, hu⟩ => ⟨u, ⟨hc.symm, ht⟩, hu⟩,
        fun ⟨u, ⟨hc, ht⟩, hu⟩ => ⟨hc.symm, u, ht, hu⟩⟩

/-- A pattern without special characters matches itself. -/
theorem fnmatch_of_literal (hp : Literal p) : fnmatch p t = true ↔ t = p := by
  have h := fnmatch_append (t := t) hp []
  rw [List.append_nil] at h
  rw [h]
  simp [fnmatch]

theorem fnmatch_append_star (hp : Literal p) : fnmatch (p ++ ['*']) t = true ↔ p <+: t := by
  rw [fnmatch_append hp]
  have hstar : ∀ u, fnmatch ['*'] u = true := by
    intro u
    rw [fnmatch_star, List.any_eq_true]
    exact ⟨[], (List.mem_tails _ _).2 List.nil_suffix, rfl⟩
  simp only [hstar, and_true]
  exact ⟨fun ⟨u, hu⟩ => ⟨u, hu.symm⟩, fun ⟨u, hu⟩ => ⟨u, hu.symm⟩⟩

/-! ### Evaluation -/

/-- An expression.  The time of the reference file is looked up when it is parsed. -/
inductive Expr
  | path (pattern : Text)
  /-- `-type d` -/
  | isDir
  | newer (reference : ℤ)
  | print
  | prune
  | not (e : Expr)
  | and (a b : Expr)
  | or (a b : Expr)

/-- What is known of a file when the expression is evaluated. -/
structure Info where
  path : Text
  dir : Bool
  mtime : ℤ

/-- The value of an expression, with what its actions have done. -/
structure Outcome where
  value : Bool
  printed : List Text := []
  pruned : Bool := false

/-- First `r`, then `r'`. -/
def Outcome.andThen (r r' : Outcome) : Outcome :=
  ⟨r'.value, r.printed ++ r'.printed, r.pruned || r'.pruned⟩

namespace Expr

/-- Evaluate an expression for a file. -/
def eval (f : Info) : Expr → Outcome
  | path pattern => { value := fnmatch pattern f.path }
  | isDir => { value := f.dir }
  | newer reference => { value := decide (reference < f.mtime) }
  | print => { value := true, printed := [f.path] }
  | prune => { value := true, pruned := true }
  | not e => { e.eval f with value := !(e.eval f).value }
  | and a b => if (a.eval f).value then (a.eval f).andThen (b.eval f) else a.eval f
  | or a b => if (a.eval f).value then a.eval f else (a.eval f).andThen (b.eval f)

/-- There is a `-print` in the expression. -/
def prints : Expr → Bool
  | print => true
  | not e => e.prints
  | and a b => a.prints || b.prints
  | or a b => a.prints || b.prints
  | _ => false

/-- The expression is a test with the values `P`. -/
structure Tests (e : Expr) (P : Info → Bool) : Prop where
  prints : e.prints = false
  eval : ∀ f, e.eval f = { value := P f }

variable {a b e : Expr} {P Q : Info → Bool}

theorem tests_path (pattern : Text) : (path pattern).Tests fun f => fnmatch pattern f.path :=
  ⟨rfl, fun _ => rfl⟩

theorem tests_isDir : isDir.Tests Info.dir := ⟨rfl, fun _ => rfl⟩

theorem tests_newer (reference : ℤ) :
    (newer reference).Tests fun f => decide (reference < f.mtime) :=
  ⟨rfl, fun _ => rfl⟩

theorem Tests.not (h : e.Tests P) : (not e).Tests fun f => !P f := by
  refine ⟨h.prints, fun f => ?_⟩
  rw [Expr.eval, h.eval f]

theorem Tests.and (ha : a.Tests P) (hb : b.Tests Q) : (and a b).Tests fun f => P f && Q f := by
  refine ⟨by rw [Expr.prints, ha.prints, hb.prints]; rfl, fun f => ?_⟩
  simp only [Expr.eval, ha.eval f, hb.eval f]
  cases P f <;> rfl

theorem Tests.or (ha : a.Tests P) (hb : b.Tests Q) : (or a b).Tests fun f => P f || Q f := by
  refine ⟨by rw [Expr.prints, ha.prints, hb.prints]; rfl, fun f => ?_⟩
  simp only [Expr.eval, ha.eval f, hb.eval f]
  cases P f <;> rfl

end Expr

/-! ### Parsing -/

/-- The words with a meaning of their own. -/
inductive Keyword
  | lparen | rparen | not | or | print | prune
  /-- These take an argument. -/
  | path | type | newer
  deriving DecidableEq

def keyword (t : Text) : Option Keyword :=
  if t = "(".toList then some .lparen
  else if t = ")".toList then some .rparen
  else if t = "-not".toList then some .not
  else if t = "-o".toList then some .or
  else if t = "-print".toList then some .print
  else if t = "-prune".toList then some .prune
  else if t = "-path".toList then some .path
  else if t = "-type".toList then some .type
  else if t = "-newer".toList then some .newer
  else none

/-- What has been read of an expression: `ors -o ands`, followed by `-not`s. -/
structure Frame where
  ors : Option Expr := none
  ands : Option Expr := none
  nots : ℕ := 0

namespace Frame

/-- `a e` -/
def conj : Option Expr → Expr → Expr
  | none, e => e
  | some a, e => .and a e

/-- `a -o e` -/
def disj : Option Expr → Expr → Expr
  | none, e => e
  | some a, e => .or a e

def negate : ℕ → Expr → Expr
  | 0, e => e
  | n + 1, e => .not (negate n e)

/-- Add an expression. -/
def push (f : Frame) (e : Expr) : Frame :=
  { f with ands := some (conj f.ands (negate f.nots e)), nots := 0 }

/-- The expression, if it is complete. -/
def close (f : Frame) : Option Expr := if f.nots = 0 then f.ands.map (disj f.ors) else none

end Frame

/-- The state of the parser. -/
structure Parser where
  /-- Outside of the open parentheses. -/
  stack : List Frame := []
  frame : Frame := {}
  /-- The word that takes the next one as its argument. -/
  pending : Option Keyword := none

namespace Parser

/-- Add an expression. -/
def push (s : Parser) (e : Expr) : Parser :=
  { s with frame := s.frame.push e, pending := none }

/-- Read a word that is not an argument. -/
def readKeyword (s : Parser) : Keyword → Option Parser
  | .lparen => some { stack := s.frame :: s.stack }
  | .rparen =>
    match s.stack with
    | [] => none
    | f :: stack => s.frame.close.map fun e => { stack, frame := f.push e }
  | .not => some { s with frame.nots := s.frame.nots + 1 }
  | .or => s.frame.close.map fun e => { s with frame := { ors := some e } }
  | .print => some (s.push .print)
  | .prune => some (s.push .prune)
  | k => some { s with pending := some k }

/-- Read an argument.  `mtime` has the times of the files that exist. -/
def readArgument (mtime : Text → Option ℤ) (s : Parser) (t : Text) : Keyword → Option Parser
  | .path => some (s.push (.path t))
  | .type => if t = "d".toList then some (s.push .isDir) else none
  | .newer => (mtime t).map fun reference => s.push (.newer reference)
  | _ => none

/-- Read a word. -/
def read (mtime : Text → Option ℤ) (s : Parser) (t : Text) : Option Parser :=
  match s.pending with
  | none => (keyword t).bind s.readKeyword
  | some k => readArgument mtime s t k

end Parser

/-- Parse the arguments.  Without a `-print`, one is added to the whole expression. -/
def parse (mtime : Text → Option ℤ) (args : List Text) : Option Expr :=
  (args.foldlM (Parser.read mtime) {}).bind fun s =>
    if s.stack = [] ∧ s.pending = none then
      s.frame.close.map fun e => if e.prints then e else .and e .print
    else none

/-! ### Reading tests -/

section Read

variable {mtime : Text → Option ℤ} {s : Parser} {f : Frame} {e : Expr} {P Q : Info → Bool}

theorem read_keyword (hs : s.pending = none) {t : Text} {k : Keyword} (ht : keyword t = some k) :
    s.read mtime t = s.readKeyword k := by
  rw [Parser.read, hs, ht]
  rfl

theorem read_word (hs : s.pending = none) {t : Text} {k : Keyword} (ht : keyword t = some k)
    (args : List Text) :
    (t :: args).foldlM (Parser.read mtime) s =
      (s.readKeyword k).bind fun s => args.foldlM (Parser.read mtime) s := by
  rw [List.foldlM_cons, read_keyword hs ht]
  rfl

theorem read_path (hs : s.pending = none) (pattern : Text) :
    ["-path".toList, pattern].foldlM (Parser.read mtime) s = some (s.push (.path pattern)) := by
  rw [read_word hs (k := .path) (by decide)]
  rfl

theorem read_type (hs : s.pending = none) :
    ["-type".toList, "d".toList].foldlM (Parser.read mtime) s = some (s.push .isDir) := by
  rw [read_word hs (k := .type) (by decide)]
  rfl

theorem read_newer (hs : s.pending = none) (file : Text) :
    ["-newer".toList, file].foldlM (Parser.read mtime) s =
      (mtime file).map fun reference => s.push (.newer reference) := by
  rw [read_word hs (k := .newer) (by decide)]
  exact Option.bind_fun_some _

theorem read_not (hs : s.pending = none) (args : List Text) :
    ("-not".toList :: args).foldlM (Parser.read mtime) s =
      args.foldlM (Parser.read mtime) { s with frame.nots := s.frame.nots + 1 } := by
  rw [read_word hs (k := .not) (by decide)]
  rfl

/-- So far, the files that meet `P` are left. -/
structure Frame.Tests (f : Frame) (P : Info → Bool) : Prop where
  nots : f.nots = 0
  ands : (f.ands = none ∧ ∀ x, P x = true) ∨ ∃ a, f.ands = some a ∧ a.Tests P

theorem Frame.Tests.empty (ors : Option Expr) : Frame.Tests { ors } fun _ => true :=
  ⟨rfl, .inl ⟨rfl, fun _ => rfl⟩⟩

theorem read_parentheses {args : List Text} {outer inner : Frame} {stack : List Frame}
    (hargs : args.foldlM (Parser.read mtime) { stack := outer :: stack } =
      some { stack := outer :: stack, frame := inner }) (hclose : inner.close = some e) :
    ("(".toList :: args ++ [")".toList]).foldlM (Parser.read mtime) { stack, frame := outer } =
      some { stack, frame := outer.push e } := by
  rw [List.cons_append, read_word rfl (k := .lparen) (by decide)]
  show (args ++ [")".toList]).foldlM (Parser.read mtime) { stack := outer :: stack } = _
  rw [List.foldlM_append, hargs]
  show [")".toList].foldlM (Parser.read mtime) { stack := outer :: stack, frame := inner } = _
  rw [read_word rfl (k := .rparen) (by decide), Parser.readKeyword, hclose]
  rfl

/-- **One more test.** -/
theorem Frame.Tests.push (h : f.Tests P) (he : e.Tests Q) :
    (f.push e).Tests fun x => P x && Q x := by
  refine ⟨rfl, .inr ⟨_, rfl, ?_⟩⟩
  rw [h.nots]
  obtain ⟨hnone, hP⟩ | ⟨a, hsome, ha⟩ := h.ands
  · have hQ : (fun x => P x && Q x) = Q := by
      funext x
      rw [hP x, Bool.true_and]
    rw [hnone, hQ]
    exact he
  · rw [hsome]
    exact ha.and he

theorem Frame.Tests.exists_ands (h : (f.push e).Tests P) :
    ∃ a, f.push e = { ors := f.ors, ands := some a } ∧ a.Tests P := by
  obtain ⟨hnone, -⟩ | ⟨a, hsome, ha⟩ := h.ands
  · cases hnone
  · exact ⟨a, by rw [← hsome]; rfl, ha⟩

theorem Frame.Tests.pushNot (h : f.Tests P) (he : e.Tests Q) :
    (Frame.push { f with nots := f.nots + 1 } e).Tests fun x => P x && !Q x := by
  have hpush : Frame.push { f with nots := f.nots + 1 } e = f.push (.not e) := by
    rw [Frame.push, Frame.push, h.nots]
    rfl
  rw [hpush]
  exact h.push he.not

end Read

end Find
