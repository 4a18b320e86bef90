import Mathlib.Data.List.Basic
import Mathlib.Data.Nat.Notation

/-!
# The utilities `printf` and `echo`

What the two utilities write for their operands, over bytes.  The format of `printf` has escape
sequences and conversions in it, and is used again as long as there are arguments left; one pass
more than there are arguments is always enough (`writeAll_succ`).

POSIX leaves some of it open: what `printf` makes of arguments when the format has no conversions,
of escape sequences and conversions that are not defined, and of a format that looks like an option;
and what `echo` makes of backslashes and of a first operand that looks like an option (POSIX names
`-n`, shells take `-e` and `-E` as well).  An `Implementation` fills this in, and says what the
conversions write.  Formats with `%b`, which may end the output, and with conversions that need not
be there, such as `%f`, are left to it as well.

A format without conversions and escape sequences is written as it is (`printf_word`), and
`echo_eq_iff` says what can be told from what `echo` writes.
-/

namespace Posix

abbrev Bytes := List UInt8

/-- The bytes of an ASCII text. -/
def ascii (s : String) : Bytes := s.toList.map Char.toUInt8

def backslash : UInt8 := 0x5C

def percent : UInt8 := 0x25

def space : UInt8 := 0x20

def newline : UInt8 := 0x0A

def hyphen : UInt8 := 0x2D

/-! ### Formats -/

/-- A conversion specification: what stands between `%` and the letter, and the letter. -/
structure Conversion where
  spec : Bytes
  letter : UInt8
  deriving DecidableEq

/-- A piece of a format. -/
inductive Piece
  | byte (b : UInt8)
  | conversion (c : Conversion)
  deriving DecidableEq

/-- The escape sequences of one letter. -/
def escapeOf (b : UInt8) : Option UInt8 :=
  ([(0x5C, 0x5C), (0x61, 0x07), (0x62, 0x08), (0x66, 0x0C), (0x6E, 0x0A), (0x72, 0x0D),
    (0x74, 0x09), (0x76, 0x0B)] : List (UInt8 × UInt8)).lookup b

/-- The value of an octal digit. -/
def octalDigit (b : UInt8) : Option ℕ :=
  if 0x30 ≤ b ∧ b ≤ 0x37 then some (b.toNat - 0x30) else none

def isDigit (b : UInt8) : Bool := 0x30 ≤ b && b ≤ 0x39

/-- Flags, a width, and a precision. -/
def isSpec (spec : Bytes) : Bool :=
  let rest := (spec.dropWhile (· ∈ ascii "-+ #0")).dropWhile isDigit
  rest = [] || (rest.head? = some 0x2E && rest.tail.all isDigit)

/-- Where the reading of a format is. -/
inductive Scan
  | plain
  /-- After a backslash. -/
  | escape
  /-- In an octal number of so many digits. -/
  | octal (value digits : ℕ)
  /-- In a conversion. -/
  | conversion (spec : Bytes)
  /-- The format is not defined. -/
  | undefined
  deriving DecidableEq

/-- A byte outside of escape sequences and conversions. -/
def scanPlain (pieces : List Piece) (b : UInt8) : Scan × List Piece :=
  if b = backslash then (.escape, pieces)
  else if b = percent then (.conversion [], pieces)
  else (.plain, pieces ++ [.byte b])

/-- The next byte of a format. -/
def scanByte : Scan × List Piece → UInt8 → Scan × List Piece
  | (.plain, pieces), b => scanPlain pieces b
  | (.escape, pieces), b =>
    match octalDigit b, escapeOf b with
    | some d, _ => (.octal d 1, pieces)
    | none, some c => (.plain, pieces ++ [.byte c])
    | none, none => (.undefined, pieces)
  | (.octal value digits, pieces), b =>
    match octalDigit b with
    | some d =>
      if digits < 3 then (.octal (value * 8 + d) (digits + 1), pieces)
      else scanPlain (pieces ++ [.byte (UInt8.ofNat value)]) b
    | none => scanPlain (pieces ++ [.byte (UInt8.ofNat value)]) b
  | (.conversion spec, pieces), b =>
    if spec = [] ∧ b = percent then (.plain, pieces ++ [.byte percent])
    else if b ∈ ascii "-+ #0123456789." then (.conversion (spec ++ [b]), pieces)
    else if isSpec spec ∧ b ∈ ascii "diouxXcs" then (.plain, pieces ++ [.conversion ⟨spec, b⟩])
    else (.undefined, pieces)
  | (.undefined, pieces), _ => (.undefined, pieces)

/-- A format as a list of pieces, or none if it is not defined. -/
def parseFormat (format : Bytes) : Option (List Piece) :=
  match format.foldl scanByte (.plain, []) with
  | (.plain, pieces) => some pieces
  | (.octal value _, pieces) => some (pieces ++ [.byte (UInt8.ofNat value)])
  | _ => none

/-! ### The utilities -/

/-- What POSIX, or this model, leaves to the implementation. -/
structure Implementation where
  /-- What is written for a conversion and its argument. -/
  convert : Conversion → Bytes → Bytes
  convert_s : ∀ arg, convert ⟨[], 0x73⟩ arg = arg
  otherPrintf : List Bytes → Bytes
  otherEcho : List Bytes → Bytes

variable (impl : Implementation)

/-- A conversion for which there is no argument left. -/
def Implementation.missing (c : Conversion) : Bytes :=
  impl.convert c (if c.letter ∈ ascii "cs" then [] else ascii "0")

/-- Use the format once: what is written, and the arguments that are left. -/
def writeOnce : List Piece → List Bytes → Bytes × List Bytes
  | [], args => ([], args)
  | .byte b :: pieces, args =>
    let (out, rest) := writeOnce pieces args
    (b :: out, rest)
  | .conversion c :: pieces, [] =>
    let (out, rest) := writeOnce pieces []
    (impl.missing c ++ out, rest)
  | .conversion c :: pieces, arg :: args =>
    let (out, rest) := writeOnce pieces args
    (impl.convert c arg ++ out, rest)

/-- Use the format until there are no arguments left. -/
def writeAll (pieces : List Piece) : ℕ → List Bytes → Bytes
  | 0, _ => []
  | fuel + 1, args =>
    match writeOnce impl pieces args with
    | (out, []) => out
    | (out, rest) => out ++ writeAll pieces fuel rest

def Piece.isConversion : Piece → Bool
  | .byte _ => false
  | .conversion _ => true

/-- The format, unless it looks like an option. -/
def formatOf (format : Bytes) : Option (List Piece) :=
  if format.head? = some hyphen then none else parseFormat format

/-- `printf` -/
def printf : List Bytes → Bytes
  | [] => impl.otherPrintf []
  | format :: args =>
    match formatOf format with
    | none => impl.otherPrintf (format :: args)
    | some pieces =>
      if args = [] ∨ pieces.any Piece.isConversion then
        writeAll impl pieces (args.length + 1) args
      else impl.otherPrintf (format :: args)

/-- `echo` -/
def echo (args : List Bytes) : Bytes :=
  if (args.headD []).head? = some hyphen ∨ ∃ arg ∈ args, backslash ∈ arg then
    impl.otherEcho args
  else [space].intercalate args ++ [newline]

theorem length_writeOnce_le (pieces : List Piece) (args : List Bytes) :
    (writeOnce impl pieces args).2.length ≤ args.length := by
  induction pieces generalizing args with
  | nil => exact Nat.le_refl _
  | cons piece pieces ih =>
    cases piece with
    | byte b => exact ih args
    | conversion c =>
      cases args with
      | nil => exact ih []
      | cons arg args => exact Nat.le_trans (ih args) (Nat.le_succ _)

theorem length_writeOnce_lt {pieces : List Piece} (h : pieces.any Piece.isConversion = true)
    {args : List Bytes} (hargs : args ≠ []) :
    (writeOnce impl pieces args).2.length < args.length := by
  induction pieces with
  | nil => cases h
  | cons piece pieces ih =>
    cases piece with
    | byte b => exact ih (by simpa [Piece.isConversion] using h)
    | conversion c =>
      cases args with
      | nil => exact absurd rfl hargs
      | cons arg args => exact Nat.lt_succ_of_le (length_writeOnce_le impl pieces args)

/-- **The format is used as often as needed**: more passes than there are arguments change
nothing. -/
theorem writeAll_succ {pieces : List Piece} {fuel : ℕ} {args : List Bytes}
    (h : args = [] ∨ pieces.any Piece.isConversion = true) (hfuel : args.length < fuel) :
    writeAll impl pieces (fuel + 1) args = writeAll impl pieces fuel args := by
  induction fuel generalizing args with
  | zero => exact absurd hfuel (Nat.not_lt_zero _)
  | succ fuel ih =>
    rw [writeAll, writeAll]
    rcases hwrite : writeOnce impl pieces args with ⟨out, - | ⟨arg, rest⟩⟩
    · rfl
    · have hle := length_writeOnce_le impl pieces args
      rw [hwrite] at hle
      -- there are arguments left, so there were some
      have hargs : args ≠ [] := by
        rintro rfl
        exact absurd hle (Nat.not_succ_le_zero _)
      have hconv := h.resolve_left hargs
      have hlt := length_writeOnce_lt impl hconv hargs
      rw [hwrite] at hlt
      dsimp only
      rw [ih (.inr hconv) (Nat.lt_of_lt_of_le hlt (Nat.le_of_lt_succ hfuel))]

/-! ### What can be told from the output -/

/-- A word that means itself as a format. -/
structure IsWord (w : Bytes) : Prop where
  noPercent : percent ∉ w
  noBackslash : backslash ∉ w
  noOption : w.head? ≠ some hyphen

theorem foldl_scanByte_plain {w : Bytes} (hp : percent ∉ w) (hb : backslash ∉ w)
    (pieces : List Piece) :
    w.foldl scanByte (.plain, pieces) = (.plain, pieces ++ w.map .byte) := by
  induction w generalizing pieces with
  | nil => simp
  | cons b w ih =>
    rw [List.mem_cons, not_or] at hp hb
    rw [List.foldl_cons, scanByte, scanPlain, if_neg (Ne.symm hb.1), if_neg (Ne.symm hp.1),
      ih hp.2 hb.2, List.append_assoc, List.map_cons, List.singleton_append]

theorem IsWord.formatOf_eq {w : Bytes} (h : IsWord w) : formatOf w = some (w.map .byte) := by
  rw [formatOf, if_neg h.noOption, parseFormat, foldl_scanByte_plain h.noPercent h.noBackslash]
  rfl

theorem writeOnce_bytes (w : Bytes) (args : List Bytes) :
    writeOnce impl (w.map .byte) args = (w, args) := by
  induction w with
  | nil => rfl
  | cons b w ih => rw [List.map_cons, writeOnce, ih]

/-- **A format without conversions and escape sequences is written as it is.** -/
theorem printf_word {w : Bytes} (h : IsWord w) : printf impl [w] = w := by
  rw [printf, h.formatOf_eq]
  simp [writeAll, writeOnce_bytes]

/-- What is made of arguments after such a format is left open. -/
theorem printf_word_cons {w : Bytes} (h : IsWord w) (arg : Bytes) (args : List Bytes) :
    printf impl (w :: arg :: args) = impl.otherPrintf (w :: arg :: args) := by
  rw [printf, h.formatOf_eq]
  simp [Piece.isConversion]

theorem printf_s (arg : Bytes) : printf impl [ascii "%s", arg] = arg := by
  have hformat : formatOf (ascii "%s") = some [.conversion ⟨[], 0x73⟩] := by decide
  rw [printf, hformat]
  simp [writeAll, writeOnce, Piece.isConversion, impl.convert_s]

/-- Operands that `echo` writes as they are, with a space between them. -/
structure IsPlain (args : List Bytes) : Prop where
  ne_nil : args ≠ []
  noOption : (args.headD []).head? ≠ some hyphen
  noBackslash : ∀ arg ∈ args, backslash ∉ arg

theorem IsPlain.echo_eq {args : List Bytes} (h : IsPlain args) :
    echo impl args = [space].intercalate args ++ [newline] :=
  if_neg (not_or.2 ⟨h.noOption, fun ⟨arg, harg, hb⟩ => h.noBackslash arg harg hb⟩)

theorem splitOn_intercalate_space {args : List Bytes} (h : args ≠ []) :
    ([space].intercalate args).splitOn space = args.flatMap (List.splitOn space) := by
  induction args with
  | nil => exact absurd rfl h
  | cons arg args ih =>
    cases args with
    | nil => simp
    | cons arg' args =>
      rw [List.intercalate_cons_cons, List.append_assoc, List.singleton_append,
        List.splitOn_append_cons_self, ih (List.cons_ne_nil _ _), List.flatMap_cons (x := arg)]

/-- **What can be told from the output of `echo`**: what stands between the spaces, but not which
of the spaces are between two operands. -/
theorem echo_eq_iff {args args' : List Bytes} (h : IsPlain args) (h' : IsPlain args') :
    echo impl args = echo impl args' ↔
      args.flatMap (List.splitOn space) = args'.flatMap (List.splitOn space) := by
  rw [h.echo_eq, h'.echo_eq, List.append_cancel_right_eq, ← splitOn_intercalate_space h.ne_nil,
    ← splitOn_intercalate_space h'.ne_nil]
  constructor
  · exact congrArg _
  · intro heq
    have hback := congrArg [space].intercalate heq
    rwa [List.intercalate_splitOn, List.intercalate_splitOn] at hback

end Posix
