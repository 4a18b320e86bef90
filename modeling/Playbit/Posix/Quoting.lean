import Playbit.Python.Text

/-!
# Single quotes

How a shell reads the text of a simple command: single quotes take away the meaning of every
character between them, and blanks outside of quotes separate the words.  A text that ends between
quotes can not be read.  What the shell makes of any other special character outside of quotes is
not modelled: such a text is read as `Reading.other`.

A text between quotes, without a quote in it, is one word (`readWords_quoted`).  A text of quotes
and plain characters is one word without the quotes, or can not be read (`readWords_of_plain`); so a
quote is never part of what is read.
-/

namespace Posix

open Python (Text)

/-- Characters that mean themselves outside of quotes. -/
def isPlainChar (c : Char) : Bool := c.isAlphanum || "/._-+,:@%=".toList.contains c

/-- What a shell makes of a text. -/
inductive Reading
  | words (ws : List Text)
  /-- A quote is not closed. -/
  | unterminated
  /-- There is a special character outside of quotes. -/
  | other
  deriving DecidableEq

/-- A word, if there is one, and what comes after it. -/
def Reading.cons (word : Option Text) : Reading → Reading
  | words ws => words (word.toList ++ ws)
  | unterminated => unterminated
  | other => other

/-- The words of a text, where `word` is what has been read of the current one, and `quoted` says
whether the text starts between quotes. -/
def readWords (quoted : Bool) (word : Option Text) : Text → Reading
  | [] => if quoted then .unterminated else .words word.toList
  | c :: t =>
    if c = '\'' then readWords (!quoted) (some (word.getD [])) t
    else if quoted then readWords true (some (word.getD [] ++ [c])) t
    else if c = ' ' then (readWords false none t).cons word
    else if isPlainChar c then readWords false (some (word.getD [] ++ [c])) t
    else .other

/-- **Text between quotes** is one word. -/
theorem readWords_quoted {t : Text} (h : '\'' ∉ t) (word : Text) :
    readWords true (some word) (t ++ ['\'']) = .words [word ++ t] := by
  induction t generalizing word with
  | nil => simp [readWords]
  | cons c t ih =>
    rw [List.mem_cons, not_or] at h
    rw [List.cons_append, readWords, if_neg (Ne.symm h.1), if_pos rfl, Option.getD_some, ih h.2]
    simp

/-- **Quotes and plain characters** are one word without the quotes, or can not be read. -/
theorem readWords_of_plain {t : Text} (h : ∀ c ∈ t, isPlainChar c = true ∨ c = '\'')
    (quoted : Bool) (word : Text) :
    readWords quoted (some word) t = .unterminated ∨
      readWords quoted (some word) t = .words [word ++ t.filter (· ≠ '\'')] := by
  induction t generalizing quoted word with
  | nil => cases quoted <;> simp [readWords]
  | cons c t ih =>
    obtain ⟨hc, ht⟩ := List.forall_mem_cons.1 h
    rw [readWords, Option.getD_some]
    by_cases hquote : c = '\''
    · rw [if_pos hquote, List.filter_cons_of_neg (by simp [hquote])]
      exact ih ht _ word
    · have hplain := hc.resolve_right hquote
      have hblank : c ≠ ' ' := by
        rintro rfl
        exact absurd hplain (by decide)
      rw [if_neg hquote, List.filter_cons_of_pos (by simpa using hquote)]
      have hword := ih ht quoted (word ++ [c])
      rw [List.append_assoc, List.singleton_append] at hword
      cases quoted with
      | true => rwa [if_pos rfl]
      | false => rwa [if_neg Bool.false_ne_true, if_neg hblank, if_pos hplain]

end Posix
