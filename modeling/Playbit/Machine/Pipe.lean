import Mathlib.Data.List.Infix

/-!
# Pipes of bounded capacity

A pipe whose writers do not block: what does not fit is not written.  The pipe keeps the history
of what writers have posted and readers have taken.

The capacity is counted in elements.  A pipe of Linux frees its room page by page and can be full
with fewer; but what is said here holds for every capacity.

A write that fits and a read keep that everything posted has been taken or is still in the pipe, in
order (`Pipe.Lossless.write`, `Pipe.Lossless.read`).
-/

/-- A pipe. -/
structure Pipe (ε : Type*) where
  content : List ε := []
  /-- What writers have tried to write. -/
  posted : List ε := []
  /-- What readers have read. -/
  taken : List ε := []

namespace Pipe

variable {ε : Type*}

/-- A write to a pipe that holds `capacity` elements: it fails when the pipe is full. -/
def write (capacity : ℕ) (p : Pipe ε) (e : ε) : Pipe ε :=
  { p with
    content := if p.content.length < capacity then p.content ++ [e] else p.content
    posted := p.posted ++ [e] }

/-- A read: the element, and the pipe without it. -/
def read (p : Pipe ε) : Option (ε × Pipe ε) :=
  match p.content with
  | [] => none
  | e :: es => some (e, { p with content := es, taken := p.taken ++ [e] })

/-- Everything that was posted has been taken or is in the pipe, in order. -/
def Lossless (p : Pipe ε) : Prop := p.posted = p.taken ++ p.content

variable {p p' : Pipe ε} {e : ε}

theorem lossless_empty : Lossless ({} : Pipe ε) := rfl

theorem Lossless.write (h : p.Lossless) {capacity : ℕ} (hroom : p.content.length < capacity) :
    (p.write capacity e).Lossless := by
  unfold Lossless Pipe.write at *
  rw [if_pos hroom, h, List.append_assoc]

theorem Lossless.read (h : p.Lossless) (hread : p.read = some (e, p')) : p'.Lossless := by
  unfold Lossless Pipe.read at *
  cases hc : p.content with
  | nil => rw [hc] at hread; cases hread
  | cons e' es =>
    rw [hc] at hread h
    cases hread
    rw [h, List.append_assoc, List.singleton_append]

theorem Lossless.taken_isPrefix (h : p.Lossless) : p.taken <+: p.posted := ⟨p.content, h.symm⟩

theorem Lossless.taken_eq (h : p.Lossless) (hread : p.read = none) : p.taken = p.posted := by
  have hc : p.content = [] := by
    unfold Pipe.read at hread
    split at hread
    · assumption
    · cases hread
  rw [h, hc, List.append_nil]

end Pipe
