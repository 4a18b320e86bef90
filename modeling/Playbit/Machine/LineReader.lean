import Playbit.Machine.Lines

/-!
# Reading lines with a bounded buffer

A stream arrives in chunks and is read line by line.  A reader with a limit refuses a line that is
longer: it drops what it has in its buffer, which may be the line or only a part of it, and reports
an overrun.  A loop that goes on after an overrun reads the whole stream just when every line fits,
and how the stream was cut into chunks makes no difference to that.

`Reads` and `ReadsAll` are what reading a line and reading to the end can come to, without the
chunks.  The two functions do one of these things, and the loop ends (`reads_readline`,
`exists_readLoop`); nothing is lost just when the lines fit and are accepted (`ReadsAll.complete`,
`ReadsAll.forall_fits`).
-/

namespace LineReader

open Lines

variable {β : Type*} [DecidableEq β]

/-! ### Reading -/

/-- What reading a line comes to. -/
inductive Read (β : Type*)
  /-- A line, or nothing at the end of the stream. -/
  | line (l : List β)
  /-- The line is too long, and what was in the buffer has been dropped. -/
  | overrun

section Reading

variable (sep : β) (limit : ℕ)

/-- Take the first line from a buffer with a separator in it. -/
def cutLine (buffer : List β) : Read β × List β :=
  let l := content sep buffer
  (if limit < l.length then .overrun else .line (l ++ [sep]), buffer.drop (l.length + 1))

/-- Read a line: the result, and what is left in the buffer and of the chunks. -/
def readline : List (List β) → List β → Read β × List β × List (List β)
  | [], buffer =>
    if sep ∈ buffer then ((cutLine sep limit buffer).1, (cutLine sep limit buffer).2, [])
    else if limit < buffer.length then (.overrun, [], [])
    else (.line buffer, [], [])
  | chunk :: chunks, buffer =>
    if sep ∈ buffer then
      ((cutLine sep limit buffer).1, (cutLine sep limit buffer).2, chunk :: chunks)
    else if limit < buffer.length then (.overrun, [], chunk :: chunks)
    else readline chunks (buffer ++ chunk)

/-- Read lines to the end, going on after an overrun: the lines, and whether all of them were
accepted.  The first that is not is the last.  The fuel bounds the number of reads. -/
def readLoop (accept : List β → Bool) : ℕ → List (List β) → List β → Option (List (List β) × Bool)
  | 0, _, _ => none
  | n + 1, chunks, buffer =>
    match readline sep limit chunks buffer with
    | (.overrun, buffer, chunks) => readLoop accept n chunks buffer
    | (.line [], _, _) => some ([], true)
    | (.line (c :: l), buffer, chunks) =>
      if accept (c :: l) then
        (readLoop accept n chunks buffer).map fun r => ((c :: l) :: r.1, r.2)
      else some ([c :: l], false)

variable {sep limit}

/-- A line that is not longer than the limit. -/
def Fits (sep : β) (limit : ℕ) (l : List β) : Prop := (content sep l).length ≤ limit

/-- Everything that reading a line can come to, where `s` is all that is left of the stream before
it, and `s'` after it. -/
inductive Reads (sep : β) (limit : ℕ) (s : List β) : Read β → List β → Prop
  | done (h : s = []) (s' : List β) : Reads sep limit s (.line []) s'
  | line {c : β} {l s' : List β} (hs : s = c :: l ++ s')
      (hl : linesOf sep s = (c :: l) :: linesOf sep s') (hfits : Fits sep limit (c :: l)) :
      Reads sep limit s (.line (c :: l)) s'
  | overrun {l s' : List β} (hl : l ∈ linesOf sep s) (hlong : ¬ Fits sep limit l)
      (hlen : s'.length < s.length) : Reads sep limit s .overrun s'

theorem reads_cutLine {buffer : List β} (h : sep ∈ buffer) (u : List β) :
    Reads sep limit (buffer ++ u) (cutLine sep limit buffer).1
      ((cutLine sep limit buffer).2 ++ u) := by
  obtain ⟨t, v, rfl, ht⟩ := List.eq_append_cons_of_mem h
  have hdrop : (t ++ sep :: v).drop (t.length + 1) = v := by
    rw [List.drop_append, List.drop_of_length_le (Nat.le_succ _)]
    simp
  have hlines : linesOf sep (t ++ sep :: v ++ u) = (t ++ [sep]) :: linesOf sep (v ++ u) := by
    rw [List.append_assoc, List.cons_append, linesOf_line ht]
  rw [cutLine, content_line ht, hdrop]
  dsimp only
  split_ifs with hlong
  · refine .overrun (l := t ++ [sep]) (hlines ▸ List.mem_cons_self) ?_ ?_
    · rw [Fits, content_line ht]
      exact Nat.not_le.2 hlong
    · simp
      omega
  · obtain ⟨c, l, hcl⟩ := List.exists_cons_of_ne_nil (List.append_ne_nil_of_right_ne_nil t
      (List.cons_ne_nil sep []))
    rw [hcl] at hlines ⊢
    refine .line ?_ hlines ?_
    · rw [← hcl]
      simp
    · rw [← hcl, Fits, content_line ht]
      exact Nat.not_lt.1 hlong

/-- **Reading a line**, whatever the chunks are. -/
theorem reads_readline (chunks : List (List β)) (buffer : List β) :
    Reads sep limit (buffer ++ chunks.flatten) (readline sep limit chunks buffer).1
      ((readline sep limit chunks buffer).2.1 ++
        (readline sep limit chunks buffer).2.2.flatten) := by
  have hlong : ∀ {buffer : List β} (u : List β), sep ∉ buffer → limit < buffer.length →
      Reads sep limit (buffer ++ u) .overrun ([] ++ u) := by
    intro buffer u hnot hlim
    have hne : buffer ≠ [] := by
      rintro rfl
      exact Nat.not_lt_zero _ hlim
    obtain ⟨l, hl, hle⟩ := exists_line_of_notMem hnot hne u
    refine .overrun hl (fun hfits => ?_) ?_
    · exact Nat.not_lt.2 (hle.trans hfits) hlim
    · rw [List.nil_append, List.length_append]
      exact Nat.lt_add_of_pos_left (List.length_pos_iff.2 hne)
  induction chunks generalizing buffer with
  | nil =>
    rw [readline]
    split_ifs with hsep hlim
    · exact reads_cutLine hsep _
    · exact hlong _ hsep hlim
    · dsimp only
      rw [List.flatten_nil, List.append_nil]
      cases buffer with
      | nil => exact .done rfl _
      | cons c l =>
        refine .line (by simp) ?_ ?_
        · rw [linesOf_incomplete hsep (List.cons_ne_nil _ _)]
          rfl
        · rw [Fits, content_of_notMem hsep]
          exact Nat.not_lt.1 hlim
  | cons chunk chunks ih =>
    rw [readline]
    split_ifs with hsep hlim
    · exact reads_cutLine hsep _
    · exact hlong _ hsep hlim
    · rw [List.flatten_cons, ← List.append_assoc]
      exact ih (buffer ++ chunk)

/-- Everything that reading to the end can come to.  The chunks are no longer there: all that
matters is what is left of the stream. -/
inductive ReadsAll (sep : β) (limit : ℕ) (accept : List β → Bool) :
    List β → List (List β) × Bool → Prop
  | done : ReadsAll sep limit accept [] ([], true)
  | overrun {s s' l : List β} {r : List (List β) × Bool} (hl : l ∈ linesOf sep s)
      (hlong : ¬ Fits sep limit l) (hlen : s'.length < s.length)
      (h : ReadsAll sep limit accept s' r) : ReadsAll sep limit accept s r
  | line {s s' l : List β} {r : List (List β) × Bool} (hs : s = l ++ s')
      (hl : linesOf sep s = l :: linesOf sep s') (hfits : Fits sep limit l)
      (hacc : accept l = true) (h : ReadsAll sep limit accept s' r) :
      ReadsAll sep limit accept s (l :: r.1, r.2)
  | refused {s s' l : List β} (hs : s = l ++ s') (hl : linesOf sep s = l :: linesOf sep s')
      (hacc : accept l = false) : ReadsAll sep limit accept s ([l], false)

variable {accept : List β → Bool} {s : List β} {r : List (List β) × Bool}

/-- **The end is reached**, when there is fuel for every element of the stream. -/
theorem exists_readLoop {n : ℕ} {chunks : List (List β)} {buffer : List β}
    (h : (buffer ++ chunks.flatten).length < n) :
    ∃ r, readLoop sep limit accept n chunks buffer = some r ∧
      ReadsAll sep limit accept (buffer ++ chunks.flatten) r := by
  induction n generalizing chunks buffer with
  | zero => exact absurd h (Nat.not_lt_zero _)
  | succ n ih =>
    have hread : Reads sep limit (buffer ++ chunks.flatten) _ _ := reads_readline chunks buffer
    rw [readLoop]
    generalize readline sep limit chunks buffer = res at hread ⊢
    obtain ⟨x, buffer', chunks'⟩ := res
    dsimp only at hread ⊢
    generalize hs : buffer ++ chunks.flatten = s at h hread ⊢
    cases hread with
    | done hnil => exact ⟨_, rfl, hnil ▸ .done⟩
    | overrun hl hlong hlen =>
      obtain ⟨r, hr, hall⟩ := ih (hlen.trans_le (Nat.le_of_lt_succ h))
      exact ⟨r, hr, .overrun hl hlong hlen hall⟩
    | @line c l _ hs hl hfits =>
      dsimp only
      split_ifs with hacc
      · have hlen : (buffer' ++ chunks'.flatten).length < n := by
          rw [hs] at h
          simp only [List.length_append, List.length_cons] at h ⊢
          omega
        obtain ⟨r, hr, hall⟩ := ih hlen
        exact ⟨_, by rw [hr]; rfl, .line hs hl hfits hacc hall⟩
      · exact ⟨_, rfl, .refused hs hl (by simpa using hacc)⟩

theorem ReadsAll.length_flatten_le (h : ReadsAll sep limit accept s r) :
    r.1.flatten.length ≤ s.length := by
  induction h with
  | done => exact Nat.le_refl _
  | overrun _ _ hlen _ ih => exact ih.trans hlen.le
  | line hs _ _ _ _ ih =>
    rw [hs, List.flatten_cons, List.length_append, List.length_append]
    exact Nat.add_le_add_left ih _
  | refused hs => simp [hs]

/-- Nothing is lost when every line fits and is accepted. -/
theorem ReadsAll.complete (h : ReadsAll sep limit accept s r)
    (hall : ∀ l ∈ linesOf sep s, Fits sep limit l ∧ accept l = true) :
    r = (linesOf sep s, true) := by
  induction h with
  | done => rfl
  | overrun hl hlong => exact absurd (hall _ hl).1 hlong
  | line _ hl _ _ _ ih =>
    rw [hl] at hall ⊢
    rw [ih fun l hm => hall l (.tail _ hm)]
  | refused _ hl hacc =>
    have htrue := (hall _ (hl ▸ List.mem_cons_self)).2
    rw [hacc] at htrue
    exact absurd htrue Bool.false_ne_true

/-- Only then is nothing lost, not even as much as an element. -/
theorem ReadsAll.forall_fits (h : ReadsAll sep limit accept s r) (hok : r.2 = true)
    (hlen : s.length ≤ r.1.flatten.length) :
    ∀ l ∈ linesOf sep s, Fits sep limit l ∧ accept l = true := by
  induction h with
  | done => exact fun l hl => absurd hl List.not_mem_nil
  | overrun _ _ hlt hread => exact absurd (hlen.trans hread.length_flatten_le) (Nat.not_le.2 hlt)
  | line hs hl hfits hacc _ ih =>
    rw [hs, List.flatten_cons, List.length_append, List.length_append] at hlen
    rw [hl]
    intro l hm
    rcases List.mem_cons.1 hm with rfl | hm
    · exact ⟨hfits, hacc⟩
    · exact ih hok (Nat.le_of_add_le_add_left hlen) l hm
  | refused => exact absurd hok Bool.false_ne_true

end Reading

/-! ### Two sequences merged into one -/

/-- The third sequence is the first two, each in its order. -/
inductive Interleaved {α : Type*} : List α → List α → List α → Prop
  | nil : Interleaved [] [] []
  | left {a b c : List α} (x : α) (h : Interleaved a b c) : Interleaved (x :: a) b (x :: c)
  | right {a b c : List α} (x : α) (h : Interleaved a b c) : Interleaved a (x :: b) (x :: c)

namespace Interleaved

variable {α : Type*} {a b c : List α}

theorem right_only : ∀ b : List α, Interleaved [] b b
  | [] => .nil
  | x :: b => .right x (right_only b)

theorem append_left (u : List α) (h : Interleaved a b c) : Interleaved (u ++ a) b (u ++ c) := by
  induction u with
  | nil => exact h
  | cons x u ih => exact .left x ih

theorem append_right (u : List α) (h : Interleaved a b c) : Interleaved a (u ++ b) (u ++ c) := by
  induction u with
  | nil => exact h
  | cons x u ih => exact .right x ih

theorem exists_merge (a b : List α) : ∃ c, Interleaved a b c :=
  ⟨a ++ b, by simpa using (right_only b).append_left a⟩

/-- Parts that are interleaved leave their elements interleaved. -/
theorem flatten {a b c : List (List α)} (h : Interleaved a b c) :
    Interleaved a.flatten b.flatten c.flatten := by
  induction h with
  | nil => exact .nil
  | left x _ ih => exact ih.append_left x
  | right x _ ih => exact ih.append_right x

theorem length_eq (h : Interleaved a b c) : c.length = a.length + b.length := by
  induction h with
  | nil => rfl
  | left x _ ih | right x _ ih =>
    simp only [List.length_cons, ih]
    omega

end Interleaved

end LineReader
