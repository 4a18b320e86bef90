import Playbit.Gvim.Screen
import Playbit.Machine.Run

/-!
# Drawing

Vim draws by calling `gui_mch_draw_string`, `gui_mch_clear_block`, `gui_mch_delete_lines` and the
like.  Each of them writes events to the pipe `eventsToUI`, waiting for room in it, and the UI
thread reads them in `ProcessAllEventsToUI`, which stops at an empty pipe and, unless it is told to
ignore them, after a flush.  The two threads run at any speed.

The grid of the UI thread can have another size than the one Vim draws for, until an
`EVENT_RESIZE` reaches it: what is drawn before is clipped, and gone when the grid is re-created.

The events of a call do what the call is meant to do (`Screen.foldl_apply_events`), and when the
pipe is drained the grid shows the screen that Vim has drawn (`DrawState.shows_of_regular`), which
can be waited for (`DrawState.exists_drained`).
-/

namespace Gvim

/-! ### Vim -/

/-- The fields of `gui` that drawing reads and Vim sets at will. -/
structure VimSettings where
  metrics : Metrics
  scrollRegionLeft : ℤ
  scrollRegionRight : ℤ
  scrollRegionBot : ℤ
  normPixel : Color
  backPixel : Color
  row : ℤ
  col : ℤ

structure Vim where
  settings : VimSettings
  currFgColor : Color
  currBgColor : Color
  currSpColor : Color

/-- `SendResizeEvent`. -/
def sendResizeEvent (v : VimSettings) : UIEvent := .resize v.metrics

/-- `gui_mch_clear_block`. -/
def guiMchClearBlock (v : VimSettings) (row1 col1 row2 col2 : ℤ) : List UIEvent :=
  [sendResizeEvent v, .clear row1 col1 row2 col2]

/-- What drawing uses of Vim: its functions for multibyte text, the constant `DRAW_TRANSP`, and
`gui_clear_block`, which clears its block through `gui_mch_clear_block`. -/
structure VimFunctions where
  mbCharlenLen : List UInt8 → ℤ → ℕ
  mbPtr2len : List UInt8 → ℕ
  mbString2cells : List UInt8 → ℕ → ℤ
  drawTransp : Flags
  guiClearBlock : VimSettings → ℤ → ℤ → ℤ → ℤ → List UIEvent
  guiClearBlock_eq : ∀ v row1 col1 row2 col2,
    guiClearBlock v row1 col1 row2 col2 = guiMchClearBlock v row1 col1 row2 col2

/-- The calls. -/
inductive Call
  | setFgColor (color : Color)
  | setBgColor (color : Color)
  | setSpColor (color : Color)
  | newColors
  | drawString (row col : ℤ) (s : List UInt8) (len : ℤ) (flags : Flags)
  | clearBlock (row1 col1 row2 col2 : ℤ)
  | clearAll
  | deleteLines (row numLines : ℤ)
  | insertLines (row numLines : ℤ)
  | invertRectangle (r c nr nc : ℤ)
  | drawHollowCursor (color : Color)
  | drawPartCursor (w h : ℤ) (color : Color)
  | setTitle
  | flush

/-- Up to four bytes, followed by zeros. -/
def Bytes4.ofList (l : List UInt8) : Bytes4 := ⟨l.getD 0 0, l.getD 1 0, l.getD 2 0, l.getD 3 0⟩

variable (F : VimFunctions)

/-- The loop of `gui_mch_draw_string`.  `memory` is what the array holds before.  A character of
more than four bytes becomes a question mark. -/
def drawStringArray (memory : ℕ → Bytes4) : ℕ → ℕ → List UInt8 → List TextCharacter
  | 0, _, _ => []
  | count + 1, i, s =>
    let bytesInCharacter := F.mbPtr2len s
    { utf8Bytes :=
        if bytesInCharacter ≤ 4 then Bytes4.ofList (s.take bytesInCharacter)
        else { memory i with b0 := 0x3f, b1 := 0 }
      widthInCells := F.mbString2cells s bytesInCharacter } ::
      drawStringArray memory count (i + 1) (s.drop bytesInCharacter)

/-- The colours that a call leaves. -/
def Call.colors (v : Vim) : Call → Vim
  | .setFgColor color => { v with currFgColor := color }
  | .setBgColor color => { v with currBgColor := color }
  | .setSpColor color => { v with currSpColor := color }
  | _ => v

/-- The event of the functions that set a colour. -/
def recolorEvent (v : Vim) : UIEvent := .recolor v.currBgColor v.currFgColor v.currSpColor

/-- `gui_mch_draw_string`. -/
def guiMchDrawString (memory : ℕ → Bytes4) (row col : ℤ) (s : List UInt8) (len : ℤ)
    (flags : Flags) : List UIEvent :=
  [.text row col flags (drawStringArray F memory (F.mbCharlenLen s len) 0 s)]

/-- `gui_mch_clear_all`. -/
def guiMchClearAll (v : VimSettings) : List UIEvent :=
  guiMchClearBlock v 0 0 v.metrics.numRows v.metrics.numCols

/-- `gui_mch_delete_lines`. -/
def guiMchDeleteLines (v : VimSettings) (row numLines : ℤ) : List UIEvent :=
  .delete row numLines v.scrollRegionLeft v.scrollRegionRight v.scrollRegionBot ::
    F.guiClearBlock v (v.scrollRegionBot - numLines + 1) v.scrollRegionLeft v.scrollRegionBot
      v.scrollRegionRight

/-- `gui_mch_insert_lines`. -/
def guiMchInsertLines (v : VimSettings) (row numLines : ℤ) : List UIEvent :=
  .insert row numLines v.scrollRegionLeft v.scrollRegionRight v.scrollRegionBot ::
    F.guiClearBlock v row v.scrollRegionLeft (row + numLines - 1) v.scrollRegionRight

/-- The events that a call writes. -/
def Call.events (memory : ℕ → Bytes4) (v : Vim) : Call → List UIEvent
  | .setFgColor color => [recolorEvent (Call.colors v (.setFgColor color))]
  | .setBgColor color => [recolorEvent (Call.colors v (.setBgColor color))]
  | .setSpColor color => [recolorEvent (Call.colors v (.setSpColor color))]
  | .newColors => [.ncolor v.settings.normPixel v.settings.backPixel]
  | .drawString row col s len flags => guiMchDrawString F memory row col s len flags
  | .clearBlock row1 col1 row2 col2 => guiMchClearBlock v.settings row1 col1 row2 col2
  | .clearAll => guiMchClearAll v.settings
  | .deleteLines row numLines => guiMchDeleteLines F v.settings row numLines
  | .insertLines row numLines => guiMchInsertLines F v.settings row numLines
  | .invertRectangle r c nr nc => [.invert r c nr nc]
  | .drawHollowCursor color =>
    let v := v.settings
    [.cursor v.col v.row v.metrics.charWidth v.metrics.charHeight color 1]
  | .drawPartCursor w h color => [.cursor v.settings.col v.settings.row w h color 2]
  | .setTitle => [.title]
  | .flush => [.flush]

/-! ### What calls are meant to do -/

/-- The characters of a string, with their widths. -/
def characters : ℕ → List UInt8 → List (List UInt8 × ℤ)
  | 0, _ => []
  | count + 1, s =>
    let b := F.mbPtr2len s
    (if b ≤ 4 then (s.take b).takeWhile (· ≠ 0) else [0x3f], F.mbString2cells s b) ::
      characters count (s.drop b)

namespace Screen

/-- Cells are written in these colours from now on. -/
def recolor (S : Screen) (bg fg : Color) : Screen :=
  { S with bgColor := solid bg, fgColor := solid fg }

/-- Blank a rectangle, of a new grid if the size has changed. -/
def clearBlock (S : Screen) (m : Metrics) (r : Rect) : Screen := (S.recreate m).blank r

/-- What a call is meant to do. -/
def call (v : Vim) (S : Screen) : Call → Screen
  | .setFgColor color => S.recolor v.currBgColor color
  | .setBgColor color => S.recolor color v.currFgColor
  | .setSpColor _ => S.recolor v.currBgColor v.currFgColor
  | .newColors => { S with backPixel := solid v.settings.backPixel }
  | .drawString row col s len flags =>
    S.write row col flags (characters F (F.mbCharlenLen s len) s)
  | .clearBlock row1 col1 row2 col2 => S.clearBlock v.settings.metrics ⟨row1, col1, row2, col2⟩
  | .clearAll =>
    let m := v.settings.metrics
    S.clearBlock m ⟨0, 0, m.numRows, m.numCols⟩
  | .deleteLines row n =>
    let v := v.settings
    let bottom := v.scrollRegionBot
    -- rows `row + n` to `bottom` move up, and the last `n` are blank
    (S.shift ⟨row, v.scrollRegionLeft, bottom - n, v.scrollRegionRight⟩ n).clearBlock v.metrics
      ⟨bottom - n + 1, v.scrollRegionLeft, bottom, v.scrollRegionRight⟩
  | .insertLines row n =>
    let v := v.settings
    let bottom := v.scrollRegionBot
    -- rows `row` to `bottom - n` move down, and the first `n` are blank
    (S.shift ⟨row + n, v.scrollRegionLeft, bottom, v.scrollRegionRight⟩ (-n)).clearBlock v.metrics
      ⟨row, v.scrollRegionLeft, row + n - 1, v.scrollRegionRight⟩
  | _ => S

end Screen

/-- The scroll region from `row` on lies in a grid of the given size. -/
def VimSettings.RegionInside (v : VimSettings) (row : ℤ) (m : Metrics) : Prop :=
  0 ≤ row ∧ v.scrollRegionBot < m.numRows ∧ 0 ≤ v.scrollRegionLeft ∧
    v.scrollRegionRight < m.numCols

/-- Lines are deleted and inserted in a region of the current grid, Vim's or the screen's, and
their number is not negative. -/
def Call.Regular (v : Vim) (S : Screen) : Call → Prop
  | .deleteLines row n | .insertLines row n =>
    0 ≤ n ∧ (v.settings.RegionInside row v.settings.metrics ∨ v.settings.RegionInside row S.metrics)
  | _ => True

instance decidableRegionInside (v : VimSettings) (row : ℤ) (m : Metrics) :
    Decidable (v.RegionInside row m) := by
  unfold VimSettings.RegionInside
  infer_instance

instance decidableRegular (v : Vim) (S : Screen) (c : Call) : Decidable (c.Regular v S) := by
  cases c <;> unfold Call.Regular <;> infer_instance

/-! ### The events of a call -/

theorem Bytes4.text_ofList {l : List UInt8} (h : l.length ≤ 4) :
    (Bytes4.ofList l).text = l.takeWhile (· ≠ 0) := by
  match l, h with
  | [], _ => rfl
  | [a], _ | [a, b], _ | [a, b, c], _ | [a, b, c, d], _ =>
    simp [Bytes4.ofList, Bytes4.text, List.takeWhile_cons]

theorem map_view_drawStringArray (memory : ℕ → Bytes4) (count i : ℕ) (s : List UInt8) :
    (drawStringArray F memory count i s).map TextCharacter.view = characters F count s := by
  induction count generalizing i s with
  | zero => rfl
  | succ count ih =>
    rw [drawStringArray, List.map_cons, ih, characters]
    congr 1
    unfold TextCharacter.view
    by_cases hb : F.mbPtr2len s ≤ 4
    · have hlen : (s.take (F.mbPtr2len s)).length ≤ 4 := (List.length_take_le _ _).trans hb
      simp only [hb, if_true, Bytes4.text_ofList hlen]
    · simp only [hb, if_false]
      rfl

theorem VimSettings.RegionInside.inside {v : VimSettings} {row : ℤ} {m : Metrics}
    (h : v.RegionInside row m) {p : ℤ × ℤ} (hrow : row ≤ p.1 ∧ p.1 ≤ v.scrollRegionBot)
    (hcol : v.scrollRegionLeft ≤ p.2 ∧ p.2 ≤ v.scrollRegionRight) : m.Inside p := by
  obtain ⟨htop, hbot, hleft, hright⟩ := h
  exact ⟨by omega, by omega, by omega, by omega⟩

namespace Screen

variable {F} {v : VimSettings} {S : Screen}

theorem foldl_apply_clearBlock (row1 col1 row2 col2 : ℤ) :
    (guiMchClearBlock v row1 col1 row2 col2).foldl apply S =
      S.clearBlock v.metrics ⟨row1, col1, row2, col2⟩ := rfl

/-- The cells of a grid that is re-created do not matter. -/
theorem recreate_congr {S' : Screen} {m : Metrics} (hcanvas : S.toCanvas = S'.toCanvas)
    (hcell : S.metrics = m → S = S') : S.recreate m = S'.recreate m := by
  by_cases hm : S.metrics = m
  · rw [hcell hm]
  · obtain ⟨C, cell⟩ := S
    obtain ⟨C', cell'⟩ := S'
    cases hcanvas
    rw [recreate, recreate, if_neg hm, if_neg hm]

theorem clearBlock_shiftClipped {r r' : Rect} {d : ℤ}
    (h : S.metrics = v.metrics →
      ∀ p, r.Contains p → S.metrics.Inside p ∧ S.metrics.Inside (p.1 + d, p.2)) :
    (S.shiftClipped r d).clearBlock v.metrics r' = (S.shift r d).clearBlock v.metrics r' := by
  unfold clearBlock
  have hrecreate : (S.shiftClipped r d).recreate v.metrics = (S.shift r d).recreate v.metrics :=
    recreate_congr rfl fun hm => shiftClipped_eq_shift (h hm)
  rw [hrecreate]

/-- **The events of a call do what the call is meant to do.** -/
theorem foldl_apply_events {v : Vim} (memory : ℕ → Bytes4) {c : Call} (hc : c.Regular v S) :
    (c.events F memory v).foldl apply S = S.call F v c := by
  cases c with
  | drawString row col s len flags =>
    show S.write row col flags _ = S.write row col flags _
    rw [map_view_drawStringArray]
  | deleteLines row n =>
    obtain ⟨hn, hin⟩ := hc
    rw [Call.events, guiMchDeleteLines, F.guiClearBlock_eq, List.foldl_cons,
      foldl_apply_clearBlock]
    refine clearBlock_shiftClipped fun hm p hp => ?_
    rw [← hm, or_self] at hin
    obtain ⟨hrows, hcols⟩ := hp
    simp only at hrows hcols
    exact ⟨hin.inside (by omega) hcols, hin.inside (by omega) hcols⟩
  | insertLines row n =>
    obtain ⟨hn, hin⟩ := hc
    rw [Call.events, guiMchInsertLines, F.guiClearBlock_eq, List.foldl_cons,
      foldl_apply_clearBlock]
    refine clearBlock_shiftClipped fun hm p hp => ?_
    rw [← hm, or_self] at hin
    obtain ⟨hrows, hcols⟩ := hp
    simp only at hrows hcols
    exact ⟨hin.inside (by omega) hcols, hin.inside (by omega) hcols⟩
  | _ => rfl

end Screen

theorem counted_of_mem_clearBlock {v : VimSettings} {row1 col1 row2 col2 : ℤ} {e : UIEvent}
    (he : e ∈ guiMchClearBlock v row1 col1 row2 col2) : e.Counted := by
  rcases List.mem_pair.1 he with rfl | rfl
  · trivial
  · trivial

theorem Call.counted_of_mem_events {v : Vim} {S : Screen} {memory : ℕ → Bytes4} {c : Call}
    (hc : c.Regular v S) {e : UIEvent} (he : e ∈ c.events F memory v) : e.Counted := by
  cases c with
  | deleteLines row n =>
    rw [Call.events, guiMchDeleteLines, F.guiClearBlock_eq] at he
    rcases List.mem_cons.1 he with rfl | he
    · exact hc.1
    · exact counted_of_mem_clearBlock he
  | insertLines row n =>
    rw [Call.events, guiMchInsertLines, F.guiClearBlock_eq] at he
    rcases List.mem_cons.1 he with rfl | he
    · exact hc.1
    · exact counted_of_mem_clearBlock he
  | clearBlock row1 col1 row2 col2 => exact counted_of_mem_clearBlock he
  | clearAll => exact counted_of_mem_clearBlock he
  | _ =>
    cases List.mem_singleton.1 he
    trivial

/-! ### The two threads -/

/-- The two threads, with the screen as the calls so far are meant to leave it. -/
structure DrawState where
  vim : Vim
  /-- What the Vim thread has still to write in the call that it is in. -/
  pending : List UIEvent := []
  /-- `eventsToUI`. -/
  pipe : List UIEvent := []
  /-- `ignoreFlush`, while the UI thread is in `ProcessAllEventsToUI`. -/
  reading : Option Bool := none
  ui : UI
  screen : Screen

/-- Steps of the Vim thread and of the UI thread. -/
inductive DrawAction
  /-- Vim changes its settings. -/
  | set (settings : VimSettings)
  /-- Vim calls a drawing function; `memory` is what `malloc` returns. -/
  | call (c : Call) (memory : ℕ → Bytes4)
  /-- `WriteEvent` in the Vim thread. -/
  | write
  /-- The UI thread calls `ProcessAllEventsToUI`. -/
  | enter (ignoreFlush : Bool)
  /-- One pass of its loop; `memory` is what `realloc` returns. -/
  | read (memory : ℕ → UICell)

namespace DrawState

/-- One step, with a pipe that has room for `capacity` events. -/
def next (capacity : ℕ) : DrawAction → DrawState → Option DrawState
  | .set settings, s =>
    match s.pending with
    | [] => some { s with vim := { s.vim with settings := settings } }
    | _ :: _ => none
  | .call c memory, s =>
    match s.pending with
    | [] => some
      { s with
        vim := c.colors s.vim
        pending := c.events F memory s.vim
        screen := s.screen.call F s.vim c }
    | _ :: _ => none
  | .write, s =>
    match s.pending with
    | [] => none
    | e :: es =>
      if s.pipe.length < capacity then some { s with pending := es, pipe := s.pipe ++ [e] }
      else none
  | .enter ignoreFlush, s =>
    match s.reading with
    | none => some { s with reading := some ignoreFlush }
    | some _ => none
  | .read memory, s =>
    match s.reading, s.pipe with
    | none, _ => none
    | some _, [] => some { s with reading := none }
    | some ignoreFlush, e :: es => some
      { s with
        pipe := es
        ui := s.ui.processEventToUI F.drawTransp memory e
        reading := if !ignoreFlush && e = .flush then none else some ignoreFlush }

/-- Calls are regular. -/
def Regular : DrawAction → DrawState → Prop
  | .call c _, s => c.Regular s.vim s.screen
  | _, _ => True

instance decidableRegularStep (a : DrawAction) (s : DrawState) : Decidable (Regular a s) := by
  cases a <;> unfold Regular <;> infer_instance

/-- Both threads at rest, with the screen that the grid shows. -/
def initial (vim : Vim) (ui : UI) : DrawState :=
  { vim := vim
    ui := ui
    screen :=
      { toCanvas := ui.canvas
        cell := fun p => (ui.shown p).getD (blankView ui.uiFgColor ui.uiBgColor) } }

/-- The grid shows a screen that what is on its way turns into the one it is meant to show. -/
def Tracks (s : DrawState) : Prop :=
  ∃ S, Shows s.ui S ∧ (s.pipe ++ s.pending).foldl Screen.apply S = s.screen ∧
    ∀ e ∈ s.pipe ++ s.pending, e.Counted

theorem tracks_initial (vim : Vim) (ui : UI) : (initial vim ui).Tracks := by
  exact ⟨(initial vim ui).screen, Shows.self ui _, rfl, fun e he => by cases he⟩

variable {F} {capacity : ℕ} {s s' : DrawState}

theorem Tracks.next (h : s.Tracks) {a : DrawAction} (ha : Regular a s)
    (hstep : next F capacity a s = some s') : s'.Tracks := by
  obtain ⟨S, hS, hscreen, hcounted⟩ := h
  cases a with
  | set settings =>
    rw [DrawState.next] at hstep
    split at hstep
    · cases hstep
      exact ⟨S, hS, hscreen, hcounted⟩
    · cases hstep
  | call c memory =>
    cases hpending : s.pending with
    | cons e es => rw [DrawState.next, hpending] at hstep; cases hstep
    | nil =>
      rw [hpending, List.append_nil] at hscreen hcounted
      rw [DrawState.next, hpending] at hstep
      cases hstep
      refine ⟨S, hS, ?_, fun e he => ?_⟩
      · rw [List.foldl_append, hscreen, Screen.foldl_apply_events memory ha]
      · rcases List.mem_append.1 he with he | he
        · exact hcounted e he
        · exact Call.counted_of_mem_events F ha he
  | write =>
    cases hpending : s.pending with
    | nil => rw [DrawState.next, hpending] at hstep; cases hstep
    | cons e es =>
      rw [hpending] at hscreen hcounted
      rw [DrawState.next, hpending] at hstep
      simp only at hstep
      split_ifs at hstep
      cases hstep
      exact ⟨S, hS, by simpa using hscreen, by simpa using hcounted⟩
  | enter ignoreFlush =>
    rw [DrawState.next] at hstep
    split at hstep
    · cases hstep
      exact ⟨S, hS, hscreen, hcounted⟩
    · cases hstep
  | read memory =>
    rw [DrawState.next] at hstep
    split at hstep
    · cases hstep
    · cases hstep
      exact ⟨S, hS, hscreen, hcounted⟩
    · rename_i ignoreFlush e es _ hpipe
      rw [hpipe] at hscreen hcounted
      cases hstep
      exact ⟨S.apply e, hS.processEventToUI F.drawTransp memory (hcounted e List.mem_cons_self),
        hscreen, fun e' he' => hcounted e' (.tail _ he')⟩

/-- **When the pipe is drained the grid shows the screen**, in every run of the two threads in which
lines are deleted and inserted within the grid. -/
theorem shows_of_regular {vim : Vim} {ui : UI} {as : List DrawAction}
    (hrun : Machine.Along (next F capacity) Regular (initial vim ui) as s) (hpipe : s.pipe = [])
    (hpending : s.pending = []) : Shows s.ui s.screen := by
  obtain ⟨S, hS, hscreen, -⟩ := hrun.invariant (tracks_initial vim ui) fun _ _ _ h ha hstep =>
    h.next ha hstep
  rw [hpipe, hpending] at hscreen
  rw [← hscreen]
  exact hS

/-! ### The pipe can be drained -/

/-- The UI thread is in `ProcessAllEventsToUI`, or can call it. -/
theorem exists_reading (F : VimFunctions) (capacity : ℕ) (s : DrawState) : ∃ as ignoreFlush,
    Machine.Along (next F capacity) Regular s as { s with reading := some ignoreFlush } := by
  cases hreading : s.reading with
  | none =>
    refine ⟨[.enter true], true, (Machine.Along.nil s).snoc trivial ?_⟩
    rw [DrawState.next, hreading]
  | some ignoreFlush =>
    refine ⟨[], ignoreFlush, ?_⟩
    rw [← hreading]
    exact .nil s

theorem exists_pipe_drained (s : DrawState) : ∃ as s',
    Machine.Along (next F capacity) Regular s as s' ∧ s'.pipe = [] ∧ s'.pending = s.pending ∧
      s'.screen = s.screen := by
  induction hpipe : s.pipe generalizing s with
  | nil => exact ⟨[], s, .nil s, hpipe, rfl, rfl⟩
  | cons e es ih =>
    obtain ⟨as, ignoreFlush, henter⟩ := exists_reading F capacity s
    have hread : ∃ t : DrawState, next F capacity (.read fun _ => {})
        { s with reading := some ignoreFlush } = some t ∧
        t.pipe = es ∧ t.pending = s.pending ∧ t.screen = s.screen := by
      rw [DrawState.next, hpipe]
      exact ⟨_, rfl, rfl, rfl, rfl⟩
    obtain ⟨t, hstep, hpipe', hpending, hscreen⟩ := hread
    obtain ⟨bs, s', hrun, hdrained, hpending', hscreen'⟩ := ih t hpipe'
    have hregular : Regular (.read fun _ => {}) { s with reading := some ignoreFlush } := trivial
    exact ⟨_, s', (henter.snoc hregular hstep).append hrun, hdrained, hpending'.trans hpending,
      hscreen'.trans hscreen⟩

/-- **What has been called can be brought to its end**: the threads can go on until all of it has
been drawn. -/
theorem exists_drained (hcapacity : 0 < capacity) (s : DrawState) : ∃ as s',
    Machine.Along (next F capacity) Regular s as s' ∧ s'.pipe = [] ∧ s'.pending = [] ∧
      s'.screen = s.screen := by
  induction hpending : s.pending generalizing s with
  | nil =>
    obtain ⟨as, s', hrun, hpipe, hpending', hscreen⟩ := exists_pipe_drained s
    exact ⟨as, s', hrun, hpipe, hpending'.trans hpending, hscreen⟩
  | cons e es ih =>
    obtain ⟨as, t, hdrain, hpipe, hpending', hscreen⟩ := exists_pipe_drained s
    rw [hpending] at hpending'
    have hwrite : next F capacity .write t = some { t with pending := es, pipe := [e] } := by
      rw [DrawState.next, hpending', hpipe]
      exact if_pos hcapacity
    obtain ⟨bs, s', hrun, hpipe', hend, hscreen'⟩ := ih { t with pending := es, pipe := [e] } rfl
    have hregular : Regular .write t := trivial
    exact ⟨_, s', (hdrain.snoc hregular hwrite).append hrun, hpipe', hend, hscreen'.trans hscreen⟩

end DrawState

/-- Vim with an encoding of one byte for each character. -/
def latin1 : VimFunctions where
  mbCharlenLen s len := ((s.take len.toNat).takeWhile (· ≠ 0)).length
  mbPtr2len s := if s.headD 0 = 0 then 0 else 1
  mbString2cells _ b := b
  drawTransp := 1
  guiClearBlock := guiMchClearBlock
  guiClearBlock_eq _ _ _ _ _ := rfl

/-- `gui` before anything is drawn: a grid without cells. -/
def noGrid : UI where
  metrics := ⟨0, 0, 0, 0, 0⟩
  grid := ⟨[], rfl⟩
  uiFgColor := 0
  uiBgColor := 0
  uiSpColor := 0
  uiNormPixel := 0
  uiBackPixel := 0
  uiCursorColumn := 0
  uiCursorRow := 0
  uiCursorWidth := 0
  uiCursorHeight := 0
  uiCursorColor := 0
  uiCursorState := 0

/-- A grid of three rows of two columns, all of which scroll. -/
def threeRows : VimSettings where
  metrics := ⟨8, 16, 12, 3, 2⟩
  scrollRegionLeft := 0
  scrollRegionRight := 1
  scrollRegionBot := 2
  normPixel := 0
  backPixel := 0xffffff
  row := 0
  col := 0

/-- Two rows are written and the first is deleted, while the UI thread reads. -/
def deleteFirstRow : List DrawAction :=
  [.set threeRows, .call .clearAll fun _ => {}, .write, .enter false, .read fun _ => {}, .write,
    .call (.drawString 0 0 [0x61, 0x62] 2 0) fun _ => {}, .write,
    .call (.drawString 1 0 [0x63, 0x64] 2 0) fun _ => {}, .write,
    .call (.deleteLines 0 1) fun _ => {}, .read fun _ => {}, .read fun _ => {}, .write,
    .write, .write, .read fun _ => {}, .call .flush fun _ => {}, .write, .read fun _ => {},
    .read fun _ => {}, .read fun _ => {}, .read fun _ => {}]

theorem second_row_moves_up :
    ∃ s, Machine.Along (DrawState.next latin1 4) DrawState.Regular
        (DrawState.initial ⟨threeRows, 0, 0, 0⟩ noGrid) deleteFirstRow s ∧
      (s.pipe = [] ∧ s.pending = [] ∧ s.reading = none) ∧ Shows s.ui s.screen ∧
      (s.screen.cell (0, 0)).text = [0x63] := by
  have hrun : ∃ s, Machine.runChecked (DrawState.next latin1 4) DrawState.Regular deleteFirstRow
      (DrawState.initial ⟨threeRows, 0, 0, 0⟩ noGrid) = some s ∧
      (s.pipe = [] ∧ s.pending = [] ∧ s.reading = none) ∧
      (s.screen.cell (0, 0)).text = [0x63] := ⟨_, rfl, ⟨rfl, rfl, rfl⟩, rfl⟩
  obtain ⟨s, hs, hidle, htext⟩ := hrun
  have h := Machine.along_of_runChecked hs
  exact ⟨s, h, hidle, DrawState.shows_of_regular h hidle.1 hidle.2.1, htext⟩

end Gvim
