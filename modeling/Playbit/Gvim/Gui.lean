import Playbit.Gvim.Draw
import Playbit.Gvim.Repaint

/-!
# From Vim's calls to the display

What Vim draws goes through the pipe to the grid of the UI thread, and from the grid to the display
when the system has the text area painted.  The three of them are behind each other by any amount:
events that are not yet written or read, and regions that are not yet painted.  `Gui.next` puts the
threads of `DrawState` and the display of `Display` together, where each event that the UI thread
reads is one that the display is told of.  Once nothing is on its way, what Vim has drawn is on the
display (`Gui.display_shows_screen`).

The calls have to be regular, which excludes scroll regions that Vim does not keep to
(`DrawState.Regular`), and their events must be repainted completely (`UI.Repainted`): the cursor is
hidden before it is moved, and all characters take one column.
-/

namespace Gvim

variable {γ : Type*}

namespace DrawState

/-- The event that `ProcessAllEventsToUI` processes in a step, with what `realloc` returns. -/
def processed : DrawAction → DrawState → Option ((ℕ → UICell) × UIEvent)
  | .read memory, s =>
    match s.reading, s.pipe with
    | some _, e :: _ => some (memory, e)
    | _, _ => none
  | _, _ => none

variable {F : VimFunctions} {capacity : ℕ} {a : DrawAction} {s s' : DrawState}

/-- A step changes what the UI thread keeps only by processing an event. -/
theorem ui_next (h : next F capacity a s = some s') :
    s'.ui = ((processed a s).elim s.ui fun e => s.ui.processEventToUI F.drawTransp e.1 e.2) := by
  cases a with
  | set settings =>
    rw [next] at h
    split at h <;> cases h
    rfl
  | call c memory =>
    rw [next] at h
    split at h <;> cases h
    rfl
  | write =>
    rw [next] at h
    split at h
    · cases h
    · split_ifs at h
      cases h
      rfl
  | enter ignoreFlush =>
    rw [next] at h
    split at h <;> cases h
    rfl
  | read memory =>
    rw [next] at h
    split at h
    · cases h
    · rename_i hreading hpipe
      cases h
      rw [processed, hreading, hpipe]
      rfl
    · rename_i hreading hpipe
      cases h
      rw [processed, hreading, hpipe]
      rfl

end DrawState

/-- Both threads, and the display. -/
structure Gui (γ : Type*) where
  draw : DrawState
  display : Display γ

inductive GuiAction
  /-- A step of one of the threads. -/
  | draw (a : DrawAction)
  /-- The window is created. -/
  | create
  /-- The system has the text area painted. -/
  | paint (exposed : List Region) (nonEmpty : ℤ → Bool)

namespace Gui

variable (layout : TextLayout γ) (narrow : Set (List UInt8)) (F : VimFunctions)

/-- One step.  An event that is processed repaints what it says. -/
def next (capacity : ℕ) : GuiAction → Gui γ → Option (Gui γ)
  | .draw a, g =>
    (DrawState.next F capacity a g.draw).bind fun draw =>
      ((DrawState.processed a g.draw).elim (some g.display) fun e =>
        Display.next layout F.drawTransp (.event e.1 e.2) g.display).map (Gui.mk draw)
  | .create, g => (Display.next layout F.drawTransp .create g.display).map (Gui.mk g.draw)
  | .paint exposed nonEmpty, g =>
    (Display.next layout F.drawTransp (.paint exposed nonEmpty) g.display).map (Gui.mk g.draw)

/-- Calls are regular, and events are repainted completely. -/
def Regular : GuiAction → Gui γ → Prop
  | .draw a, g => DrawState.Regular a g.draw ∧
      ∀ e ∈ DrawState.processed a g.draw, g.draw.ui.Repainted narrow e.2
  | .create, _ => True
  | .paint exposed nonEmpty, g => Display.Repainted narrow (.paint exposed nonEmpty) g.display

/-- Both threads at rest, and no window. -/
def initial (vim : Vim) (ui : UI) (shown : ℤ × ℤ → Picture γ) : Gui γ where
  draw := .initial vim ui
  display := { ui := ui, shown := shown }

/-- What the threads and the display keep. -/
structure Inv (g : Gui γ) : Prop where
  ui_eq : g.display.ui = g.draw.ui
  tracks : g.draw.Tracks
  upToDate : g.display.UpToDate layout narrow

variable {layout narrow F} {capacity : ℕ} {g g' : Gui γ}

theorem Inv.display (h : g.Inv layout narrow) (hlayout : layout.Monospaced narrow)
    {a : DisplayAction} {display : Display γ} (ha : Display.Repainted narrow a g.display)
    (hstep : Display.next layout F.drawTransp a g.display = some display)
    (hui : display.ui = g.display.ui) : Inv layout narrow ⟨g.draw, display⟩ :=
  ⟨hui.trans h.ui_eq, h.tracks, h.upToDate.next hlayout ha hstep⟩

theorem Inv.next {a : GuiAction} (h : g.Inv layout narrow) (hlayout : layout.Monospaced narrow)
    (ha : Regular narrow a g) (hnext : next layout F capacity a g = some g') :
    g'.Inv layout narrow := by
  cases a with
  | draw a =>
    obtain ⟨hregular, hrepainted⟩ := ha
    obtain ⟨draw, hdraw, hnext⟩ := Option.bind_eq_some_iff.1 hnext
    obtain ⟨display, hdisplay, rfl⟩ := Option.map_eq_some_iff.1 hnext
    have hui := DrawState.ui_next hdraw
    have htracks := h.tracks.next hregular hdraw
    cases he : DrawState.processed a g.draw with
    | none =>
      rw [he] at hui hdisplay
      cases hdisplay
      exact ⟨h.ui_eq.trans hui.symm, htracks, h.upToDate⟩
    | some e =>
      rw [he] at hui hdisplay
      have ha : g.display.ui.Repainted narrow e.2 := h.ui_eq ▸ hrepainted e he
      have hdate := h.upToDate.next (a := .event e.1 e.2) hlayout ha hdisplay
      cases hdisplay
      refine ⟨?_, htracks, hdate⟩
      show g.display.ui.processEventToUI _ _ _ = draw.ui
      rw [h.ui_eq, hui]
      rfl
  | create =>
    obtain ⟨display, hdisplay, rfl⟩ := Option.map_eq_some_iff.1 hnext
    refine h.display hlayout (a := .create) trivial hdisplay ?_
    simp only [Display.next] at hdisplay
    split_ifs at hdisplay
    cases hdisplay
    rfl
  | paint exposed nonEmpty =>
    obtain ⟨display, hdisplay, rfl⟩ := Option.map_eq_some_iff.1 hnext
    exact h.display hlayout (a := .paint exposed nonEmpty) ha hdisplay
      (Display.next_paint hdisplay).2.2.1

/-- **What Vim has drawn is on the display**, in every run of the two threads and the system, once
nothing is on its way: neither in the pipe nor in a region to be painted.  Over it is the cursor of
the UI thread. -/
theorem display_shows_screen {vim : Vim} {ui : UI} {shown : ℤ × ℤ → Picture γ}
    {as : List GuiAction} (hlayout : layout.Monospaced narrow) (hnarrow : ui.Narrow narrow)
    (hfits : ui.cursor.Fits ui.metrics)
    (h : Machine.Along (next layout F capacity) (Regular narrow) (initial vim ui shown) as g)
    (hpipe : g.draw.pipe = []) (hpending : g.draw.pending = [])
    (harea : g.display.textArea = true) (hregions : g.display.pending = []) (p : ℤ × ℤ) :
    g.display.shown p =
      { ground :=
          if g.draw.screen.metrics.Inside p then (g.draw.screen.cell p).ground layout
          else ⟨g.draw.screen.backPixel, none⟩
        cursor :=
          if g.draw.ui.cursor.On g.draw.ui.metrics p then some g.draw.ui.cursor else none } := by
  have h₀ : Inv layout narrow (initial vim ui shown) :=
    ⟨rfl, DrawState.tracks_initial vim ui, hfits, hnarrow, fun harea => by cases harea⟩
  have hinv : g.Inv layout narrow := h.invariant h₀ fun _ _ _ hg ha hnext =>
    hg.next hlayout ha hnext
  obtain ⟨S, hS, hscreen, -⟩ := hinv.tracks
  rw [hpipe, hpending] at hscreen
  have hS : Shows g.draw.ui g.draw.screen := hscreen ▸ hS
  obtain ⟨hmetrics, -, -, hback⟩ := UI.eq_of_canvas hS.canvas
  have hnarrow' : g.draw.ui.Narrow narrow := hinv.ui_eq ▸ hinv.upToDate.narrow
  rw [hinv.upToDate.shown harea p (by simp [hregions]), hinv.ui_eq, UI.picture,
    UI.ground_of_narrow hlayout hnarrow' fun _ => rfl]
  congr 1
  by_cases hp : g.draw.screen.metrics.Inside p
  · rw [if_pos hp, hS.shown p hp]
    rfl
  · rw [if_neg hp, UI.shown_of_not_inside (by rwa [hmetrics]), hback]
    rfl

/-- A grid of three rows is cleared, and two letters are written to it while it is painted. -/
def firstLetters : List GuiAction :=
  [.draw (.set threeRows), .draw (.call .clearAll fun _ => {}), .draw .write, .create, .draw .write,
    .draw (.enter false), .draw (.read fun _ => {}), .paint [] (fun _ => true),
    .draw (.read fun _ => {}), .draw (.call (.drawString 0 0 [0x61, 0x62] 2 0) fun _ => {}),
    .draw .write, .draw (.read fun _ => {}), .paint [] (fun _ => true)]

theorem display_shows_firstLetters :
    ∃ g, Machine.Along (next bytesLayout latin1 2) (Regular narrowBytes)
        (initial ⟨threeRows, 0, 0, 0⟩ noGrid fun _ => ⟨⟨0, none⟩, none⟩) firstLetters g ∧
      (g.draw.pipe = [] ∧ g.draw.pending = [] ∧ g.display.textArea = true ∧
        g.display.pending = []) ∧
      (g.display.shown (0, 1)).ground = ⟨0, some (0x62, 0)⟩ := by
  obtain ⟨g, hrun, hidle, hcell⟩ : ∃ g, Machine.Along (next bytesLayout latin1 2)
      (Regular narrowBytes)
      (initial ⟨threeRows, 0, 0, 0⟩ noGrid fun _ => ⟨⟨0, none⟩, none⟩) firstLetters g ∧
      (g.draw.pipe = [] ∧ g.draw.pending = [] ∧ g.display.textArea = true ∧
        g.display.pending = []) ∧
      (if g.draw.screen.metrics.Inside (0, 1) then
          (g.draw.screen.cell (0, 1)).ground bytesLayout
        else ⟨g.draw.screen.backPixel, none⟩) = ⟨0, some (0x62, 0)⟩ := by
    refine ⟨_, .cons ?_ rfl <| .cons ?_ rfl <| .cons ?_ rfl <| .cons trivial rfl <| .cons ?_ rfl <|
      .cons ?_ rfl <| .cons ?_ rfl <| .cons (fun _ _ _ => rfl) rfl <| .cons ?_ rfl <|
      .cons ?_ rfl <| .cons ?_ rfl <| .cons ?_ rfl <| .cons (fun _ _ _ => rfl) rfl <| .nil _,
      ⟨rfl, rfl, rfl, rfl⟩, by decide⟩
    all_goals refine ⟨trivial, fun e he => ?_⟩
    all_goals cases he
    all_goals refine ⟨trivial, ?_⟩
    all_goals try trivial
    -- the event with the two letters
    exact List.forall_mem_cons.2 ⟨⟨rfl, 0x61, by decide, rfl⟩,
      List.forall_mem_singleton.2 ⟨rfl, 0x62, by decide, rfl⟩⟩
  refine ⟨g, hrun, hidle, ?_⟩
  rw [display_shows_screen monospaced_bytesLayout (UI.narrow_of_no_rows (by decide) _)
    (Cursor.fits_of_hidden rfl _) hrun hidle.1 hidle.2.1 hidle.2.2.1 hidle.2.2.2 (0, 1)]
  exact hcell

end Gui

end Gvim
