import Mathlib.Data.Int.Notation
import Mathlib.Data.List.Basic
import Playbit.Machine.Run

/-!
# The size of the window

When the window is resized, the UI thread stores the new width, height and scale factor one after
the other and then posts `EVENT_NSIZE`.  Vim loads the three values one after the other when it
processes the event, so that it may see values of different resizes.  But every store is followed
by an event, and so by another load.

While the event is processed, and in code of its own, Vim may process further events.

When no resize is under way, Vim and the UI agree on the size of the window
(`size_agrees_of_settled`), but for a scale factor of 0, which Vim takes for 100
(`zero_scaleFactor_differs`).
-/

namespace Gvim

/-- The size of the window: `screenWidth`, `screenHeight` and `scaleFactor`. -/
structure WindowSize where
  width : ℤ := 0
  height : ℤ := 0
  scale : ℤ := 0
  deriving DecidableEq

/-- What the UI thread does next in `PBMsg_LAYOUT`. -/
inductive LayoutPhase
  | idle
  | storeHeight (size : WindowSize)
  | storeScale (size : WindowSize)
  | post
  deriving DecidableEq

/-- Events in the pipe to Vim. -/
inductive SizeEvent
  | nsize
  | other
  deriving DecidableEq

/-- What the Vim thread is in the middle of. -/
inductive SizeFrame
  /-- `EVENT_NSIZE`, before the width is loaded; `old` is `oldScaleFactor`. -/
  | loadWidth (old : ℤ)
  | loadHeight (old : ℤ)
  | loadScale (old : ℤ)
  /-- `EVENT_NSIZE`, in `gui_resize_shell`. -/
  | resizeShell (old : ℤ)
  /-- `EVENT_NSIZE`, in `gui_init_font`. -/
  | initFont
  /-- Another event. -/
  | other
  deriving DecidableEq

/-- How many values are yet to be loaded. -/
def SizeFrame.toLoad : SizeFrame → ℕ
  | loadWidth _ => 3
  | loadHeight _ => 2
  | loadScale _ => 1
  | _ => 0

/-- The state of the two threads. -/
structure SizeState where
  /-- `uiScreenWidth`, `uiScreenHeight` and `uiScaleFactor`. -/
  ui : WindowSize := {}
  phase : LayoutPhase := .idle
  /-- The values of the most recent resize. -/
  last : Option WindowSize := none
  /-- The pipe to Vim. -/
  pipe : List SizeEvent := []
  vim : WindowSize := {}
  /-- What the Vim thread is in the middle of, innermost first. -/
  stack : List SizeFrame := []

/-- Steps of the two threads. -/
inductive SizeAction
  /-- The UI thread stores the width of a new size. -/
  | resize (size : WindowSize)
  /-- The UI thread goes on with a resize. -/
  | layout
  /-- The UI thread posts another event. -/
  | post
  /-- The Vim thread reads an event in code of its own. -/
  | read
  /-- The Vim thread goes on with the processing of an event. -/
  | process
  /-- The Vim thread calls `gui_mch_init_font` in code of its own. -/
  | initFont

/-- What `gui_mch_init_font` makes of the scale factor. -/
def fontScale (scale : ℤ) : ℤ := if scale = 0 then 100 else scale

namespace SizeState

/-- How many values are yet to be loaded for the event that Vim is processing. -/
def toLoad (s : SizeState) : ℕ := (s.stack.head?.map SizeFrame.toLoad).getD 0

/-- One step. -/
def next : SizeAction → SizeState → Option SizeState
  | .resize size, s =>
    match s.phase with
    | .idle => some { s with
        ui := { s.ui with width := size.width }, phase := .storeHeight size, last := some size }
    | _ => none
  | .layout, s =>
    match s.phase with
    | .idle => none
    | .storeHeight size =>
      some { s with ui := { s.ui with height := size.height }, phase := .storeScale size }
    | .storeScale size =>
      some { s with ui := { s.ui with scale := size.scale }, phase := .post }
    | .post => some { s with pipe := s.pipe ++ [.nsize], phase := .idle }
  | .post, s =>
    match s.phase with
    | .idle => some { s with pipe := s.pipe ++ [.other] }
    | _ => none
  | .read, s =>
    if s.toLoad = 0 then
      match s.pipe with
      | [] => none
      | .nsize :: pipe =>
        some { s with pipe := pipe, stack := .loadWidth s.vim.scale :: s.stack }
      | .other :: pipe => some { s with pipe := pipe, stack := .other :: s.stack }
    else none
  | .process, s =>
    match s.stack with
    | [] => none
    | .loadWidth old :: stack => some { s with
        vim := { s.vim with width := s.ui.width }, stack := .loadHeight old :: stack }
    | .loadHeight old :: stack => some { s with
        vim := { s.vim with height := s.ui.height }, stack := .loadScale old :: stack }
    | .loadScale old :: stack => some { s with
        vim := { s.vim with scale := s.ui.scale }, stack := .resizeShell old :: stack }
    | .resizeShell old :: stack =>
      if old = s.vim.scale then some { s with stack := stack }
      else some { s with
        vim := { s.vim with scale := fontScale s.vim.scale }, stack := .initFont :: stack }
    | .initFont :: stack => some { s with stack := stack }
    | .other :: stack => some { s with stack := stack }
  | .initFont, s =>
    if s.toLoad = 0 then some { s with vim := { s.vim with scale := fontScale s.vim.scale } }
    else none

/-- No resize is under way: the UI thread is not in the middle of one, there is no `EVENT_NSIZE` in
the pipe, and Vim is not processing one. -/
structure Settled (s : SizeState) : Prop where
  phase : s.phase = .idle
  pipe : .nsize ∉ s.pipe
  stack : ∀ frame ∈ s.stack, frame = .other

/-- Vim is going to load the size again. -/
def Due (s : SizeState) : Prop := s.phase ≠ .idle ∨ .nsize ∈ s.pipe

/-- Vim's scale factor is that of the UI, but for 0. -/
def SameScale (vim ui : ℤ) : Prop := vim = ui ∨ ui = 0 ∧ vim = 100

/-- What the UI thread has stored of the most recent resize. -/
def Stored (s : SizeState) (size : WindowSize) : Prop :=
  match s.phase with
  | .idle => s.ui = size
  | .storeHeight size' => size' = size ∧ s.ui.width = size.width
  | .storeScale size' => size' = size ∧ s.ui.width = size.width ∧ s.ui.height = size.height
  | .post => s.ui = size

/-- Every value is up to date, or is going to be loaded again. -/
structure Fresh (s : SizeState) : Prop where
  width : s.Due ∨ 3 ≤ s.toLoad ∨ s.vim.width = s.ui.width
  height : s.Due ∨ 2 ≤ s.toLoad ∨ s.vim.height = s.ui.height
  scale : s.Due ∨ 1 ≤ s.toLoad ∨ SameScale s.vim.scale s.ui.scale
  stored : ∀ size ∈ s.last, s.Stored size

theorem SameScale.fontScale {vim ui : ℤ} (h : SameScale vim ui) : SameScale (fontScale vim) ui := by
  unfold SameScale Gvim.fontScale at *
  split_ifs with hvim
  · rcases h with rfl | ⟨-, hvim'⟩
    · exact .inr ⟨hvim, rfl⟩
    · rw [hvim'] at hvim
      cases hvim
  · exact h

variable {s s' : SizeState}

theorem toLoad_of_stack {frame : SizeFrame} {stack : List SizeFrame}
    (h : s.stack = frame :: stack) : s.toLoad = frame.toLoad := by
  rw [toLoad, h]
  rfl

theorem le_toLoad {frame : SizeFrame} {stack : List SizeFrame} {n : ℕ} (hn : n ≤ frame.toLoad)
    (h : s.stack = frame :: stack) : n ≤ s.toLoad := by
  rwa [toLoad_of_stack h]

theorem fresh_initial : Fresh {} where
  width := .inr (.inr rfl)
  height := .inr (.inr rfl)
  scale := .inr (.inr (.inl rfl))
  stored size h := by cases h

namespace Fresh

/-- Values that are going to be loaded again may be anything. -/
theorem of_due (hdue : s.Due) (hstored : ∀ size ∈ s.last, s.Stored size) : s.Fresh :=
  ⟨.inl hdue, .inl hdue, .inl hdue, hstored⟩

/-- A value that is not yet to be loaded for the event that Vim is processing. -/
theorem of_lt {n : ℕ} {P : Prop} (h : s.Due ∨ n ≤ s.toLoad ∨ P) (hlt : s.toLoad < n) :
    s.Due ∨ P :=
  h.imp_right fun h => h.resolve_left (Nat.not_le.2 hlt)

/-- When Vim has loaded all values, they are up to date or going to be loaded again. -/
theorem agrees (h : s.Fresh) (hload : s.toLoad = 0) :
    s.Due ∨ s.vim.width = s.ui.width ∧ s.vim.height = s.ui.height ∧
      SameScale s.vim.scale s.ui.scale := by
  rcases of_lt h.width (by omega) with hdue | hw
  · exact .inl hdue
  rcases of_lt h.height (by omega) with hdue | hh
  · exact .inl hdue
  rcases of_lt h.scale (by omega) with hdue | hs
  · exact .inl hdue
  exact .inr ⟨hw, hh, hs⟩

/-- Steps of Vim between the loads, which may change the scale factor to 100. -/
theorem of_loaded (h : s.Fresh) (hload : s.toLoad = 0) (hdue : s.Due → s'.Due)
    (hui : (s'.ui, s'.phase, s'.last) = (s.ui, s.phase, s.last))
    (hvim : s'.vim = s.vim ∨ s'.vim = { s.vim with scale := fontScale s.vim.scale }) :
    s'.Fresh := by
  simp only [Prod.mk.injEq] at hui
  obtain ⟨hui, hphase, hlast⟩ := hui
  have hstored : ∀ size ∈ s'.last, s'.Stored size := by
    intro size hsize
    have := h.stored size (hlast ▸ hsize)
    unfold Stored at *
    rwa [hphase, hui]
  rcases h.agrees hload with hd | ⟨hw, hh, hs⟩
  · exact of_due (hdue hd) hstored
  · refine ⟨.inr (.inr ?_), .inr (.inr ?_), .inr (.inr ?_), hstored⟩
    all_goals rw [hui]
    · rcases hvim with hvim | hvim <;> rw [hvim] <;> exact hw
    · rcases hvim with hvim | hvim <;> rw [hvim] <;> exact hh
    · rcases hvim with hvim | hvim <;> rw [hvim]
      · exact hs
      · exact hs.fontScale

theorem layout (h : s.Fresh) (hstep : next .layout s = some s') : s'.Fresh := by
  have hst := h.stored
  rw [SizeState.next] at hstep
  unfold Stored at hst
  split at hstep
  · cases hstep
  case h_2 size' hphase =>
    cases hstep
    rw [hphase] at hst
    refine of_due (.inl (by simp)) fun size hsize => ?_
    obtain ⟨rfl, hw⟩ := hst size hsize
    exact ⟨rfl, hw, rfl⟩
  case h_3 size' hphase =>
    cases hstep
    rw [hphase] at hst
    refine of_due (.inl (by simp)) fun size hsize => ?_
    obtain ⟨rfl, hw, hh⟩ := hst size hsize
    show WindowSize.mk s.ui.width s.ui.height size'.scale = size'
    rw [hw, hh]
  case h_4 hphase =>
    cases hstep
    rw [hphase] at hst
    exact of_due (.inr (by simp)) hst

theorem process (h : s.Fresh) (hstep : next .process s = some s') : s'.Fresh := by
  rw [SizeState.next] at hstep
  split at hstep
  · cases hstep
  case h_2 old stack hstack =>
    cases hstep
    refine ⟨.inr (.inr rfl), .inr (.inl (le_toLoad ?_ rfl)), .inr (.inl (le_toLoad ?_ rfl)),
      h.stored⟩ <;> simp [SizeFrame.toLoad]
  case h_3 old stack hstack =>
    cases hstep
    have hload : s.toLoad = 2 := toLoad_of_stack hstack
    have hw := of_lt h.width (by omega)
    refine ⟨hw.imp_right .inr, .inr (.inr rfl), .inr (.inl (le_toLoad ?_ rfl)), h.stored⟩
    simp [SizeFrame.toLoad]
  case h_4 old stack hstack =>
    cases hstep
    have hload : s.toLoad = 1 := toLoad_of_stack hstack
    have hw := of_lt h.width (by omega)
    have hh := of_lt h.height (by omega)
    exact ⟨hw.imp_right .inr, hh.imp_right .inr, .inr (.inr (.inl rfl)), h.stored⟩
  case h_5 old stack hstack =>
    split_ifs at hstep
    · cases hstep
      exact h.of_loaded (toLoad_of_stack hstack) id rfl (.inl rfl)
    · cases hstep
      exact h.of_loaded (toLoad_of_stack hstack) id rfl (.inr rfl)
  all_goals
    rename_i hstack
    cases hstep
    exact h.of_loaded (toLoad_of_stack hstack) id rfl (.inl rfl)

theorem next {a : SizeAction} (h : s.Fresh) (hstep : next a s = some s') : s'.Fresh := by
  cases a with
  | resize size =>
    rw [SizeState.next] at hstep
    split at hstep
    · cases hstep
      refine of_due (.inl (by simp)) fun size' hsize => ?_
      cases hsize
      exact ⟨rfl, rfl⟩
    · cases hstep
  | layout => exact h.layout hstep
  | post =>
    rw [SizeState.next] at hstep
    split at hstep
    · cases hstep
      have hdue : s.Due → Due { s with pipe := s.pipe ++ [.other] } :=
        Or.imp_right (List.mem_append_left _)
      exact ⟨h.width.imp_left hdue, h.height.imp_left hdue, h.scale.imp_left hdue, h.stored⟩
    · cases hstep
  | read =>
    rw [SizeState.next] at hstep
    split_ifs at hstep with hload
    split at hstep
    · cases hstep
    · cases hstep
      refine ⟨.inr (.inl (le_toLoad ?_ rfl)), .inr (.inl (le_toLoad ?_ rfl)),
        .inr (.inl (le_toLoad ?_ rfl)), h.stored⟩ <;> simp [SizeFrame.toLoad]
    case h_3 pipe hpipe =>
      cases hstep
      refine h.of_loaded hload (Or.imp_right fun hmem => ?_) rfl (.inl rfl)
      rw [hpipe] at hmem
      exact (List.mem_cons.1 hmem).resolve_left (by decide)
  | process => exact h.process hstep
  | initFont =>
    rw [SizeState.next] at hstep
    split_ifs at hstep with hload
    cases hstep
    exact h.of_loaded hload id rfl (.inr rfl)

end Fresh

/-- **Vim and the UI agree on the size of the window** when no resize is under way, in any
interleaving of the threads: Vim's values are those of the most recent resize, but for a scale
factor of 0, which may have become 100. -/
theorem size_agrees_of_settled {as : List SizeAction} {size : WindowSize}
    (h : Machine.Along next (fun _ _ => True) {} as s) (hsettled : s.Settled)
    (hlast : s.last = some size) :
    s.vim.width = size.width ∧ s.vim.height = size.height ∧ SameScale s.vim.scale size.scale := by
  have hfresh : s.Fresh := h.invariant fresh_initial fun _ _ _ hs _ => hs.next
  have hload : s.toLoad = 0 := by
    cases hstack : s.stack with
    | nil => rw [toLoad, hstack]; rfl
    | cons frame stack =>
      rw [toLoad_of_stack hstack, hsettled.stack frame (hstack ▸ List.mem_cons_self)]
      rfl
  have hui : s.ui = size := by
    have := hfresh.stored size hlast
    unfold Stored at this
    rwa [hsettled.phase] at this
  rcases hfresh.agrees hload with hdue | hagrees
  · rcases hdue with hphase | hpipe
    · exact absurd hsettled.phase hphase
    · exact absurd hpipe hsettled.pipe
  · rwa [hui] at hagrees

end SizeState

/-- A resize whose values are loaded in part before the next resize. -/
theorem size_agrees_after_torn_load : ∃ s, Machine.Along SizeState.next (fun _ _ => True) {}
    [.resize ⟨640, 480, 100⟩, .layout, .layout, .layout, .read, .process,
      .resize ⟨800, 600, 200⟩, .layout, .process, .process, .layout, .layout, .read, .process,
      .process, .process, .process, .process, .process, .process] s ∧ s.Settled ∧
    s.vim.width = 800 ∧ s.vim.height = 600 ∧ SizeState.SameScale s.vim.scale 200 := by
  have hrun : ∃ s, Machine.runChecked SizeState.next (fun _ _ => True)
      [.resize ⟨640, 480, 100⟩, .layout, .layout, .layout, .read, .process,
        .resize ⟨800, 600, 200⟩, .layout, .process, .process, .layout, .layout, .read, .process,
        .process, .process, .process, .process, .process, .process] {} = some s ∧
      s.phase = .idle ∧ s.pipe = [] ∧ s.stack = [] ∧ s.last = some ⟨800, 600, 200⟩ :=
    ⟨_, rfl, rfl, rfl, rfl, rfl⟩
  obtain ⟨s, hs, hphase, hpipe, hstack, hlast⟩ := hrun
  have h := Machine.along_of_runChecked hs
  have hsettled : s.Settled := ⟨hphase, by simp [hpipe], by simp [hstack]⟩
  exact ⟨s, h, hsettled, SizeState.size_agrees_of_settled h hsettled hlast⟩

/-- A scale factor of 0 is taken for 100 by Vim. -/
theorem zero_scaleFactor_differs : ∃ s, Machine.Along SizeState.next (fun _ _ => True) {}
    [.initFont, .resize ⟨640, 480, 0⟩, .layout, .layout, .layout, .read, .process, .process,
      .process, .process, .process] s ∧ s.Settled ∧ s.last = some ⟨640, 480, 0⟩ ∧
    s.vim.scale = 100 := by
  refine ⟨_, Machine.along_of_runChecked rfl, ⟨rfl, by simp, by simp⟩, rfl, rfl⟩

end Gvim
