import Playbit.Machine.Pipe
import Playbit.Machine.Run

/-!
# Events on their way to Vim

The UI thread posts events for Vim with `WriteEvent`, to a pipe that does not block, and the Vim
thread reads them in `gui_mch_update` and `gui_mch_wait_for_chars` until the pipe is empty.  Vim may
be busy with other things in between for any length of time, and the processing of an event may
itself read from the pipe.

When the pipe is full the event that is being posted is lost: `WriteEvent` prints a message.

As long as the pipe has room for what is posted, no event is lost (`inOrder_of_room`).  An event
that is posted to a full pipe is (`full_pipe_loses_event`).
-/

namespace Gvim

variable {ε : Type}

/-- The pipe `eventsToVim`. -/
structure EventState (ε : Type) where
  pipe : Pipe ε := {}
  /-- The last step of the Vim thread found the pipe empty. -/
  drained : Bool := false

/-- Steps of the UI thread and of the Vim thread. -/
inductive EventAction (ε : Type)
  /-- `WriteEvent` in the UI thread. -/
  | post (e : ε)
  /-- `read` in a loop of the Vim thread, followed by `ProcessEventToVim` if there is an event. -/
  | read
  /-- Anything else in the Vim thread. -/
  | busy

namespace EventState

/-- One step. -/
def next (capacity : ℕ) : EventAction ε → EventState ε → Option (EventState ε)
  | .post e, s => some { pipe := s.pipe.write capacity e }
  | .read, s =>
    match s.pipe.read with
    | some (_, pipe) => some { pipe := pipe }
    | none => some { s with drained := true }
  | .busy, s => some { s with drained := false }

/-- There is room for an event that is posted. -/
def Room (capacity : ℕ) : EventAction ε → EventState ε → Prop
  | .post _, s => s.pipe.content.length < capacity
  | _, _ => True

instance decidableRoom (capacity : ℕ) (a : EventAction ε) (s : EventState ε) :
    Decidable (Room capacity a s) := by
  cases a <;> unfold Room <;> infer_instance

/-- The events that have been processed are the first of those that were posted, and all of them
when Vim has just drained the pipe. -/
def InOrder (s : EventState ε) : Prop :=
  s.pipe.taken <+: s.pipe.posted ∧ (s.drained = true → s.pipe.taken = s.pipe.posted)

/-- Nothing has been lost, and the pipe is empty when Vim has just drained it. -/
structure Complete (s : EventState ε) : Prop where
  lossless : s.pipe.Lossless
  drained : s.drained = true → s.pipe.read = none

theorem Complete.inOrder {s : EventState ε} (h : s.Complete) : s.InOrder :=
  ⟨h.lossless.taken_isPrefix, fun hd => h.lossless.taken_eq (h.drained hd)⟩

theorem Complete.next {capacity : ℕ} {a : EventAction ε} {s s' : EventState ε} (h : s.Complete)
    (hroom : Room capacity a s) (hstep : next capacity a s = some s') : s'.Complete := by
  cases a with
  | post e =>
    cases hstep
    exact ⟨h.lossless.write hroom, by simp⟩
  | read =>
    rw [EventState.next] at hstep
    cases hread : s.pipe.read with
    | none =>
      rw [hread] at hstep
      cases hstep
      exact ⟨h.lossless, fun _ => hread⟩
    | some r =>
      rw [hread] at hstep
      cases hstep
      exact ⟨h.lossless.read hread, by simp⟩
  | busy =>
    cases hstep
    exact ⟨h.lossless, by simp⟩

/-- **No event is lost** on its way to Vim, in any interleaving of the threads in which events are
posted when the pipe has room for them. -/
theorem inOrder_of_room {capacity : ℕ} {as : List (EventAction ε)} {s : EventState ε}
    (h : Machine.Along (next capacity) (Room capacity) {} as s) : s.InOrder := by
  have h₀ : Complete ({} : EventState ε) := ⟨Pipe.lossless_empty, by simp⟩
  exact (h.invariant h₀ fun _ _ _ hs hc => hs.next hc).inOrder

end EventState

/-- Two events on their way through a pipe that holds two. -/
theorem two_events_in_order : ∃ s, Machine.Along (EventState.next 2) (EventState.Room 2) {}
    [.post 'a', .busy, .post 'b', .read, .read, .read] s ∧ s.InOrder ∧
      s.pipe.taken = ['a', 'b'] := by
  have hrun : ∃ s, Machine.runChecked (EventState.next 2) (EventState.Room 2)
      [.post 'a', .busy, .post 'b', .read, .read, .read] {} = some s ∧
      s.pipe.taken = ['a', 'b'] := ⟨_, rfl, rfl⟩
  obtain ⟨s, hs, htaken⟩ := hrun
  have h := Machine.along_of_runChecked hs
  exact ⟨s, h, EventState.inOrder_of_room h, htaken⟩

/-- The event that is posted to a full pipe is lost. -/
theorem full_pipe_loses_event : ∃ s, Machine.Along (EventState.next 1) (fun _ _ => True) {}
    [.post 'a', .post 'b', .read, .post 'c', .read, .read] s ∧
    s.pipe.taken = ['a', 'c'] ∧ s.drained = true ∧ ¬ s.InOrder := by
  refine ⟨_, Machine.along_of_runChecked rfl, rfl, rfl, fun h => ?_⟩
  exact absurd (h.2 rfl) (by decide)

end Gvim
