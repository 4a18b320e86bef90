import Mathlib.Data.Int.Notation
import Mathlib.Data.List.Basic
import Playbit.Machine.Run

/-!
# Dialogs

`gui_mch_dialog`, `gui_mch_browse` and `gui_mch_browsedir` post a request to the UI thread and then
call `gui_mch_update` until a response has come.  The response is passed in two variables that all
of these calls share, and it does not say which request it is for.

The processing of an event in `gui_mch_update` may open another dialog.  The response to that one
then ends the wait of the outer call as well.

As long as no dialog is opened while another call waits (`DialogState.Alone`), every call returns
the response to its own request (`ownAnswer_of_alone`).  `nested_dialog_answers_both` is a response
that is returned by two calls.
-/

namespace Gvim

/-- The functions that wait for a response. -/
inductive DialogKind
  /-- `gui_mch_dialog` -/
  | dialog
  /-- `gui_mch_browse` and `gui_mch_browsedir` -/
  | browse
  deriving DecidableEq

/-- `EVENT_DIAGRESP`, with the number of the call whose alert or picker it comes from. -/
structure Response where
  call : ℕ
  /-- `di[0]` -/
  response : ℤ
  text : Option (List UInt8)
  deriving DecidableEq

/-- What a call returns. -/
inductive DialogValue
  | response (r : ℤ)
  | text (t : Option (List UInt8))
  deriving DecidableEq

/-- What a call returns for a response and a text. -/
def DialogKind.value (kind : DialogKind) (response : ℤ) (text : Option (List UInt8)) :
    DialogValue :=
  match kind with
  | dialog => .response response
  | browse => .text text

/-- Events in the pipe to Vim. -/
inductive DialogEvent
  | response (r : Response)
  /-- Any other event, such as `EVENT_CLOSE`. -/
  | other
  deriving DecidableEq

/-- What the Vim thread is in the middle of. -/
inductive Frame
  /-- The loop of a call that waits for a response, between two calls of `gui_mch_update`. -/
  | call (n : ℕ) (kind : DialogKind)
  /-- The loop of `gui_mch_update`. -/
  | update
  /-- `ProcessEventToVim` for an event other than a response. -/
  | process
  deriving DecidableEq

/-- The call that waits in a frame. -/
def Frame.call? : Frame → Option ℕ
  | call n _ => some n
  | _ => none

/-- The call that an event is the response to. -/
def DialogEvent.call? : DialogEvent → Option ℕ
  | response r => some r.call
  | other => none

/-- A call that has returned. -/
structure Return where
  call : ℕ
  kind : DialogKind
  value : DialogValue
  /-- The response that the value was taken from. -/
  source : Option Response
  deriving DecidableEq

/-- The state of the two threads. -/
structure DialogState where
  /-- The calls whose request is in the pipe to the UI. -/
  requests : List ℕ := []
  /-- The calls whose alert or picker is open. -/
  alerts : List ℕ := []
  /-- The pipe to Vim. -/
  events : List DialogEvent := []
  dialogResponse : ℤ := 0
  dialogTextResponse : Option (List UInt8) := none
  /-- The response that was last stored in the two variables. -/
  last : Option Response := none
  /-- What the Vim thread is in the middle of, innermost first. -/
  stack : List Frame := []
  /-- The number of calls so far. -/
  calls : ℕ := 0
  returned : List Return := []

/-- Steps of the two threads. -/
inductive DialogAction
  /-- Vim calls one of the functions. -/
  | call (kind : DialogKind)
  /-- Vim calls `gui_mch_update` or `gui_mch_wait_for_chars`. -/
  | update
  /-- The Vim thread goes on in one of these functions. -/
  | step
  /-- `ProcessEventToVim` returns. -/
  | processed
  /-- The UI thread reads a request and shows an alert or a picker. -/
  | display
  /-- The user answers. -/
  | answer (r : Response)
  /-- The UI thread posts another event. -/
  | post
  deriving DecidableEq

namespace DialogState

/-- Vim is running code of its own. -/
def InVim (s : DialogState) : Prop := s.stack.head? = none ∨ s.stack.head? = some .process

instance decidableInVim (s : DialogState) : Decidable s.InVim := by
  unfold InVim
  infer_instance

/-- The Vim thread goes on in a frame, where `stack` is below it. -/
def resume (s : DialogState) (stack : List Frame) : Frame → Option DialogState
  | .call n kind =>
    if s.dialogResponse = -1 then some { s with stack := .update :: s.stack }
    else some { s with
      stack := stack
      returned := s.returned ++
        [⟨n, kind, kind.value s.dialogResponse s.dialogTextResponse, s.last⟩] }
  | .update =>
    match s.events with
    | [] => some { s with stack := stack }
    | .response r :: events => some { s with
        events := events, dialogResponse := r.response, dialogTextResponse := r.text
        last := some r }
    | .other :: events => some { s with events := events, stack := .process :: s.stack }
  | .process => none

/-- One step. -/
def next : DialogAction → DialogState → Option DialogState
  | .call kind, s =>
    if s.InVim then some { s with
      requests := s.requests ++ [s.calls], dialogResponse := -1
      stack := .call s.calls kind :: s.stack, calls := s.calls + 1 }
    else none
  | .update, s => if s.InVim then some { s with stack := .update :: s.stack } else none
  | .step, s =>
    match s.stack with
    | [] => none
    | frame :: stack => s.resume stack frame
  | .processed, s =>
    match s.stack with
    | .process :: stack => some { s with stack := stack }
    | _ => none
  | .display, s =>
    match s.requests with
    | [] => none
    | n :: requests => some { s with requests := requests, alerts := n :: s.alerts }
  | .answer r, s =>
    if r.call ∈ s.alerts then some { s with
      alerts := s.alerts.erase r.call, events := s.events ++ [.response r] }
    else none
  | .post, s => some { s with events := s.events ++ [.other] }

/-- The calls that wait for a response, innermost first. -/
def waiting (s : DialogState) : List ℕ := s.stack.filterMap Frame.call?

/-- Dialogs are opened when no other call waits for a response. -/
def Alone : DialogAction → DialogState → Prop
  | .call _, s => s.waiting = []
  | _, _ => True

instance decidableAlone (a : DialogAction) (s : DialogState) : Decidable (Alone a s) := by
  cases a <;> unfold Alone <;> infer_instance

/-- Every call has returned the response to its own request, and no response was returned
twice. -/
structure OwnAnswer (s : DialogState) : Prop where
  own : ∀ r ∈ s.returned, ∃ a, r.source = some a ∧ a.call = r.call ∧
    r.value = r.kind.value a.response a.text
  once : (s.returned.map Return.source).Nodup

/-- The calls that have not had a response yet, up to where it is stored. -/
def outstanding (s : DialogState) : List ℕ :=
  s.requests ++ s.alerts ++ s.events.filterMap DialogEvent.call?

/-- A call waits for a response that is outstanding, or has been stored. -/
def Awaits (s : DialogState) (n : ℕ) : Prop :=
  s.outstanding = [n] ∧ s.dialogResponse = -1 ∨
  s.outstanding = [] ∧ ∃ a, s.last = some a ∧ a.call = n ∧ s.dialogResponse = a.response ∧
    s.dialogTextResponse = a.text

/-- At most one call waits, and nothing is outstanding for others. -/
structure Single (s : DialogState) : Prop where
  idle : s.waiting = [] → s.outstanding = []
  waits : ∀ n ∈ s.waiting, s.waiting = [n] ∧ s.Awaits n ∧ n < s.calls ∧
    n ∉ s.returned.map Return.call
  returned_lt : ∀ r ∈ s.returned, r.call < s.calls
  ownAnswer : s.OwnAnswer

variable {s s' : DialogState}

theorem single_initial : Single {} where
  idle _ := rfl
  waits n hn := by cases hn
  returned_lt r hr := by cases hr
  ownAnswer := ⟨fun r hr => absurd hr List.not_mem_nil, List.Pairwise.nil⟩

namespace Single

theorem congr (h : s.Single) (hwait : s'.waiting = s.waiting)
    (hout : s'.outstanding.Perm s.outstanding)
    (hslot : (s'.dialogResponse, s'.dialogTextResponse, s'.last, s'.calls, s'.returned) =
      (s.dialogResponse, s.dialogTextResponse, s.last, s.calls, s.returned)) : s'.Single := by
  simp only [Prod.mk.injEq] at hslot
  obtain ⟨h₁, h₂, h₃, h₄, h₅⟩ := hslot
  have hawait : ∀ n, s.Awaits n → s'.Awaits n := by
    rintro n (⟨hn, hr⟩ | ⟨hn, ha⟩)
    · refine .inl ⟨List.perm_singleton.1 (hn ▸ hout), h₁.trans hr⟩
    · refine .inr ⟨List.perm_nil.1 (hn ▸ hout), ?_⟩
      rwa [h₁, h₂, h₃]
  refine ⟨fun hw => ?_, fun n hn => ?_, ?_, ?_⟩
  · exact List.perm_nil.1 (h.idle (hwait ▸ hw) ▸ hout)
  · rw [hwait] at hn ⊢
    obtain ⟨hw, ha, hlt, hret⟩ := h.waits n hn
    exact ⟨hw, hawait n ha, h₄ ▸ hlt, h₅ ▸ hret⟩
  · rw [h₄, h₅]
    exact h.returned_lt
  · exact ⟨h₅ ▸ h.ownAnswer.own, h₅ ▸ h.ownAnswer.once⟩

theorem start (h : s.Single) (hw : s.waiting = []) (kind : DialogKind) :
    Single { s with
      requests := s.requests ++ [s.calls], dialogResponse := -1
      stack := .call s.calls kind :: s.stack, calls := s.calls + 1 } where
  idle hidle := by cases hidle
  waits n hn := by
    have hwait : n = s.calls := by
      have hn' : n ∈ s.calls :: s.waiting := hn
      simpa [hw] using hn'
    subst hwait
    have hout := h.idle hw
    simp only [outstanding, List.append_eq_nil_iff] at hout
    refine ⟨congrArg (s.calls :: ·) hw, .inl ⟨?_, rfl⟩, Nat.lt_succ_self _, fun hmem => ?_⟩
    · simp [outstanding, hout.1.1, hout.1.2, hout.2]
    · obtain ⟨r, hr, hcall⟩ := List.mem_map.1 hmem
      exact absurd (h.returned_lt r hr) (by omega)
  returned_lt r hr := Nat.lt_succ_of_lt (h.returned_lt r hr)
  ownAnswer := ⟨h.ownAnswer.own, h.ownAnswer.once⟩

theorem store (h : s.Single) {r : Response} {events : List DialogEvent}
    (hev : s.events = .response r :: events) :
    Single { s with
      events := events, dialogResponse := r.response, dialogTextResponse := r.text
      last := some r } := by
  have hout : s.outstanding =
      s.requests ++ s.alerts ++ r.call :: events.filterMap DialogEvent.call? := by
    rw [outstanding, hev]
    rfl
  have hne : s.outstanding ≠ [] := by rw [hout]; simp
  refine ⟨fun hw => absurd (h.idle hw) hne, fun n hn => ?_, h.returned_lt,
    h.ownAnswer.own, h.ownAnswer.once⟩
  obtain ⟨hw, ha, hlt, hret⟩ := h.waits n hn
  refine ⟨hw, .inr ?_, hlt, hret⟩
  rcases ha with ⟨hone, -⟩ | ⟨hnil, -⟩
  · have hlen := congrArg List.length hone
    rw [hout] at hone hlen
    simp only [List.length_append, List.length_cons, List.length_nil] at hlen
    have h₁ : s.requests = [] := List.eq_nil_of_length_eq_zero (by omega)
    have h₂ : s.alerts = [] := List.eq_nil_of_length_eq_zero (by omega)
    have h₃ : events.filterMap DialogEvent.call? = [] :=
      List.eq_nil_of_length_eq_zero (by omega)
    rw [h₁, h₂, h₃] at hone
    refine ⟨by simp [outstanding, h₁, h₂, h₃], r, rfl, ?_, rfl, rfl⟩
    simpa using hone
  · exact absurd hnil hne

theorem finish (h : s.Single) {n : ℕ} {kind : DialogKind} {stack : List Frame}
    (hstack : s.stack = .call n kind :: stack) (hresp : s.dialogResponse ≠ -1) :
    Single { s with
      stack := stack
      returned := s.returned ++
        [⟨n, kind, kind.value s.dialogResponse s.dialogTextResponse, s.last⟩] } := by
  have hwait : s.waiting = n :: stack.filterMap Frame.call? := by
    rw [waiting, hstack]
    rfl
  obtain ⟨hw, ha, hlt, hret⟩ := h.waits n (by rw [hwait]; exact List.mem_cons_self)
  rw [hwait, List.cons.injEq] at hw
  rcases ha with ⟨-, hneg⟩ | ⟨hnil, a, hlast, hcall, hvalue, htext⟩
  · exact absurd hneg hresp
  refine ⟨fun _ => hnil, fun m hm => ?_, fun r hr => ?_, fun r hr => ?_, ?_⟩
  · have hm' : m ∈ stack.filterMap Frame.call? := hm
    rw [hw.2] at hm'
    cases hm'
  · rcases List.mem_append.1 hr with hr | hr
    · exact h.returned_lt r hr
    · rw [List.mem_singleton.1 hr]
      exact hlt
  · rcases List.mem_append.1 hr with hr | hr
    · exact h.ownAnswer.own r hr
    · rw [List.mem_singleton.1 hr]
      refine ⟨a, hlast, hcall, ?_⟩
      dsimp only
      rw [hvalue, htext]
  · -- a response that was returned before was the response to another call
    rw [List.map_append, List.map_singleton, List.nodup_append]
    refine ⟨h.ownAnswer.once, List.pairwise_singleton _ _, fun x hx y hy hxy => hret ?_⟩
    obtain ⟨r, hrmem, rfl⟩ := List.mem_map.1 hx
    obtain ⟨a', ha', hcall', -⟩ := h.ownAnswer.own r hrmem
    rw [List.mem_singleton.1 hy, ha', hlast] at hxy
    cases hxy
    exact List.mem_map.2 ⟨r, hrmem, hcall'.symm.trans hcall⟩

theorem resume (h : s.Single) {frame : Frame} {stack : List Frame}
    (hstack : s.stack = frame :: stack) (hstep : s.resume stack frame = some s') : s'.Single := by
  cases frame with
  | call n kind =>
    rw [DialogState.resume] at hstep
    split_ifs at hstep with hresp
    · cases hstep
      exact h.congr rfl (.refl _) rfl
    · cases hstep
      exact h.finish hstack hresp
  | update =>
    rw [DialogState.resume] at hstep
    split at hstep
    case h_1 hev =>
      cases hstep
      exact h.congr (by rw [waiting, waiting, hstack]; rfl) (.refl _) rfl
    case h_2 r events hev =>
      cases hstep
      exact h.store hev
    case h_3 events hev =>
      cases hstep
      exact h.congr rfl (by rw [outstanding, outstanding, hev]; exact .refl _) rfl
  | process => cases hstep

theorem next (h : s.Single) {a : DialogAction} (ha : Alone a s) (hstep : next a s = some s') :
    s'.Single := by
  cases a with
  | call kind =>
    rw [DialogState.next] at hstep
    split_ifs at hstep
    cases hstep
    exact h.start ha kind
  | update =>
    rw [DialogState.next] at hstep
    split_ifs at hstep
    cases hstep
    exact h.congr rfl (.refl _) rfl
  | step =>
    rw [DialogState.next] at hstep
    split at hstep
    · cases hstep
    case h_2 frame stack hstack => exact h.resume hstack hstep
  | processed =>
    rw [DialogState.next] at hstep
    split at hstep
    case h_1 stack hstack =>
      cases hstep
      exact h.congr (by rw [waiting, waiting, hstack]; rfl) (.refl _) rfl
    · cases hstep
  | display =>
    rw [DialogState.next] at hstep
    split at hstep
    · cases hstep
    case h_2 n requests hreq =>
      cases hstep
      refine h.congr rfl ?_ rfl
      rw [outstanding, outstanding, hreq]
      exact List.perm_middle.append_right _
  | answer r =>
    rw [DialogState.next] at hstep
    split_ifs at hstep with hmem
    cases hstep
    refine h.congr rfl ?_ rfl
    have hmove : (s.alerts.erase r.call ++
        (s.events ++ [DialogEvent.response r]).filterMap DialogEvent.call?).Perm
        (s.alerts ++ s.events.filterMap DialogEvent.call?) := by
      rw [List.filterMap_append, ← List.append_assoc]
      exact (List.perm_append_singleton r.call _).trans
        ((List.perm_cons_erase hmem).symm.append_right _)
    rw [outstanding, outstanding, List.append_assoc, List.append_assoc]
    exact hmove.append_left _
  | post =>
    cases hstep
    refine h.congr rfl ?_ rfl
    simp [outstanding, DialogEvent.call?, List.filterMap_cons]

end Single

/-- **Every call returns the response to its own request**, in any interleaving of the threads in
which no dialog is opened while another call waits. -/
theorem ownAnswer_of_alone {as : List DialogAction} (h : Machine.Along next Alone {} as s) :
    s.OwnAnswer :=
  (h.invariant single_initial fun _ _ _ hs ha => hs.next ha).ownAnswer

end DialogState

/-- A dialog, and a file picker after it. -/
theorem two_dialogs_in_turn : ∃ s, Machine.Along DialogState.next DialogState.Alone {}
    [.call .dialog, .step, .display, .answer ⟨0, 2, none⟩, .step, .step, .step,
      .call .browse, .step, .display, .answer ⟨1, 1, some [47]⟩, .step, .step, .step] s ∧
    s.OwnAnswer ∧ s.returned.map Return.value = [.response 2, .text (some [47])] := by
  have hrun : ∃ s, Machine.runChecked DialogState.next DialogState.Alone
      [.call .dialog, .step, .display, .answer ⟨0, 2, none⟩, .step, .step, .step,
        .call .browse, .step, .display, .answer ⟨1, 1, some [47]⟩, .step, .step, .step] {} =
      some s ∧ s.returned.map Return.value = [.response 2, .text (some [47])] := ⟨_, rfl, rfl⟩
  obtain ⟨s, hs, hvalue⟩ := hrun
  have h := Machine.along_of_runChecked hs
  exact ⟨s, h, DialogState.ownAnswer_of_alone h, hvalue⟩

/-- While a dialog waits, the window is closed, which opens another one.  The answer to that one
is returned by both calls, with the first alert still open. -/
theorem nested_dialog_answers_both : ∃ s, Machine.Along DialogState.next (fun _ _ => True) {}
    [.call .dialog, .step, .display, .post, .step, .call .dialog, .step, .display,
      .answer ⟨1, 2, none⟩, .step, .step, .step, .processed, .step, .step] s ∧
    s.alerts = [0] ∧ s.returned.map Return.call = [1, 0] ∧ ¬ s.OwnAnswer := by
  refine ⟨_, Machine.along_of_runChecked rfl, rfl, rfl, fun h => ?_⟩
  exact absurd h.once (by decide)

end Gvim
