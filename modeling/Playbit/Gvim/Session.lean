import Mathlib.Data.List.Infix
import Playbit.Machine.Heap
import Playbit.Machine.Run

/-!
# A session

`gui_mch_init` starts the UI thread and waits for its first event, which has to be `EVENT_START`.
From then on the UI thread posts events, some of them with a text that it has allocated, and Vim
frees the text when it has processed the event.  Vim may process further events while it is
processing one.

A file that is to be opened is kept in `uiDropAfterLayout` until the next `PBMsg_LAYOUT`.  A second
one replaces it.

In every interleaving of the two threads neither the assertion of `gui_mch_init` on the first event
nor that of `ProcessEventToVim` on the types of the later ones fails, no text is freed twice or used
after it has been freed, and none is forgotten except with an event that did not fit into the pipe
`eventsToVim` (`Session.safe`).  This is under the condition that `poll` is not interrupted by a
signal (`interrupted_poll_fails`).  `EVENT_DROP` is written for files in the order in which they
were to be opened, and for the last of them unless it is still kept (`Session.drops_in_order`).  A
pipe that is full loses the event all the same, and with it the file, since `uiDropAfterLayout` is
reset in any case.
-/

namespace Gvim

/-! ### Events -/

/-- The events for Vim. -/
inductive EventType
  | start
  | keyboard
  | focus
  | nsize
  | drop
  | mouse
  | diagresp
  | close
  deriving DecidableEq

/-- An event in a pipe: its type and the address of its text. -/
structure VimEvent where
  type : EventType
  text : Option ℕ := none
  deriving DecidableEq

/-- The texts, by their addresses. -/
abbrev TextHeap := Heap ℕ (List UInt8)

/-- What an event says. -/
def VimEvent.view (H : TextHeap) (e : VimEvent) : EventType × Option (List UInt8) :=
  (e.type, e.text.bind fun b => H b)

/-- Messages for which an event without a text is posted. -/
inductive PlainMessage
  /-- `PBMsg_WINDOW_ACTIVATE` and `PBMsg_WINDOW_DEACTIVATE`. -/
  | activate
  /-- `PBMsg_WINDOW_CLOSE`. -/
  | close
  | mouse
  /-- An alert, or a file picker that was cancelled. -/
  | response

def PlainMessage.type : PlainMessage → EventType
  | activate => .focus
  | close => .close
  | mouse => .mouse
  | response => .diagresp

/-! ### The two threads -/

/-- What the UI thread is in the middle of. -/
inductive UIPhase
  | idle
  /-- `PBMsg_APP_CREATE`, after `EVENT_START` has been posted. -/
  | creating (file : Option (ℕ × List UInt8))
  /-- `PBMsg_LAYOUT`, after `EVENT_NSIZE` has been posted if need be. -/
  | layout
  deriving DecidableEq

/-- How far the Vim thread has got. -/
inductive VimPhase
  /-- Before `pthread_create`. -/
  | starting
  /-- In `poll`, waiting for the first event. -/
  | waiting
  | running
  deriving DecidableEq

structure Session where
  heap : TextHeap := .empty
  /-- `gui.window` and `gui.textArea` are set. -/
  window : Bool := false
  phase : UIPhase := .idle
  uiDropAfterLayout : Option ℕ := none
  /-- `eventsToVim`. -/
  pipe : List VimEvent := []
  vim : VimPhase := .starting
  /-- The events that Vim is processing, innermost first. -/
  processing : List VimEvent := []
  /-- An assertion has failed, or a text was used that is not allocated. -/
  failed : Bool := false
  /-- The events that have been written to the pipe, and those that did not fit. -/
  posted : List (EventType × Option (List UInt8)) := []
  lost : List VimEvent := []
  /-- The events that Vim has read. -/
  received : List (EventType × Option (List UInt8)) := []
  /-- The files that were to be opened. -/
  requests : List (List UInt8) := []
  /-- The files that an `EVENT_DROP` was posted for, whether it did fit into the pipe or not. -/
  drops : List (List UInt8) := []

/-- Steps of the two threads. -/
inductive SessionAction
  /-- Vim starts the UI thread. -/
  | startThread
  /-- `poll` and `read` in `gui_mch_init`. -/
  | await (interrupted : Bool)
  /-- `read` in `gui_mch_update` or `gui_mch_wait_for_chars`. -/
  | read
  /-- `ProcessEventToVim` reads the text of the event. -/
  | use
  /-- `realloc` of the text of a key that is mapped to a character, to a block at `b`. -/
  | remap (b : ℕ) (c : UInt8)
  /-- `FreeEvent` at the end of `ProcessEventToVim`. -/
  | finish
  /-- `PBMsg_APP_CREATE`, with a file that is copied to a block. -/
  | appCreate (file : Option (ℕ × List UInt8))
  /-- The UI thread goes on. -/
  | proceed
  /-- `PBMsg_KEY_DOWN`, with a text that is copied to a block. -/
  | keyDown (b : ℕ) (text : List UInt8)
  | message (m : PlainMessage)
  /-- A file picker, with a path that is copied to a block. -/
  | browsed (b : ℕ) (path : List UInt8)
  /-- `PBMsg_LAYOUT`. -/
  | layout (resized : Bool)

namespace Session

/-- `WriteEvent`.  The pipe takes `capacity` events, which all have the same size. -/
def post (capacity : ℕ) (e : VimEvent) (s : Session) : Session :=
  if s.pipe.length < capacity then
    { s with pipe := s.pipe ++ [e], posted := s.posted ++ [e.view s.heap] }
  else { s with lost := s.lost ++ [e] }

/-- `malloc`, which returns a block that is not allocated. -/
def alloc (b : ℕ) (t : List UInt8) (s : Session) : Option Session :=
  if s.heap b = none then some { s with heap := s.heap.alloc b t } else none

/-- `free`. -/
def free (text : Option ℕ) (s : Session) : Session :=
  match text with
  | none => s
  | some b =>
    if s.heap b = none then { s with failed := true } else { s with heap := s.heap.free b }

/-- Keep a file for the next layout. -/
def setDrop (file : Option (ℕ × List UInt8)) (s : Session) : Option Session :=
  match file with
  | none => some s
  | some (b, path) =>
    ((s.free s.uiDropAfterLayout).alloc b path).map fun s =>
      { s with uiDropAfterLayout := some b, requests := s.requests ++ [path] }

/-- Post an event with a new text. -/
def postText (capacity : ℕ) (type : EventType) (b : ℕ) (t : List UInt8) (s : Session) :
    Option Session :=
  (s.alloc b t).map (post capacity ⟨type, some b⟩)

/-- Post the file that is kept.  It is not kept any longer, even if the event did not fit. -/
def postDrop (capacity : ℕ) (s : Session) : Session :=
  match s.uiDropAfterLayout with
  | none => s
  | some b =>
    { s.post capacity ⟨.drop, some b⟩ with
      uiDropAfterLayout := none, drops := s.drops ++ (s.heap b).toList }

/-- A step of the UI thread, which has been started. -/
def uiNext (capacity : ℕ) (a : SessionAction) (s : Session) : Option Session :=
  match s.phase, a with
  | .idle, .appCreate file =>
    if s.window then s.setDrop file
    else some { s.post capacity ⟨.start, none⟩ with phase := .creating file }
  | .creating file, .proceed =>
    (s.setDrop file).map fun s => { s with window := true, phase := .idle }
  | .layout, .proceed => some { s.postDrop capacity with phase := .idle }
  | .idle, .keyDown b text => if s.window then s.postText capacity .keyboard b text else none
  | .idle, .message m => if s.window then some (s.post capacity ⟨m.type, none⟩) else none
  | .idle, .browsed b path => if s.window then s.postText capacity .diagresp b path else none
  | .idle, .layout resized =>
    if s.window then
      some { (if resized then s.post capacity ⟨.nsize, none⟩ else s) with phase := .layout }
    else none
  | _, _ => none

/-- What Vim does with an event that it has read. -/
def receive (e : VimEvent) (pipe : List VimEvent) (s : Session) : Session :=
  { s with pipe := pipe, received := s.received ++ [e.view s.heap] }

/-- A step of the Vim thread. -/
def vimNext : SessionAction → Session → Option Session
  | .startThread, s => if s.vim = .starting then some { s with vim := .waiting } else none
  | .await interrupted, s =>
    if s.vim = .waiting then
      match s.pipe with
      | [] => if interrupted then some { s with failed := true } else none
      | e :: pipe =>
        if e.type = .start then some { s.receive e pipe with vim := .running }
        else some { s with failed := true }
    else none
  | .read, s =>
    if s.vim = .running then
      match s.pipe with
      | [] => some s
      | e :: pipe =>
        if e.type = .start then some { s with failed := true }
        else some { s.receive e pipe with processing := e :: s.processing }
    else none
  | .use, s =>
    match s.processing with
    | [] => none
    | e :: _ =>
      match e.type, e.text with
      | .keyboard, none | .drop, none => some { s with failed := true }
      | _, none => some s
      | _, some b => if s.heap b = none then some { s with failed := true } else some s
  | .remap b c, s =>
    match s.processing with
    | ⟨.keyboard, text⟩ :: es =>
      ((s.free text).alloc b [c]).map fun s =>
        { s with processing := ⟨.keyboard, some b⟩ :: es }
    | _ => none
  | .finish, s =>
    match s.processing with
    | [] => none
    | e :: es => some { s.free e.text with processing := es }
  | _, _ => none

/-- One step.  Nothing happens after a failure. -/
def next (capacity : ℕ) (a : SessionAction) (s : Session) : Option Session :=
  if s.failed then none
  else
    match a with
    | .startThread | .await _ | .read | .use | .remap .. | .finish => s.vimNext a
    | .appCreate _ | .proceed | .keyDown .. | .message _ | .browsed .. | .layout _ =>
      if s.vim = .starting then none else s.uiNext capacity a

/-- `poll` is not interrupted by a signal. -/
def Uninterrupted : SessionAction → Session → Prop
  | .await interrupted, _ => interrupted = false
  | _, _ => True

instance decidableUninterrupted :
    (a : SessionAction) → (s : Session) → Decidable (Uninterrupted a s)
  | .await interrupted, _ => inferInstanceAs (Decidable (interrupted = false))
  | .startThread, _ | .read, _ | .use, _ | .remap .., _ | .finish, _ | .appCreate _, _
  | .proceed, _ | .keyDown .., _ | .message _, _ | .browsed .., _ | .layout _, _ => isTrue trivial

/-- The texts: that of the file which is kept, and those of the events in the pipe, of the events
that Vim is processing and of the events that did not fit. -/
def owned (s : Session) : List ℕ :=
  s.uiDropAfterLayout.toList ++ (s.pipe ++ s.processing ++ s.lost).filterMap VimEvent.text

/-! ### What a session keeps -/

/-- The UI thread has posted `EVENT_START`. -/
def Opened (s : Session) : Prop := s.window = true ∨ ∃ file, s.phase = .creating file

/-- `EVENT_START` is the first event and the only one of its type. -/
def Handshake (s : Session) : Prop :=
  match s.vim with
  | .starting => s.pipe = [] ∧ ¬ s.Opened
  | .waiting => s.pipe = [] ∧ ¬ s.Opened ∨
      s.Opened ∧ ∃ es, s.pipe = ⟨.start, none⟩ :: es ∧ ∀ e ∈ es, e.type ≠ .start
  | .running => s.Opened ∧ ∀ e ∈ s.pipe, e.type ≠ .start

/-- The file that is kept, the files that were to be opened and those that were posted. -/
def files (s : Session) : Option (Option (List UInt8)) × List (List UInt8) × List (List UInt8) :=
  (s.uiDropAfterLayout.map fun b => s.heap b, s.requests, s.drops)

/-- Files are posted in the order in which they were to be opened.  The last of them is posted, or
is the one that is kept. -/
def DropsInOrder :
    Option (Option (List UInt8)) × List (List UInt8) × List (List UInt8) → Prop
  | (some t, requests, drops) =>
    ∃ l path, requests = l ++ [path] ∧ t = some path ∧ drops.Sublist l
  | (none, requests, drops) => drops.Sublist requests ∧ drops.getLast? = requests.getLast?

theorem DropsInOrder.sublist
    {files : Option (Option (List UInt8)) × List (List UInt8) × List (List UInt8)}
    (h : DropsInOrder files) : files.2.2.Sublist files.2.1 := by
  obtain ⟨kept, requests, drops⟩ := files
  cases kept with
  | none => exact h.1
  | some t =>
    obtain ⟨l, path, rfl, -, hsub⟩ := h
    exact hsub.trans (List.sublist_append_left l [path])

/-- The invariant.  `held` are texts that a thread has in its hands. -/
structure Sound (held : List ℕ) (s : Session) : Prop where
  ok : s.failed = false
  owned : s.heap.Owned (held ++ s.owned)
  texts : ∀ e ∈ s.pipe ++ s.processing, e.type = .keyboard ∨ e.type = .drop → e.text ≠ none
  posted : s.posted = s.received ++ s.pipe.map (VimEvent.view s.heap)
  handshake : s.Handshake
  layout : s.phase = .layout → s.window = true

variable {capacity : ℕ} {s s' : Session} {held : List ℕ} {b : ℕ} {t : List UInt8} {e : VimEvent}

theorem map_view_congr {H H' : TextHeap} {es : List VimEvent}
    (h : ∀ k ∈ es.filterMap VimEvent.text, H' k = H k) :
    es.map (VimEvent.view H') = es.map (VimEvent.view H) := by
  refine List.map_congr_left fun e he => ?_
  unfold VimEvent.view
  cases htext : e.text with
  | none => rfl
  | some k =>
    have hk : H' k = H k := h k (List.mem_filterMap.2 ⟨e, he, htext⟩)
    simp only [Option.bind_some, hk]

theorem mem_owned_of_mem_pipe {k : ℕ} (hk : k ∈ s.pipe.filterMap VimEvent.text) : k ∈ s.owned := by
  simp only [Session.owned, List.filterMap_append, List.mem_append]
  exact .inr (.inl (.inl hk))

theorem filterMap_text_cons (e : VimEvent) (es : List VimEvent) :
    (e :: es).filterMap VimEvent.text = e.text.toList ++ es.filterMap VimEvent.text := by
  rw [List.filterMap_cons]
  cases e.text <;> rfl

@[simp]
theorem files_post (capacity : ℕ) (e : VimEvent) (s : Session) :
    (s.post capacity e).files = s.files := by
  unfold post
  split_ifs <;> rfl

@[simp]
theorem window_post (capacity : ℕ) (e : VimEvent) (s : Session) :
    (s.post capacity e).window = s.window := by
  unfold post
  split_ifs <;> rfl

@[simp]
theorem window_postDrop (capacity : ℕ) (s : Session) :
    (s.postDrop capacity).window = s.window := by
  unfold postDrop
  split
  · rfl
  · exact window_post capacity _ s

namespace Sound

theorem setHeap (h : s.Sound held) {H : TextHeap} {held' : List ℕ}
    (howned : H.Owned (held' ++ s.owned)) (hsame : ∀ k ∈ s.owned, H k = s.heap k) :
    Sound held' { s with heap := H } ∧ files { s with heap := H } = s.files := by
  refine ⟨⟨h.ok, howned, h.texts, ?_, h.handshake, h.layout⟩, ?_⟩
  · rw [map_view_congr fun k hk => hsame k (mem_owned_of_mem_pipe hk)]
    exact h.posted
  · have hkept : s.uiDropAfterLayout.map (fun b => H b) =
        s.uiDropAfterLayout.map fun b => s.heap b := by
      cases hdrop : s.uiDropAfterLayout with
      | none => rfl
      | some b => exact congrArg some (hsame b (by simp [Session.owned, hdrop]))
    exact congrArg (·, s.requests, s.drops) hkept

theorem alloc (h : s.Sound held) (halloc : s.alloc b t = some s') :
    Sound (b :: held) s' ∧ s'.files = s.files := by
  unfold Session.alloc at halloc
  split_ifs at halloc with hb
  cases halloc
  refine h.setHeap (h.owned.alloc hb t fun k => ?_) fun k hk => ?_
  · simp only [List.cons_append, List.count_cons, List.count_nil]
    omega
  · refine Heap.alloc_of_ne _ t ?_
    rintro rfl
    exact h.owned.ne_none_of_mem (List.mem_append_right _ hk) hb

theorem free {text : Option ℕ} (h : s.Sound (text.toList ++ held)) :
    Sound held (s.free text) ∧ (s.free text).files = s.files := by
  cases text with
  | none => exact ⟨h, rfl⟩
  | some b =>
    have hb : s.heap b ≠ none := h.owned.ne_none_of_mem (by simp)
    rw [Session.free, if_neg hb]
    refine h.setHeap (h.owned.free fun k => ?_) fun k hk => ?_
    · simp only [Option.toList_some, List.cons_append, List.nil_append, List.count_cons,
        List.count_nil]
      omega
    · refine Heap.free_of_ne _ ?_
      rintro rfl
      have hnodup := h.owned.nodup
      simp only [Option.toList_some, List.cons_append, List.nil_append, List.nodup_cons,
        List.mem_append, not_or] at hnodup
      exact hnodup.1.2 hk

theorem post (h : s.Sound e.text.toList) (capacity : ℕ) (hopened : s.Opened)
    (htype : e.type ≠ .start) (htext : e.type = .keyboard ∨ e.type = .drop → e.text ≠ none) :
    Sound [] (s.post capacity e) := by
  have hcount : [e].filterMap VimEvent.text = e.text.toList := by
    rw [filterMap_text_cons, List.filterMap_nil, List.append_nil]
  unfold Session.post
  split_ifs
  · refine ⟨h.ok, h.owned.of_count fun k => ?_, fun e' he' => ?_, ?_, ?_, h.layout⟩
    · simp only [Session.owned, List.filterMap_append, List.count_append, List.nil_append, hcount]
      omega
    · simp only [List.mem_append, List.mem_singleton] at he'
      rcases he' with (he' | rfl) | he'
      · exact h.texts e' (List.mem_append_left _ he')
      · exact htext
      · exact h.texts e' (List.mem_append_right _ he')
    · simp [h.posted]
    · have hhand := h.handshake
      unfold Handshake at hhand ⊢
      cases hvim : s.vim with
      | starting =>
        rw [hvim] at hhand
        exact absurd hopened hhand.2
      | waiting =>
        rw [hvim] at hhand
        obtain ⟨-, hnot⟩ | ⟨-, es, hes, hstart⟩ := hhand
        · exact absurd hopened hnot
        · refine .inr ⟨hopened, es ++ [e], by simp [hes], fun e' he' => ?_⟩
          rcases List.mem_append.1 he' with he' | he'
          · exact hstart e' he'
          · rw [List.mem_singleton.1 he']
            exact htype
      | running =>
        rw [hvim] at hhand
        refine ⟨hopened, fun e' he' => ?_⟩
        rcases List.mem_append.1 he' with he' | he'
        · exact hhand.2 e' he'
        · rw [List.mem_singleton.1 he']
          exact htype
  · refine ⟨h.ok, h.owned.of_count fun k => ?_, h.texts, h.posted, h.handshake, h.layout⟩
    simp only [Session.owned, List.filterMap_append, List.count_append, List.nil_append, hcount]
    omega

theorem setPhase (h : s.Sound held) {window : Bool} {phase : UIPhase}
    (hopened : Opened { s with window := window, phase := phase } ↔ s.Opened)
    (hlayout : phase = .layout → window = true) :
    Sound held { s with window := window, phase := phase } := by
  refine ⟨h.ok, h.owned, h.texts, h.posted, ?_, hlayout⟩
  have hhand := h.handshake
  unfold Handshake at hhand ⊢
  simp only [hopened]
  exact hhand

theorem postStart (h : s.Sound []) (hcapacity : 0 < capacity) (hvim : s.vim ≠ .starting)
    (hnot : ¬ s.Opened) (file : Option (ℕ × List UInt8)) :
    Sound [] { s.post capacity ⟨.start, none⟩ with phase := .creating file } := by
  have hhand := h.handshake
  unfold Handshake at hhand
  cases hphase : s.vim with
  | starting => exact absurd hphase hvim
  | running =>
    rw [hphase] at hhand
    exact absurd hhand.1 hnot
  | waiting =>
    rw [hphase] at hhand
    obtain ⟨hpipe, -⟩ | ⟨hopened, -⟩ := hhand
    · have hfits : s.pipe.length < capacity := by rwa [hpipe]
      rw [Session.post, if_pos hfits]
      refine ⟨h.ok, h.owned.of_count fun k => ?_, fun e he => ?_, ?_, ?_, by simp⟩
      · simp [Session.owned, hpipe]
      · have he : e = ⟨.start, none⟩ ∨ e ∈ s.processing := by simpa [hpipe] using he
        rcases he with rfl | he
        · simp
        · exact h.texts e (List.mem_append_right _ he)
      · simp [h.posted]
      · unfold Handshake
        simp only [hphase, hpipe]
        exact .inr ⟨.inr ⟨file, rfl⟩, [], rfl, by simp⟩
    · exact absurd hopened hnot

theorem takeDrop (h : s.Sound []) :
    Sound s.uiDropAfterLayout.toList { s with uiDropAfterLayout := none } :=
  ⟨h.ok, h.owned.of_count fun k => by simp [Session.owned], h.texts, h.posted, h.handshake,
    h.layout⟩

theorem putDrop (h : s.Sound [b]) (hnone : s.uiDropAfterLayout = none)
    (requests : List (List UInt8)) :
    Sound [] { s with uiDropAfterLayout := some b, requests := requests } :=
  ⟨h.ok, h.owned.of_count fun k => by simp [Session.owned, hnone], h.texts, h.posted, h.handshake,
    h.layout⟩

end Sound

theorem alloc_eq_some_iff :
    s.alloc b t = some s' ↔ s.heap b = none ∧ s' = { s with heap := s.heap.alloc b t } := by
  unfold Session.alloc
  split_ifs with hb
  · simp [hb, eq_comm]
  · simp [hb]

theorem Sound.setDrop {file : Option (ℕ × List UInt8)} (h : s.Sound [])
    (hfiles : DropsInOrder s.files) (hset : s.setDrop file = some s') :
    (s'.Sound [] ∧ DropsInOrder s'.files) ∧ s'.phase = s.phase := by
  cases file with
  | none =>
    cases hset
    exact ⟨⟨h, hfiles⟩, rfl⟩
  | some file =>
    obtain ⟨b, path⟩ := file
    obtain ⟨s₂, halloc, rfl⟩ := Option.map_eq_some_iff.1 hset
    obtain ⟨hb, rfl⟩ := alloc_eq_some_iff.1 halloc
    -- the one before is freed first, so that the new one may be in the same place
    have htake : Sound (s.uiDropAfterLayout.toList ++ []) { s with uiDropAfterLayout := none } := by
      rw [List.append_nil]
      exact h.takeDrop
    have hfree := htake.free.1
    have hheap : Session.free s.uiDropAfterLayout { s with uiDropAfterLayout := none } =
        { s.free s.uiDropAfterLayout with uiDropAfterLayout := none } := by
      unfold Session.free
      split
      · rfl
      · split_ifs <;> rfl
    have hframe : (s.free s.uiDropAfterLayout).phase = s.phase ∧
        (s.free s.uiDropAfterLayout).files.2 = s.files.2 := by
      unfold Session.free
      split
      · exact ⟨rfl, rfl⟩
      · split_ifs <;> exact ⟨rfl, rfl⟩
    rw [hheap] at hfree
    have halloc := (hfree.alloc (t := path) (alloc_eq_some_iff.2 ⟨hb, rfl⟩)).1
    have hnew := halloc.putDrop rfl ((s.free s.uiDropAfterLayout).requests ++ [path])
    refine ⟨⟨hnew, (s.free s.uiDropAfterLayout).requests, path, rfl, Heap.alloc_self _ b path, ?_⟩,
      hframe.1⟩
    have hsub := hfiles.sublist
    rw [← hframe.2] at hsub
    exact hsub

theorem Sound.postDrop (h : s.Sound []) (capacity : ℕ) (hfiles : DropsInOrder s.files)
    (hopened : s.Opened) :
    Sound [] (s.postDrop capacity) ∧ DropsInOrder (s.postDrop capacity).files := by
  unfold Session.postDrop
  cases hdrop : s.uiDropAfterLayout with
  | none => exact ⟨h, hfiles⟩
  | some b =>
    have htake := h.takeDrop
    rw [hdrop] at htake
    have hpost := Sound.post (e := ⟨.drop, some b⟩) htake capacity hopened (by simp) (by simp)
    rw [files, hdrop] at hfiles
    obtain ⟨l, path, hl, hpath, hsub⟩ := hfiles
    have hpath : s.heap b = some path := hpath
    have hcomm : { s.post capacity ⟨.drop, some b⟩ with
          uiDropAfterLayout := none, drops := s.drops ++ (s.heap b).toList } =
        { Session.post capacity ⟨.drop, some b⟩ { s with uiDropAfterLayout := none } with
          drops := s.drops ++ (s.heap b).toList } := by
      unfold Session.post
      split_ifs <;> rfl
    have hrequests : (Session.post capacity ⟨.drop, some b⟩
        { s with uiDropAfterLayout := none }).requests = l ++ [path] := by
      rw [← hl]
      unfold Session.post
      split_ifs <;> rfl
    have hkept : (Session.post capacity ⟨.drop, some b⟩
        { s with uiDropAfterLayout := none }).uiDropAfterLayout = none := by
      unfold Session.post
      split_ifs <;> rfl
    simp only [hcomm]
    refine ⟨⟨hpost.ok, hpost.owned, hpost.texts, hpost.posted, hpost.handshake, hpost.layout⟩, ?_⟩
    simp only [files, hkept, hrequests, hpath, Option.map_none, Option.toList_some]
    exact ⟨hsub.append (List.Sublist.refl _), by simp⟩

/-! ### Steps -/

theorem Sound.postText {type : EventType} (h : s.Sound []) (hopened : s.Opened)
    (htype : type ≠ .start) (hpost : s.postText capacity type b t = some s') :
    Sound [] s' ∧ s'.files = s.files := by
  obtain ⟨s₁, halloc, rfl⟩ := Option.map_eq_some_iff.1 hpost
  obtain ⟨hsound, hfiles⟩ := h.alloc halloc
  obtain ⟨-, rfl⟩ := alloc_eq_some_iff.1 halloc
  have hpost := Sound.post (e := ⟨type, some b⟩) hsound capacity hopened htype (by simp)
  exact ⟨hpost, (files_post capacity _ _).trans hfiles⟩

theorem Sound.uiNext {a : SessionAction} (h : s.Sound []) (hfiles : DropsInOrder s.files)
    (hcapacity : 0 < capacity) (hvim : s.vim ≠ .starting) (hnext : s.uiNext capacity a = some s') :
    s'.Sound [] ∧ DropsInOrder s'.files := by
  unfold Session.uiNext at hnext
  split at hnext
  case h_1 file hphase =>
    split_ifs at hnext with hwindow
    · exact (h.setDrop hfiles hnext).1
    · cases hnext
      have hnot : ¬ s.Opened := by
        rintro (hopened | ⟨file, hfile⟩)
        · exact hwindow hopened
        · rw [hphase] at hfile
          cases hfile
      refine ⟨h.postStart hcapacity hvim hnot file, ?_⟩
      have hsame := files_post capacity ⟨.start, none⟩ s
      exact hsame ▸ hfiles
  case h_2 file hphase =>
    obtain ⟨s₂, hset, rfl⟩ := Option.map_eq_some_iff.1 hnext
    obtain ⟨⟨hsound, hfiles'⟩, hphase'⟩ := h.setDrop hfiles hset
    refine ⟨hsound.setPhase ⟨fun _ => .inr ⟨file, hphase'.trans hphase⟩, fun _ => .inl rfl⟩
      (by simp), hfiles'⟩
  case h_3 hphase =>
    cases hnext
    have hwindow := h.layout hphase
    obtain ⟨hsound, hfiles'⟩ := h.postDrop capacity hfiles (.inl hwindow)
    refine ⟨hsound.setPhase ⟨fun _ => .inl ?_, fun _ => .inl ?_⟩ (by simp), hfiles'⟩
    all_goals exact (window_postDrop capacity s).trans hwindow
  case h_4 b text hphase =>
    split_ifs at hnext with hwindow
    obtain ⟨hsound, hsame⟩ := h.postText (.inl hwindow) (by simp) hnext
    exact ⟨hsound, hsame ▸ hfiles⟩
  case h_5 m hphase =>
    split_ifs at hnext with hwindow
    cases hnext
    have hsame := files_post capacity ⟨m.type, none⟩ s
    refine ⟨Sound.post (e := ⟨m.type, none⟩) h capacity (.inl hwindow) ?_ ?_, hsame ▸ hfiles⟩
    · cases m <;> simp [PlainMessage.type]
    · cases m <;> simp [PlainMessage.type]
  case h_6 b path hphase =>
    split_ifs at hnext with hwindow
    obtain ⟨hsound, hsame⟩ := h.postText (.inl hwindow) (by simp) hnext
    exact ⟨hsound, hsame ▸ hfiles⟩
  case h_7 resized hphase =>
    split_ifs at hnext with hwindow hresized
    · cases hnext
      have hpost := Sound.post (e := ⟨.nsize, none⟩) h capacity (.inl hwindow) (by simp) (by simp)
      have hwindow' := (window_post capacity ⟨.nsize, none⟩ s).trans hwindow
      have hsame := files_post capacity ⟨.nsize, none⟩ s
      exact ⟨hpost.setPhase ⟨fun _ => .inl hwindow', fun _ => .inl hwindow'⟩ fun _ => hwindow',
        hsame ▸ hfiles⟩
    · cases hnext
      exact ⟨h.setPhase ⟨fun _ => .inl hwindow, fun _ => .inl hwindow⟩ fun _ => hwindow, hfiles⟩
  case h_8 => cases hnext

theorem Sound.posted_receive {pipe : List VimEvent} (h : s.Sound held)
    (hpipe : s.pipe = e :: pipe) :
    s.posted = s.received ++ [e.view s.heap] ++ pipe.map (VimEvent.view s.heap) := by
  rw [h.posted, hpipe, List.map_cons, List.append_assoc, List.singleton_append]

theorem Sound.await (h : s.Sound []) (hnext : s.vimNext (.await false) = some s') :
    s'.Sound [] ∧ s'.files = s.files := by
  by_cases hvim : s.vim = .waiting
  swap
  · rw [Session.vimNext, if_neg hvim] at hnext
    cases hnext
  have hhand := h.handshake
  unfold Handshake at hhand
  rw [hvim] at hhand
  rw [Session.vimNext, if_pos hvim] at hnext
  obtain ⟨hpipe, -⟩ | ⟨hopened, es, hpipe, hstart⟩ := hhand
  · rw [hpipe] at hnext
    cases hnext
  · rw [hpipe] at hnext
    cases hnext
    refine ⟨⟨h.ok, h.owned.of_count fun k => ?_, fun e he => h.texts e ?_, h.posted_receive hpipe,
      ⟨hopened, hstart⟩, h.layout⟩, rfl⟩
    · simp [Session.owned, Session.receive, hpipe]
    · rw [hpipe]
      exact .tail _ he

theorem Sound.read (h : s.Sound []) (hnext : s.vimNext .read = some s') :
    s'.Sound [] ∧ s'.files = s.files := by
  by_cases hvim : s.vim = .running
  swap
  · rw [Session.vimNext, if_neg hvim] at hnext
    cases hnext
  have hhand := h.handshake
  unfold Handshake at hhand
  rw [hvim] at hhand
  rw [Session.vimNext, if_pos hvim] at hnext
  cases hpipe : s.pipe with
  | nil =>
    rw [hpipe] at hnext
    cases hnext
    exact ⟨h, rfl⟩
  | cons e es =>
    rw [hpipe] at hnext hhand
    have htype := hhand.2 e List.mem_cons_self
    simp only [if_neg htype] at hnext
    cases hnext
    refine ⟨⟨h.ok, h.owned.of_count fun k => ?_, fun e' he' => h.texts e' ?_,
      h.posted_receive hpipe, ?_, h.layout⟩, rfl⟩
    · simp only [Session.owned, Session.receive, hpipe, List.nil_append, List.count_append,
        List.filterMap_append, filterMap_text_cons]
      omega
    · have he' : e' ∈ es ∨ e' = e ∨ e' ∈ s.processing := by simpa [Session.receive] using he'
      rw [hpipe]
      rcases he' with he' | rfl | he'
      · exact List.mem_append_left _ (.tail _ he')
      · exact List.mem_append_left _ List.mem_cons_self
      · exact List.mem_append_right _ he'
    · unfold Handshake
      simp only [Session.receive, hvim]
      exact ⟨hhand.1, fun e' he' => hhand.2 e' (.tail _ he')⟩

/-- The text of the event that Vim is processing is taken out. -/
theorem Sound.takeText {es : List VimEvent} (h : s.Sound []) (hes : s.processing = e :: es) :
    Sound (e.text.toList ++ []) { s with processing := es } := by
  refine ⟨h.ok, h.owned.of_count fun k => ?_, fun e' he' => h.texts e' ?_, h.posted, h.handshake,
    h.layout⟩
  · simp only [Session.owned, hes, List.nil_append, List.append_nil, List.count_append,
      List.filterMap_append, filterMap_text_cons]
    omega
  · rw [hes]
    rcases List.mem_append.1 he' with he' | he'
    · exact List.mem_append_left _ he'
    · exact List.mem_append_right _ (.tail _ he')

theorem free_setProcessing (text : Option ℕ) (es : List VimEvent) (s : Session) :
    Session.free text { s with processing := es } = { s.free text with processing := es } := by
  unfold Session.free
  split
  · rfl
  · split_ifs <;> rfl

theorem Sound.finish (h : s.Sound []) (hnext : s.vimNext .finish = some s') :
    s'.Sound [] ∧ s'.files = s.files := by
  cases hes : s.processing with
  | nil =>
    rw [Session.vimNext, hes] at hnext
    cases hnext
  | cons e es =>
    rw [Session.vimNext, hes] at hnext
    cases hnext
    rw [← free_setProcessing]
    exact (h.takeText hes).free

theorem Sound.use (h : s.Sound []) (hnext : s.vimNext .use = some s') : s' = s := by
  cases hes : s.processing with
  | nil =>
    rw [Session.vimNext, hes] at hnext
    cases hnext
  | cons e es =>
    obtain ⟨type, text⟩ := e
    have htext := h.texts ⟨type, text⟩ (by simp [hes])
    rw [Session.vimNext, hes] at hnext
    cases text with
    | none => cases type <;> simp_all
    | some b =>
      have hb : s.heap b ≠ none := h.owned.ne_none_of_mem (by simp [Session.owned, hes])
      simp only [if_neg hb] at hnext
      cases hnext
      rfl

/-- A text is given to the event that Vim is processing. -/
theorem Sound.putText (h : s.Sound [b]) :
    Sound [] { s with processing := ⟨.keyboard, some b⟩ :: s.processing } := by
  refine ⟨h.ok, h.owned.of_count fun k => ?_, fun e he => ?_, h.posted, h.handshake, h.layout⟩
  · simp only [Session.owned, List.nil_append, List.count_append, List.filterMap_append,
      filterMap_text_cons, Option.toList_some]
    omega
  · have he : e ∈ s.pipe ∨ e = ⟨.keyboard, some b⟩ ∨ e ∈ s.processing := by simpa using he
    rcases he with he | rfl | he
    · exact h.texts e (List.mem_append_left _ he)
    · simp
    · exact h.texts e (List.mem_append_right _ he)

theorem Sound.remap {c : UInt8} (h : s.Sound []) (hnext : s.vimNext (.remap b c) = some s') :
    s'.Sound [] ∧ s'.files = s.files := by
  rw [Session.vimNext] at hnext
  split at hnext
  · rename_i text es hes
    obtain ⟨s₂, halloc, rfl⟩ := Option.map_eq_some_iff.1 hnext
    obtain ⟨hb, rfl⟩ := alloc_eq_some_iff.1 halloc
    obtain ⟨hfree, hfiles⟩ := (h.takeText hes).free
    rw [free_setProcessing] at hfree hfiles
    obtain ⟨hnew, hfiles'⟩ := hfree.alloc (t := [c]) (alloc_eq_some_iff.2 ⟨hb, rfl⟩)
    exact ⟨hnew.putText, hfiles'.trans hfiles⟩
  · cases hnext

theorem Sound.vimNext {a : SessionAction} (h : s.Sound []) (ha : Uninterrupted a s)
    (hnext : s.vimNext a = some s') : s'.Sound [] ∧ s'.files = s.files := by
  cases a with
  | startThread =>
    have hhand := h.handshake
    unfold Handshake at hhand
    simp only [Session.vimNext] at hnext
    split_ifs at hnext with hvim
    cases hnext
    rw [hvim] at hhand
    exact ⟨⟨h.ok, h.owned, h.texts, h.posted, .inl hhand, h.layout⟩, rfl⟩
  | await interrupted =>
    cases ha
    exact h.await hnext
  | read => exact h.read hnext
  | use =>
    cases h.use hnext
    exact ⟨h, rfl⟩
  | remap b c => exact h.remap hnext
  | finish => exact h.finish hnext
  | _ => cases hnext

theorem Sound.next {a : SessionAction} (h : s.Sound []) (hfiles : DropsInOrder s.files)
    (hcapacity : 0 < capacity) (ha : Uninterrupted a s) (hnext : next capacity a s = some s') :
    s'.Sound [] ∧ DropsInOrder s'.files := by
  unfold Session.next at hnext
  rw [h.ok, if_neg Bool.false_ne_true] at hnext
  split at hnext
  case h_1 | h_2 | h_3 | h_4 | h_5 | h_6 =>
    obtain ⟨hsound, hsame⟩ := h.vimNext ha hnext
    exact ⟨hsound, hsame ▸ hfiles⟩
  all_goals
    split_ifs at hnext with hvim
    exact h.uiNext hfiles hcapacity hvim hnext

theorem sound_of_along {as : List SessionAction} (hcapacity : 0 < capacity)
    (h : Machine.Along (next capacity) Uninterrupted {} as s) :
    s.Sound [] ∧ DropsInOrder s.files := by
  have h₀ : Sound [] {} :=
    ⟨rfl, Heap.Owned.empty, by simp, rfl, ⟨rfl, by simp [Opened]⟩, by simp⟩
  have hfiles : DropsInOrder (files {}) := ⟨List.Sublist.refl _, rfl⟩
  exact h.invariant (I := fun s => s.Sound [] ∧ DropsInOrder s.files) ⟨h₀, hfiles⟩
    fun _ _ _ hs ha hnext => hs.1.next hs.2 hcapacity ha hnext

/-- **No assertion fails, and no text is freed twice or used after it has been freed**, in every
interleaving of the two threads.  The assertions are those on the first event, in `gui_mch_init`,
and on the types of the others, in `ProcessEventToVim`.  What Vim has read is what was written to
`eventsToVim`, in order and with the same texts, and every text that has not been freed belongs to
the file that is kept, or to one event that is in `eventsToVim`, is being processed or did not
fit. -/
theorem safe {as : List SessionAction} (hcapacity : 0 < capacity)
    (h : Machine.Along (next capacity) Uninterrupted {} as s) :
    s.failed = false ∧ s.received <+: s.posted ∧ s.owned.Nodup ∧
      ∀ b, b ∈ s.owned ↔ s.heap b ≠ none := by
  obtain ⟨hsound, -⟩ := sound_of_along hcapacity h
  exact ⟨hsound.ok, ⟨_, hsound.posted.symm⟩, hsound.owned.nodup, fun _ => hsound.owned.mem_iff⟩

/-- **Files are posted in order**: those that `EVENT_DROP` was posted for are among those that were
to be opened, each at most once, and the last one is among them unless it is still kept.  Events
that did not fit into the pipe count as posted here. -/
theorem drops_in_order {as : List SessionAction} (hcapacity : 0 < capacity)
    (h : Machine.Along (next capacity) Uninterrupted {} as s) :
    s.drops.Sublist s.requests ∧
      (s.uiDropAfterLayout = none → s.drops.getLast? = s.requests.getLast?) ∧
      ∀ b ∈ s.uiDropAfterLayout, s.heap b = s.requests.getLast? := by
  obtain ⟨-, hfiles⟩ := sound_of_along hcapacity h
  refine ⟨hfiles.sublist, fun hnone => ?_, fun b hb => ?_⟩
  · rw [files, hnone] at hfiles
    exact hfiles.2
  · rw [files, hb] at hfiles
    obtain ⟨l, path, hl, hpath, -⟩ := hfiles
    rw [hl, List.getLast?_concat]
    exact hpath

/-- Two files are to be opened before the window is laid out, and a key is pressed that is processed
while the second file is being opened. -/
def twoFiles : List SessionAction :=
  [.startThread, .appCreate (some (0, [0x61])), .await false, .proceed,
    .appCreate (some (0, [0x62])), .layout true, .proceed, .read, .keyDown 1 [], .finish, .read,
    .read, .remap 2 0x79, .use, .finish, .use, .finish]

theorem safe_twoFiles : ∃ s, Machine.Along (next 2) Uninterrupted {} twoFiles s ∧
    s.failed = false ∧ s.received <+: s.posted ∧ s.owned.Nodup ∧
      ∀ b, b ∈ s.owned ↔ s.heap b ≠ none := by
  have hrun : ∃ s, Machine.runChecked (next 2) Uninterrupted twoFiles {} = some s := ⟨_, rfl⟩
  obtain ⟨s, hs⟩ := hrun
  have h := Machine.along_of_runChecked hs
  exact ⟨s, h, safe (by decide) h⟩

theorem drops_in_order_twoFiles : ∃ s, Machine.Along (next 2) Uninterrupted {} twoFiles s ∧
    (s.drops = [[0x62]] ∧ s.requests = [[0x61], [0x62]]) ∧ s.drops.Sublist s.requests ∧
      (s.uiDropAfterLayout = none → s.drops.getLast? = s.requests.getLast?) ∧
      ∀ b ∈ s.uiDropAfterLayout, s.heap b = s.requests.getLast? := by
  have hrun : ∃ s, Machine.runChecked (next 2) Uninterrupted twoFiles {} = some s ∧
      s.drops = [[0x62]] ∧ s.requests = [[0x61], [0x62]] := ⟨_, rfl, rfl, rfl⟩
  obtain ⟨s, hs, hfiles⟩ := hrun
  have h := Machine.along_of_runChecked hs
  exact ⟨s, h, hfiles, drops_in_order (by decide) h⟩

end Session

/-- The assertion of `gui_mch_init` fails when `poll` is interrupted before the UI thread has posted
its first event. -/
theorem interrupted_poll_fails (capacity : ℕ) : ∃ s, Machine.Along (Session.next capacity)
    (fun _ _ => True) {} [.startThread, .await true] s ∧ s.failed = true :=
  ⟨_, .cons trivial rfl (.cons trivial rfl (.nil _)), rfl⟩

end Gvim
