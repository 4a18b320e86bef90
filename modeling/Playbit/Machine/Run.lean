import Mathlib.Tactic.SplitIfs
import Mathlib.Tactic.TypeStar

/-!
# Runs of fallible steps

`runAll step` performs a list of actions in order and stops at the first that fails.  A step can
also get stuck (`none`); then so does the run.

The rules for loops take an invariant that is indexed by the actions that are done: `runAll_rule`,
`foldl_rule` and, where the steps are known to succeed, `foldlM_rule`.  Computations that raise
exceptions are taken apart with `bind_eq_ok` and `bind_eq_error`.

Runs in which every action meets a condition on the state it starts in are `EachStep`, for total
steps, and `Along`, for steps that may be impossible; both have a rule for invariants, and
`runChecked` computes runs of the second kind.
-/

namespace Machine

variable {α σ : Type*}

/-- Perform the actions in order until one of them fails; the `Bool` says whether all went
well. -/
def runAll (step : α → σ → Option (σ × Bool)) : List α → σ → Option (σ × Bool)
  | [], s => some (s, true)
  | a :: as, s =>
    match step a s with
    | none => none
    | some (s', false) => some (s', false)
    | some (s', true) => runAll step as s'

variable {step : α → σ → Option (σ × Bool)} {as : List α} {s s' : σ} {ok : Bool}

/-- **The rule for runs.**  `I` holds of the actions done so far and the state they lead to, and
`F` of the state a failing action leaves. -/
theorem runAll_rule {I : List α → σ → Prop} {F : σ → Prop} (h : runAll step as s = some (s', ok))
    (h₀ : I [] s)
    (hstep : ∀ l₁ a l₂ s s', as = l₁ ++ a :: l₂ → I l₁ s → step a s = some (s', true) →
      I (l₁ ++ [a]) s')
    (hfail : ∀ l₁ a l₂ s s', as = l₁ ++ a :: l₂ → I l₁ s → step a s = some (s', false) → F s') :
    if ok then I as s' else F s' := by
  -- the actions are split into those done, `l₁`, and those to come
  have key : ∀ l₂ l₁ s, as = l₁ ++ l₂ → I l₁ s → runAll step l₂ s = some (s', ok) →
      if ok then I as s' else F s' := by
    intro l₂
    induction l₂ with
    | nil =>
      intro l₁ s hl hI h
      cases h
      simpa [hl] using hI
    | cons a l₂ ih =>
      intro l₁ s hl hI h
      rw [runAll] at h
      rcases ha : step a s with - | ⟨s₁, - | -⟩
      · rw [ha] at h; cases h
      · rw [ha] at h
        cases h
        exact hfail l₁ a l₂ s _ hl hI ha
      · rw [ha] at h
        exact ih (l₁ ++ [a]) s₁ (by simp [hl]) (hstep l₁ a l₂ s s₁ hl hI ha) h
  exact key as [] s rfl h₀ h

/-- The rule for loops that do not fail. -/
theorem foldl_rule {f : σ → α → σ} {I : List α → σ → Prop} (h₀ : I [] s)
    (hstep : ∀ l₁ a l₂ s, as = l₁ ++ a :: l₂ → I l₁ s → I (l₁ ++ [a]) (f s a)) :
    I as (as.foldl f s) := by
  have key : ∀ l₂ l₁ s, as = l₁ ++ l₂ → I l₁ s → I as (l₂.foldl f s) := by
    intro l₂
    induction l₂ with
    | nil =>
      intro l₁ s hl hI
      simpa [hl] using hI
    | cons a l₂ ih =>
      intro l₁ s hl hI
      exact ih (l₁ ++ [a]) (f s a) (by simp [hl]) (hstep l₁ a l₂ s hl hI)
  exact key as [] s rfl h₀

/-- The rule for loops that may fail but do not, in any monad (`Option`, or `Except` for loops that
may raise an exception). -/
theorem foldlM_rule {m : Type _ → Type*} [Monad m] [LawfulMonad m] {f : σ → α → m σ} (as : List α)
    {I : List α → σ → Prop} (h₀ : I [] s)
    (hstep : ∀ l₁ a l₂ s, as = l₁ ++ a :: l₂ → I l₁ s →
      ∃ s', f s a = pure s' ∧ I (l₁ ++ [a]) s') :
    ∃ s', as.foldlM f s = pure s' ∧ I as s' := by
  have key : ∀ l₂ l₁ s, as = l₁ ++ l₂ → I l₁ s → ∃ s', l₂.foldlM f s = pure s' ∧ I as s' := by
    intro l₂
    induction l₂ with
    | nil =>
      intro l₁ s hl hI
      exact ⟨s, rfl, by simpa [hl] using hI⟩
    | cons a l₂ ih =>
      intro l₁ s hl hI
      obtain ⟨s₁, hs₁, hI₁⟩ := hstep l₁ a l₂ s hl hI
      rw [List.foldlM_cons, hs₁, pure_bind]
      exact ih (l₁ ++ [a]) s₁ (by simp [hl]) hI₁
  exact key as [] s rfl h₀

/-- A loop ends well if all of its rounds do. -/
theorem exists_foldlM {m : Type _ → Type*} [Monad m] [LawfulMonad m] {f : σ → α → m σ}
    {as : List α} (h : ∀ a ∈ as, ∀ s, ∃ s', f s a = pure s') (s : σ) :
    ∃ s', as.foldlM f s = pure s' := by
  obtain ⟨s', hs', -⟩ := foldlM_rule as (f := f) (s := s) (I := fun _ _ => True) trivial
    fun l₁ a l₂ s hl _ => by
      obtain ⟨s', hs'⟩ := h a (by simp [hl]) s
      exact ⟨s', hs', trivial⟩
  exact ⟨s', hs'⟩

/-- What one looks at in a state is computed from what one looks at in the state before. -/
theorem map_foldlM {τ : Type*} {f : σ → α → Option σ} {g : τ → α → Option τ} {φ : σ → τ}
    (h : ∀ s a, (f s a).map φ = g (φ s) a) (as : List α) (s : σ) :
    (as.foldlM f s).map φ = as.foldlM g (φ s) := by
  induction as generalizing s with
  | nil => rfl
  | cons a as ih =>
    rw [List.foldlM_cons, List.foldlM_cons, ← h s a]
    cases f s a with
    | none => rfl
    | some s₁ => exact ih s₁

/-- A loop that checks what it does, and finds nothing wrong, does the same without the checks. -/
theorem foldlM_simulates {τ : Type*} {f : τ → α → Option τ} {g : σ → α → σ} {φ : σ → τ}
    (h : ∀ a ∈ as, ∀ s, f (φ s) a = some (φ (g s a))) (s : σ) :
    as.foldlM f (φ s) = some (φ (as.foldl g s)) := by
  induction as generalizing s with
  | nil => rfl
  | cons a as ih =>
    rw [List.foldlM_cons, h a List.mem_cons_self, List.foldl_cons]
    exact ih (fun a' ha' => h a' (.tail _ ha')) (g s a)

/-- Loops with the same rounds are the same. -/
theorem foldlM_congr {m : Type _ → Type*} [Monad m] {f g : σ → α → m σ}
    (h : ∀ a ∈ as, ∀ s, f s a = g s a) (s : σ) : as.foldlM f s = as.foldlM g s := by
  induction as generalizing s with
  | nil => rfl
  | cons a as ih =>
    rw [List.foldlM_cons, List.foldlM_cons, h a List.mem_cons_self]
    congr 1
    funext s'
    exact ih (fun a' ha' => h a' (.tail _ ha')) s'

/-- A loop that skips some of the elements. -/
theorem foldlM_ite {β ε : Type*} {f : σ → β → Except ε σ} (p : α → Prop) [DecidablePred p]
    (g : α → β) (as : List α) (s : σ) :
    as.foldlM (fun s a => if p a then f s (g a) else .ok s) s =
      ((as.filter fun a => decide (p a)).map g).foldlM f s := by
  induction as generalizing s with
  | nil => rfl
  | cons a as ih =>
    rw [List.foldlM_cons, List.filter_cons]
    by_cases ha : p a
    · rw [if_pos ha, if_pos (decide_eq_true ha), List.map_cons, List.foldlM_cons]
      congr 1
      funext s'
      exact ih s'
    · rw [if_neg ha, if_neg (by simpa using ha)]
      exact ih s

/-- A run gets stuck only in a step that does. -/
theorem exists_runAll (hstep : ∀ a ∈ as, ∀ s, ∃ r, step a s = some r) (s : σ) :
    ∃ r, runAll step as s = some r := by
  induction as generalizing s with
  | nil => exact ⟨_, rfl⟩
  | cons a as ih =>
    obtain ⟨⟨s₁, ok⟩, ha⟩ := hstep a List.mem_cons_self s
    rw [runAll, ha]
    cases ok with
    | false => exact ⟨_, rfl⟩
    | true => exact ih (fun a ha => hstep a (.tail _ ha)) s₁

/-! ### Exceptions -/

section Except

universe u

variable {ε : Type*} {α β : Type u} {x : Except ε α} {f : α → Except ε β}

/-- Two steps end well iff each of them does. -/
theorem bind_eq_ok {r : β} : x >>= f = .ok r ↔ ∃ a, x = .ok a ∧ f a = .ok r := by
  cases x with
  | error e =>
    constructor
    · intro h
      cases h
    · rintro ⟨a, h, -⟩
      cases h
  | ok a =>
    constructor
    · intro h
      exact ⟨a, rfl, h⟩
    · rintro ⟨a', h, hr⟩
      cases h
      exact hr

/-- An exception is raised by the first step or by the second. -/
theorem bind_eq_error {e : ε} :
    x >>= f = .error e ↔ x = .error e ∨ ∃ a, x = .ok a ∧ f a = .error e := by
  cases x with
  | error e' =>
    constructor
    · intro h
      cases h
      exact .inl rfl
    · rintro (h | ⟨a, h, -⟩)
      · cases h
        rfl
      · cases h
  | ok a =>
    constructor
    · intro h
      exact .inr ⟨a, rfl, h⟩
    · rintro (h | ⟨a', h, he⟩)
      · cases h
      · cases h
        exact he

variable {g : α → β → Except ε α}

/-- A loop that raises an exception does so in one of its rounds. -/
theorem foldlM_eq_error_iff {as : List β} {s : α} {e : ε} :
    as.foldlM g s = .error e ↔
      ∃ l₁ a l₂ s', as = l₁ ++ a :: l₂ ∧ l₁.foldlM g s = .ok s' ∧ g s' a = .error e := by
  constructor
  · intro h
    induction as generalizing s with
    | nil => cases h
    | cons a as ih =>
      rcases bind_eq_error.1 h with ha | ⟨s₁, hs₁, h⟩
      · exact ⟨[], a, as, s, rfl, rfl, ha⟩
      · obtain ⟨l₁, b, l₂, s', rfl, hl₁, hb⟩ := ih h
        exact ⟨a :: l₁, b, l₂, s', rfl, bind_eq_ok.2 ⟨s₁, hs₁, hl₁⟩, hb⟩
  · rintro ⟨l₁, a, l₂, s', rfl, hl₁, ha⟩
    rw [List.foldlM_append]
    exact bind_eq_error.2 (.inr ⟨s', hl₁, bind_eq_error.2 (.inl ha)⟩)

/-- The rule for loops that have ended well. -/
theorem foldlM_ok_rule {as : List β} {s s' : α} {I : List β → α → Prop}
    (h : as.foldlM g s = .ok s') (h₀ : I [] s)
    (hstep : ∀ l a s s', I l s → g s a = .ok s' → I (l ++ [a]) s') : I as s' := by
  have key : ∀ l₂ l₁ s, l₂.foldlM g s = .ok s' → I l₁ s → I (l₁ ++ l₂) s' := by
    intro l₂
    induction l₂ with
    | nil =>
      intro l₁ s h hI
      cases h
      rwa [List.append_nil]
    | cons a l₂ ih =>
      intro l₁ s h hI
      obtain ⟨s₁, ha, h⟩ := bind_eq_ok.1 h
      have hI₁ := ih (l₁ ++ [a]) s₁ h (hstep l₁ a s s₁ hI ha)
      rwa [List.append_assoc] at hI₁
  exact key as [] s h h₀

end Except

/-! ### Steps of a run -/

/-- Every step of a run meets a condition in the state it is taken in. -/
def EachStep (next : σ → α → σ) (P : α → σ → Prop) (s : σ) (as : List α) : Prop :=
  ∀ l₁ a l₂, as = l₁ ++ a :: l₂ → P a (l₁.foldl next s)

/-- **Steps of a run with an invariant**: each of them meets the condition and keeps the
invariant. -/
theorem EachStep.of_invariant {next : σ → α → σ} {P : α → σ → Prop} {I : σ → Prop} (h₀ : I s)
    (hstep : ∀ a ∈ as, ∀ s, I s → P a s ∧ I (next s a)) : EachStep next P s as := by
  rintro l₁ a l₂ rfl
  have hI : I (l₁.foldl next s) := by
    refine foldl_rule (I := fun _ => I) h₀ fun l b l' s hl hs => ?_
    exact (hstep b (by simp [hl]) s hs).2
  exact (hstep a (by simp) _ hI).1

/-! ### Runs as relations -/

/-- A run from `s` to `s'` with the actions `as`, all of which meet the condition `C` in the state
they are performed in. -/
inductive Along (next : α → σ → Option σ) (C : α → σ → Prop) : σ → List α → σ → Prop
  | nil (s : σ) : Along next C s [] s
  | snoc {s s' s'' : σ} {as : List α} {a : α} (h : Along next C s as s') (hc : C a s')
      (hstep : next a s' = some s'') : Along next C s (as ++ [a]) s''

variable {next : α → σ → Option σ} {C : α → σ → Prop}

/-- What holds initially and is kept by every step that meets the condition holds at the end. -/
theorem Along.invariant {I : σ → Prop} (h : Along next C s as s') (h₀ : I s)
    (hstep : ∀ a s s', I s → C a s → next a s = some s' → I s') : I s' := by
  induction h with
  | nil => exact h₀
  | snoc _ hc hnext ih => exact hstep _ _ _ ih hc hnext

theorem Along.append {s'' : σ} {bs : List α} (h : Along next C s as s')
    (h' : Along next C s' bs s'') : Along next C s (as ++ bs) s'' := by
  induction h' with
  | nil => rwa [List.append_nil]
  | snoc _ hc hnext ih =>
    rw [← List.append_assoc]
    exact ih.snoc hc hnext

theorem Along.cons {a : α} {s'' : σ} (hc : C a s) (hnext : next a s = some s')
    (h : Along next C s' as s'') : Along next C s (a :: as) s'' :=
  ((Along.nil s).snoc hc hnext).append h

/-- Perform the actions in order as long as they meet the condition. -/
def runChecked (next : α → σ → Option σ) (C : α → σ → Prop) [∀ a s, Decidable (C a s)] :
    List α → σ → Option σ
  | [], s => some s
  | a :: as, s => if C a s then (next a s).bind (runChecked next C as) else none

theorem along_of_runChecked [∀ a s, Decidable (C a s)] (h : runChecked next C as s = some s') :
    Along next C s as s' := by
  induction as generalizing s with
  | nil =>
    cases h
    exact .nil _
  | cons a as ih =>
    rw [runChecked] at h
    split_ifs at h with hc
    obtain ⟨s₁, hs₁, h⟩ := Option.bind_eq_some_iff.1 h
    exact ((Along.nil s).snoc hc hs₁).append (ih h)

/-- Every action met the condition when it was performed. -/
theorem Along.exists_of_mem (h : Along next C s as s') {a : α} (ha : a ∈ as) : ∃ s, C a s := by
  induction h with
  | nil => cases ha
  | snoc _ hc _ ih =>
    rcases List.mem_append.1 ha with ha | ha
    · exact ih ha
    · cases List.mem_singleton.1 ha
      exact ⟨_, hc⟩

end Machine
