import Mathlib.Logic.Function.Basic
import Playbit.Python.Text

/-!
# Special directories

A sandbox has layers that come from no package: directories below `BUILDDIR` that pbuild fills
itself, with a `create` function that has a version number.  `setup_special_dir` keeps the number in
a file next to the directory and fills the directory again when the file has another one.

The file is written after the directory has been filled, and it is not touched before: when a
`create` function fails, it still has the number of the directory that was there before.

The calls that find what a failed `create` function left, and take it for theirs, are the only ones
that return an incomplete directory (`returns_complete_iff`).
-/

namespace Pbuild

open Python

/-- The version number of a `create` function, as `str(version)`. -/
structure Version where
  digits : Text
  ne_nil : digits ≠ []
  isDigit : ∀ c ∈ digits, c.isDigit = true
  deriving DecidableEq

/-- What is in a special directory: the version of the `create` function that was called for it
last, and whether it has ended. -/
structure Filling where
  version : Version
  complete : Bool
  deriving DecidableEq

/-- A special directory with its version file. -/
structure SpecialDir where
  /-- `none` if there is no directory. -/
  dir : Option Filling := none
  /-- The text of the version file; a new file is empty. -/
  versionFile : Text := []
  deriving DecidableEq

/-- A call of `setup_special_dir`. -/
structure SpecialCall where
  name : Text
  version : Version
  /-- The `create` function does not fail, should it be called. -/
  creates : Bool

/-- `setup_special_dir`: what is there after the call, and what is in the directory that is returned
(`none` when the exception of the `create` function is raised). -/
def setupSpecialDir (d : SpecialDir) (version : Version) (creates : Bool) :
    SpecialDir × Option Filling :=
  -- the directory is removed, made again and filled; the version is written after that
  let create : SpecialDir × Option Filling :=
    if creates then (⟨some ⟨version, true⟩, version.digits⟩, some ⟨version, true⟩)
    else ({ d with dir := some ⟨version, false⟩ }, none)
  match d.dir with
  | none => create
  | some filling =>
    if strip d.versionFile = version.digits then (d, some filling) else create

/-- The special directories of a `BUILDDIR`, by name. -/
abbrev SpecialDirs := Text → SpecialDir

/-- What a call does to the special directories. -/
def SpecialDirs.call (s : SpecialDirs) (c : SpecialCall) : SpecialDirs :=
  Function.update s c.name (setupSpecialDir (s c.name) c.version c.creates).1

/-- What the calls leave in a new `BUILDDIR`. -/
def SpecialDirs.after (calls : List SpecialCall) : SpecialDirs :=
  calls.foldl SpecialDirs.call fun _ => {}

/-- If the call returns, what it returns was filled by a `create` function of the version asked for,
and completely. -/
def ReturnsComplete (s : SpecialDirs) (c : SpecialCall) : Prop :=
  ∀ filling, (setupSpecialDir (s c.name) c.version c.creates).2 = some filling →
    filling = ⟨c.version, true⟩

/-- The call finds what a `create` function that failed has left, and a version file with its own
version. -/
def AsksForBroken (s : SpecialDirs) (c : SpecialCall) : Prop :=
  (∃ v, (s c.name).dir = some ⟨v, false⟩) ∧ strip (s c.name).versionFile = c.version.digits

/-! ### One call -/

theorem Version.isWord (v : Version) : IsWord v.digits := by
  refine ⟨v.ne_nil, fun c hc => ?_⟩
  have hrange : 48 ≤ c.toNat ∧ c.toNat ≤ 57 := by
    have hdigit := v.isDigit c hc
    simp only [Char.isDigit, Bool.and_eq_true, decide_eq_true_eq, UInt32.le_iff_toNat_le] at hdigit
    exact hdigit
  simp only [isSpace, Bool.or_eq_false_iff, Bool.and_eq_false_iff, decide_eq_false_iff_not,
    beq_eq_false_iff_ne]
  omega

theorem Version.ext_digits {v w : Version} (h : v.digits = w.digits) : v = w := by
  cases v
  cases w
  cases h
  rfl

/-- A directory that is complete has its version in the file. -/
def SpecialDir.Recorded (d : SpecialDir) : Prop :=
  ∀ v, d.dir = some ⟨v, true⟩ → d.versionFile = v.digits

theorem setupSpecialDir_cases (d : SpecialDir) (v : Version) (creates : Bool) :
    (∃ filling, d.dir = some filling ∧ strip d.versionFile = v.digits ∧
      setupSpecialDir d v creates = (d, some filling)) ∨
    ((∀ filling, d.dir = some filling → strip d.versionFile ≠ v.digits) ∧
      ((creates = true ∧
        setupSpecialDir d v creates = (⟨some ⟨v, true⟩, v.digits⟩, some ⟨v, true⟩)) ∨
      (creates = false ∧
        setupSpecialDir d v creates = ({ d with dir := some ⟨v, false⟩ }, none)))) := by
  unfold setupSpecialDir
  cases hdir : d.dir with
  | none => cases creates <;> simp
  | some filling =>
    by_cases hversion : strip d.versionFile = v.digits
    · exact .inl ⟨filling, rfl, hversion, by simp [hversion]⟩
    · refine .inr ⟨fun _ _ => hversion, ?_⟩
      cases creates <;> simp [hversion]

theorem SpecialDir.Recorded.setup {d : SpecialDir} (h : d.Recorded) (v : Version)
    (creates : Bool) : (setupSpecialDir d v creates).1.Recorded := by
  rcases setupSpecialDir_cases d v creates with ⟨_, -, -, heq⟩ | ⟨-, ⟨-, heq⟩ | ⟨-, heq⟩⟩
  · rwa [heq]
  · rw [heq]
    intro w hw
    cases hw
    rfl
  · rw [heq]
    intro w hw
    cases hw

/-- In every state that calls lead to, a complete directory has its version in the file. -/
theorem SpecialDirs.recorded_after (calls : List SpecialCall) (name : Text) :
    (after calls name).Recorded := by
  have key : ∀ s : SpecialDirs, (∀ name, (s name).Recorded) →
      ∀ name, (calls.foldl SpecialDirs.call s name).Recorded := by
    induction calls with
    | nil => exact fun s hs => hs
    | cons c calls ih =>
      intro s hs
      refine ih (s.call c) fun name => ?_
      by_cases hname : name = c.name
      · subst hname
        rw [SpecialDirs.call, Function.update_self]
        exact (hs c.name).setup c.version c.creates
      · rw [SpecialDirs.call, Function.update_of_ne hname]
        exact hs name
  refine key _ (fun _ v hv => ?_) name
  cases hv

/-- A call returns a complete directory of its version unless it asks for a broken one. -/
theorem returnsComplete_iff {s : SpecialDirs} {c : SpecialCall} (h : (s c.name).Recorded) :
    ReturnsComplete s c ↔ ¬ AsksForBroken s c := by
  constructor
  · rintro hret ⟨⟨v, hdir⟩, hversion⟩
    have hbroken : (setupSpecialDir (s c.name) c.version c.creates).2 = some ⟨v, false⟩ := by
      simp [setupSpecialDir, hdir, hversion]
    cases hret _ hbroken
  · intro hnot filling hfilling
    rcases setupSpecialDir_cases (s c.name) c.version c.creates with
      ⟨f, hdir, hversion, heq⟩ | ⟨-, ⟨-, heq⟩ | ⟨-, heq⟩⟩
    · -- the directory that was there is complete, and the file has its version
      rw [heq] at hfilling
      cases hfilling
      obtain ⟨v, complete⟩ := filling
      cases complete with
      | false => exact absurd ⟨⟨v, hdir⟩, hversion⟩ hnot
      | true =>
        rw [h v hdir, v.isWord.strip_eq] at hversion
        rw [Version.ext_digits hversion]
    · rw [heq] at hfilling
      cases hfilling
      rfl
    · rw [heq] at hfilling
      cases hfilling

/-! ### Sequences of calls -/

/-- **Which special directories are complete.**  In a sequence of calls, whatever their names and
versions and whichever of the `create` functions fail, every call that returns does so with a
directory that a `create` function of its version has filled completely, if and only if none of
them finds its version in the file next to a directory that a failed `create` function left. -/
theorem returns_complete_iff (calls : List SpecialCall) :
    (∀ l₁ c l₂, calls = l₁ ++ c :: l₂ → ReturnsComplete (.after l₁) c) ↔
      ∀ l₁ c l₂, calls = l₁ ++ c :: l₂ → ¬ AsksForBroken (.after l₁) c := by
  refine forall₃_congr fun l₁ c l₂ => imp_congr_right fun _ => ?_
  exact returnsComplete_iff (SpecialDirs.recorded_after l₁ c.name)

/-- The first version. -/
def Version.one : Version := ⟨['1'], by decide, List.forall_mem_singleton.2 rfl⟩

/-- The second version. -/
def Version.two : Version := ⟨['2'], by decide, List.forall_mem_singleton.2 rfl⟩

/-- After a failed upgrade, the first version is handed what is left of the second. -/
theorem broken_after_failed_upgrade :
    let bootstrap := "bootstrap".toList
    let calls : List SpecialCall := [⟨bootstrap, .one, true⟩, ⟨bootstrap, .two, false⟩]
    (setupSpecialDir (SpecialDirs.after calls bootstrap) .one true).2 = some ⟨.two, false⟩ := by
  decide

end Pbuild
