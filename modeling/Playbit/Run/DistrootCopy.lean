import Playbit.Machine.Run
import Playbit.Build.Layers

/-!
# The copy of a distroot

A package that is both a dependency and a build tool of another one is needed in two layers, and
`out` and `out/distroot` can not both be layers of one sandbox.  `setupDistrootDirCopy` copies
`out/distroot` to `_out_distroot` for that, unless there is an `_out_distroot` already, and the
next successful build of the package removes the copy.

A copy command that fails, or is interrupted, leaves what it has copied so far.  The exception ends
the run that made the copy, and the next one finds an `_out_distroot` and takes it for complete.

`returns_distroot_iff` says that these are the only uses that return another copy than that of the
last build.
-/

namespace Pbuild

variable {Out : Type}

/-- `_out_distroot`: what is in it, and whether the command that made it has ended well. -/
structure DistrootCopy (Out : Type) where
  contents : Out
  complete : Bool
  deriving DecidableEq

/-- The two directories of a package. -/
structure DistrootDirs (Out : Type) where
  /-- `out/distroot`, as the last successful build left it. -/
  distroot : Option Out := none
  /-- `_out_distroot` -/
  copy : Option (DistrootCopy Out) := none
  deriving DecidableEq

/-- How a copy command ends, should it be run. -/
inductive CopyEnd (Out : Type)
  | done
  /-- It fails or is interrupted, with this much in `_out_distroot`. -/
  | failed (left : Option Out)

/-- What happens to a package. -/
inductive DistrootEvent (Out : Type)
  /-- A successful build, with what is in `out/distroot` at its end. -/
  | build (out : Out)
  /-- A use as both dependency and build tool. -/
  | use (cp : CopyEnd Out)

namespace DistrootDirs

/-- `PkgBuild.setupDistrootDirCopy`: what is there after the call, and whether it returns. -/
def setupDistrootDirCopy (s : DistrootDirs Out) (cp : CopyEnd Out) : DistrootDirs Out × Bool :=
  match s.copy with
  | some _ => (s, true)
  | none =>
    match s.distroot, cp with
    | none, _ => (s, false)
    | some out, .done => ({ s with copy := some ⟨out, true⟩ }, true)
    | some _, .failed left => ({ s with copy := left.map (⟨·, false⟩) }, false)

/-- The end of a successful `PkgBuild.buildInSandbox`. -/
def built (out : Out) : DistrootDirs Out := { distroot := some out, copy := none }

/-- One event. -/
def next (s : DistrootDirs Out) : DistrootEvent Out → DistrootDirs Out
  | .build out => built out
  | .use cp => (s.setupDistrootDirCopy cp).1

/-- What the events leave in a new build directory. -/
def after (events : List (DistrootEvent Out)) : DistrootDirs Out := events.foldl next {}

/-- The use finds what a copy command has left that failed or was interrupted after the last
successful build, and that is not all of `out/distroot`. -/
def FindsBroken (s : DistrootDirs Out) : Prop :=
  ∃ left, s.copy = some ⟨left, false⟩ ∧ s.distroot ≠ some left

end DistrootDirs

open DistrootDirs

/-- What is in `out/distroot` after the last successful build. -/
def lastDistroot (events : List (DistrootEvent Out)) : Option Out :=
  events.foldl (fun o e => match e with | .build out => some out | .use _ => o) none

/-- If a use after the events returns, the copy has the contents of the last successful build. -/
def ReturnsDistroot (events : List (DistrootEvent Out)) (cp : CopyEnd Out) : Prop :=
  ((after events).setupDistrootDirCopy cp).2 = true →
    ((after events).setupDistrootDirCopy cp).1.copy.map DistrootCopy.contents = lastDistroot events

/-! ### One step -/

/-- A copy that was made to the end is one of the last successful build. -/
def DistrootDirs.Current (s : DistrootDirs Out) : Prop :=
  ∀ out, s.copy = some ⟨out, true⟩ → s.distroot = some out

theorem DistrootDirs.setupDistrootDirCopy_cases (s : DistrootDirs Out) (cp : CopyEnd Out) :
    (∃ c, s.copy = some c ∧ s.setupDistrootDirCopy cp = (s, true)) ∨
    (s.copy = none ∧
      ((∃ out, s.distroot = some out ∧
        s.setupDistrootDirCopy cp = ({ s with copy := some ⟨out, true⟩ }, true)) ∨
      ∃ left : Option Out,
        s.setupDistrootDirCopy cp = ({ s with copy := left.map (⟨·, false⟩) }, false))) := by
  obtain ⟨distroot, copy⟩ := s
  unfold setupDistrootDirCopy
  cases copy with
  | some c => exact .inl ⟨c, rfl, rfl⟩
  | none =>
    refine .inr ⟨rfl, ?_⟩
    cases distroot with
    | none => exact .inr ⟨none, rfl⟩
    | some out =>
      cases cp with
      | done => exact .inl ⟨out, rfl, rfl⟩
      | failed left => exact .inr ⟨left, rfl⟩

theorem DistrootDirs.distroot_setupDistrootDirCopy (s : DistrootDirs Out) (cp : CopyEnd Out) :
    (s.setupDistrootDirCopy cp).1.distroot = s.distroot := by
  rcases s.setupDistrootDirCopy_cases cp with ⟨_, -, h⟩ | ⟨-, ⟨_, -, h⟩ | ⟨_, h⟩⟩ <;> rw [h]

theorem DistrootDirs.Current.next {s : DistrootDirs Out} (hs : s.Current)
    (e : DistrootEvent Out) : (s.next e).Current := by
  cases e with
  | build out => exact fun _ h => nomatch h
  | use cp =>
    rw [DistrootDirs.next]
    rcases s.setupDistrootDirCopy_cases cp with ⟨_, -, h⟩ | ⟨-, ⟨out, hout, h⟩ | ⟨left, h⟩⟩ <;>
      rw [h]
    · exact hs
    · intro out' hout'
      cases hout'
      exact hout
    · intro out hout
      cases left <;> cases hout

/-- A use that returns does so with the contents of `out/distroot`, unless it finds a broken
copy. -/
theorem DistrootDirs.Current.copy_eq_iff {s : DistrootDirs Out} (hs : s.Current)
    (cp : CopyEnd Out) :
    ((s.setupDistrootDirCopy cp).2 = true →
      (s.setupDistrootDirCopy cp).1.copy.map DistrootCopy.contents = s.distroot) ↔
      ¬ s.FindsBroken := by
  rcases s.setupDistrootDirCopy_cases cp with ⟨c, hc, h⟩ | ⟨hnone, ⟨out, hout, h⟩ | ⟨left, h⟩⟩ <;>
    rw [h]
  · -- the copy that was there is used; it is known to be right when it is complete
    obtain ⟨contents, complete⟩ := c
    rw [hc]
    cases complete with
    | true =>
      refine iff_of_true (fun _ => (hs contents hc).symm) ?_
      rintro ⟨left, hleft, -⟩
      rw [hc] at hleft
      cases hleft
    | false =>
      refine ⟨?_, fun hnot _ => ?_⟩
      · rintro hret ⟨left, hleft, hne⟩
        rw [hc] at hleft
        cases hleft
        exact hne (hret rfl).symm
      · by_contra hne
        exact hnot ⟨contents, hc, fun heq => hne heq.symm⟩
  · refine iff_of_true (fun _ => hout.symm) ?_
    rintro ⟨left, hleft, -⟩
    rw [hnone] at hleft
    cases hleft
  · refine iff_of_true (fun h => nomatch h) ?_
    rintro ⟨left, hleft, -⟩
    rw [hnone] at hleft
    cases hleft

/-! ### The layers of a sandbox -/

/-- What `depLayerDirs` sees of the directories of the packages: which of them exist. -/
structure Layers.Sees (dirExists : LayerDir → Bool) (s : Layers)
    (dirs : BuildKey → DistrootDirs Out) : Prop where
  distroot : ∀ u, s.exists dirExists (.distroot u) = (dirs u).distroot.isSome
  copy : ∀ u, s.exists dirExists (.distrootCopy u) = (dirs u).copy.isSome

/-- The copy that `depLayerDirs` asks for, where the copy command does not fail. -/
theorem Layers.Sees.setupDistrootDirCopy {dirExists : LayerDir → Bool} {s : Layers}
    {dirs : BuildKey → DistrootDirs Out} (h : s.Sees dirExists dirs) (dep : BuildKey) :
    match (dirs dep).setupDistrootDirCopy .done with
    | (d, true) => ∃ s', Pbuild.setupDistrootDirCopy dirExists s dep = .ok s' ∧
        s'.Sees dirExists (Function.update dirs dep d)
    | (_, false) => Pbuild.setupDistrootDirCopy dirExists s dep = .error (.copyFailed dep) := by
  have hcopy := h.copy dep
  have hdistroot := h.distroot dep
  unfold Pbuild.setupDistrootDirCopy DistrootDirs.setupDistrootDirCopy
  cases hc : (dirs dep).copy with
  | some c =>
    rw [hc] at hcopy
    refine ⟨s, if_pos hcopy, ?_⟩
    rwa [Function.update_eq_self]
  | none =>
    rw [hc] at hcopy
    rw [if_neg (by simp [hcopy])]
    cases hd : (dirs dep).distroot with
    | none =>
      rw [hd] at hdistroot
      exact if_neg (by simp [hdistroot])
    | some out =>
      rw [hd] at hdistroot
      refine ⟨_, if_pos hdistroot, ⟨fun u => ?_, fun u => ?_⟩⟩
      · have hkept : (Function.update dirs dep
            { dirs dep with copy := some ⟨out, true⟩ } u).distroot = (dirs u).distroot := by
          by_cases hu : u = dep
          · subst hu; simp [hd]
          · rw [Function.update_of_ne hu]
        rw [← hd, hkept, ← h.distroot u]
        simp [Layers.exists]
      · by_cases hu : u = dep
        · subst hu; simp [Layers.exists]
        · rw [Function.update_of_ne hu, ← h.copy u]
          simp [Layers.exists, hu]

/-! ### Sequences of builds and uses -/

theorem lastDistroot_concat (events : List (DistrootEvent Out)) (e : DistrootEvent Out) :
    lastDistroot (events ++ [e]) =
      match e with | .build out => some out | .use _ => lastDistroot events := by
  rw [lastDistroot, List.foldl_concat, lastDistroot]

theorem after_spec (events : List (DistrootEvent Out)) :
    (after events).Current ∧ (after events).distroot = lastDistroot events := by
  have h₀ : Current ({} : DistrootDirs Out) := fun _ h => nomatch h
  refine Machine.foldl_rule
    (I := fun l (s : DistrootDirs Out) => s.Current ∧ s.distroot = lastDistroot l)
    ⟨h₀, rfl⟩ fun l e _ s _ hs => ⟨hs.1.next e, ?_⟩
  rw [lastDistroot_concat]
  cases e with
  | build out => rfl
  | use cp => exact (s.distroot_setupDistrootDirCopy cp).trans hs.2

/-- **Which copies are those of the last build.**  In a sequence of successful builds and uses,
whichever of the copy commands fail or are interrupted, every use that returns does so with the
contents of `out/distroot` after the last successful build in `_out_distroot`, if and only if none
of them finds a part of it that a failed copy command left. -/
theorem returns_distroot_iff (events : List (DistrootEvent Out)) :
    (∀ l₁ cp l₂, events = l₁ ++ .use cp :: l₂ → ReturnsDistroot l₁ cp) ↔
      ∀ l₁ cp l₂, events = l₁ ++ .use cp :: l₂ → ¬ (after l₁).FindsBroken := by
  refine forall₃_congr fun l₁ cp l₂ => imp_congr_right fun _ => ?_
  rw [ReturnsDistroot, ← (after_spec l₁).2]
  exact (after_spec l₁).1.copy_eq_iff cp

/-- After a copy that was interrupted, the next use returns with a part of the output. -/
theorem partial_after_interrupted_copy :
    let events : List (DistrootEvent (List ℕ)) := [.build [1, 2], .use (.failed (some [1]))]
    (after events).setupDistrootDirCopy .done =
      (⟨some [1, 2], some ⟨[1], false⟩⟩, true) ∧ ¬ ReturnsDistroot events .done := by
  refine ⟨rfl, fun h => ?_⟩
  cases h rfl

end Pbuild
