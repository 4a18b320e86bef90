import Playbit.Build.Order
import Playbit.Graph.Scan
import Playbit.Machine.Run

/-!
# Deciding what to build

A build is done again when its sources are newer than its stamp, when it has no checksum, when
it is marked as `must_build`, or when a dependency has changed.  `checkDeps` looks for changed
dependencies below a build, comparing with the time of the build's own stamp when the check is
*eager* and by checksum only when it is not.

`checkNeedsBuild_iff` gives the verdict in terms of the edges that are looked at, and
`mem_selectWhatToBuild` what is selected.
-/

namespace Pbuild

open Python DepthFirst

/-- The command-line options that decide what is built. -/
structure Args where
  skipDeps : Bool := false
  clean : Bool := false
  cleanAll : Bool := false
  force : Bool := false
  interactiveShell : Bool := false
  /-- `--shell-cmd` is given. -/
  shellCmd : Bool := false
  dryRun : Bool := false
  cleanup : Bool := false
  /-- `--rule`, or empty. -/
  rule : Text := []
  /-- `BUILD_CONFIG_ID`, from the `-D` options, or empty. -/
  buildConfigId : Text := []
  deriving DecidableEq

/-- `CLEAN`. -/
def Args.isClean (a : Args) : Bool := a.cleanAll || a.clean

/-- `FORCE`. -/
def Args.isForce (a : Args) : Bool := a.force || a.isClean

/-- What pbuild is invoked with. -/
structure Invocation where
  native : Arch
  target : Arch
  /-- The top-level packages. -/
  tops : List PkgName
  args : Args := {}

/-- `PkgBuild.is_toplevel`. -/
def Invocation.isToplevel (inv : Invocation) (k : BuildKey) : Bool :=
  decide (k.1 ∈ inv.tops) && decide (k.2 = inv.target)

/-- The attributes of a `PkgBuild` that change after `resolve_builds`. -/
structure BuildState where
  mustBuild : Bool := false
  /-- Time of the build stamp (0 if missing). -/
  buildMtime : ℤ := 0
  srcMtime : ℤ := 0
  checksum : Text := []
  /-- Name to checksum, as read from the stamp. -/
  depChecksums : Dict Text Text := []

/-- The state of all builds. -/
abbrev BuildStates := BuildKey → BuildState

/-- `PkgBuild.mtime`. -/
def BuildState.mtime (s : BuildState) : ℤ :=
  if s.srcMtime > s.buildMtime then s.srcMtime else s.buildMtime

/-- `str(b)`. -/
def buildName (k : BuildKey) : Text := k.1 ++ '.' :: k.2.name

/-- `PkgBuild.ordered_deps`. -/
def BuildDeps.orderedDeps (d : BuildDeps) : List BuildKey := d.keys.eraseDups

/-- `PkgBuild.check_dep_changed`. -/
def checkDepChanged (mem : BuildStates) (self dep : BuildKey) (baseMtime : ℤ) : Bool :=
  let d := mem dep
  if d.mustBuild || decide (d.mtime ≤ 0) then true
  else if decide (baseMtime > 0) &&
      (decide (d.mtime > baseMtime) || decide (d.mtime ≤ 0) || d.mustBuild) then true
  else if d.checksum = [] then true
  else
    match (mem self).depChecksums.get? (buildName dep) with
    | none => true
    | some c => decide (c = []) || decide (c ≠ d.checksum)

/-- Dependencies that have `DEPENDS` entries themselves are looked into. -/
def entersDep (bs : Builds) (dep : BuildKey) : Bool := decide ((bs.build dep).deps ≠ [])

/-- The reason given for a changed dependency. -/
def changedReason (mem : BuildStates) (baseMtime : ℤ) (b dep : BuildKey) : Option Text :=
  if checkDepChanged mem b dep baseMtime then
    some ("dependency ".toList ++ buildName dep ++ " changed".toList)
  else none

/-- `check_deps` in `check_needs_build`: the reason if something below `b` has changed.  The fuel
bounds the depth of the recursion. -/
def checkDeps (bs : Builds) (mem : BuildStates) (baseMtime : ℤ) (n : ℕ) (b : BuildKey) :
    Option (Option Text) :=
  scan (fun u => (bs.build u).orderedDeps) (entersDep bs) (changedReason mem baseMtime) n b

/-- `PkgBuild.check_needs_build`: the verdict and a reason. -/
def checkNeedsBuild (inv : Invocation) (bs : Builds) (mem : BuildStates) (n : ℕ) (b : BuildKey)
    (eager : Bool) : Option (Bool × Text) :=
  let s := mem b
  let top := inv.isToplevel b
  if inv.args.skipDeps && !top then some (false, "--skip-deps")
  else if s.buildMtime < s.srcMtime then
    if s.buildMtime = 0 then
      if inv.args.cleanAll then some (true, "--clean-all")
      else if top && inv.args.isClean then some (true, "--clean")
      else if top && inv.args.isForce then some (true, "--force")
      else if top && inv.args.interactiveShell then some (true, "--interactive-shell")
      else if top && inv.args.shellCmd then some (true, "--shell-cmd")
      else some (true, "output missing")
    else some (true, "sources changed")
  else if s.checksum = [] then some (true, "checksum missing")
  else if s.mustBuild then some (true, [])
  else if inv.args.isClean && (top || inv.args.cleanAll) then some (true, "--clean")
  else
    (checkDeps bs mem (if eager then s.buildMtime else 0) n b).map fun
      | some reason => (true, reason)
      | none => (false, [])

/-- `select_what_to_build`: the builds to be done, with reasons, and those only to clean up. -/
def selectWhatToBuild (inv : Invocation) (bs : Builds) (mem : BuildStates) (n : ℕ) :
    Option (List (BuildKey × Text) × List BuildKey) :=
  bs.buildlist.foldlM (fun (buildlist2, cleanupOnly) b =>
    (checkNeedsBuild inv bs mem n b true).map fun (needsRebuild, reason) =>
      if needsRebuild then (buildlist2 ++ [(b, reason)], cleanupOnly)
      else if inv.args.cleanup && inv.isToplevel b then (buildlist2, cleanupOnly ++ [b])
      else (buildlist2, cleanupOnly)) ([], [])

/-! ### The verdict -/

variable {inv : Invocation} {bs : Builds} {mem : BuildStates} {n : ℕ} {b : BuildKey}

theorem mem_orderedDeps {d : BuildDeps} {k : BuildKey} : k ∈ d.orderedDeps ↔ k ∈ d.keys :=
  List.mem_eraseDups

theorem checkDepChanged_eq_false_iff {self dep : BuildKey} {base : ℤ} :
    checkDepChanged mem self dep base = false ↔
      (mem dep).mustBuild = false ∧ 0 < (mem dep).mtime ∧
        (0 < base → (mem dep).mtime ≤ base) ∧ (mem dep).checksum ≠ [] ∧
        (mem self).depChecksums.get? (buildName dep) = some (mem dep).checksum := by
  unfold checkDepChanged
  cases hget : (mem self).depChecksums.get? (buildName dep) with
  | none => simp only [reduceCtorEq, and_false, iff_false]; grind
  | some c => grind

/-- The edges that are looked at below `b`. -/
abbrev ExaminedBelow (bs : Builds) (b u v : BuildKey) : Prop :=
  Examined (fun u => (bs.build u).orderedDeps) (entersDep bs) b u v

/-- What calls for a build regardless of dependencies. -/
def BuildState.Outdated (s : BuildState) : Prop :=
  s.buildMtime < s.srcMtime ∨ s.checksum = [] ∨ s.mustBuild = true

theorem changedReason_eq_none_iff {base : ℤ} {u v : BuildKey} :
    changedReason mem base u v = none ↔ checkDepChanged mem u v base = false := by
  unfold changedReason
  cases checkDepChanged mem u v base with
  | false => exact ⟨fun _ => rfl, fun _ => rfl⟩
  | true =>
    constructor
    · intro h; cases h
    · intro h; cases h

theorem checkDeps_eq_none_iff {base : ℤ} {o : Option Text}
    (h : checkDeps bs mem base n b = some o) :
    o = none ↔ ∀ u v, ExaminedBelow bs b u v → checkDepChanged mem u v base = false := by
  rw [scan_eq_none_iff h]
  exact forall₂_congr fun u v => imp_congr_right fun _ => changedReason_eq_none_iff

/-- How `check_needs_build` comes to its verdict: the build is left out by `--skip-deps`, or it is
needed whatever its dependencies are, or the dependencies decide. -/
inductive VerdictBy (inv : Invocation) (bs : Builds) (mem : BuildStates) (n : ℕ) (b : BuildKey)
    (eager : Bool) : Prop
  | skipped (hskip : (inv.args.skipDeps && !inv.isToplevel b) = true)
      (h : checkNeedsBuild inv bs mem n b eager = some (false, "--skip-deps".toList))
  | itself (hskip : (inv.args.skipDeps && !inv.isToplevel b) = false)
      (hwhy : (mem b).Outdated ∨
        (inv.args.isClean && (inv.isToplevel b || inv.args.cleanAll)) = true)
      (r : Text) (h : checkNeedsBuild inv bs mem n b eager = some (true, r))
  | deps (hskip : (inv.args.skipDeps && !inv.isToplevel b) = false) (hout : ¬ (mem b).Outdated)
      (h : checkNeedsBuild inv bs mem n b eager =
        (checkDeps bs mem (if eager then (mem b).buildMtime else 0) n b).map fun
          | some reason => (true, reason)
          | none => (false, []))

theorem verdictBy (inv : Invocation) (bs : Builds) (mem : BuildStates) (n : ℕ) (b : BuildKey)
    (eager : Bool) : VerdictBy inv bs mem n b eager := by
  have hcheck := checkNeedsBuild.eq_def inv bs mem n b eager
  dsimp only at hcheck
  by_cases hskip : (inv.args.skipDeps && !inv.isToplevel b) = true
  · rw [if_pos hskip] at hcheck
    exact .skipped hskip hcheck
  rw [if_neg hskip] at hcheck
  rw [Bool.not_eq_true] at hskip
  by_cases h₁ : (mem b).buildMtime < (mem b).srcMtime
  · -- the flags decide about the reason only
    have hreason : ∃ r, checkNeedsBuild inv bs mem n b eager = some (true, r) := by
      rw [hcheck, if_pos h₁]
      split_ifs <;> exact ⟨_, rfl⟩
    obtain ⟨r, hr⟩ := hreason
    exact .itself hskip (.inl (.inl h₁)) r hr
  rw [if_neg h₁] at hcheck
  by_cases h₂ : (mem b).checksum = []
  · rw [if_pos h₂] at hcheck
    exact .itself hskip (.inl (.inr (.inl h₂))) _ hcheck
  rw [if_neg h₂] at hcheck
  by_cases h₃ : (mem b).mustBuild = true
  · rw [if_pos h₃] at hcheck
    exact .itself hskip (.inl (.inr (.inr h₃))) _ hcheck
  rw [if_neg h₃] at hcheck
  by_cases h₄ : (inv.args.isClean && (inv.isToplevel b || inv.args.cleanAll)) = true
  · rw [if_pos h₄] at hcheck
    exact .itself hskip (.inr h₄) _ hcheck
  rw [if_neg h₄] at hcheck
  refine .deps hskip ?_ hcheck
  rintro (h | h | h)
  · exact h₁ h
  · exact h₂ h
  · exact h₃ h

/-- Whatever the flags, a build that is not needed is not outdated and has no changed
dependency. -/
theorem not_outdated_of_checkNeedsBuild {eager : Bool} {r : Text}
    (hskip : (inv.args.skipDeps && !inv.isToplevel b) = false)
    (h : checkNeedsBuild inv bs mem n b eager = some (false, r)) :
    ¬ (mem b).Outdated ∧ ∀ u w, ExaminedBelow bs b u w →
      checkDepChanged mem u w (if eager then (mem b).buildMtime else 0) = false := by
  cases verdictBy inv bs mem n b eager with
  | skipped hskip' _ =>
    rw [hskip] at hskip'
    cases hskip'
  | itself _ _ r' hcheck =>
    rw [hcheck] at h
    cases h
  | deps _ hout hcheck =>
    rw [hcheck] at h
    obtain ⟨o, hdeps, hv⟩ := Option.map_eq_some_iff.1 h
    cases o with
    | some reason => cases hv
    | none => exact ⟨hout, (checkDeps_eq_none_iff hdeps).1 rfl⟩

/-- A build that `--skip-deps` keeps from being built is not needed. -/
theorem not_skipped_of_checkNeedsBuild {eager : Bool} {r : Text}
    (h : checkNeedsBuild inv bs mem n b eager = some (true, r)) :
    (inv.args.skipDeps && !inv.isToplevel b) = false := by
  cases verdictBy inv bs mem n b eager with
  | skipped _ hcheck =>
    rw [hcheck] at h
    cases h
  | itself hskip _ _ _ => exact hskip
  | deps hskip _ _ => exact hskip

/-- **The verdict** without `--skip-deps` and `--clean`: no build is needed iff the build itself is
not outdated and no edge looked at below it leads to a changed dependency. -/
theorem checkNeedsBuild_iff {eager : Bool} {v : Bool} {r : Text}
    (hskip : inv.args.skipDeps = false) (hclean : inv.args.isClean = false)
    (h : checkNeedsBuild inv bs mem n b eager = some (v, r)) :
    v = false ↔ ¬ (mem b).Outdated ∧ ∀ u w, ExaminedBelow bs b u w →
      checkDepChanged mem u w (if eager then (mem b).buildMtime else 0) = false := by
  cases verdictBy inv bs mem n b eager with
  | skipped hskip' _ =>
    rw [hskip] at hskip'
    cases hskip'
  | itself _ hwhy r' hcheck =>
    rw [hcheck] at h
    cases h
    have hout : (mem b).Outdated := hwhy.resolve_right (by simp [hclean])
    exact iff_of_false Bool.noConfusion fun h => h.1 hout
  | deps _ hout hcheck =>
    rw [hcheck] at h
    obtain ⟨o, hdeps, hv⟩ := Option.map_eq_some_iff.1 h
    rw [← checkDeps_eq_none_iff hdeps, and_iff_right hout]
    cases o with
    | none =>
      cases hv
      exact iff_of_true rfl rfl
    | some reason =>
      cases hv
      exact iff_of_false Bool.noConfusion (Option.some_ne_none _)

/-! ### Termination and selection -/

/-- `check_deps` ends when the builds are listed after their dependencies. -/
theorem exists_checkDeps (ho : bs.Ordered) (hn : bs.buildlist.length ≤ n) (base : ℤ)
    (hb : b ∈ bs.buildlist) : ∃ o, checkDeps bs mem base n b = some o := by
  refine exists_scan (S := (· ∈ bs.buildlist)) (fun k => bs.buildlist.idxOf k)
    (fun u v hu hv => ho.idxOf_lt hu (mem_orderedDeps.1 hv)) hb ?_
  exact Nat.lt_of_lt_of_le (List.idxOf_lt_length_of_mem hb) hn

/-- There is a verdict if the dependencies can be checked. -/
theorem exists_checkNeedsBuild_of_checkDeps {eager : Bool} {o : Option Text}
    (hdeps : checkDeps bs mem (if eager then (mem b).buildMtime else 0) n b = some o) :
    ∃ x, checkNeedsBuild inv bs mem n b eager = some x := by
  cases verdictBy inv bs mem n b eager with
  | skipped _ hcheck => exact ⟨_, hcheck⟩
  | itself _ _ _ hcheck => exact ⟨_, hcheck⟩
  | deps _ _ hcheck => exact ⟨_, by rw [hcheck, hdeps]; rfl⟩

theorem exists_checkNeedsBuild (ho : bs.Ordered) (hn : bs.buildlist.length ≤ n) (eager : Bool)
    (hb : b ∈ bs.buildlist) : ∃ x, checkNeedsBuild inv bs mem n b eager = some x := by
  obtain ⟨o, hdeps⟩ : ∃ o, checkDeps bs mem (if eager then (mem b).buildMtime else 0) n b =
    some o := exists_checkDeps ho hn _ hb
  exact exists_checkNeedsBuild_of_checkDeps hdeps

/-! ### What is selected -/

/-- The build with the reason for it, if it is needed. -/
def neededBuild (inv : Invocation) (bs : Builds) (mem : BuildStates) (n : ℕ) (b : BuildKey) :
    Option (BuildKey × Text) :=
  (checkNeedsBuild inv bs mem n b true).bind fun x => if x.1 then some (b, x.2) else none

theorem neededBuild_eq_some_iff {x : BuildKey × Text} :
    neededBuild inv bs mem n b = some x ↔
      x.1 = b ∧ checkNeedsBuild inv bs mem n b true = some (true, x.2) := by
  unfold neededBuild
  rcases hc : checkNeedsBuild inv bs mem n b true with - | ⟨- | -, r⟩
  · simp
  · simp
  · obtain ⟨k, t⟩ := x
    constructor
    · intro h
      cases h
      exact ⟨rfl, rfl⟩
    · rintro ⟨rfl, h⟩
      cases h
      rfl

/-- One round of `select_what_to_build`. -/
def selectRound (inv : Invocation) (bs : Builds) (mem : BuildStates) (n : ℕ)
    (acc : List (BuildKey × Text) × List BuildKey) (b : BuildKey) :
    Option (List (BuildKey × Text) × List BuildKey) :=
  (checkNeedsBuild inv bs mem n b true).map fun (needsRebuild, reason) =>
    if needsRebuild then (acc.1 ++ [(b, reason)], acc.2)
    else if inv.args.cleanup && inv.isToplevel b then (acc.1, acc.2 ++ [b])
    else acc

theorem foldlM_selectRound {l : List BuildKey} {acc sel : List (BuildKey × Text) × List BuildKey}
    (h : l.foldlM (selectRound inv bs mem n) acc = some sel) :
    sel.1 = acc.1 ++ l.filterMap (neededBuild inv bs mem n) ∧
      sel.2 = acc.2 ++ l.filter fun b => (neededBuild inv bs mem n b).isNone &&
        (inv.args.cleanup && inv.isToplevel b) := by
  induction l generalizing acc with
  | nil => cases h; simp
  | cons b l ih =>
    rw [List.foldlM_cons] at h
    obtain ⟨acc', hround, h⟩ := Option.bind_eq_some_iff.1 h
    obtain ⟨⟨v, r⟩, hcheck, rfl⟩ := Option.map_eq_some_iff.1 hround
    obtain ⟨h₁, h₂⟩ := ih h
    rw [h₁, h₂]
    cases v with
    | false =>
      have hneeded : neededBuild inv bs mem n b = none := by simp [neededBuild, hcheck]
      cases hcleanup : inv.args.cleanup && inv.isToplevel b <;> simp [hneeded, hcleanup]
    | true =>
      have hneeded : neededBuild inv bs mem n b = some (b, r) := by simp [neededBuild, hcheck]
      simp [hneeded]

theorem selectWhatToBuild_eq_some {sel : List (BuildKey × Text) × List BuildKey}
    (h : selectWhatToBuild inv bs mem n = some sel) :
    sel.1 = bs.buildlist.filterMap (neededBuild inv bs mem n) ∧
      sel.2 = bs.buildlist.filter fun b => (neededBuild inv bs mem n b).isNone &&
        (inv.args.cleanup && inv.isToplevel b) := by
  have h' : bs.buildlist.foldlM (selectRound inv bs mem n) ([], []) = some sel := h
  simpa using foldlM_selectRound h'

/-- **What is selected**: the builds of the list that need to be built. -/
theorem mem_selectWhatToBuild {sel : List (BuildKey × Text) × List BuildKey}
    (h : selectWhatToBuild inv bs mem n = some sel) (x : BuildKey × Text) :
    x ∈ sel.1 ↔
      x.1 ∈ bs.buildlist ∧ checkNeedsBuild inv bs mem n x.1 true = some (true, x.2) := by
  rw [(selectWhatToBuild_eq_some h).1, List.mem_filterMap]
  constructor
  · rintro ⟨b, hb, hx⟩
    obtain ⟨rfl, hcheck⟩ := neededBuild_eq_some_iff.1 hx
    exact ⟨hb, hcheck⟩
  · rintro ⟨hb, hcheck⟩
    exact ⟨x.1, hb, neededBuild_eq_some_iff.2 ⟨rfl, hcheck⟩⟩

theorem notMem_of_mem_cleanupOnly {sel : List (BuildKey × Text) × List BuildKey}
    (h : selectWhatToBuild inv bs mem n = some sel) (hb : b ∈ sel.2) :
    b ∉ sel.1.map Prod.fst := by
  rw [(selectWhatToBuild_eq_some h).2, List.mem_filter, Bool.and_eq_true] at hb
  intro hmem
  obtain ⟨x, hx, rfl⟩ := List.mem_map.1 hmem
  have hneeded := neededBuild_eq_some_iff.2 ⟨rfl, ((mem_selectWhatToBuild h x).1 hx).2⟩
  rw [hneeded] at hb
  cases hb.2.1

/-- The selected builds are in the order of the build list. -/
theorem selectWhatToBuild_sublist {sel : List (BuildKey × Text) × List BuildKey}
    (h : selectWhatToBuild inv bs mem n = some sel) :
    (sel.1.map Prod.fst).Sublist bs.buildlist := by
  rw [(selectWhatToBuild_eq_some h).1]
  induction bs.buildlist with
  | nil => exact .slnil
  | cons b l ih =>
    rw [List.filterMap_cons]
    cases hb : neededBuild inv bs mem n b with
    | none => exact .cons _ ih
    | some x =>
      rw [List.map_cons, (neededBuild_eq_some_iff.1 hb).1]
      exact .cons_cons _ ih

theorem exists_selectWhatToBuild (ho : bs.Ordered) (hn : bs.buildlist.length ≤ n) :
    ∃ sel, selectWhatToBuild inv bs mem n = some sel := by
  have hround : ∀ b ∈ bs.buildlist, ∀ acc, ∃ sel, selectRound inv bs mem n acc b = some sel := by
    intro b hb acc
    obtain ⟨x, hx⟩ : ∃ x, checkNeedsBuild inv bs mem n b true = some x :=
      exists_checkNeedsBuild ho hn true hb
    exact ⟨_, by rw [selectRound, hx]; rfl⟩
  exact Machine.exists_foldlM hround _

end Pbuild
