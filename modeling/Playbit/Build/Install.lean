import Playbit.Build.Runtime
import Playbit.Machine.Run

/-!
# Installation

`install` copies the output of the top-level packages, and of everything these need at run time,
to a directory.  A package comes after what it needs.  A few packages are not installed unless they
are top-level ones.

Which packages these are, and in which order they are installed, is `install_spec`.
-/

namespace Pbuild

open Python DepthFirst

/-- Packages that are not installed implicitly. -/
def noinstallPkgNames : List PkgName :=
  ["src/cc".toList, "src/rootfs".toList, "src/kernel-headers".toList, "ports/libc".toList,
    "ports/busybox".toList]

/-- The variables of `install`, and what it has done. -/
structure Installing where
  seen : List BuildKey := []
  /-- The calls of `install_pkg`. -/
  calls : List BuildKey := []
  /-- The directories that have been copied. -/
  copied : List LayerDir := []

section Def

variable (metapackage : PkgName → Bool)

/-- `install_pkg`. -/
def installPkg (s : Installing) (b : BuildKey) : Installing :=
  { s with
    calls := s.calls ++ [b]
    copied := if metapackage b.1 then s.copied else s.copied ++ [.distroot b] }

/-- The inner loop of `install`. -/
def installDep (s : Installing) (dep : BuildKey) : Installing :=
  if dep ∈ s.seen then s
  else
    let s := { s with seen := dep :: s.seen }
    if dep.1 ∈ noinstallPkgNames then s else installPkg metapackage s dep

/-- The outer loop of `install`. -/
def installTop (inv : Invocation) (bs : Builds) (n : ℕ) (s : Installing) (b : BuildKey) :
    Option Installing :=
  if !inv.isToplevel b || decide (b ∈ s.seen) then some s
  else
    (tansitiveDeps bs n b).map fun deps =>
      installPkg metapackage (deps.foldl (installDep metapackage) { s with seen := b :: s.seen }) b

/-- `install`.  The fuel bounds the depth of the recursion in `tansitive_deps`. -/
def install (inv : Invocation) (bs : Builds) (n : ℕ) : Option Installing :=
  bs.buildlist.foldlM (installTop metapackage inv bs n) {}

end Def

/-- What is installed when it is reached. -/
def Wanted (inv : Invocation) (k : BuildKey) : Prop :=
  k.1 ∉ noinstallPkgNames ∨ inv.isToplevel k = true

/-- `k` is needed by one of the top-level builds `l`, or is one. -/
def NeededBy (inv : Invocation) (bs : Builds) (l : List BuildKey) (k : BuildKey) : Prop :=
  ∃ t ∈ l, inv.isToplevel t = true ∧ Relation.ReflTransGen bs.graph.Transitive t k

/-- The builds of `S` have been seen and those of `R` have been dealt with. -/
structure Installing.Inv (inv : Invocation) (bs : Builds) (metapackage : PkgName → Bool)
    (S R : BuildKey → Prop) (s : Installing) : Prop where
  seen : ∀ k, k ∈ s.seen ↔ S k
  calls : ∀ k, k ∈ s.calls ↔ R k ∧ Wanted inv k
  nodup : s.calls.Nodup
  order : Sorted (fun u v => bs.graph.Transitive u v ∧ Wanted inv v) s.calls
  copied : s.copied = (s.calls.filter fun k => !metapackage k.1).map .distroot

variable {inv : Invocation} {bs : Builds} {metapackage : PkgName → Bool} {S R : BuildKey → Prop}
  {s : Installing} {b dep : BuildKey} {n : ℕ}

theorem Installing.Inv.congr {S' R' : BuildKey → Prop} (h : s.Inv inv bs metapackage S R)
    (hS : ∀ k, S' k ↔ S k) (hR : ∀ k, R' k ↔ R k) : s.Inv inv bs metapackage S' R' :=
  ⟨fun k => (h.seen k).trans (hS k).symm, fun k => by rw [h.calls, hR], h.nodup, h.order, h.copied⟩

/-- Installing a build whose dependencies have been dealt with. -/
theorem Installing.Inv.push (h : s.Inv inv bs metapackage S R) (hnew : ¬ R b)
    (hwanted : Wanted inv b) (hsucc : ∀ v, bs.graph.Transitive b v → R v) :
    (installPkg metapackage s b).Inv inv bs metapackage S (fun k => R k ∨ k = b) := by
  have hb : b ∉ s.calls := fun hmem => hnew ((h.calls b).1 hmem).1
  refine ⟨h.seen, fun k => ?_, ?_, ?_, ?_⟩
  · rw [installPkg, List.mem_append, h.calls, List.mem_singleton, or_and_right]
    exact or_congr_right ⟨fun hk => ⟨hk, hk ▸ hwanted⟩, fun hk => hk.1⟩
  · refine List.nodup_append.2 ⟨h.nodup, List.nodup_singleton b, ?_⟩
    rintro x hx y hy rfl
    exact hb (List.mem_singleton.1 hy ▸ hx)
  · exact h.order.concat fun v hv => (h.calls v).2 ⟨hsucc v hv.1, hv.2⟩
  · simp only [installPkg, h.copied, List.filter_append, List.map_append]
    cases hmeta : metapackage b.1 <;> simp [hmeta]

/-- A round of the inner loop, for a build that has been dealt with if it has been seen. -/
theorem Installing.Inv.inner (h : s.Inv inv bs metapackage S R) (dep : BuildKey)
    (hRS : ∀ k, R k → S k) (hseen : S dep → R dep) (htop : ¬ S dep → inv.isToplevel dep = false)
    (hsucc : ∀ v, bs.graph.Transitive dep v → R v) :
    (installDep metapackage s dep).Inv inv bs metapackage (fun k => S k ∨ k = dep)
      (fun k => R k ∨ k = dep) := by
  unfold installDep
  by_cases hmem : dep ∈ s.seen
  · have hS := (h.seen dep).1 hmem
    rw [if_pos hmem]
    refine h.congr (fun k => or_iff_left_of_imp ?_) (fun k => or_iff_left_of_imp ?_)
    · rintro rfl
      exact hS
    · rintro rfl
      exact hseen hS
  · have hS : ¬ S dep := fun hS => hmem ((h.seen dep).2 hS)
    have hmark : Installing.Inv inv bs metapackage (fun k => S k ∨ k = dep) R
        { s with seen := dep :: s.seen } := by
      refine ⟨fun k => ?_, h.calls, h.nodup, h.order, h.copied⟩
      rw [List.mem_cons, h.seen, or_comm]
    rw [if_neg hmem]
    dsimp only
    by_cases hno : dep.1 ∈ noinstallPkgNames
    · -- it is not wanted
      rw [if_pos hno]
      refine ⟨hmark.seen, fun k => ?_, h.nodup, h.order, h.copied⟩
      rw [h.calls, or_and_right, or_iff_left]
      rintro ⟨rfl, hwanted⟩
      rcases hwanted with hwanted | hwanted
      · exact hwanted hno
      · rw [htop hS] at hwanted
        cases hwanted
    · rw [if_neg hno]
      exact hmark.push (fun hR => hS (hRS dep hR)) (.inl hno) hsucc

theorem neededBy_append (l : List BuildKey) (hb : inv.isToplevel b = true) (k : BuildKey) :
    NeededBy inv bs (l ++ [b]) k ↔
      (NeededBy inv bs l k ∨ Relation.TransGen bs.graph.Transitive b k) ∨ k = b := by
  simp only [NeededBy, List.mem_append, List.mem_singleton, or_and_right, exists_or]
  rw [or_assoc, or_comm (b := k = b), ← Relation.reflTransGen_iff_eq_or_transGen]
  simp [hb]

/-- What the builds of a part of an ordered list need is in this part. -/
theorem NeededBy.mem (ho : bs.Ordered) {l₁ l₂ : List BuildKey} (hl : bs.buildlist = l₁ ++ l₂)
    {k : BuildKey} (h : NeededBy inv bs l₁ k) : k ∈ l₁ := by
  obtain ⟨t, ht, -, htk⟩ := h
  rcases Relation.reflTransGen_iff_eq_or_transGen.1 htk with rfl | htk
  · exact ht
  · obtain ⟨m₁, m₂, rfl⟩ := List.append_of_mem ht
    have hl' : bs.buildlist = m₁ ++ t :: (m₂ ++ l₂) := by rw [hl]; simp
    exact List.mem_append_left _ (ho.mem_of_transGen hl' (htk.lift id fun _ _ => dep_of_transitive))

theorem Installing.Inv.outer (ho : bs.Ordered) (hn : bs.buildlist.length ≤ n)
    {l₁ l₂ : List BuildKey} (hl : bs.buildlist = l₁ ++ b :: l₂)
    (h : s.Inv inv bs metapackage (NeededBy inv bs l₁) (NeededBy inv bs l₁)) :
    ∃ s', installTop metapackage inv bs n s b = some s' ∧
      s'.Inv inv bs metapackage (NeededBy inv bs (l₁ ++ [b])) (NeededBy inv bs (l₁ ++ [b])) := by
  have hb : b ∈ bs.buildlist := hl ▸ by simp
  unfold installTop
  by_cases htop : inv.isToplevel b = true
  · by_cases hseen : b ∈ s.seen
    · -- then it is in the list twice
      have hmem : b ∈ l₁ := ((h.seen b).1 hseen).mem ho hl
      have hsame : ∀ k, NeededBy inv bs (l₁ ++ [b]) k ↔ NeededBy inv bs l₁ k := by
        intro k
        refine ⟨fun ⟨t, ht, hk⟩ => ⟨t, ?_, hk⟩, fun ⟨t, ht, hk⟩ =>
          ⟨t, List.mem_append_left _ ht, hk⟩⟩
        rcases List.mem_append.1 ht with ht | ht
        · exact ht
        · exact List.mem_singleton.1 ht ▸ hmem
      exact ⟨s, by simp [hseen], h.congr hsame hsame⟩
    · obtain ⟨deps, hdeps, hmem, hsorted⟩ := tansitiveDeps_spec ho hb hn
      have hnot : ¬ NeededBy inv bs l₁ b := fun hneeded => hseen ((h.seen b).2 hneeded)
      have hself : b ∉ deps := fun hself => ho.acyclic hb .refl ((hmem b).1 hself)
      have hstart : Installing.Inv inv bs metapackage (fun k => NeededBy inv bs l₁ k ∨ k = b)
          (NeededBy inv bs l₁) { s with seen := b :: s.seen } := by
        refine ⟨fun k => ?_, h.calls, h.nodup, h.order, h.copied⟩
        rw [List.mem_cons, h.seen, or_comm]
      -- after the dependencies `d₁`, these and what was there before have been dealt with
      have hloop : Installing.Inv inv bs metapackage
          (fun k => (NeededBy inv bs l₁ k ∨ k ∈ deps) ∨ k = b)
          (fun k => NeededBy inv bs l₁ k ∨ k ∈ deps)
          (deps.foldl (installDep metapackage) { s with seen := b :: s.seen }) := by
        refine Machine.foldl_rule (I := fun d₁ s' => Installing.Inv inv bs metapackage
          (fun k => (NeededBy inv bs l₁ k ∨ k ∈ d₁) ∨ k = b)
          (fun k => NeededBy inv bs l₁ k ∨ k ∈ d₁) s') (by simpa using hstart) ?_
        intro d₁ dep d₂ s' hd hs'
        have hdep : dep ∈ deps := hd ▸ by simp
        have hne : dep ≠ b := by
          rintro rfl
          exact hself hdep
        have hround := hs'.inner dep (fun k hk => .inl hk)
          (fun hk => hk.resolve_right hne) ?_ (fun v hv => .inr (hsorted d₁ dep d₂ hd v hv))
        · refine hround.congr (fun k => ?_) (fun k => ?_)
          · rw [List.mem_append, List.mem_singleton, ← or_assoc, or_right_comm]
          · rw [List.mem_append, List.mem_singleton, or_assoc]
        · -- a top-level build before `b` has had its own round
          intro hunseen
          by_contra htopdep
          rw [Bool.not_eq_false] at htopdep
          have hbefore : dep ∈ l₁ := ho.mem_of_transGen hl
            (((hmem dep).1 hdep).lift id fun _ _ => dep_of_transitive)
          exact hunseen (.inl (.inl ⟨dep, hbefore, htopdep, .refl⟩))
      refine ⟨_, by simp only [htop, hseen, hdeps]; rfl, ?_⟩
      have hlast := hloop.push (b := b) (not_or.2 ⟨hnot, hself⟩) (.inr htop)
        (fun v hv => .inr ((hmem v).2 (.single hv)))
      have hall : ∀ k, NeededBy inv bs (l₁ ++ [b]) k ↔
          (NeededBy inv bs l₁ k ∨ k ∈ deps) ∨ k = b := by
        intro k
        rw [neededBy_append l₁ htop, hmem]
      exact hlast.congr hall hall
  · have hsame : ∀ k, NeededBy inv bs (l₁ ++ [b]) k ↔ NeededBy inv bs l₁ k := by
      intro k
      simp [NeededBy, or_and_right, exists_or, htop]
    exact ⟨s, by simp [htop], h.congr hsame hsame⟩

/-- **What is installed, and in which order.**  On an ordered build list, `install` calls
`install_pkg` once for each top-level build, once for each other build that one of these needs
unless it is a package that is not installed implicitly, and for nothing else; a build is installed
after everything it needs. -/
theorem install_spec (inv : Invocation) (bs : Builds) (metapackage : PkgName → Bool) (n : ℕ)
    (ho : bs.Ordered) (hn : bs.buildlist.length ≤ n) :
    ∃ s, install metapackage inv bs n = some s ∧ s.calls.Nodup ∧
      (∀ k, k ∈ s.calls ↔ (k ∈ bs.buildlist ∧ inv.isToplevel k = true) ∨
        (inv.isToplevel k = false ∧ k.1 ∉ noinstallPkgNames ∧
          ∃ t ∈ bs.buildlist, inv.isToplevel t = true ∧
            Relation.TransGen bs.graph.Transitive t k)) ∧
      (∀ u v, bs.graph.Transitive u v → v ∈ s.calls → ∀ l₁ l₂, s.calls = l₁ ++ u :: l₂ →
        v ∈ l₁) ∧
      s.copied = (s.calls.filter fun k => !metapackage k.1).map .distroot := by
  have hempty : Installing.Inv inv bs metapackage (NeededBy inv bs []) (NeededBy inv bs []) {} := by
    refine ⟨?_, ?_, List.nodup_nil, Sorted.nil, rfl⟩
    · simp [NeededBy]
    · simp [NeededBy]
  obtain ⟨s, hs, h⟩ := Machine.foldlM_rule bs.buildlist
    (I := fun l s => Installing.Inv inv bs metapackage (NeededBy inv bs l) (NeededBy inv bs l) s)
    hempty (fun l₁ b l₂ s hl h => h.outer ho hn hl)
  refine ⟨s, hs, h.nodup, fun k => ?_, ?_, h.copied⟩
  · rw [h.calls]
    constructor
    · rintro ⟨hneeded, hwanted⟩
      have hk : k ∈ bs.buildlist := hneeded.mem ho (List.append_nil _).symm
      obtain ⟨t, ht, htop, htk⟩ := hneeded
      cases hktop : inv.isToplevel k with
      | true => exact .inl ⟨hk, rfl⟩
      | false =>
        -- something other than a top-level build is needed in at least one step
        refine .inr ⟨rfl, hwanted.resolve_right (by simp [hktop]), t, ht, htop, ?_⟩
        refine (Relation.reflTransGen_iff_eq_or_transGen.1 htk).resolve_left ?_
        rintro rfl
        rw [htop] at hktop
        cases hktop
    · rintro (⟨hk, htop⟩ | ⟨-, hno, t, ht, htop, htk⟩)
      · exact ⟨⟨k, hk, htop, .refl⟩, .inr htop⟩
      · exact ⟨⟨t, ht, htop, htk.to_reflTransGen⟩, .inl hno⟩
  · intro u v huv hv l₁ l₂ hl
    exact h.order l₁ u l₂ hl v ⟨huv, ((h.calls v).1 hv).2⟩

/-- An application that needs a library and the compiler at run time, all of which need the C
library. -/
def installBuilds : Builds :=
  let app : BuildKey := ("app", .x86_64)
  let lib : BuildKey := ("lib", .x86_64)
  let cc : BuildKey := ("src/cc", .x86_64)
  let libc : BuildKey := ("ports/libc", .x86_64)
  let transitive : List Text := ["transitive"]
  { processed := [(app, { deps := [(lib, transitive), (cc, transitive), (libc, transitive)] }),
      (lib, { deps := [(libc, transitive)] }), (cc, { deps := [(libc, transitive)] }), (libc, {})]
    buildlist := [libc, lib, cc, app] }

/-- The compiler is installed since it is asked for, and the C library is not. -/
theorem installBuilds_spec : ∃ s,
    install (fun _ => false) ⟨.x86_64, .x86_64, ["app", "src/cc"], {}⟩ installBuilds 4 = some s ∧
      s.calls.Nodup ∧ ("src/cc".toList, Arch.x86_64) ∈ s.calls ∧
      ("ports/libc".toList, Arch.x86_64) ∉ s.calls ∧
      s.calls.map Prod.fst = ["src/cc".toList, "lib".toList, "app".toList] := by
  obtain ⟨s, hs, hnodup, hmem, -, -⟩ := install_spec
    ⟨.x86_64, .x86_64, ["app", "src/cc"], {}⟩ installBuilds (fun _ => false) 4
    (Builds.ordered_of_zipIdx (by decide)) (by decide)
  have hcalls : ∃ s', install (fun _ => false) ⟨.x86_64, .x86_64, ["app", "src/cc"], {}⟩
      installBuilds 4 = some s' ∧
        s'.calls.map Prod.fst = ["src/cc".toList, "lib".toList, "app".toList] := ⟨_, rfl, rfl⟩
  obtain ⟨s', hs', hcalls⟩ := hcalls
  rw [hs] at hs'
  cases hs'
  refine ⟨s, hs, hnodup, (hmem _).2 (.inl ⟨by decide, by decide⟩), fun hlibc => ?_, hcalls⟩
  rcases (hmem _).1 hlibc with ⟨-, htop⟩ | ⟨-, hno, -⟩
  · exact absurd htop (by decide)
  · exact hno (by decide)

end Pbuild
