import Playbit.Build.NeedsBuild

/-!
# Selection and dependants

When a build is done again, the builds that depend on it ought to be looked at again too.  The
check of a build looks below its dependencies itself, so a changed dependency is seen from
further up; but it does not look below a dependency that has no `DEPENDS` entries, and it compares
with the time of the stamp of the build it was called for, not of the ones in between.

`select_closed_iff` says exactly when nothing is missed that way.
-/

namespace Pbuild

open Python DepthFirst

/-- The build `b` is not selected: it is not outdated, and every edge looked at below it leads to
a dependency that is unchanged and not newer than the stamp of `b`. -/
def Settled (bs : Builds) (mem : BuildStates) (b : BuildKey) : Prop :=
  ¬ (mem b).Outdated ∧ ∀ u v, ExaminedBelow bs b u v →
    checkDepChanged mem u v (mem b).buildMtime = false

/-- Nothing about `d` goes unnoticed by a settled build that depends on it. -/
structure NothingMissed (bs : Builds) (mem : BuildStates) (d : BuildKey) : Prop where
  /-- The sources of `d` are not newer than its stamp. -/
  sources : (mem d).srcMtime ≤ (mem d).buildMtime
  /-- If `d` is looked into, nothing below it is newer than its stamp. -/
  newer : (bs.build d).deps ≠ [] → 0 < (mem d).buildMtime →
    ∀ u v, ExaminedBelow bs d u v → (mem v).mtime ≤ (mem d).buildMtime
  /-- If `d` is not looked into, nothing below it has changed. -/
  unseen : (bs.build d).deps = [] →
    ∀ u v, ExaminedBelow bs d u v → checkDepChanged mem u v (mem d).buildMtime = false

variable {inv : Invocation} {bs : Builds} {mem : BuildStates} {n : ℕ} {b d : BuildKey}

theorem Settled.nothingMissed (h : Settled bs mem d) : NothingMissed bs mem d where
  sources := by
    have := h.1
    simp only [BuildState.Outdated, not_or] at this
    omega
  newer _ hpos u v hex := (checkDepChanged_eq_false_iff.1 (h.2 u v hex)).2.2.1 hpos
  unseen _ := h.2

/-- A dependency of a settled build is settled when nothing is missed. -/
theorem Settled.of_dep (h : Settled bs mem b) (hd : bs.Dep b d) (hn : NothingMissed bs mem d) :
    Settled bs mem d := by
  have hbd : d ∈ (bs.build b).orderedDeps := mem_orderedDeps.2 hd
  obtain ⟨hmust, -, -, hsum, -⟩ := checkDepChanged_eq_false_iff.1 (h.2 b d (.edge hbd))
  refine ⟨?_, fun u v hex => ?_⟩
  · rintro (hout | hout | hout)
    · have := hn.sources
      omega
    · exact hsum hout
    · rw [hmust] at hout
      cases hout
  · by_cases hdeps : (bs.build d).deps = []
    · exact hn.unseen hdeps u v hex
    · -- the edges below `d` have been looked at from `b`, with another time to compare with
      have henter : Enters (fun u => (bs.build u).orderedDeps) (entersDep bs) b d :=
        ⟨hbd, by simpa [entersDep] using hdeps⟩
      obtain ⟨h₁, h₂, -, h₄, h₅⟩ := checkDepChanged_eq_false_iff.1 (h.2 u v (hex.below henter))
      exact checkDepChanged_eq_false_iff.2
        ⟨h₁, h₂, fun hpos => hn.newer hdeps hpos u v hex, h₄, h₅⟩

theorem mem_selected_iff (hskip : inv.args.skipDeps = false) (hclean : inv.args.isClean = false)
    (ho : bs.Ordered) (hn : bs.buildlist.length ≤ n)
    {sel : List (BuildKey × Text) × List BuildKey}
    (hsel : selectWhatToBuild inv bs mem n = some sel) :
    b ∈ sel.1.map Prod.fst ↔ b ∈ bs.buildlist ∧ ¬ Settled bs mem b := by
  constructor
  · intro hb
    obtain ⟨x, hx, rfl⟩ := List.mem_map.1 hb
    obtain ⟨hlist, hcheck⟩ := (mem_selectWhatToBuild hsel x).1 hx
    refine ⟨hlist, fun hs => ?_⟩
    have := (checkNeedsBuild_iff hskip hclean hcheck).2 hs
    cases this
  · rintro ⟨hlist, hs⟩
    obtain ⟨⟨v, r⟩, hcheck⟩ : ∃ x, checkNeedsBuild inv bs mem n b true = some x :=
      exists_checkNeedsBuild ho hn true hlist
    cases v with
    | false => exact absurd ((checkNeedsBuild_iff hskip hclean hcheck).1 rfl) hs
    | true => exact List.mem_map.2 ⟨(b, r), (mem_selectWhatToBuild hsel _).2 ⟨hlist, hcheck⟩, rfl⟩

/-- **When selection is closed under dependants.**  For the acyclic build graph of any resolved
packages and any state of stamps and sources, without `--skip-deps` and `--clean`: every build
that reaches a selected one is selected iff, below every build that is itself settled, no
dependency has newer sources than its own stamp, none that is looked into has anything newer than
its own stamp below it, and none that is not looked into has anything changed below it. -/
theorem select_closed_iff (pkgs : PkgTable) (inv : Invocation) (n : ℕ) (bs : Builds)
    (hbs : resolveBuilds pkgs inv.native inv.target n inv.tops = .ok bs)
    (hacyc : ∀ k ∈ bs.buildlist, ¬ Relation.TransGen bs.Dep k k)
    (hskip : inv.args.skipDeps = false) (hclean : inv.args.isClean = false)
    (mem : BuildStates) (m : ℕ) (hm : bs.buildlist.length ≤ m) :
    ∃ sel, selectWhatToBuild inv bs mem m = some sel ∧
      ((∀ d ∈ sel.1.map Prod.fst, ∀ b ∈ bs.buildlist, Relation.TransGen bs.Dep b d →
          b ∈ sel.1.map Prod.fst) ↔
        ∀ b ∈ bs.buildlist, Settled bs mem b → ∀ d, bs.Dep b d → NothingMissed bs mem d) := by
  have hrb := resolvedBuilds_of_eq_ok hbs
  have ho := hrb.ordered hacyc
  obtain ⟨sel, hsel⟩ : ∃ sel, selectWhatToBuild inv bs mem m = some sel :=
    exists_selectWhatToBuild ho hm
  have hmem : ∀ {b}, b ∈ sel.1.map Prod.fst ↔ b ∈ bs.buildlist ∧ ¬ Settled bs mem b :=
    mem_selected_iff hskip hclean ho hm hsel
  refine ⟨sel, hsel, fun h b hb hset d hd => ?_, fun h d hd b hb hreach => ?_⟩
  · have hset' : Settled bs mem d := by
      by_contra hns
      have hsel' := h d (hmem.2 ⟨hrb.mem_of_dep hb hd, hns⟩) b hb (.single hd)
      exact (hmem.1 hsel').2 hset
    exact hset'.nothingMissed
  · -- a settled build at the top of the path would settle everything along it
    refine hmem.2 ⟨hb, fun hset => (hmem.1 hd).2 ?_⟩
    have key : d ∈ bs.buildlist ∧ Settled bs mem d := by
      clear hd
      induction hreach with
      | single hd => exact ⟨hrb.mem_of_dep hb hd, hset.of_dep hd (h b hb hset _ hd)⟩
      | tail _ hd ih =>
        exact ⟨hrb.mem_of_dep ih.1 hd, ih.2.of_dep hd (h _ ih.1 ih.2 _ hd)⟩
    exact key.2

/-- An application that depends on a library that is built with a tool. -/
def toolPkgs : PkgTable := fun p =>
  if p = "app".toList then { deps := [⟨"lib", [], none⟩], depsResolved := true }
  else if p = "lib".toList then { hostdeps := [⟨"tool", [], none⟩], depsResolved := true }
  else { depsResolved := true }

/-- A plain invocation for the application. -/
def plainInvocation : Invocation := ⟨.x86_64, .x86_64, ["app"], {}⟩

/-- All built, in order, and then the sources of the tool are changed. -/
def toolChanged : BuildStates := fun k =>
  if k.1 = "app".toList then
    { buildMtime := 12, srcMtime := 1, checksum := "a", depChecksums := [("lib.x86_64", "b")] }
  else if k.1 = "lib".toList then
    { buildMtime := 11, srcMtime := 1, checksum := "b", depChecksums := [("tool.x86_64", "c")] }
  else { buildMtime := 10, srcMtime := 20, checksum := "c" }

/-- The tool and the library are selected, the application is not. -/
theorem toolChanged_not_closed : ∃ bs sel,
    resolveBuilds toolPkgs .x86_64 .x86_64 6 ["app"] = .ok bs ∧
    (∀ k ∈ bs.buildlist, ¬ Relation.TransGen bs.Dep k k) ∧
    selectWhatToBuild plainInvocation bs toolChanged 3 = some sel ∧
    ("lib".toList, Arch.x86_64) ∈ sel.1.map Prod.fst ∧
    ("app".toList, Arch.x86_64) ∈ bs.buildlist ∧
    Relation.TransGen bs.Dep ("app".toList, Arch.x86_64) ("lib".toList, Arch.x86_64) ∧
    ("app".toList, Arch.x86_64) ∉ sel.1.map Prod.fst := by
  refine ⟨_, _, rfl, fun k hk => Builds.not_transGen_self (by decide) hk, rfl, by decide,
    by decide, .single ?_, by decide⟩
  exact List.mem_append_left _ (List.mem_append_left _ List.mem_cons_self)

/-- An application that depends on a library, and is built with a generator that depends on another
one. -/
def generatorPkgs : PkgTable := fun p =>
  if p = "app".toList then
    { deps := [⟨"lib", [], none⟩], hostdeps := [⟨"gen", [], none⟩], depsResolved := true }
  else if p = "gen".toList then { deps := [⟨"base", [], none⟩], depsResolved := true }
  else { depsResolved := true }

/-- All built, in order, and then the sources of the library are changed. -/
def libChanged : BuildStates := fun k =>
  if k.1 = "app".toList then
    { buildMtime := 12, srcMtime := 1, checksum := "a",
      depChecksums := [("gen.x86_64", "g"), ("lib.x86_64", "b")] }
  else if k.1 = "lib".toList then { buildMtime := 11, srcMtime := 20, checksum := "b" }
  else if k.1 = "gen".toList then
    { buildMtime := 10, srcMtime := 1, checksum := "g", depChecksums := [("base.x86_64", "c")] }
  else { buildMtime := 9, srcMtime := 1, checksum := "c" }

/-- The library and the application are selected.  The generator and what it depends on are not:
nothing has changed there. -/
theorem libChanged_closed : ∃ bs,
    resolveBuilds generatorPkgs .x86_64 .x86_64 8 ["app"] = .ok bs ∧ bs.buildlist.length = 4 ∧
    ∃ sel, selectWhatToBuild plainInvocation bs libChanged 4 = some sel ∧
      sel.1.map Prod.fst = [("lib".toList, .x86_64), ("app".toList, .x86_64)] ∧
      ∀ d ∈ sel.1.map Prod.fst, ∀ b ∈ bs.buildlist, Relation.TransGen bs.Dep b d →
        b ∈ sel.1.map Prod.fst := by
  obtain ⟨bs, hbs, hrank, hlen, hselected, hdeps⟩ : ∃ bs,
      resolveBuilds generatorPkgs .x86_64 .x86_64 8 ["app"] = .ok bs ∧
      (∀ k ∈ bs.buildlist, ∀ d ∈ (bs.build k).keys,
        d ∈ bs.buildlist ∧ bs.buildlist.idxOf d < bs.buildlist.idxOf k) ∧
      bs.buildlist.length = 4 ∧
      (selectWhatToBuild plainInvocation bs libChanged 4).map (·.1.map Prod.fst) =
        some [("lib".toList, .x86_64), ("app".toList, .x86_64)] ∧
      ∀ b ∈ bs.buildlist, b ∉ [("lib".toList, .x86_64), ("app".toList, .x86_64)] →
        ∀ d ∈ (bs.build b).orderedDeps, d ∈ bs.buildlist ∧
          d ∉ [("lib".toList, .x86_64), ("app".toList, .x86_64)] :=
    ⟨_, rfl, by decide, rfl, by decide, by decide⟩
  have hacyc : ∀ k ∈ bs.buildlist, ¬ Relation.TransGen bs.Dep k k := fun k hk =>
    Builds.not_transGen_self hrank hk
  have ho := (resolvedBuilds_of_eq_ok hbs).ordered hacyc
  obtain ⟨sel, hsel, hiff⟩ := select_closed_iff generatorPkgs plainInvocation 8 bs hbs hacyc rfl rfl
    libChanged 4 (by omega)
  rw [hsel, Option.map_some, Option.some_inj] at hselected
  refine ⟨bs, hbs, hlen, sel, hsel, hselected, hiff.2 fun b hb hset d hd => ?_⟩
  -- what is settled is what is not selected
  have hmem : ∀ {k}, k ∈ sel.1.map Prod.fst ↔ k ∈ bs.buildlist ∧ ¬ Settled bs libChanged k :=
    mem_selected_iff rfl rfl ho (by omega) hsel
  have hb' : b ∉ sel.1.map Prod.fst := fun h => (hmem.1 h).2 hset
  obtain ⟨hlist, hd'⟩ := hdeps b hb (hselected ▸ hb') d (mem_orderedDeps.2 hd)
  have hsettled : Settled bs libChanged d := by
    by_contra hns
    exact hd' (hselected ▸ hmem.2 ⟨hlist, hns⟩)
  exact hsettled.nothingMissed

end Pbuild
