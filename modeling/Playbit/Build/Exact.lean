import Playbit.Build.Order
import Playbit.Package.Cycles
import Playbit.Package.Recorded

/-!
# Declared and actual dependencies

The directives of a package declare what its build for an architecture depends on: the packages
of the entries whose condition is absent or holds for that architecture.  What the build graph
contains has gone through two passes.  `resolve_deps` evaluates the conditions once per package,
for the architectures it meets the package under, and `resolve_builds` evaluates those of the
remaining entries for the architecture of the build.

The two passes together drop an active entry whose package is not recorded by the first pass, or
is recorded with an entry that is not active.  `builds_exact_iff` says that this is the only way
in which actual and declared dependencies differ.
-/

namespace Pbuild

open Python DepthFirst

/-! ### Declared dependencies -/

/-- `l` has exactly the declared elements, all of which exist. -/
def Exactly {α : Type*} (l : List α) (declared : List (Option α)) : Prop :=
  ∀ x, x ∈ declared ↔ ∃ y ∈ l, x = some y

theorem exactly_iff {α : Type*} {l : List α} {declared : List (Option α)} :
    Exactly l declared ↔
      (∀ x ∈ declared, ∃ y ∈ l, x = some y) ∧ ∀ y ∈ l, some y ∈ declared :=
  ⟨fun h => ⟨fun x => (h x).1, fun y hy => (h _).2 ⟨y, hy, rfl⟩⟩,
    fun h x => ⟨h.1 x, fun ⟨y, hy, hxy⟩ => hxy ▸ h.2 y hy⟩⟩

instance {α : Type*} [DecidableEq α] (l : List α) (declared : List (Option α)) :
    Decidable (Exactly l declared) := decidable_of_iff _ exactly_iff.symm

/-- What the entries `m` of `p` declare for the architecture `a` (`none` for an entry whose
package is missing). -/
def declared {ι α : Type} (src : Source) (p : PkgName) (a : Arch) (cond : ι → Option Conditional)
    (mk : PkgName → ι → α) (m : Dict Text ι) : List (Option α) :=
  (m.filter fun e => condPasses (cond e.2) a).map fun e => (src.dep p e.1).map fun q => mk q e.2

/-- The `DEPENDS` entries active for the build. -/
def declaredDeps (src : Source) (k : BuildKey) : List (Option BuildKey) :=
  declared src k.1 k.2 DepInfo.cond (fun q _ => (q, k.2)) (src.directives k.1).depends

/-- The `BUILDTOOL` entries active for the build. -/
def declaredHostdeps (src : Source) (native : Arch) (k : BuildKey) : List (Option BuildKey) :=
  declared src k.1 k.2 DepInfo.cond (fun q _ => (q, native)) (src.directives k.1).buildtool

/-- The `ARCHDEPENDS` entries active for the build. -/
def declaredArchdeps (src : Source) (k : BuildKey) : List (Option (BuildKey × Text)) :=
  (src.directives k.1).archdepends.flatMap fun m =>
    declared src k.1 k.2 ArchDepInfo.cond (fun q i => ((q, m.1), i.mountpoint)) m.2

/-- The dependencies `d` of the build `k` are exactly the declared ones. -/
def ExactDeps (src : Source) (native : Arch) (k : BuildKey) (d : BuildDeps) : Prop :=
  Exactly (d.deps.map Prod.fst) (declaredDeps src k) ∧
    Exactly (d.hostdeps.map Prod.fst) (declaredHostdeps src native k) ∧
    Exactly d.archdeps (declaredArchdeps src k)

instance (src : Source) (native : Arch) (k : BuildKey) (d : BuildDeps) :
    Decidable (ExactDeps src native k d) := inferInstanceAs (Decidable (_ ∧ _ ∧ _))

/-- The directives of the package of `k` declare that `k` depends on `u`. -/
def Declares (src : Source) (native : Arch) (k u : BuildKey) : Prop :=
  some u ∈ declaredDeps src k ∨ some u ∈ declaredHostdeps src native k ∨
    ∃ mountpoint, some (u, mountpoint) ∈ declaredArchdeps src k

/-- `k` is reached from a top-level package over declared dependencies. -/
def DeclReachable (src : Source) (native target : Arch) (tops : List PkgName)
    (k : BuildKey) : Prop :=
  ∃ p ∈ tops, Relation.ReflTransGen (Declares src native) (p, target) k

/-! ### The entries that survive the first pass -/

/-- The walk along the declared entries that follows every edge meets `p` first under `c`. -/
def FirstMet (src : Source) (native target : Arch) (tops : List PkgName) (p : PkgName)
    (c : Ctx) : Prop :=
  ∃ w, ResolutionWalk src native target tops w ∧ (p, c) ∈ w.met

/-- For every entry of `m` active for `a`, the first entry for the same package that is kept is
active for `a` and says the same (`mk`). -/
def KeptFor {ι α : Type} (src : Source) (p : PkgName) (a : Arch) (keep : ι → Bool)
    (cond : ι → Option Conditional) (mk : PkgName → ι → α) (m : Dict Text ι) : Prop :=
  ∀ e ∈ m, condPasses (cond e.2) a = true → ∃ q i, src.dep p e.1 = some q ∧
    firstKept src p keep m q = some i ∧ condPasses (cond i) a = true ∧ mk q i = mk q e.2

/-- No entry active for the build `k` is lost when its package is resolved under `c`. -/
structure ActiveKept (src : Source) (native target : Arch) (k : BuildKey) (c : Ctx) : Prop where
  depends : KeptFor src k.1 k.2 (DepInfo.keep c) DepInfo.cond (fun q _ => (q, k.2))
    (src.directives k.1).depends
  buildtool : KeptFor src k.1 k.2 (DepInfo.keep (c.buildtool native target)) DepInfo.cond
    (fun q _ => (q, native)) (src.directives k.1).buildtool
  archdepends : ∀ m ∈ (src.directives k.1).archdepends,
    KeptFor src k.1 k.2
      (ArchDepInfo.keep (.archdep ((src.directives k.1).archdepends.map Prod.fst) m.1))
      ArchDepInfo.cond (fun q i => ((q, m.1), i.mountpoint)) m.2

variable {src : Source} {native target : Arch}

theorem mem_declared {ι α : Type} {p : PkgName} {a : Arch} {cond : ι → Option Conditional}
    {mk : PkgName → ι → α} {m : Dict Text ι} {x : Option α} :
    x ∈ declared src p a cond mk m ↔ ∃ e ∈ m, condPasses (cond e.2) a = true ∧
      x = (src.dep p e.1).map fun q => mk q e.2 := by
  simp only [declared, List.mem_map, List.mem_filter, and_assoc]
  exact exists_congr fun e => and_congr_right fun _ => and_congr_right fun _ => eq_comm

theorem exists_entry_of_firstKept {ι : Type} {p : PkgName} {keep : ι → Bool} {m : Dict Text ι}
    {q : PkgName} {i : ι} (h : firstKept src p keep m q = some i) :
    ∃ e ∈ m, keep e.2 = true ∧ src.dep p e.1 = some q ∧ e.2 = i := by
  obtain ⟨x, hx, rfl⟩ := Option.map_eq_some_iff.1 h
  have hxq : x.1 = q := by simpa using List.find?_some hx
  obtain ⟨e, he, hex⟩ := List.mem_filterMap.1 (List.mem_of_find?_eq_some hx)
  split_ifs at hex with hk
  obtain ⟨q', hq', rfl⟩ := Option.map_eq_some_iff.1 hex
  exact ⟨e, he, hk, hxq ▸ hq', rfl⟩

section Exactness

variable {ι α : Type} {p : PkgName} {a : Arch} {keep : ι → Bool} {cond : ι → Option Conditional}
  {mk : PkgName → ι → α} {m : Dict Text ι} {l : List α}

theorem some_mem_declared_of_firstKept (mk : PkgName → ι → α) {q : PkgName} {i : ι}
    (h : firstKept src p keep m q = some i) (hi : condPasses (cond i) a = true) :
    some (mk q i) ∈ declared src p a cond mk m := by
  obtain ⟨e, he, -, hq, rfl⟩ := exists_entry_of_firstKept h
  exact mem_declared.2 ⟨e, he, hi, by rw [hq]; rfl⟩

/-- Every declared element is recorded iff no active entry is lost. -/
theorem forall_declared_iff_keptFor (hmk : ∀ q q' i i', mk q i = mk q' i' → q = q')
    (hl : ∀ x, x ∈ l ↔ ∃ q i, firstKept src p keep m q = some i ∧ condPasses (cond i) a = true ∧
      x = mk q i) :
    (∀ x ∈ declared src p a cond mk m, ∃ y ∈ l, x = some y) ↔
      KeptFor src p a keep cond mk m := by
  constructor
  · intro h e he hact
    obtain ⟨y, hy, hey⟩ := h _ (mem_declared.2 ⟨e, he, hact, rfl⟩)
    obtain ⟨q, hq, hqy⟩ := Option.map_eq_some_iff.1 hey
    obtain ⟨q', i, hi, hact', rfl⟩ := (hl y).1 hy
    obtain rfl := hmk _ _ _ _ hqy
    exact ⟨q, i, hq, hi, hact', hqy.symm⟩
  · intro h x hx
    obtain ⟨e, he, hact, rfl⟩ := mem_declared.1 hx
    obtain ⟨q, i, hq, hi, hact', hmk'⟩ := h e he hact
    exact ⟨mk q i, (hl _).2 ⟨q, i, hi, hact', rfl⟩, by rw [hq, hmk']; rfl⟩

theorem exactly_iff_keptFor (hmk : ∀ q q' i i', mk q i = mk q' i' → q = q')
    (hl : ∀ x, x ∈ l ↔ ∃ q i, firstKept src p keep m q = some i ∧ condPasses (cond i) a = true ∧
      x = mk q i) :
    Exactly l (declared src p a cond mk m) ↔ KeptFor src p a keep cond mk m := by
  rw [← forall_declared_iff_keptFor hmk hl, exactly_iff]
  refine ⟨fun h => h.1, fun h => ⟨h, fun y hy => ?_⟩⟩
  obtain ⟨q, i, hi, hact, rfl⟩ := (hl y).1 hy
  exact some_mem_declared_of_firstKept mk hi hact

end Exactness

/-! ### The dependencies of a build whose package was resolved under `c` -/

section Resolved

variable {t : PkgTable} {k : BuildKey} {c : Ctx}
  (hk : t k.1 = resolvedPkg src native target k.1 c)
include hk

theorem mem_deps_iff_firstKept {x : BuildKey} :
    x ∈ (buildDeps t native k).deps.map Prod.fst ↔
      ∃ q i, firstKept src k.1 (DepInfo.keep c) (src.directives k.1).depends q = some i ∧
        condPasses i.cond k.2 = true ∧ x = (q, k.2) := by
  simp only [buildDeps, hk, List.map_map, List.mem_map, List.mem_filter, Function.comp_apply]
  constructor
  · rintro ⟨d, ⟨hd, hact⟩, rfl⟩
    obtain ⟨i, hi, hact'⟩ := exists_mem_resolvedPkg_deps.1 ⟨d, hd, rfl, hact⟩
    exact ⟨d.pkg, i, hi, hact', rfl⟩
  · rintro ⟨q, i, hi, hact, rfl⟩
    obtain ⟨d, hd, rfl, hact'⟩ := exists_mem_resolvedPkg_deps.2 ⟨i, hi, hact⟩
    exact ⟨d, ⟨hd, hact'⟩, rfl⟩

theorem mem_hostdeps_iff_firstKept {x : BuildKey} :
    x ∈ (buildDeps t native k).hostdeps.map Prod.fst ↔
      ∃ q i, firstKept src k.1 (DepInfo.keep (c.buildtool native target))
          (src.directives k.1).buildtool q = some i ∧
        condPasses i.cond k.2 = true ∧ x = (q, native) := by
  simp only [buildDeps, hk, List.map_map, List.mem_map, List.mem_filter, Function.comp_apply]
  constructor
  · rintro ⟨d, ⟨hd, hact⟩, rfl⟩
    obtain ⟨i, hi, hact'⟩ := exists_mem_resolvedPkg_hostdeps.1 ⟨d, hd, rfl, hact⟩
    exact ⟨d.pkg, i, hi, hact', rfl⟩
  · rintro ⟨q, i, hi, hact, rfl⟩
    obtain ⟨d, hd, rfl, hact'⟩ := exists_mem_resolvedPkg_hostdeps.2 ⟨i, hi, hact⟩
    exact ⟨d, ⟨hd, hact'⟩, rfl⟩

theorem mem_archdeps_iff_firstKept {x : BuildKey × Text} :
    x ∈ (buildDeps t native k).archdeps ↔ ∃ m ∈ (src.directives k.1).archdepends,
      ∃ q i, firstKept src k.1
          (ArchDepInfo.keep (.archdep ((src.directives k.1).archdepends.map Prod.fst) m.1))
          m.2 q = some i ∧
        condPasses i.cond k.2 = true ∧ x = ((q, m.1), i.mountpoint) := by
  simp only [buildDeps, hk, resolvedPkg_eq, List.flatMap_map, List.mem_flatMap, List.mem_map,
    List.mem_filter]
  refine exists_congr fun m => and_congr_right fun _ => ?_
  constructor
  · rintro ⟨d, ⟨hd, hact⟩, rfl⟩
    obtain ⟨i, hi, hact', hmp⟩ := exists_mem_recordedArchdeps.1 ⟨d, hd, rfl, hact, rfl⟩
    exact ⟨d.pkg, i, hi, hact', by rw [hmp]; rfl⟩
  · rintro ⟨q, i, hi, hact, rfl⟩
    obtain ⟨d, hd, rfl, hact', hmp⟩ := exists_mem_recordedArchdeps.2 ⟨i, hi, hact, rfl⟩
    exact ⟨d, ⟨hd, hact'⟩, by rw [hmp]; rfl⟩

/-- Declared elements of different architectures differ, so each architecture can be looked at by
itself. -/
theorem exactly_archdeps_iff :
    Exactly (buildDeps t native k).archdeps (declaredArchdeps src k) ↔
      ∀ m ∈ (src.directives k.1).archdepends, KeptFor src k.1 k.2
        (ArchDepInfo.keep (.archdep ((src.directives k.1).archdepends.map Prod.fst) m.1))
        ArchDepInfo.cond (fun q i => ((q, m.1), i.mountpoint)) m.2 := by
  constructor
  · intro h m hm e he hact
    obtain ⟨y, hy, hey⟩ := (h _).1
      (List.mem_flatMap.2 ⟨m, hm, mem_declared.2 ⟨e, he, hact, rfl⟩⟩)
    obtain ⟨q, hq, rfl⟩ := Option.map_eq_some_iff.1 hey
    obtain ⟨m', hm', q', i, hi, hact', heq⟩ := (mem_archdeps_iff_firstKept hk).1 hy
    simp only [Prod.mk.injEq] at heq
    obtain ⟨⟨rfl, harch⟩, hmp⟩ := heq
    obtain rfl : m = m' := List.inj_on_of_nodup_map (src.directives k.1).archdepends_nodup hm hm'
      harch
    exact ⟨q, i, hq, hi, hact', congrArg (Prod.mk (q, m.1)) hmp.symm⟩
  · intro h x
    constructor
    · intro hx
      obtain ⟨m, hm, hx⟩ := List.mem_flatMap.1 hx
      obtain ⟨e, he, hact, rfl⟩ := mem_declared.1 hx
      obtain ⟨q, i, hq, hi, hact', hmp⟩ := h m hm e he hact
      refine ⟨_, (mem_archdeps_iff_firstKept hk).2 ⟨m, hm, q, i, hi, hact', rfl⟩, ?_⟩
      rw [hq]
      exact congrArg some hmp.symm
    · rintro ⟨y, hy, rfl⟩
      obtain ⟨m, hm, q, i, hi, hact, rfl⟩ := (mem_archdeps_iff_firstKept hk).1 hy
      refine List.mem_flatMap.2 ⟨m, hm, ?_⟩
      exact some_mem_declared_of_firstKept (fun q i => ((q, m.1), i.mountpoint)) hi hact

theorem declares_of_dependsOn {u : BuildKey} (h : DependsOn t native k u) :
    Declares src native k u := by
  simp only [DependsOn, BuildDeps.keys, List.mem_append] at h
  rcases h with (h | h) | h
  · obtain ⟨q, i, hi, hact, rfl⟩ := (mem_deps_iff_firstKept hk).1 h
    exact .inl (some_mem_declared_of_firstKept (fun q _ => (q, k.2)) hi hact)
  · obtain ⟨q, i, hi, hact, rfl⟩ := (mem_hostdeps_iff_firstKept hk).1 h
    exact .inr (.inl (some_mem_declared_of_firstKept (fun q _ => (q, native)) hi hact))
  · obtain ⟨x, hx, rfl⟩ := List.mem_map.1 h
    obtain ⟨m, hm, q, i, hi, hact, rfl⟩ := (mem_archdeps_iff_firstKept hk).1 hx
    exact .inr (.inr ⟨i.mountpoint, List.mem_flatMap.2 ⟨m, hm,
      some_mem_declared_of_firstKept (fun q i => ((q, m.1), i.mountpoint)) hi hact⟩⟩)

omit hk in
theorem mem_entryEdges_of_firstKept {ι : Type} {keep : ι → Bool} {m : Dict Text ι} {q : PkgName}
    {i : ι} (c' : Ctx) (h : firstKept src k.1 keep m q = some i) :
    some (q, c') ∈ entryEdges src k.1 c' keep m := by
  obtain ⟨e, he, hkeep, hq, rfl⟩ := exists_entry_of_firstKept h
  exact mem_entryEdges.2 ⟨e, he, hkeep, by rw [hq]; rfl⟩

/-- What a build depends on was an edge when its package was resolved; and when that was for the
architecture of the build, it led to the architecture of the dependency. -/
theorem exists_succs_of_dependsOn {u : BuildKey} (h : DependsOn t native k u) :
    ∃ c', some (u.1, c') ∈ succs src native target k.1 c ∧ (c.arch = k.2 → c'.arch = u.2) := by
  simp only [DependsOn, BuildDeps.keys, List.mem_append] at h
  rcases h with (h | h) | h
  · obtain ⟨q, i, hi, -, rfl⟩ := (mem_deps_iff_firstKept hk).1 h
    exact ⟨c, List.mem_append_left _ (List.mem_append_left _ (mem_entryEdges_of_firstKept c hi)),
      id⟩
  · obtain ⟨q, i, hi, -, rfl⟩ := (mem_hostdeps_iff_firstKept hk).1 h
    exact ⟨c.buildtool native target,
      List.mem_append_left _ (List.mem_append_right _ (mem_entryEdges_of_firstKept _ hi)),
      fun _ => rfl⟩
  · obtain ⟨x, hx, rfl⟩ := List.mem_map.1 h
    obtain ⟨m, hm, q, i, hi, -, rfl⟩ := (mem_archdeps_iff_firstKept hk).1 hx
    exact ⟨.archdep ((src.directives k.1).archdepends.map Prod.fst) m.1,
      List.mem_append_right _ (List.mem_flatMap.2 ⟨m, hm, mem_entryEdges_of_firstKept _ hi⟩),
      fun _ => rfl⟩

/-- A build has exactly the declared dependencies iff no active entry is lost. -/
theorem exactDeps_iff_activeKept :
    ExactDeps src native k (buildDeps t native k) ↔ ActiveKept src native target k c := by
  have hdeps : Exactly ((buildDeps t native k).deps.map Prod.fst) (declaredDeps src k) ↔
      KeptFor src k.1 k.2 (DepInfo.keep c) DepInfo.cond (fun q _ => (q, k.2))
        (src.directives k.1).depends :=
    exactly_iff_keptFor (fun _ _ _ _ h => congrArg Prod.fst h) fun _ => mem_deps_iff_firstKept hk
  have hhost : Exactly ((buildDeps t native k).hostdeps.map Prod.fst)
        (declaredHostdeps src native k) ↔
      KeptFor src k.1 k.2 (DepInfo.keep (c.buildtool native target)) DepInfo.cond
        (fun q _ => (q, native)) (src.directives k.1).buildtool :=
    exactly_iff_keptFor (fun _ _ _ _ h => congrArg Prod.fst h)
      fun _ => mem_hostdeps_iff_firstKept hk
  have harch := exactly_archdeps_iff hk
  exact ⟨fun ⟨h₁, h₂, h₃⟩ => ⟨hdeps.1 h₁, hhost.1 h₂, harch.1 h₃⟩,
    fun ⟨h₁, h₂, h₃⟩ => ⟨hdeps.2 h₁, hhost.2 h₂, harch.2 h₃⟩⟩

end Resolved

/-! ### The whole graph -/

section Graph

variable {tops : List PkgName} {t : PkgTable} {w : State PkgName Ctx}

/-- After resolution, a package met under `c` has the attributes `resolvedPkg _ _ _ p c`. -/
theorem firstMet_iff (hw : ResolutionWalk src native target tops w) {p : PkgName} {c : Ctx} :
    FirstMet src native target tops p c ↔ (p, c) ∈ w.met := by
  constructor
  · rintro ⟨w', hw', hc⟩
    exact Walk.unique hw' hw ▸ hc
  · exact fun hc => ⟨w, hw, hc⟩

theorem resolvedPkg_of_met (htops : ∀ p ∈ tops, p ∈ src.names)
    (ht : resolveDeps src native target tops = .ok t)
    (hw : ResolutionWalk src native target tops w) (p : PkgName) (c : Ctx)
    (hc : (p, c) ∈ w.met) : t p = resolvedPkg src native target p c :=
  (agrees_of_resolveDeps_eq_ok htops hw ht).1.done p c ((Walk.met_iff_done hw _).1 hc)

theorem met_of_dependsOn (hw : ResolutionWalk src native target tops w)
    (ht : ∀ p c, (p, c) ∈ w.met → t p = resolvedPkg src native target p c) {k u : BuildKey}
    (hk : w.Met k.1) (h : DependsOn t native k u) : w.Met u.1 := by
  obtain ⟨c, hc⟩ := hk.exists
  obtain ⟨c', hc', -⟩ := exists_succs_of_dependsOn (ht _ _ hc) h
  exact Walk.met_succ hw hc hc'

theorem met_of_buildReachable (hw : ResolutionWalk src native target tops w)
    (ht : ∀ p c, (p, c) ∈ w.met → t p = resolvedPkg src native target p c) {k : BuildKey}
    (h : BuildReachable t native target tops k) : w.Met k.1 := by
  obtain ⟨p, hp, h⟩ := h
  induction h with
  | refl => exact Walk.met_of_edge hw (x := (p, .top target)) (mem_topEdges.2 ⟨hp, rfl⟩)
  | tail _ hstep ih => exact met_of_dependsOn hw ht ih hstep

theorem declReachable_of_buildReachable (hw : ResolutionWalk src native target tops w)
    (ht : ∀ p c, (p, c) ∈ w.met → t p = resolvedPkg src native target p c) {k : BuildKey}
    (h : BuildReachable t native target tops k) : DeclReachable src native target tops k := by
  obtain ⟨p, hp, h⟩ := h
  refine ⟨p, hp, ?_⟩
  induction h with
  | refl => exact .refl
  | tail hpre hstep ih =>
    obtain ⟨c, hc⟩ := (met_of_buildReachable hw ht ⟨p, hp, hpre⟩).exists
    exact ih.tail (declares_of_dependsOn (ht _ _ hc) hstep)

/-- When the dependencies are exact, what is declared is what there is. -/
theorem dependsOn_of_declares {k u : BuildKey}
    (hexact : ExactDeps src native k (buildDeps t native k)) (h : Declares src native k u) :
    DependsOn t native k u := by
  simp only [DependsOn, BuildDeps.keys, List.mem_append]
  rcases h with h | h | ⟨mountpoint, h⟩
  · obtain ⟨y, hy, hyu⟩ := (hexact.1 _).1 h
    cases hyu
    exact .inl (.inl hy)
  · obtain ⟨y, hy, hyu⟩ := (hexact.2.1 _).1 h
    cases hyu
    exact .inl (.inr hy)
  · obtain ⟨y, hy, hyu⟩ := (hexact.2.2 _).1 h
    cases hyu
    exact .inr (List.mem_map.2 ⟨_, hy, rfl⟩)

end Graph

/-- **When the build graph has exactly the declared dependencies**: iff for every build that is
reached over declared dependencies, no entry active for it is lost when its package is resolved,
under the settings under which the package is met first. -/
theorem builds_exact_iff (src : Source) (native target : Arch) (tops : List PkgName)
    (htops : ∀ p ∈ tops, p ∈ src.names) (t : PkgTable) (n : ℕ) (bs : Builds)
    (ht : resolveDeps src native target tops = .ok t)
    (hbs : resolveBuilds t native target n tops = .ok bs) :
    (∀ k ∈ bs.buildlist, ExactDeps src native k (bs.build k).toBuildDeps) ↔
      ∀ k, DeclReachable src native target tops k → ∀ c,
        FirstMet src native target tops k.1 c → ActiveKept src native target k c := by
  obtain ⟨w, hw⟩ : ∃ w, ResolutionWalk src native target tops w := exists_resolutionWalk htops
  have hres := resolvedPkg_of_met htops ht hw
  have hrb := resolvedBuilds_of_eq_ok hbs
  constructor
  · intro h k hreach c hc
    have hlist : k ∈ bs.buildlist := by
      clear hc
      obtain ⟨p, hp, hpk⟩ := hreach
      induction hpk with
      | refl => exact (hrb.mem _).2 ⟨p, hp, .refl⟩
      | @tail k' k _ hstep ih =>
        have hexact := h k' ih
        rw [hrb.deps k' ih] at hexact
        obtain ⟨p', hp', hreach⟩ := (hrb.mem _).1 ih
        exact (hrb.mem _).2 ⟨p', hp', hreach.tail (dependsOn_of_declares hexact hstep)⟩
    have hexact := h k hlist
    rw [hrb.deps k hlist] at hexact
    exact (exactDeps_iff_activeKept (hres _ _ ((firstMet_iff hw).1 hc))).1 hexact
  · intro h k hk
    have hreach := (hrb.mem k).1 hk
    obtain ⟨c, hc⟩ := (met_of_buildReachable hw hres hreach).exists
    rw [hrb.deps k hk]
    exact (exactDeps_iff_activeKept (hres _ _ hc)).2
      (h k (declReachable_of_buildReachable hw hres hreach) c ((firstMet_iff hw).2 hc))

/-- A condition on the architecture: `ARCH == a`. -/
def Conditional.isArch (a : Arch) : Conditional := ⟨fun b => b = a⟩

/-- An application built with a tool that needs a library on `x86_64` only. -/
def crossSource : Source where
  srcroot := ["src"]
  pkgs := [("app", { buildtool := [("tool", ⟨[], none⟩)] }),
    ("tool", { depends := [("lib", ⟨[], some (.isArch .x86_64)⟩)] }), ("lib", {})]

/-- Built for `wasm32` on `x86_64`, the tool is resolved with the conditions evaluated for
`wasm32`, and its build for `x86_64` lacks the library. -/
theorem crossSource_not_exact : ∃ t bs,
    resolveDeps crossSource .x86_64 .wasm32 ["app"] = .ok t ∧
    resolveBuilds t .x86_64 .wasm32 9 ["app"] = .ok bs ∧
    ("tool".toList, Arch.x86_64) ∈ bs.buildlist ∧
    ¬ ExactDeps crossSource .x86_64 ("tool".toList, Arch.x86_64)
      (bs.build ("tool".toList, Arch.x86_64)).toBuildDeps := by
  exact ⟨_, _, rfl, rfl, by decide, by decide⟩

/-- Built for `x86_64` on `x86_64`, no entry is lost. -/
theorem crossSource_native_exact : ∃ t bs,
    resolveDeps crossSource .x86_64 .x86_64 ["app"] = .ok t ∧
    resolveBuilds t .x86_64 .x86_64 9 ["app"] = .ok bs ∧
    (∀ k ∈ bs.buildlist, ExactDeps crossSource .x86_64 k (bs.build k).toBuildDeps) ∧
    ∀ k, DeclReachable crossSource .x86_64 .x86_64 ["app"] k → ∀ c,
      FirstMet crossSource .x86_64 .x86_64 ["app"] k.1 c →
      ActiveKept crossSource .x86_64 .x86_64 k c := by
  have hresolved : ∃ t bs, resolveDeps crossSource .x86_64 .x86_64 ["app"] = .ok t ∧
      resolveBuilds t .x86_64 .x86_64 9 ["app"] = .ok bs ∧
      ∀ k ∈ bs.buildlist, ExactDeps crossSource .x86_64 k (bs.build k).toBuildDeps :=
    ⟨_, _, rfl, rfl, by decide⟩
  obtain ⟨t, bs, ht, hbs, hexact⟩ := hresolved
  exact ⟨t, bs, ht, hbs, hexact,
    (builds_exact_iff crossSource .x86_64 .x86_64 ["app"] (by decide) t 9 bs ht hbs).1 hexact⟩

end Pbuild
