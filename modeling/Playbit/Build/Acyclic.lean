import Playbit.Build.Exact
import Playbit.Build.NeedsBuild

/-!
# Cycles that get past resolution

`resolve_deps` stops at an entry that leads back to a package *being resolved for the same
architecture*.  A package is resolved once, so the cycles it can see are those through packages
at the architectures they are met first for; the build graph has a node for every architecture a
package is needed for.

`resolution_acyclic_iff` says that a cycle of builds gets past resolution exactly when there is
one through a build for an architecture other than the one its package is met first for, and
nothing else stops resolution.
-/

namespace Pbuild

open Python DepthFirst

/-- The build `k` has a dependency on `u`: its package has an entry for the package of `u` that is
kept under the settings the package is met first under, and is active for `k`. -/
def EntryDep (src : Source) (native target : Arch) (tops : List PkgName) (k u : BuildKey) : Prop :=
  ∃ c, FirstMet src native target tops k.1 c ∧
    DependsOn (resolvedPkg src native target · c) native k u

/-- `k` is reached from a top-level package over such entries. -/
def EntryReachable (src : Source) (native target : Arch) (tops : List PkgName)
    (k : BuildKey) : Prop :=
  ∃ p ∈ tops, Relation.ReflTransGen (EntryDep src native target tops) (p, target) k

/-- The package of `k` is met first for another architecture. -/
def OffArch (src : Source) (native target : Arch) (tops : List PkgName) (k : BuildKey) : Prop :=
  ∀ c, FirstMet src native target tops k.1 c → c.arch ≠ k.2

variable {src : Source} {native target : Arch} {tops : List PkgName}
  {w : State PkgName Ctx} {t : PkgTable}

theorem dependsOn_congr {t t' : PkgTable} {k u : BuildKey} (h : t k.1 = t' k.1) :
    DependsOn t native k u ↔ DependsOn t' native k u := by
  simp only [DependsOn, buildDeps, h]

section Resolved

variable (hw : ResolutionWalk src native target tops w)
  (ht : ∀ p c, (p, c) ∈ w.met → t p = resolvedPkg src native target p c)
include hw ht

theorem entryDep_iff {k u : BuildKey} (hk : w.Met k.1) :
    EntryDep src native target tops k u ↔ DependsOn t native k u := by
  constructor
  · rintro ⟨c, hc, h⟩
    exact (dependsOn_congr (ht _ _ ((firstMet_iff hw).1 hc))).2 h
  · intro h
    obtain ⟨c, hc⟩ := hk.exists
    exact ⟨c, (firstMet_iff hw).2 hc, (dependsOn_congr (ht _ _ hc)).1 h⟩

theorem entryDep_of_dependsOn (k u : BuildKey) (hk : w.Met k.1) (h : DependsOn t native k u) :
    w.Met u.1 ∧ EntryDep src native target tops k u :=
  ⟨met_of_dependsOn hw ht hk h, (entryDep_iff hw ht hk).2 h⟩

theorem entryReachable_iff {k : BuildKey} :
    EntryReachable src native target tops k ↔ BuildReachable t native target tops k := by
  have hmet : ∀ p ∈ tops, w.Met p := fun p hp =>
    met_of_buildReachable hw ht (k := (p, target)) ⟨p, hp, .refl⟩
  constructor
  · rintro ⟨p, hp, h⟩
    refine ⟨p, hp, (reflTransGen_of_closed (S := fun k => w.Met k.1) (fun v u hv hd => ?_)
      (hmet p hp) h).2⟩
    have hd' := (entryDep_iff hw ht hv).1 hd
    exact ⟨met_of_dependsOn hw ht hv hd', hd'⟩
  · rintro ⟨p, hp, h⟩
    exact ⟨p, hp, (reflTransGen_of_closed (S := fun k => w.Met k.1)
      (entryDep_of_dependsOn hw ht) (hmet p hp) h).2⟩

omit hw in
/-- One step between builds for the architectures their packages are met first for. -/
theorem hit_of_dependsOn {k u : BuildKey} {c c' : Ctx} (hc : (k.1, c) ∈ w.met)
    (hck : c.arch = k.2) (hc' : (u.1, c') ∈ w.met) (hcu : c'.arch = u.2)
    (h : DependsOn t native k u) :
    Hit (succs src native target) sameBuild w.met (k.1, c) (u.1, c') := by
  obtain ⟨c'', hsucc, harch⟩ := exists_succs_of_dependsOn (ht _ _ hc) h
  refine ⟨hc, hc', (u.1, c''), hsucc, ?_⟩
  simp [sameBuild, hcu, harch hck]

/-- A cycle of builds none of which is for another architecture than the one its package is met
first for is a cycle that resolution finds. -/
theorem loop_of_cycle {k : BuildKey}
    (hcyc : Relation.TransGen (DependsOn t native) k k)
    (hon : ∀ u, Relation.ReflTransGen (DependsOn t native) k u →
      Relation.ReflTransGen (DependsOn t native) u k → ¬ OffArch src native target tops u) :
    Loop (succs src native target) sameBuild w.met := by
  have hctx : ∀ u, Relation.ReflTransGen (DependsOn t native) k u →
      Relation.ReflTransGen (DependsOn t native) u k →
      ∃ c, (u.1, c) ∈ w.met ∧ c.arch = u.2 := by
    intro u hku huk
    have hno := hon u hku huk
    simp only [OffArch, not_forall, not_not] at hno
    obtain ⟨c, hc, harch⟩ := hno
    exact ⟨c, (firstMet_iff hw).1 hc, harch⟩
  obtain ⟨c, hc, hck⟩ := hctx k .refl .refl
  have key : ∀ u, Relation.TransGen (DependsOn t native) k u →
      Relation.ReflTransGen (DependsOn t native) u k →
      ∃ c', (u.1, c') ∈ w.met ∧ c'.arch = u.2 ∧
        Relation.TransGen (Hit (succs src native target) sameBuild w.met) (k.1, c) (u.1, c') := by
    intro u hku
    induction hku with
    | single hd =>
      intro huk
      obtain ⟨c', hc', hcu⟩ := hctx _ (.single hd) huk
      exact ⟨c', hc', hcu, .single (hit_of_dependsOn ht hc hck hc' hcu hd)⟩
    | tail hkv hd ih =>
      intro huk
      obtain ⟨c₁, hc₁, hcv, hhits⟩ := ih (.head hd huk)
      obtain ⟨c', hc', hcu⟩ := hctx _ (hkv.to_reflTransGen.tail hd) huk
      exact ⟨c', hc', hcu, hhits.tail (hit_of_dependsOn ht hc₁ hcv hc' hcu hd)⟩
  obtain ⟨c', hc', -, hhits⟩ := key k hcyc .refl
  rw [(Walk.wf hw State.wf_empty).ctx_unique hc' hc] at hhits
  exact ⟨_, hhits⟩

end Resolved

theorem mem_names_of_mem_foldl {ι α : Type} {f : α → PkgName} {g : PkgName × ι → α}
    (hg : ∀ x, f (g x) = x.1) {p : PkgName} {keep : ι → Bool} {m : Dict Text ι} {d : α}
    (hd : d ∈ ((kept src p keep m).map g).foldl (appendNew f) []) : f d ∈ src.names := by
  obtain ⟨x, hx, rfl⟩ := List.mem_map.1 (List.mem_of_find?_eq_some (mem_foldl_appendNew.1 hd))
  obtain ⟨e, -, he⟩ := List.mem_filterMap.1 hx
  split_ifs at he
  obtain ⟨q, hq, rfl⟩ := Option.map_eq_some_iff.1 he
  exact hg _ ▸ Source.mem_names_of_dep hq

theorem refs_resolvedPkg_subset_names (p : PkgName) (c : Ctx) :
    ∀ q ∈ (resolvedPkg src native target p c).refs, q ∈ src.names := by
  intro q hq
  simp only [Pkg.refs, resolvedPkg_eq, List.mem_append, List.mem_map, List.mem_flatMap] at hq
  rcases hq with (⟨d, hd, rfl⟩ | ⟨d, hd, rfl⟩) | ⟨m, ⟨m', -, rfl⟩, d, hd, rfl⟩
  · exact mem_names_of_mem_foldl (f := PkgDep.pkg) (g := toPkgDep) (fun _ => rfl) hd
  · exact mem_names_of_mem_foldl (f := PkgDep.pkg) (g := toPkgDep) (fun _ => rfl) hd
  · exact mem_names_of_mem_foldl (f := PkgArchDep.pkg) (g := toPkgArchDep) (fun _ => rfl) hd

/-- What the attributes of the resolved packages refer to exists. -/
theorem refs_subset_names (htops : ∀ p ∈ tops, p ∈ src.names)
    (hw : ResolutionWalk src native target tops w)
    (ht : resolveDeps src native target tops = .ok t) (p : PkgName) :
    ∀ q ∈ (t p).refs, q ∈ src.names := by
  by_cases hp : w.Met p
  · obtain ⟨c, hc⟩ := hp.exists
    rw [resolvedPkg_of_met htops ht hw p c hc]
    exact refs_resolvedPkg_subset_names p c
  · have hfresh : t p = {} := (agrees_of_resolveDeps_eq_ok htops hw ht).1.fresh p hp
    rw [hfresh]
    intro q hq
    cases hq

/-- **Which cycles get past resolution.**  When `resolve_deps` returns, so does `resolve_builds`,
and the graph it builds has no cycle (and so `check_deps` ends on every build) iff there is no
cycle through a build for an architecture other than the one its package is met first for. -/
theorem resolution_acyclic_iff (src : Source) (native target : Arch) (tops : List PkgName)
    (htops : ∀ p ∈ tops, p ∈ src.names) (t : PkgTable)
    (ht : resolveDeps src native target tops = .ok t) (n : ℕ)
    (hn : src.names.length * (buildArchs t native target src.names).length ≤ n) :
    ∃ bs, resolveBuilds t native target n tops = .ok bs ∧
      ((∀ k ∈ bs.buildlist, ¬ Relation.TransGen bs.Dep k k) ∧
        (∀ mem base b, b ∈ bs.buildlist → ∀ m, bs.buildlist.length ≤ m →
          ∃ o, checkDeps bs mem base m b = some o) ↔
      ∀ k, EntryReachable src native target tops k → OffArch src native target tops k →
        ¬ Relation.TransGen (EntryDep src native target tops) k k) := by
  obtain ⟨w, hw⟩ : ∃ w, ResolutionWalk src native target tops w := exists_resolutionWalk htops
  have hres := resolvedPkg_of_met htops ht hw
  have hloop := (agrees_of_resolveDeps_eq_ok htops hw ht).2
  obtain ⟨bs, hbs⟩ := exists_resolveBuilds_eq_ok (fun p _ => refs_subset_names htops hw ht p)
    htops hn
  have hrb := resolvedBuilds_of_eq_ok hbs
  refine ⟨bs, hbs, fun h k hk _ hcyc => ?_, fun h => ?_⟩
  · have hk' := (hrb.mem k).2 ((entryReachable_iff hw hres).1 hk)
    refine h.1 k hk' (transGen_of_closed (fun v u hv hd => ?_) hk' hcyc).2
    have hmet := met_of_buildReachable hw hres ((hrb.mem v).1 hv)
    have hdep := (hrb.dep_iff hv).2 ((entryDep_iff hw hres hmet).1 hd)
    exact ⟨hrb.mem_of_dep hv hdep, hdep⟩
  · have hacyc : ∀ k ∈ bs.buildlist, ¬ Relation.TransGen bs.Dep k k := by
      intro k hk hcyc
      have hk' := (hrb.mem k).1 hk
      have hcyc' : Relation.TransGen (DependsOn t native) k k := by
        refine (transGen_of_closed (fun v u hv hd => ?_) hk hcyc).2
        exact ⟨hrb.mem_of_dep hv hd, (hrb.dep_iff hv).1 hd⟩
      -- resolution would have found the cycle unless one of its builds is for another
      -- architecture
      refine hloop (loop_of_cycle hw hres hcyc' fun u hku huk hoff => ?_)
      obtain ⟨p, hp, hpk⟩ := hk'
      have hu : BuildReachable t native target tops u := ⟨p, hp, hpk.trans hku⟩
      refine h u ((entryReachable_iff hw hres).2 hu) hoff ?_
      exact (transGen_of_closed (S := fun k => w.Met k.1) (entryDep_of_dependsOn hw hres)
        (met_of_buildReachable hw hres hu) (.trans_right huk (hcyc'.trans_left hku))).2
    exact ⟨hacyc, fun mem base b hb m hm => exists_checkDeps (hrb.ordered hacyc) hm base hb⟩

/-- An application and a tool it is built with that itself needs the application. -/
def loopSource : Source where
  srcroot := ["src"]
  pkgs := [("app", { depends := [("lib", ⟨[], none⟩)], buildtool := [("tool", ⟨[], none⟩)] }),
    ("tool", { depends := [("app", ⟨[], none⟩)] }), ("lib", {})]

/-- Everything is built and nothing has changed since. -/
def loopBuilt : BuildStates := fun _ =>
  { buildMtime := 1, checksum := "c",
    depChecksums := [("app.x86_64", "c"), ("lib.x86_64", "c"), ("tool.x86_64", "c")] }

/-- Built for `wasm32` on `x86_64` the cycle is among the builds for `x86_64` and resolution
does not see it; `check_deps` then does not end. -/
theorem loopSource_cyclic : ∃ t bs,
    resolveDeps loopSource .x86_64 .wasm32 ["app"] = .ok t ∧
    resolveBuilds t .x86_64 .wasm32 9 ["app"] = .ok bs ∧
    ("tool".toList, Arch.x86_64) ∈ bs.buildlist ∧
    Relation.TransGen bs.Dep ("tool".toList, Arch.x86_64) ("tool".toList, Arch.x86_64) ∧
    ∀ m, checkDeps bs loopBuilt 0 m ("tool".toList, Arch.x86_64) = none := by
  refine ⟨_, _, rfl, rfl, by decide, ?_, ?_⟩
  · exact .head (b := ("app".toList, Arch.x86_64)) (by decide) (.single (by decide))
  · refine scan_eq_none_of_cycle
      (S := (· ∈ ["app".toList, "tool".toList, "lib".toList].map (·, Arch.x86_64)))
      (by decide) (by decide) ?_
    exact .head (b := ("app".toList, Arch.x86_64)) ⟨by decide, by decide⟩
      (.single ⟨by decide, by decide⟩)

/-- Built for the architecture it runs on, a tool that does not need the application is in no
cycle. -/
theorem crossSource_acyclic : ∃ t bs,
    resolveDeps crossSource .x86_64 .wasm32 ["app"] = .ok t ∧
    resolveBuilds t .x86_64 .wasm32 6 ["app"] = .ok bs ∧
    ∀ k, EntryReachable crossSource .x86_64 .wasm32 ["app"] k →
      OffArch crossSource .x86_64 .wasm32 ["app"] k →
      ¬ Relation.TransGen (EntryDep crossSource .x86_64 .wasm32 ["app"]) k k := by
  obtain ⟨bs, hbs, hiff⟩ := resolution_acyclic_iff crossSource .x86_64 .wasm32 ["app"] (by decide)
    _ rfl 6 (by decide)
  have hacyc : ∀ k ∈ bs.buildlist, ¬ Relation.TransGen bs.Dep k k := by
    cases hbs
    exact fun k hk => Builds.not_transGen_self (by decide) hk
  have ho := (resolvedBuilds_of_eq_ok hbs).ordered hacyc
  exact ⟨_, bs, rfl, hbs, hiff.1 ⟨hacyc, fun mem base b hb m hm => exists_checkDeps ho hm base hb⟩⟩

end Pbuild
