import Playbit.Package.Resolution

/-!
# What cycle detection finds

`ResolutionWalk` is the walk resolution performs when nothing stops it.  `resolveDeps_cases`
describes the outcome of `resolveDeps` in its terms: resolution succeeds iff every package met
has all its dependencies and no cycle leads through packages *at the architecture they are met
first for* (`Loop`).

For a native build without `ARCHDEPENDS` directives every package is met for the one
architecture there is, and the cycles found are the cycles there are.
-/

namespace Pbuild

open Python DepthFirst

@[simp] theorem keeps_singleton (cond : Option Conditional) (a : Arch) :
    keeps cond [a] = condPasses cond a := by
  cases cond <;> simp [keeps, condPasses, checkCondOR]

variable {src : Source} {native target : Arch}

/-- `w` is where the walk from the top-level packages ends that follows every edge. -/
def ResolutionWalk (src : Source) (native target : Arch) (tops : List PkgName)
    (w : State PkgName Ctx) : Prop :=
  Walk (succs src native target) (fun _ _ => True) [] (topEdges target tops) .empty w

theorem mem_entryEdges {ι : Type} {p : PkgName} {c : Ctx} {keep : ι → Bool} {m : Dict Text ι}
    {x : Option (PkgName × Ctx)} :
    x ∈ entryEdges src p c keep m ↔ ∃ e ∈ m, keep e.2 = true ∧ x = (src.dep p e.1).map (·, c) := by
  simp only [entryEdges, List.mem_flatMap]
  refine exists_congr fun e => and_congr_right fun _ => ?_
  cases keep e.2 <;> simp

theorem mem_names_of_entryEdges {ι : Type} {p : PkgName} {c : Ctx} {keep : ι → Bool}
    {m : Dict Text ι} {x : PkgName × Ctx} (h : some x ∈ entryEdges src p c keep m) :
    x.1 ∈ src.names := by
  obtain ⟨e, -, -, he⟩ := mem_entryEdges.1 h
  obtain ⟨q, hq, rfl⟩ := Option.map_eq_some_iff.1 he.symm
  exact Source.mem_names_of_dep hq

theorem mem_names_of_succs {p : PkgName} {c : Ctx} {x : PkgName × Ctx}
    (h : some x ∈ succs src native target p c) : x.1 ∈ src.names := by
  simp only [succs, List.mem_append, List.mem_flatMap] at h
  rcases h with (h | h) | ⟨m, -, h⟩ <;> exact mem_names_of_entryEdges h

theorem mem_topEdges {tops : List PkgName} {x : PkgName × Ctx} :
    some x ∈ topEdges target tops ↔ x.1 ∈ tops ∧ x.2 = .top target := by
  obtain ⟨p, c⟩ := x
  simp only [topEdges, List.mem_map, Option.some.injEq, Prod.mk.injEq]
  constructor
  · rintro ⟨q, hq, rfl, rfl⟩
    exact ⟨hq, rfl⟩
  · rintro ⟨hp, rfl⟩
    exact ⟨p, hp, rfl, rfl⟩

theorem none_notMem_topEdges {tops : List PkgName} : none ∉ topEdges target tops := by
  simp [topEdges]

theorem exists_resolutionWalk {tops : List PkgName} (htops : ∀ p ∈ tops, p ∈ src.names) :
    ∃ w, ResolutionWalk src native target tops w :=
  exists_walk (fun _ _ _ _ => mem_names_of_succs) _ _ _ fun _ hx => htops _ (mem_topEdges.1 hx).1

theorem sameBuild_self (x : PkgName × Ctx) : sameBuild x x = true := by simp [sameBuild]

theorem sameBuild_fst {q z : PkgName × Ctx} (h : sameBuild q z = true) : q.1 = z.1 := by
  simp only [sameBuild, Bool.and_eq_true, decide_eq_true_eq] at h
  exact h.1

/-- **The outcome of resolution.** -/
theorem resolveDeps_cases {tops : List PkgName} (htops : ∀ p ∈ tops, p ∈ src.names)
    {w : State PkgName Ctx} (hw : ResolutionWalk src native target tops w) :
    (∃ t, resolveDeps src native target tops = .ok t ∧ Agrees (pkgSpec src native target) t w ∧
      ¬ DeadEnd (succs src native target) w.met ∧
      ¬ Loop (succs src native target) sameBuild w.met) ∨
    (∃ e, resolveDeps src native target tops = .error e ∧ e.fault = .dead ∧
      DeadEnd (succs src native target) w.met) ∨
    (∃ deppath depname a, resolveDeps src native target tops =
        .error (.cyclicDep deppath depname a) ∧
      Loop (succs src native target) sameBuild w.met) := by
  have hsim := resolveDeps_simulates src native target tops
  have hlen : src.names.length ≤ src.pkgs.length := by simp [Source.names]
  rcases search_cases (fun _ _ _ _ => mem_names_of_succs) sameBuild_self
      (fun _ _ => sameBuild_fst) hlen (fun _ hx => htops _ (mem_topEdges.1 hx).1)
      none_notMem_topEdges hw with
    ⟨h, hd, hl⟩ | ⟨h, hd⟩ | ⟨h, hl⟩
  · rw [h] at hsim
    obtain ⟨t, ht, hagree⟩ := hsim.exists_ok
    exact .inl ⟨t, ht, hagree, hd, hl⟩
  · rw [h] at hsim
    obtain ⟨e, he, hf⟩ := hsim.exists_error
    exact .inr (.inl ⟨e, he, hf, hd⟩)
  · rw [h] at hsim
    obtain ⟨e, he, hf⟩ := hsim.exists_error
    cases e with
    | cyclicDep deppath depname a => exact .inr (.inr ⟨deppath, depname, a, he, hl⟩)
    | pkgNotFound => cases hf
    | assertion => cases hf
    | recursion => cases hf

theorem agrees_of_resolveDeps_eq_ok {tops : List PkgName} (htops : ∀ p ∈ tops, p ∈ src.names)
    {w : State PkgName Ctx} (hw : ResolutionWalk src native target tops w) {t : PkgTable}
    (ht : resolveDeps src native target tops = .ok t) :
    Agrees (pkgSpec src native target) t w ∧
      ¬ Loop (succs src native target) sameBuild w.met := by
  rcases resolveDeps_cases htops hw with
    ⟨t', ht', hagree, -, hloop⟩ | ⟨e, he, -⟩ | ⟨_, _, _, he, -⟩
  · rw [ht] at ht'
    cases ht'
    exact ⟨hagree, hloop⟩
  · rw [ht] at he
    cases he
  · rw [ht] at he
    cases he

/-! ### Native builds -/

/-- `p` has a `DEPENDS` or `BUILDTOOL` entry for `q` whose condition is absent or holds for
`a`. -/
def Active (src : Source) (a : Arch) (p q : PkgName) : Prop :=
  ∃ e ∈ (src.directives p).depends ++ (src.directives p).buildtool,
    condPasses e.2.cond a = true ∧ src.dep p e.1 = some q

/-- `p` is reached from a top-level package over active entries. -/
def ActiveReachable (src : Source) (a : Arch) (tops : List PkgName) (p : PkgName) : Prop :=
  ∃ top ∈ tops, Relation.ReflTransGen (Active src a) top p

/-- Settings under which conditions are evaluated for `a` only. -/
structure Ctx.Native (a : Arch) (c : Ctx) : Prop where
  arch : c.arch = a
  condArch : c.condArch = none ∨ c.condArch = some a
  archdepArchs : c.archdepArchs = []

namespace Ctx.Native

variable {a : Arch} {c : Ctx}

theorem top (a : Arch) : Ctx.Native a (.top a) := ⟨rfl, .inl rfl, rfl⟩

theorem buildtool (h : Ctx.Native a c) : Ctx.Native a (c.buildtool a a) :=
  ⟨rfl, .inr rfl, h.archdepArchs⟩

theorem archs (h : Ctx.Native a c) : c.archs = [a] := by
  rcases h.condArch with hc | hc <;> simp [Ctx.archs, h.archdepArchs, hc, h.arch]

theorem keep (h : Ctx.Native a c) (i : DepInfo) : i.keep c = condPasses i.cond a := by
  rw [DepInfo.keep, h.archs, keeps_singleton]

end Ctx.Native

section NativeBuilds

variable {a : Arch} (harch : ∀ p, (src.directives p).archdepends = [])
include harch

/-- The edges of a package in a native build are its active entries. -/
theorem mem_succs_native {p : PkgName} {c : Ctx} (hc : c.Native a)
    {x : Option (PkgName × Ctx)} (hx : x ∈ succs src a a p c) :
    ∃ e ∈ (src.directives p).depends ++ (src.directives p).buildtool,
      condPasses e.2.cond a = true ∧ ∃ c', Ctx.Native a c' ∧ x = (src.dep p e.1).map (·, c') := by
  simp only [succs, harch, List.flatMap_nil, List.append_nil, List.mem_append] at hx
  rcases hx with hx | hx
  · obtain ⟨e, he, hk, rfl⟩ := mem_entryEdges.1 hx
    exact ⟨e, List.mem_append_left _ he, hc.keep e.2 ▸ hk, c, hc, rfl⟩
  · obtain ⟨e, he, hk, rfl⟩ := mem_entryEdges.1 hx
    exact ⟨e, List.mem_append_right _ he, hc.buildtool.keep e.2 ▸ hk, _, hc.buildtool, rfl⟩

theorem active_of_succs {p : PkgName} {c : Ctx} (hc : c.Native a) {x : PkgName × Ctx}
    (hx : some x ∈ succs src a a p c) : Active src a p x.1 ∧ x.2.Native a := by
  obtain ⟨e, he, hk, c', hc', hx⟩ := mem_succs_native harch hc hx
  obtain ⟨q, hq, rfl⟩ := Option.map_eq_some_iff.1 hx.symm
  exact ⟨⟨e, he, hk, hq⟩, hc'⟩

omit harch in
theorem succs_of_active {p q : PkgName} {c : Ctx} (hc : c.Native a) (h : Active src a p q) :
    ∃ c', Ctx.Native a c' ∧ some (q, c') ∈ succs src a a p c := by
  obtain ⟨e, he, hk, hq⟩ := h
  simp only [succs, List.mem_append]
  rcases List.mem_append.1 he with he | he
  · exact ⟨c, hc, .inl (.inl (mem_entryEdges.2 ⟨e, he, (hc.keep e.2).symm ▸ hk, by rw [hq]; rfl⟩))⟩
  · exact ⟨_, hc.buildtool,
      .inl (.inr (mem_entryEdges.2 ⟨e, he, (hc.buildtool.keep e.2).symm ▸ hk, by rw [hq]; rfl⟩))⟩

variable {tops : List PkgName} {w : State PkgName Ctx} (hw : ResolutionWalk src a a tops w)
include hw

/-- Every package is met for the one architecture, and reached over active entries. -/
theorem native_of_met {y : PkgName × Ctx} (hy : y ∈ w.met) :
    y.2.Native a ∧ ActiveReachable src a tops y.1 := by
  rcases Walk.reached hw hy with hy | ⟨r, hr, -, hry⟩
  · cases hy
  · obtain ⟨hr₁, hr₂⟩ := mem_topEdges.1 hr
    have key : y.2.Native a ∧ Relation.ReflTransGen (Active src a) r.1 y.1 := by
      induction hry with
      | refl => exact ⟨hr₂ ▸ Ctx.Native.top a, .refl⟩
      | tail _ hlink ih =>
        obtain ⟨hact, hnat⟩ := active_of_succs harch (ih hlink.1).1 hlink.2.2
        exact ⟨hnat, (ih hlink.1).2.tail hact⟩
    exact ⟨key.1, r.1, hr₁, key.2⟩

theorem met_of_active {p q : PkgName} (hp : w.Met p) (h : Active src a p q) : w.Met q := by
  obtain ⟨c, hc⟩ := hp.exists
  obtain ⟨c', -, hq⟩ := succs_of_active (native_of_met harch hw hc).1 h
  exact Walk.met_succ hw hc hq

theorem met_iff_activeReachable (p : PkgName) : w.Met p ↔ ActiveReachable src a tops p := by
  constructor
  · intro hp
    obtain ⟨c, hc⟩ := hp.exists
    exact (native_of_met harch hw hc).2
  · rintro ⟨top, htop, h⟩
    induction h with
    | refl => exact Walk.met_of_edge hw (x := (top, .top a)) (mem_topEdges.2 ⟨htop, rfl⟩)
    | tail _ hact ih => exact met_of_active harch hw ih hact

/-- Along active entries, the search hits the packages it has met. -/
theorem hits_of_active {p q : PkgName} {c : Ctx} (hp : (p, c) ∈ w.met)
    (h : Relation.TransGen (Active src a) p q) :
    ∃ c', (q, c') ∈ w.met ∧
      Relation.TransGen (Hit (succs src a a) sameBuild w.met) (p, c) (q, c') := by
  have step : ∀ {p q : PkgName} {c : Ctx}, (p, c) ∈ w.met → Active src a p q →
      ∃ c', (q, c') ∈ w.met ∧ Hit (succs src a a) sameBuild w.met (p, c) (q, c') := by
    intro p q c hp hact
    obtain ⟨c', hc'⟩ := (met_of_active harch hw (State.met_of_mem hp) hact).exists
    obtain ⟨c'', hn, hq⟩ := succs_of_active (native_of_met harch hw hp).1 hact
    refine ⟨c', hc', hp, hc', (q, c''), hq, ?_⟩
    have harch' : c'.arch = a := (native_of_met harch hw hc').1.arch
    simp [sameBuild, hn.arch, harch']
  induction h with
  | single hact => exact (step hp hact).imp fun _ h => ⟨h.1, .single h.2⟩
  | tail _ hact ih =>
    obtain ⟨c₁, hc₁, h₁⟩ := ih
    exact (step hc₁ hact).imp fun _ h => ⟨h.1, h₁.tail h.2⟩

/-- The cycles found are the cycles of the reachable active entries. -/
theorem loop_iff_active_cycle : Loop (succs src a a) sameBuild w.met ↔
    ∃ p, ActiveReachable src a tops p ∧ Relation.TransGen (Active src a) p p := by
  constructor
  · rintro ⟨x, hx⟩
    have hxm : x ∈ w.met := by
      obtain ⟨y, hy, -⟩ := Relation.TransGen.head'_iff.1 hx
      exact hy.1
    refine ⟨x.1, (native_of_met harch hw hxm).2, hx.lift Prod.fst ?_⟩
    rintro y z ⟨hy, -, e, he, hze⟩
    rw [Function.onFun_apply, sameBuild_fst hze]
    exact (active_of_succs harch (native_of_met harch hw hy).1 he).1
  · rintro ⟨p, hp, hcyc⟩
    obtain ⟨c, hc⟩ := ((met_iff_activeReachable harch hw p).2 hp).exists
    obtain ⟨c', hc', hhits⟩ := hits_of_active harch hw hc hcyc
    rw [(Walk.wf hw State.wf_empty).ctx_unique hc' hc] at hhits
    exact ⟨_, hhits⟩

end NativeBuilds

/-- **Cycle detection is exact for native builds.**  Without `ARCHDEPENDS` directives and with
every active entry naming an existing package, resolution ends normally or with
`PkgCyclicDepError`, the latter exactly when the active entries reachable from the top-level
packages contain a cycle. -/
theorem resolveDeps_native_exact (src : Source) (a : Arch) (tops : List PkgName)
    (htops : ∀ p ∈ tops, p ∈ src.names)
    (harch : ∀ p ∈ src.names, (src.directives p).archdepends = [])
    (hdeps : ∀ p ∈ src.names, ∀ e ∈ (src.directives p).depends ++ (src.directives p).buildtool,
      condPasses e.2.cond a = true → (src.dep p e.1).isSome) :
    ((∃ t, resolveDeps src a a tops = .ok t) ∨
      ∃ deppath depname arch, resolveDeps src a a tops =
        .error (.cyclicDep deppath depname arch)) ∧
    ((∃ deppath depname arch, resolveDeps src a a tops =
        .error (.cyclicDep deppath depname arch)) ↔
      ∃ p, ActiveReachable src a tops p ∧ Relation.TransGen (Active src a) p p) := by
  obtain ⟨w, hw⟩ := exists_resolutionWalk htops
  replace harch : ∀ p, (src.directives p).archdepends = [] := by
    intro p
    by_cases hp : p ∈ src.names
    · exact harch p hp
    · rw [Source.directives_eq_default hp]
  rw [← loop_iff_active_cycle harch hw]
  have hlive : ¬ DeadEnd (succs src a a) w.met := by
    rintro ⟨y, hy, hnone⟩
    obtain ⟨e, he, hk, c', -, hx⟩ :=
      mem_succs_native harch (native_of_met harch hw hy).1 hnone
    have hy' : y.1 ∈ src.names := by
      by_contra hy'
      rw [Source.directives_eq_default hy'] at he
      cases he
    have hsome := hdeps y.1 hy' e he hk
    rw [Option.map_eq_none_iff.1 hx.symm] at hsome
    cases hsome
  rcases resolveDeps_cases htops hw with
    ⟨t, ht, -, -, hl⟩ | ⟨-, -, -, hd⟩ | ⟨deppath, depname, arch, he, hl⟩
  · refine ⟨.inl ⟨t, ht⟩, fun ⟨_, _, _, he⟩ => ?_, fun h => absurd h hl⟩
    rw [ht] at he
    cases he
  · exact absurd hd hlive
  · exact ⟨.inr ⟨deppath, depname, arch, he⟩, fun _ => hl, fun _ => ⟨deppath, depname, arch, he⟩⟩

/-- A compiler that is built with a tool that depends on it. -/
def bootstrapSource : Source where
  srcroot := ["src"]
  pkgs := [("cc", { buildtool := [("make", ⟨[], none⟩)] }),
    ("make", { depends := [("cc", ⟨[], none⟩)] })]

theorem bootstrapSource_cyclic :
    ∃ deppath depname arch, resolveDeps bootstrapSource .x86_64 .x86_64 ["cc"] =
      .error (.cyclicDep deppath depname arch) := by
  refine (resolveDeps_native_exact bootstrapSource .x86_64 ["cc"] (by decide) (by decide)
    (by decide)).2.2 ⟨"cc".toList, ⟨_, List.mem_singleton.2 rfl, .refl⟩, ?_⟩
  have h₁ : Active bootstrapSource .x86_64 "cc".toList "make".toList :=
    ⟨("make".toList, ⟨[], none⟩), List.mem_singleton.2 rfl, rfl, by decide⟩
  have h₂ : Active bootstrapSource .x86_64 "make".toList "cc".toList :=
    ⟨("cc".toList, ⟨[], none⟩), List.mem_singleton.2 rfl, rfl, by decide⟩
  exact .tail (.single h₁) h₂

end Pbuild
