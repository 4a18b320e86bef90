import Playbit.Graph.Table
import Playbit.Package.ResolveDeps

/-!
# Resolution is a depth-first search

The search behind `resolveDeps` enters packages under architecture settings (`Ctx`), along the
edges `succs`, and stops at an edge back to an ancestor resolved for the same architecture
(`sameBuild`).

Resolution behaves like that search, and a package that is entered under `c` ends up with the
attributes `resolvedPkg src native target p c` (`resolveDeps_simulates`).
-/

namespace Pbuild

open Python DepthFirst

/-- The fault of the search that an error corresponds to. -/
def ResolveError.fault : ResolveError → DepthFirst.Fault
  | .pkgNotFound _ _ => .dead
  | .cyclicDep _ _ _ => .cycle
  | .assertion => .dead
  | .recursion => .fuel

/-- The edges of the entries `m` of `p`, whose packages are resolved under `c`; an edge to a
missing package is dead. -/
def entryEdges {ι : Type} (src : Source) (p : PkgName) (c : Ctx) (keep : ι → Bool)
    (m : Dict Text ι) : List (Option (PkgName × Ctx)) :=
  m.flatMap fun e => if keep e.2 then [(src.dep p e.1).map (·, c)] else []

/-- The edges of a package entered under `c`. -/
def succs (src : Source) (native target : Arch) (p : PkgName) (c : Ctx) :
    List (Option (PkgName × Ctx)) :=
  let d := src.directives p
  let archs := d.archdepends.map Prod.fst
  let cb := c.buildtool native target
  entryEdges src p c (DepInfo.keep c) d.depends ++
    entryEdges src p cb (DepInfo.keep cb) d.buildtool ++
    d.archdepends.flatMap fun m =>
      entryEdges src p (.archdep archs m.1) (ArchDepInfo.keep (.archdep archs m.1)) m.2

/-- The test of `_load_dep`: the same package is being resolved for the same architecture. -/
def sameBuild (q x : PkgName × Ctx) : Bool := q.1 = x.1 && q.2.arch = x.2.arch

/-- What the entries `m` of `p` add to its attributes. -/
def recordEntries {ι : Type} (src : Source) (p : PkgName) (keep : ι → Bool)
    (add : ι → PkgName → Pkg → Pkg) (m : Dict Text ι) (pkg : Pkg) : Pkg :=
  m.foldl (fun pkg e =>
    if keep e.2 then
      match src.dep p e.1 with
      | some q => add e.2 q pkg
      | none => pkg
    else pkg) pkg

/-- The attributes of a package that has been resolved under `c`. -/
def resolvedPkg (src : Source) (native target : Arch) (p : PkgName) (c : Ctx) : Pkg :=
  let d := src.directives p
  let archs := d.archdepends.map Prod.fst
  let cb := c.buildtool native target
  let pkg := recordEntries src p (DepInfo.keep c) (DepInfo.record Pkg.addDep) d.depends
    { depsResolved := true }
  let pkg := recordEntries src p (DepInfo.keep cb) (DepInfo.record Pkg.addHostdep) d.buildtool pkg
  d.archdepends.foldl (fun pkg m =>
    recordEntries src p (ArchDepInfo.keep (.archdep archs m.1)) (ArchDepInfo.record m.1) m.2
      (pkg.touchArch m.1)) pkg

/-- What resolution leaves in the table of packages. -/
def pkgSpec (src : Source) (native target : Arch) : TableSpec PkgName Ctx PkgTable Pkg where
  attr t p := t p
  fresh := {}
  final := resolvedPkg src native target
  inv t s := ∀ p, s.Met p → (t p).depsResolved = true

variable {src : Source} {native target : Arch}

/-! ### Changes of the table -/

@[simp] theorem PkgTable.modify_self (t : PkgTable) (p : PkgName) (f : Pkg → Pkg) :
    t.modify p f p = f (t p) := by
  simp [PkgTable.modify]

theorem PkgTable.modify_of_ne (t : PkgTable) {p q : PkgName} (f : Pkg → Pkg) (h : q ≠ p) :
    t.modify p f q = t q := by
  simp [PkgTable.modify, h]

theorem depsResolved_iff_met {t : PkgTable} {s : State PkgName Ctx}
    (h : Agrees (pkgSpec src native target) t s) (p : PkgName) :
    (t p).depsResolved = true ↔ s.Met p := by
  refine ⟨fun hr => ?_, h.inv p⟩
  by_contra hm
  have hfresh : t p = {} := h.fresh p hm
  rw [hfresh] at hr
  cases hr

theorem stage_modify {self : PkgName} {pkg : Pkg} {t t' : PkgTable} {s s' : State PkgName Ctx}
    (h : Stage (pkgSpec src native target) self pkg t s t' s') (hm : s.Met self)
    (hd : ¬ s.Done self) {f : Pkg → Pkg} (hf : ∀ p, (f p).depsResolved = p.depsResolved) :
    Stage (pkgSpec src native target) self (f pkg) t s (t'.modify self f) s' := by
  refine ⟨h.1.change hm hd (fun u hu => t'.modify_of_ne f hu) fun p hp => ?_, ?_⟩
  · by_cases hps : p = self
    · subst hps; simpa [hf] using h.1.agrees.inv p hp
    · simpa [t'.modify_of_ne f hps] using h.1.agrees.inv p hp
  · exact (t'.modify_self self f).trans (congrArg f h.2)

theorem Pkg.touchArch_depsResolved (a : Arch) (p : Pkg) :
    (p.touchArch a).depsResolved = p.depsResolved := rfl

theorem DepInfo.record_addDep_depsResolved (i : DepInfo) (q : PkgName) (p : Pkg) :
    (i.record Pkg.addDep q p).depsResolved = p.depsResolved := rfl

theorem DepInfo.record_addHostdep_depsResolved (i : DepInfo) (q : PkgName) (p : Pkg) :
    (i.record Pkg.addHostdep q p).depsResolved = p.depsResolved := rfl

theorem ArchDepInfo.record_depsResolved (a : Arch) (i : ArchDepInfo) (q : PkgName) (p : Pkg) :
    (i.record a q p).depsResolved = p.depsResolved := rfl

/-! ### The simulation -/

/-- The stack of packages, as resolution keeps it. -/
def deppathOf (path : List (PkgName × Ctx)) : List (PkgName × Arch) :=
  path.map fun q => (q.1, q.2.arch)

theorem mem_deppathOf_iff {path : List (PkgName × Ctx)} {q : PkgName} {c : Ctx} :
    (q, c.arch) ∈ deppathOf path ↔ path.any (sameBuild · (q, c)) = true := by
  simp [deppathOf, sameBuild, List.any_eq_true]

/-- Resolving a package behaves like entering it. -/
def ResolvesLike (src : Source) (native target : Arch) (resolve : Resolver)
    (visit : List (PkgName × Ctx) → PkgName × Ctx → State PkgName Ctx →
      Except Fault (State PkgName Ctx)) : Prop :=
  ∀ path x t s, Agrees (pkgSpec src native target) t s → ¬ s.Met x.1 →
    Simulates ResolveError.fault (Extends (pkgSpec src native target) (fun _ => True) t s)
      (resolve x.1 (deppathOf path) x.2 t) (visit path x s)

section Entries

variable {resolve : Resolver}
  {visit : List (PkgName × Ctx) → PkgName × Ctx → State PkgName Ctx →
    Except Fault (State PkgName Ctx)}
  {path : List (PkgName × Ctx)} {self : PkgName} {c₀ c : Ctx} {pkg : Pkg} {t t' : PkgTable}
  {s s' : State PkgName Ctx}

/-- Resolving a package unless that is done is entering it unless it has been met. -/
theorem resolveUnlessResolved_simulates (hr : ResolvesLike src native target resolve visit)
    (path : List (PkgName × Ctx)) (h : Agrees (pkgSpec src native target) t s) (q : PkgName) :
    Simulates ResolveError.fault (Extends (pkgSpec src native target) (fun _ => True) t s)
      (if (t q).depsResolved then .ok t else resolve q (deppathOf path) c t)
      (if s.Met q then .ok s else visit path (q, c) s) := by
  by_cases hmet : s.Met q
  · rw [if_pos hmet, if_pos (h.inv q hmet)]
    exact .ok h.refl_extends
  · rw [if_neg hmet, if_neg (mt (depsResolved_iff_met h q).1 hmet)]
    exact hr path (q, c) t s h hmet

theorem resolveEntry_simulates (hr : ResolvesLike src native target resolve visit)
    {depname : Text} {add : PkgName → Pkg → Pkg}
    (hadd : ∀ q p, (add q p).depsResolved = p.depsResolved) (hm : s.Met self)
    (hd : ¬ s.Done self) (h : Stage (pkgSpec src native target) self pkg t s t' s') :
    Simulates ResolveError.fault
      (fun t₁ s₁ => ∃ q, src.dep self depname = some q ∧
        Stage (pkgSpec src native target) self (add q pkg) t s t₁ s₁)
      (resolveEntry src resolve self (deppathOf (path ++ [(self, c₀)])) c depname add t')
      (follow sameBuild visit (path ++ [(self, c₀)]) s'
        ((src.dep self depname).map (·, c))) := by
  have hpath : deppathOf (path ++ [(self, c₀)]) = deppathOf path ++ [(self, c₀.arch)] := by
    simp [deppathOf]
  have hload := loadDependencyPkg_eq src depname (deppathOf path) self c₀.arch
  rw [← hpath] at hload
  cases hdep : src.dep self depname with
  | none =>
    rw [hdep] at hload
    rcases hload with hload | hload <;>
      simp only [resolveEntry, Pkg._loadDep, hload, Option.map_none, follow, Except.bind] <;>
      exact .error
  | some q =>
    rw [hdep] at hload
    by_cases hb : (path ++ [(self, c₀)]).any (sameBuild · (q, c)) = true
    · simp only [resolveEntry, Pkg._loadDep, hload, Option.map_some, follow, Except.bind,
        mem_deppathOf_iff, hb, if_true]
      exact .error
    · have hload' : Pkg._loadDep src depname (deppathOf (path ++ [(self, c₀)])) c.arch = .ok q := by
        rw [Pkg._loadDep, hload]
        exact if_neg (mt mem_deppathOf_iff.1 hb)
      rw [resolveEntry, hload', Option.map_some, follow, if_neg hb]
      refine (resolveUnlessResolved_simulates hr _ h.1.agrees q).bind_ok fun t₁ s₁ hext => ?_
      have hstage : Stage (pkgSpec src native target) self pkg t s t₁ s₁ :=
        ⟨h.1.trans (hext.mono fun _ _ => trivial),
          (hext.same self (h.1.met _ hm) trivial).trans h.2⟩
      exact ⟨q, rfl, stage_modify hstage hm hd (hadd q)⟩

theorem resolveEntries_simulates {ι : Type} (hr : ResolvesLike src native target resolve visit)
    {keep : ι → Bool} {add : ι → PkgName → Pkg → Pkg}
    (hadd : ∀ i q p, (add i q p).depsResolved = p.depsResolved) (m : Dict Text ι)
    (hm : s.Met self) (hd : ¬ s.Done self)
    (h : Stage (pkgSpec src native target) self pkg t s t' s') :
    Simulates ResolveError.fault
      (Stage (pkgSpec src native target) self (recordEntries src self keep add m pkg) t s)
      (resolveEntries src resolve self (deppathOf (path ++ [(self, c₀)])) c keep add m t')
      ((entryEdges src self c keep m).foldlM (follow sameBuild visit (path ++ [(self, c₀)]))
        s') := by
  refine Simulates.foldlM (Q := fun pkg => Stage (pkgSpec src native target) self pkg t s) m
    (fun e _ pkg t₁ s₁ h₁ => ?_) h
  cases keep e.2 with
  | false => exact .ok h₁
  | true =>
    rw [if_pos rfl, if_pos rfl, if_pos rfl, List.foldlM_cons]
    refine (resolveEntry_simulates hr (hadd e.2) hm hd h₁).bind_right ?_
    rintro t₂ s₂ ⟨q, hq, h₂⟩
    rw [hq]
    exact .ok h₂

/-- The `ARCHDEPENDS` entries of a package being resolved. -/
theorem resolveArchdepends_simulates (hr : ResolvesLike src native target resolve visit)
    (archs : List Arch) (l : Dict Arch (Dict Text ArchDepInfo)) (hm : s.Met self)
    (hd : ¬ s.Done self) (h : Stage (pkgSpec src native target) self pkg t s t' s') :
    Simulates ResolveError.fault
      (Stage (pkgSpec src native target) self
        (l.foldl (fun pkg m => recordEntries src self (ArchDepInfo.keep (.archdep archs m.1))
          (ArchDepInfo.record m.1) m.2 (pkg.touchArch m.1)) pkg) t s)
      (l.foldlM (fun t m =>
        Pkg._resolveArchdeps src resolve self (deppathOf (path ++ [(self, c₀)]))
          (.archdep archs m.1) m.2 (t.modify self (Pkg.touchArch m.1))) t')
      ((l.flatMap fun m => entryEdges src self (.archdep archs m.1)
        (ArchDepInfo.keep (.archdep archs m.1)) m.2).foldlM
          (follow sameBuild visit (path ++ [(self, c₀)])) s') := by
  refine Simulates.foldlM (Q := fun pkg => Stage (pkgSpec src native target) self pkg t s) l
    (fun m _ pkg t₁ s₁ h₁ => ?_) h
  exact resolveEntries_simulates hr (ArchDepInfo.record_depsResolved m.1) m.2 hm hd
    (stage_modify h₁ hm hd (Pkg.touchArch_depsResolved m.1))

end Entries

theorem resolveDeps_resolvesLike (n : ℕ) :
    ResolvesLike src native target (Pkg.resolveDeps src native target n)
      (DepthFirst.visit (succs src native target) sameBuild n) := by
  induction n with
  | zero => intro path x t s _ _; exact .error
  | succ n ih =>
    rintro path ⟨self, c⟩ t s h hx
    let t₀ := t.modify self fun p => { p with depsResolved := true }
    have hne : ∀ u, u ≠ self → t₀ u = t u := fun u hu => t.modify_of_ne _ hu
    have hm : (s.enter (self, c)).Met self := State.met_of_mem (x := (self, c)) (by simp)
    have hd : ¬ (s.enter (self, c)).Done self := fun hd => hx (h.sub self hd)
    have hres : ¬ (t self).depsResolved = true := mt (depsResolved_iff_met h self).1 hx
    have hself : t₀ self = { depsResolved := true } := by
      have hfresh : t self = {} := h.fresh self hx
      rw [show t₀ self = _ from t.modify_self self _, hfresh]
    have hinv : ∀ p, (s.enter (self, c)).Met p → (t₀ p).depsResolved = true := by
      intro p hp
      by_cases hps : p = self
      · rw [hps, hself]
      · rw [hne p hps]
        exact h.inv p (by simpa [State.Met, hps] using hp)
    have hstart : Stage (pkgSpec src native target) self { depsResolved := true }
        t₀ (s.enter (self, c)) t₀ (s.enter (self, c)) :=
      ⟨(h.enter hx hne hinv).refl_extends, hself⟩
    have hpath : deppathOf path ++ [(self, c.arch)] = deppathOf (path ++ [(self, c)]) := by
      simp [deppathOf]
    simp only [Pkg.resolveDeps, if_neg hres, visit_succ, hpath]
    refine Simulates.map_right ?_ fun t' s' (h' : Stage _ _ _ _ _ _ _) =>
      h'.leave hx hne (fun _ => rfl) h'.1.agrees.inv
    rw [succs, List.append_assoc, search_append]
    refine (resolveEntries_simulates ih DepInfo.record_addDep_depsResolved _ hm hd hstart).bind
      fun t₁ s₁ h₁ => ?_
    rw [search_append]
    refine (resolveEntries_simulates ih DepInfo.record_addHostdep_depsResolved _ hm hd h₁).bind
      fun t₂ s₂ h₂ => ?_
    exact resolveArchdepends_simulates ih _ _ hm hd h₂

/-- The edges a search for the top-level packages starts on. -/
def topEdges (target : Arch) (topLevelPkgs : List PkgName) : List (Option (PkgName × Ctx)) :=
  topLevelPkgs.map fun p => some (p, .top target)

theorem resolveTops_simulates (n : ℕ) (tops : List PkgName) {t : PkgTable}
    {s : State PkgName Ctx} (h : Agrees (pkgSpec src native target) t s) :
    Simulates ResolveError.fault (Agrees (pkgSpec src native target))
      (tops.foldlM (fun t p =>
        if (t p).depsResolved then .ok t
        else Pkg.resolveDeps src native target n p [] (.top target) t) t)
      (search (succs src native target) sameBuild n [] (topEdges target tops) s) := by
  induction tops generalizing t s with
  | nil => exact .ok h
  | cons p tops ih =>
    rw [List.foldlM_cons, topEdges, List.map_cons, search_cons]
    exact (resolveUnlessResolved_simulates (resolveDeps_resolvesLike n) [] h p).bind
      fun t₁ s₁ h₁ => ih h₁.agrees

/-- **Resolution is a depth-first search**: `resolveDeps` fails like the search over `succs`, and
when both succeed every package met under `c` has the attributes `resolvedPkg _ _ _ p c`. -/
theorem resolveDeps_simulates (src : Source) (native target : Arch) (tops : List PkgName) :
    Simulates ResolveError.fault (Agrees (pkgSpec src native target))
      (resolveDeps src native target tops)
      (search (succs src native target) sameBuild src.pkgs.length [] (topEdges target tops)
        .empty) :=
  resolveTops_simulates _ tops (agrees_empty (fun _ => rfl) fun _ hp => by cases hp)

end Pbuild
