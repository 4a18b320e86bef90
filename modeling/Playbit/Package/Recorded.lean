import Playbit.Package.Resolution

/-!
# What resolution records in a package

The attributes `resolvedPkg` in closed form: of the entries that are kept, the first one for each
package (`firstKept`).

`resolvedPkg_eq` is the closed form; which entries are in it is said for each kind of dependency by
itself.
-/

namespace Pbuild

open Python

section AppendNew

variable {α : Type*} {f : α → PkgName}

theorem mem_foldl_appendNew_iff (l acc : List α) (x : α) :
    x ∈ l.foldl (appendNew f) acc ↔
      x ∈ acc ∨ (∀ y ∈ acc, f y ≠ f x) ∧ l.find? (fun y => f y = f x) = some x := by
  induction l generalizing acc with
  | nil => simp
  | cons e l ih =>
    rw [List.foldl_cons, ih, appendNew]
    by_cases he : acc.any (fun y => f y = f e) = true
    · rw [if_pos he]
      obtain ⟨y, hy, hye⟩ := List.any_eq_true.1 he
      have hye : f y = f e := by simpa using hye
      by_cases hex : f e = f x
      · -- the package of `x` is in the list already
        simp only [List.find?_cons, hex, decide_true, Option.some.injEq]
        have hno : ¬ ∀ z ∈ acc, f z ≠ f x := fun h => h y hy (hye.trans hex)
        simp only [hno, false_and]
      · simp only [List.find?_cons, hex, decide_false]
    · rw [if_neg he]
      have hnew : ∀ y ∈ acc, f y ≠ f e := by
        intro y hy hye
        exact he (List.any_eq_true.2 ⟨y, hy, by simpa using hye⟩)
      by_cases hex : f e = f x
      · have hnew' : ∀ y ∈ acc, f y ≠ f x := hex ▸ hnew
        simp only [List.find?_cons, hex, decide_true, Option.some.injEq, List.mem_append,
          List.mem_singleton]
        grind
      · simp only [List.find?_cons, hex, decide_false, List.mem_append, List.mem_singleton]
        grind

theorem mem_foldl_appendNew {l : List α} {x : α} :
    x ∈ l.foldl (appendNew f) [] ↔ l.find? (fun y => f y = f x) = some x := by
  simp [mem_foldl_appendNew_iff]

/-- The entry that is in the list for `q` is the first one for `q`. -/
theorem exists_mem_foldl_appendNew {ι : Type} {g : PkgName × ι → α} (hg : ∀ x, f (g x) = x.1)
    {l : List (PkgName × ι)} {q : PkgName} {P : α → Prop} :
    (∃ d ∈ (l.map g).foldl (appendNew f) [], f d = q ∧ P d) ↔
      ∃ i, (l.find? fun x => x.1 = q).map Prod.snd = some i ∧ P (g (q, i)) := by
  have hfind : ∀ d, (l.map g).find? (fun y => f y = f d) =
      (l.find? fun x => x.1 = f d).map g := by
    intro d
    rw [List.find?_map]
    congr 2
    funext x
    simp [hg]
  constructor
  · rintro ⟨d, hd, rfl, hP⟩
    rw [mem_foldl_appendNew, hfind] at hd
    obtain ⟨x, hx, rfl⟩ := Option.map_eq_some_iff.1 hd
    refine ⟨x.2, by rw [hx]; rfl, ?_⟩
    rw [hg]
    exact hP
  · rintro ⟨i, hi, hP⟩
    obtain ⟨x, hx, rfl⟩ := Option.map_eq_some_iff.1 hi
    have hxq : x.1 = q := by simpa using List.find?_some hx
    subst hxq
    refine ⟨g x, ?_, hg x, hP⟩
    rw [mem_foldl_appendNew, hfind, hg, hx]
    rfl

end AppendNew

/-- The entries of `m` that are kept, with the packages they name. -/
def kept {ι : Type} (src : Source) (p : PkgName) (keep : ι → Bool) (m : Dict Text ι) :
    List (PkgName × ι) :=
  m.filterMap fun e => if keep e.2 then (src.dep p e.1).map (·, e.2) else none

/-- The first entry of `m` for `q` that is kept. -/
def firstKept {ι : Type} (src : Source) (p : PkgName) (keep : ι → Bool) (m : Dict Text ι)
    (q : PkgName) : Option ι :=
  ((kept src p keep m).find? fun x => x.1 = q).map Prod.snd

variable {src : Source} {native target : Arch} {p : PkgName}

theorem recordEntries_eq {ι : Type} {keep : ι → Bool} {add : ι → PkgName → Pkg → Pkg}
    (m : Dict Text ι) (pkg : Pkg) :
    recordEntries src p keep add m pkg =
      (kept src p keep m).foldl (fun pkg x => add x.2 x.1 pkg) pkg := by
  induction m generalizing pkg with
  | nil => rfl
  | cons e m ih =>
    simp only [recordEntries, List.foldl_cons, kept, List.filterMap_cons] at ih ⊢
    cases hk : keep e.2 with
    | false => simpa [hk] using ih pkg
    | true => cases hd : src.dep p e.1 <;> simpa using ih _

/-- An entry as it is recorded in `deps` or `hostdeps`. -/
def toPkgDep (x : PkgName × DepInfo) : PkgDep := ⟨x.1, x.2.tags, x.2.cond⟩

/-- An entry as it is recorded in `archdeps`. -/
def toPkgArchDep (x : PkgName × ArchDepInfo) : PkgArchDep := ⟨x.1, x.2.mountpoint, x.2.cond⟩

theorem foldl_addDep (l : List (PkgName × DepInfo)) (pkg : Pkg) :
    l.foldl (fun pkg x => x.2.record Pkg.addDep x.1 pkg) pkg =
      { pkg with deps := (l.map toPkgDep).foldl (appendNew PkgDep.pkg) pkg.deps } := by
  induction l generalizing pkg with
  | nil => rfl
  | cons x l ih => rw [List.foldl_cons, ih]; rfl

theorem foldl_addHostdep (l : List (PkgName × DepInfo)) (pkg : Pkg) :
    l.foldl (fun pkg x => x.2.record Pkg.addHostdep x.1 pkg) pkg =
      { pkg with hostdeps := (l.map toPkgDep).foldl (appendNew PkgDep.pkg) pkg.hostdeps } := by
  induction l generalizing pkg with
  | nil => rfl
  | cons x l ih => rw [List.foldl_cons, ih]; rfl

theorem foldl_addArchdep (a : Arch) (l : List (PkgName × ArchDepInfo)) (pkg : Pkg)
    {d : Dict Arch (List PkgArchDep)} (hd : a ∉ d.map Prod.fst) {l₀ : List PkgArchDep}
    (hpkg : pkg.archdeps = d ++ [(a, l₀)]) :
    l.foldl (fun pkg x => x.2.record a x.1 pkg) pkg =
      { pkg with archdeps :=
        d ++ [(a, (l.map toPkgArchDep).foldl (appendNew PkgArchDep.pkg) l₀)] } := by
  induction l generalizing pkg l₀ with
  | nil => cases pkg; cases hpkg; rfl
  | cons x l ih =>
    have halter : (x.2.record a x.1 pkg).archdeps =
        d ++ [(a, appendNew PkgArchDep.pkg l₀ (toPkgArchDep x))] := by
      simp only [ArchDepInfo.record, Pkg.addArchdep, hpkg]
      exact Dict.alter_append_singleton hd _ _
    rw [List.foldl_cons, ih _ halter]
    rfl

/-- What the `ARCHDEPENDS` entries of `p` for one architecture leave in `archdeps`. -/
def recordedArchdeps (src : Source) (p : PkgName) (archs : List Arch)
    (m : Arch × Dict Text ArchDepInfo) : Arch × List PkgArchDep :=
  (m.1, ((kept src p (ArchDepInfo.keep (.archdep archs m.1)) m.2).map toPkgArchDep).foldl
    (appendNew PkgArchDep.pkg) [])

theorem foldl_archdepends (archs : List Arch) (l : Dict Arch (Dict Text ArchDepInfo)) (pkg : Pkg)
    (hl : (l.map Prod.fst).Nodup) (hpkg : ∀ m ∈ l, m.1 ∉ pkg.archdeps.map Prod.fst) :
    l.foldl (fun pkg m => recordEntries src p (ArchDepInfo.keep (.archdep archs m.1))
        (ArchDepInfo.record m.1) m.2 (pkg.touchArch m.1)) pkg =
      { pkg with archdeps := pkg.archdeps ++ l.map (recordedArchdeps src p archs) } := by
  induction l generalizing pkg with
  | nil => simp
  | cons m l ih =>
    rw [List.map_cons, List.nodup_cons] at hl
    have hm := hpkg m List.mem_cons_self
    have htouch : (pkg.touchArch m.1).archdeps = pkg.archdeps ++ [(m.1, [])] :=
      Dict.alter_of_notMem hm _
    rw [List.foldl_cons, recordEntries_eq, foldl_addArchdep m.1 _ _ hm htouch, ih _ hl.2]
    · simp [recordedArchdeps, Pkg.touchArch]
    · intro m' hm' hmem
      rw [List.map_append, List.mem_append, List.map_cons, List.map_nil,
        List.mem_singleton] at hmem
      rcases hmem with hmem | hmem
      · exact hpkg m' (.tail _ hm') hmem
      · exact hl.1 (List.mem_map.2 ⟨m', hm', hmem⟩)

theorem resolvedPkg_eq (src : Source) (native target : Arch) (p : PkgName) (c : Ctx) :
    resolvedPkg src native target p c =
      { deps := ((kept src p (DepInfo.keep c) (src.directives p).depends).map
          toPkgDep).foldl (appendNew PkgDep.pkg) []
        hostdeps := ((kept src p (DepInfo.keep (c.buildtool native target))
          (src.directives p).buildtool).map toPkgDep).foldl (appendNew PkgDep.pkg) []
        archdeps := (src.directives p).archdepends.map
          (recordedArchdeps src p ((src.directives p).archdepends.map Prod.fst))
        depsResolved := true } := by
  rw [resolvedPkg, recordEntries_eq, recordEntries_eq, foldl_addDep, foldl_addHostdep,
    foldl_archdepends _ _ _ (src.directives p).archdepends_nodup]
  · simp
  · intro m _ h
    cases h

/-- The recorded `DEPENDS` entries: for each package the first entry kept. -/
theorem exists_mem_resolvedPkg_deps {c : Ctx} {q : PkgName} {a : Arch} :
    (∃ d ∈ (resolvedPkg src native target p c).deps, d.pkg = q ∧ condPasses d.cond a = true) ↔
      ∃ i, firstKept src p (DepInfo.keep c) (src.directives p).depends q = some i ∧
        condPasses i.cond a = true := by
  rw [resolvedPkg_eq]
  exact exists_mem_foldl_appendNew (f := PkgDep.pkg) (g := toPkgDep) (fun _ => rfl)
    (P := fun d => condPasses d.cond a = true)

theorem exists_mem_resolvedPkg_hostdeps {c : Ctx} {q : PkgName} {a : Arch} :
    (∃ d ∈ (resolvedPkg src native target p c).hostdeps, d.pkg = q ∧
        condPasses d.cond a = true) ↔
      ∃ i, firstKept src p (DepInfo.keep (c.buildtool native target))
          (src.directives p).buildtool q = some i ∧ condPasses i.cond a = true := by
  rw [resolvedPkg_eq]
  exact exists_mem_foldl_appendNew (f := PkgDep.pkg) (g := toPkgDep) (fun _ => rfl)
    (P := fun d => condPasses d.cond a = true)

/-- The recorded `ARCHDEPENDS` entries, for each architecture. -/
theorem exists_mem_recordedArchdeps {archs : List Arch} {m : Arch × Dict Text ArchDepInfo}
    {q : PkgName} {a : Arch} {mountpoint : Text} :
    (∃ d ∈ (recordedArchdeps src p archs m).2, d.pkg = q ∧ condPasses d.cond a = true ∧
        d.mountpoint = mountpoint) ↔
      ∃ i, firstKept src p (ArchDepInfo.keep (.archdep archs m.1)) m.2 q = some i ∧
        condPasses i.cond a = true ∧ i.mountpoint = mountpoint :=
  exists_mem_foldl_appendNew (f := PkgArchDep.pkg) (g := toPkgArchDep) (fun _ => rfl)
    (P := fun d => condPasses d.cond a = true ∧ d.mountpoint = mountpoint)

end Pbuild
