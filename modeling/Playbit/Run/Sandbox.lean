import Playbit.Build.Archdeps
import Playbit.Machine.Overlay
import Playbit.Run.Mounts

/-!
# What a build sees in its sandbox

The root of a sandbox is an overlay mount.  Its lower directories are a base layer, the output
directories of the dependencies, and on top of them a layer of whiteouts, which keeps directories
such as `/build` and `/tmp` of the dependencies out of the sandbox; the upper directory is the
output directory of the build itself.  On top of the root there are other mounts: the source root at
`/p`, three directories of the host, the overlays for `ARCHDEPENDS` entries, a shared directory and
a file system for temporary files.  These are among the mounts of `Run/Mounts`, in the same order
(`mountedTrees_sublist`).

When a build has replaced a directory that a lower layer also has, the file system marks the new
one as opaque, and as a layer it would hide what other packages have in that directory.
`clear_xattrs_from_tree` takes these marks away again below `distroot`.  The overlays are also
mounted with `metacopy` and `redirect_dir`; the trees here are those of builds that have neither
renamed a directory of a lower layer nor changed only the metadata of a file there.

**What a build finds in its sandbox** outside of the mounts is what it has put there itself and what
the outputs of its dependencies have (`sandbox_shows_iff`); where there is a whiteout, **nothing of
a dependency is seen** except through a mount (`sees_of_masked`).
-/

namespace Pbuild

open Python Overlay

/-! ### The stack -/

/-- A lower directory of a sandbox. -/
inductive LowerDir
  /-- The root directory of the host. -/
  | root
  | baselayer
  | bootstrap
  | dep (dir : LayerDir)
  | whiteout
  deriving DecidableEq

/-- What is below the dependencies.  `hasBootstrap` says whether the package has a `BOOTSTRAP`
directive. -/
def bottomDirs (hermetic hasBootstrap : Bool) : List LowerDir :=
  if hermetic && hasBootstrap then [.bootstrap]
  else (if hermetic then [] else [.root]) ++ [.baselayer]

/-- The lower directories in `buildInSandbox`, from bottom to top. -/
def lowerdirs (hermetic hasBootstrap : Bool) (deps : List LayerDir) : List LowerDir :=
  bottomDirs hermetic hasBootstrap ++ deps.map .dep ++ [.whiteout]

/-- `WHITEOUT_DIRS`. -/
def whiteoutDirs : List (List Text) :=
  [["build".toList], ["dev".toList], ["p".toList], ["pbuild".toList], ["proc".toList],
    ["swap".toList], ["sys".toList], ["tmp".toList],
    ["usr".toList, "include".toList, "c++".toList], ["vhost".toList]]

variable {α : Type}

/-- Do something in a directory, which is created if it is missing. -/
def within (x : Text) (f : DirTree Text α → DirTree Text α) : DirTree Text α → DirTree Text α
  | .nil => .dir x false (f .nil) .nil
  | .leaf name a rest => if name = x then .leaf name a rest else .leaf name a (within x f rest)
  | .dir name isOpaque sub rest =>
    if name = x then .dir name isOpaque (f sub) rest else .dir name isOpaque sub (within x f rest)

/-- `mkdirs` for the parent directory and `os.mknod`, which fails if there is something. -/
def mknod : List Text → DirTree Text α → DirTree Text α
  | [], t => t
  | [x], t => if (t.lookup [x]).isNone then .leaf x none t else t
  | x :: p, t => within x (mknod p) t

/-- The directory that `setup_whiteout_dir` creates. -/
def whiteoutTree : DirTree Text α := whiteoutDirs.foldl (fun t p => mknod p t) .nil

/-- The contents of the directories that sandboxes are made of. -/
structure OutputTrees (α : Type) where
  /-- The output directory of each build, as the build has left it. -/
  raw : BuildKey → DirTree Text α
  /-- `_out_distroot` of each build, which is copied once and may be older than the output. -/
  copy : BuildKey → DirTree Text α
  /-- What is in the directories at the bottom. -/
  base : LowerDir → DirTree Text α

/-- What a sandbox is made of, at some time in a build. -/
structure SandboxTrees (α : Type) extends OutputTrees α where
  /-- The output directory of the build itself. -/
  upper : DirTree Text α
  /-- `SRCROOT` -/
  srcroot : DirTree Text α
  /-- What the build has changed in `/p`. -/
  upperP : DirTree Text α
  /-- `/dev`, `/proc` and `/sys` of the host. -/
  host : Text → List Text → Option (Shown α)
  /-- The upper directory of an overlay for `ARCHDEPENDS` entries. -/
  archdepUpper : ArchdepMount → DirTree Text α
  /-- `_pbuild.shared` -/
  shared : DirTree Text α
  tmp : DirTree Text α

/-- The output directory after `clear_xattrs_from_tree(outdir / 'distroot', …)`. -/
def OutputTrees.out (w : OutputTrees α) (u : BuildKey) : DirTree Text α :=
  DirTree.clearOpaqueIn "distroot".toList (w.raw u)

/-- The layer that an output directory makes. -/
def OutputTrees.depLayer (w : OutputTrees α) : LayerDir → Layer Text α
  | .out u => (w.out u).lookup
  | .distroot u => fun p => (w.out u).lookup ("distroot".toList :: p)
  | .distrootCopy u => (w.copy u).lookup

/-- The layer that a lower directory makes. -/
def OutputTrees.layer (w : OutputTrees α) : LowerDir → Layer Text α
  | .dep dir => w.depLayer dir
  | .whiteout => whiteoutTree.lookup
  | dir => (w.base dir).lookup

/-- The layers of the root of a sandbox, from top to bottom. -/
def sandboxLayers (w : SandboxTrees α) (hermetic hasBootstrap : Bool) (deps : List LayerDir) :
    List (Layer Text α) :=
  w.upper.lookup :: (lowerdirs hermetic hasBootstrap deps).reverse.map w.layer

/-- The layers of an overlay for `ARCHDEPENDS` entries, from top to bottom. -/
def archdepLayers (w : SandboxTrees α) (m : ArchdepMount) : List (Layer Text α) :=
  (if m.writable then [(w.archdepUpper m).lookup] else []) ++ m.lowerdirs.map w.depLayer

/-- The overlay for `ARCHDEPENDS` entries, as it is mounted in the sandbox. -/
def archdepMounted (w : SandboxTrees α) (m : ArchdepMount) : Mounted Text α :=
  ⟨pathParts m.mountpoint, view (archdepLayers w m)⟩

/-- What `buildInSandbox` mounts first: `SRCROOT`, as an overlay, and directories of the host. -/
def hostMounts (w : SandboxTrees α) : List (Mounted Text α) :=
  ⟨["p".toList], view [w.upperP.lookup, w.srcroot.lookup]⟩ ::
    ["dev".toList, "proc".toList, "sys".toList].map fun dir => ⟨[dir], w.host dir⟩

/-- What `buildInSandbox` mounts last. -/
def sharedMounts (w : SandboxTrees α) : List (Mounted Text α) :=
  [⟨["build".toList, "shared".toList], view [w.shared.lookup]⟩,
    ⟨["tmp".toList], view [w.tmp.lookup]⟩]

/-- What `buildInSandbox` mounts in the sandbox, in order. -/
def mountedTrees (w : SandboxTrees α) (archdeps : List ArchdepMount) : List (Mounted Text α) :=
  hostMounts w ++ archdeps.map (archdepMounted w) ++ sharedMounts w

/-- What is seen at a path in the sandbox. -/
def SandboxTrees.sees (w : SandboxTrees α) (hermetic hasBootstrap : Bool) (deps : List LayerDir)
    (archdeps : List ArchdepMount) (p : List Text) : Option (Shown α) :=
  resolve (view (sandboxLayers w hermetic hasBootstrap deps)) (mountedTrees w archdeps) p

/-- These are the mounts that a process makes in the build directory, in the same order. -/
theorem mountedTrees_sublist (w : SandboxTrees α) (archdeps : List ArchdepMount) (builddir : Path) :
    ((mountedTrees w archdeps).map fun m => sandboxDir builddir m.dir).Sublist
      ((sandboxMounts builddir (archdeps.map fun m => pathParts m.mountpoint)).map
        SandboxMount.target) := by
  have harchdeps : (archdeps.map fun m => sandboxDir builddir (archdepMounted w m).dir).Sublist
      (((archdeps.map fun m => pathParts m.mountpoint).flatMap fun dir =>
        [⟨builddir ++ "archdep".toList :: (dir ++ ["mnt".toList]), true⟩,
          ⟨sandboxDir builddir dir, false⟩]).map SandboxMount.target) := by
    induction archdeps with
    | nil => exact List.Sublist.refl _
    | cons m archdeps ih => exact .cons _ (.cons_cons _ ih)
  simp only [mountedTrees, sandboxMounts, List.map_append, List.map_map]
  refine (List.Sublist.append ?_ harchdeps).append (List.Sublist.refl _)
  exact .cons _ (List.Sublist.refl _)

/-! ### Whiteouts -/

/-- At or below one of `WHITEOUT_DIRS`. -/
def Masked (p : List Text) : Prop := ∃ d ∈ whiteoutDirs, d <+: p

theorem whiteoutTree_eq : (whiteoutTree : DirTree Text α) =
    .leaf "vhost".toList none (.leaf "tmp".toList none (.leaf "sys".toList none
      (.leaf "swap".toList none (.leaf "proc".toList none (.leaf "pbuild".toList none
        (.leaf "p".toList none (.leaf "dev".toList none (.leaf "build".toList none
          (.dir "usr".toList false
            (.dir "include".toList false (.leaf "c++".toList none .nil) .nil) .nil))))))))) := by
  simp [whiteoutTree, whiteoutDirs, mknod, within, FileTree.lookup]

theorem lookup_whiteoutTree {d : List Text} (hd : d ∈ whiteoutDirs) :
    (whiteoutTree : DirTree Text α).lookup d = some Entry.whiteout := by
  rw [whiteoutTree_eq]
  simp only [whiteoutDirs, List.mem_cons, List.not_mem_nil, or_false] at hd
  rcases hd with rfl | rfl | rfl | rfl | rfl | rfl | rfl | rfl | rfl | rfl <;> rfl

/-- There are only the whiteouts, and directories that lead to one. -/
theorem whiteoutTree_lookup_cases {p : List Text} {e : Entry α}
    (h : (whiteoutTree : DirTree Text α).lookup p = some e) :
    (∃ d ∈ whiteoutDirs, p <+: d) ∧ (e = .whiteout ∧ p ∈ whiteoutDirs ∨ e = .dir false) := by
  have hwhiteout : ∀ d ∈ whiteoutDirs, p = d ∧ e = .whiteout →
      (∃ d ∈ whiteoutDirs, p <+: d) ∧ (e = .whiteout ∧ p ∈ whiteoutDirs ∨ e = .dir false) := by
    rintro d hd ⟨rfl, rfl⟩
    exact ⟨⟨p, hd, List.prefix_rfl⟩, .inl ⟨rfl, hd⟩⟩
  have hdir : ∀ q d, q ++ d ∈ whiteoutDirs → p = q ∧ e = .dir false →
      (∃ d ∈ whiteoutDirs, p <+: d) ∧ (e = .whiteout ∧ p ∈ whiteoutDirs ∨ e = .dir false) := by
    rintro q d hd ⟨rfl, rfl⟩
    exact ⟨⟨_, hd, List.prefix_append _ _⟩, .inr rfl⟩
  have hcxx : ["usr".toList, "include".toList, "c++".toList] ∈ whiteoutDirs := by
    simp [whiteoutDirs]
  rw [whiteoutTree_eq] at h
  -- the names at the top, one after the other, and then what is in `usr`
  iterate 9
    obtain h' | h := FileTree.lookup_leaf_cases h
    · exact hwhiteout _ (by simp [whiteoutDirs]) h'
  obtain h | ⟨q, -, rfl, hsub⟩ | h := FileTree.lookup_dir_cases h
  · exact hdir ["usr".toList] _ hcxx h
  · obtain ⟨rfl, rfl⟩ | ⟨q, -, rfl, hinclude⟩ | hsub := FileTree.lookup_dir_cases hsub
    · exact hdir ["usr".toList, "include".toList] _ hcxx ⟨rfl, rfl⟩
    · obtain ⟨rfl, rfl⟩ | hinclude := FileTree.lookup_leaf_cases hinclude
      · exact hwhiteout _ hcxx ⟨rfl, rfl⟩
      · obtain ⟨rfl, rfl⟩ := FileTree.lookup_nil_cases hinclude
        exact hdir ["usr".toList, "include".toList] _ hcxx ⟨rfl, rfl⟩
    · obtain ⟨rfl, rfl⟩ := FileTree.lookup_nil_cases hsub
      exact hdir ["usr".toList] _ hcxx ⟨rfl, rfl⟩
  · exact hdir [] _ hcxx (FileTree.lookup_nil_cases h)

/-- Nothing in the layers below is seen through a whiteout. -/
theorem view_whiteoutTree {p : List Text} (hp : Masked p) (Ls : List (Layer Text α)) :
    view (whiteoutTree.lookup :: Ls) p = none := by
  obtain ⟨d, hd, habove⟩ := hp
  have hlookup := lookup_whiteoutTree (α := α) hd
  by_cases heq : d = p
  · rw [view_of_some (heq ▸ hlookup)]
    rfl
  · have hnone : (whiteoutTree : DirTree Text α).lookup p = none := by
      obtain ⟨q, rfl⟩ := habove
      cases h : (whiteoutTree : DirTree Text α).lookup (d ++ q) with
      | none => rfl
      | some e =>
        have hq : q ≠ [] := fun hq => heq (by simp [hq])
        obtain ⟨o, ho⟩ := whiteoutTree.exists_dir_of_lookup hq h
        rw [hlookup] at ho
        cases ho
    refine view_of_hides hnone ?_
    by_contra hnot
    have hfalse := Layer.hides_eq_false_iff.1 (Bool.eq_false_iff.2 hnot) d habove heq _ hlookup
    cases hfalse

/-- **Nothing of a dependency is seen where there is a whiteout**, except through a mount: in the
root there is only what the build itself has put there. -/
theorem sees_of_masked (w : SandboxTrees α) (hermetic hasBootstrap : Bool) (deps : List LayerDir)
    (archdeps : List ArchdepMount) {p : List Text} (hp : Masked p) :
    w.sees hermetic hasBootstrap deps archdeps p =
      resolve (view [w.upper.lookup]) (mountedTrees w archdeps) p := by
  have hrev : (lowerdirs hermetic hasBootstrap deps).reverse.map w.layer =
      whiteoutTree.lookup ::
        (lowerdirs hermetic hasBootstrap deps).dropLast.reverse.map w.layer := by
    simp [lowerdirs, OutputTrees.layer]
  refine resolve_congr ?_ _
  rw [sandboxLayers, hrev]
  exact view_cons_congr (view_whiteoutTree hp _)

/-! ### The outputs of the dependencies -/

/-- Nothing on the way to a path but directories; outside of `distroot` these are not opaque. -/
def Passable (t : DirTree Text α) (p : List Text) : Prop :=
  ∀ q, q <+: p → q ≠ p → ∀ e, t.lookup q = some e →
    ∃ o, e = .dir o ∧ (o = true → q.head? = some "distroot".toList)

/-- A path is not obstructed in the output of a build: there is `a`, or nothing. -/
def Lets (t : DirTree Text α) (p : List Text) (a : α) : Prop :=
  t.lookup p = some (Entry.object a) ∨ t.lookup p = none ∧ Passable t p

theorem lookup_out_eq_object_iff {w : OutputTrees α} {u : BuildKey} {p : List Text} {a : α} :
    (w.out u).lookup p = some (Entry.object a) ↔ (w.raw u).lookup p = some (Entry.object a) := by
  cases p with
  | nil => simp
  | cons x p =>
    by_cases hx : x = "distroot".toList
    · subst hx
      rw [OutputTrees.out, DirTree.lookup_clearOpaqueIn_self, Option.map_eq_some_iff]
      constructor
      · rintro ⟨e, he, heq⟩
        cases e with
        | leaf a' => rwa [← heq]
        | dir o => cases heq
      · exact fun h => ⟨_, h, rfl⟩
    · rw [OutputTrees.out, DirTree.lookup_clearOpaqueIn_of_ne _ hx]

theorem lookup_out_eq_none {w : OutputTrees α} {u : BuildKey} {p : List Text}
    (h : (w.raw u).lookup p = none) : (w.out u).lookup p = none := by
  cases p with
  | nil => simp at h
  | cons x p =>
    by_cases hx : x = "distroot".toList
    · subst hx
      rw [OutputTrees.out, DirTree.lookup_clearOpaqueIn_self, h]
      rfl
    · rw [OutputTrees.out, DirTree.lookup_clearOpaqueIn_of_ne _ hx, h]

/-- Once the marks are cleared nothing on the way stops the merging of directories. -/
theorem stops_out {w : OutputTrees α} {u : BuildKey} {p q : List Text} {e : Entry α}
    (h : Passable (w.raw u) p) (hq : q <+: p) (hne : q ≠ p) (he : (w.out u).lookup q = some e) :
    e.stops = false := by
  cases q with
  | nil =>
    rw [FileTree.lookup_nil] at he
    cases he
    rfl
  | cons x q =>
    by_cases hx : x = "distroot".toList
    · subst hx
      rw [OutputTrees.out, DirTree.lookup_clearOpaqueIn_self, Option.map_eq_some_iff] at he
      obtain ⟨e', he', rfl⟩ := he
      obtain ⟨o, rfl, -⟩ := h _ hq hne e' he'
      rfl
    · rw [OutputTrees.out, DirTree.lookup_clearOpaqueIn_of_ne _ hx] at he
      obtain ⟨o, rfl, ho⟩ := h _ hq hne e he
      cases o with
      | false => rfl
      | true => exact absurd (Option.some.inj (ho rfl)) hx

theorem agrees_out {w : OutputTrees α} {u : BuildKey} {p : List Text} {a : α}
    (h : Lets (w.raw u) p a) : Layer.Agrees (w.depLayer (.out u)) p a := by
  refine h.imp lookup_out_eq_object_iff.2 fun ⟨hnone, hpass⟩ => ⟨lookup_out_eq_none hnone, ?_⟩
  exact Layer.hides_eq_false_iff.2 fun q hq hne e he => stops_out hpass hq hne he

theorem agrees_distroot {w : OutputTrees α} {u : BuildKey} {p : List Text} {a : α}
    (h : Lets (w.raw u) ("distroot".toList :: p) a) :
    Layer.Agrees (w.depLayer (.distroot u)) p a := by
  refine h.imp lookup_out_eq_object_iff.2 fun ⟨hnone, hpass⟩ => ⟨lookup_out_eq_none hnone, ?_⟩
  exact Layer.hides_eq_false_iff.2 fun q hq hne e he =>
    stops_out hpass (List.cons_prefix_cons.2 ⟨rfl, hq⟩) (fun h => hne (List.cons.inj h).2) he

/-- A path that `WHITEOUT_DIRS` has nothing to do with. -/
def Exported (p : List Text) : Prop := ∀ d ∈ whiteoutDirs, ¬ d <+: p ∧ ¬ p <+: d

instance (p : List Text) : Decidable (Exported p) :=
  inferInstanceAs (Decidable (∀ d ∈ whiteoutDirs, ¬ d <+: p ∧ ¬ p <+: d))

theorem whiteoutTree_of_exported {p : List Text} (hp : Exported p) :
    (whiteoutTree : DirTree Text α).lookup p = none ∧
      Layer.hides (whiteoutTree : DirTree Text α).lookup p = false := by
  refine ⟨?_, Layer.hides_eq_false_iff.2 fun q hq _ e he => ?_⟩
  · cases h : (whiteoutTree : DirTree Text α).lookup p with
    | none => rfl
    | some e =>
      obtain ⟨⟨d, hd, habove⟩, -⟩ := whiteoutTree_lookup_cases h
      exact absurd habove (hp d hd).2
  · obtain ⟨-, ⟨rfl, hmem⟩ | rfl⟩ := whiteoutTree_lookup_cases he
    · exact absurd hq (hp q hmem).1
    · rfl

theorem Exported.not_isPrefix {p d : List Text} (hp : Exported p) (hd : Masked d) : ¬ d <+: p := by
  obtain ⟨d', hd', habove⟩ := hd
  exact fun h => (hp d' hd').1 (habove.trans h)

theorem masked_of_mem {d : List Text} (hd : d ∈ whiteoutDirs) : Masked d :=
  ⟨d, hd, List.prefix_rfl⟩

theorem masked_hostMounts {w : SandboxTrees α} : ∀ m ∈ hostMounts w, Masked m.dir := by
  simp only [hostMounts, List.forall_mem_cons, List.forall_mem_map]
  exact ⟨masked_of_mem (by decide), masked_of_mem (by decide), masked_of_mem (by decide),
    masked_of_mem (by decide), by simp⟩

theorem masked_sharedMounts {w : SandboxTrees α} : ∀ m ∈ sharedMounts w, Masked m.dir := by
  simp only [sharedMounts, List.forall_mem_cons]
  exact ⟨⟨["build".toList], by decide, ["shared".toList], rfl⟩, masked_of_mem (by decide), by simp⟩

/-- Of the mounts, only those for `ARCHDEPENDS` entries are outside of `WHITEOUT_DIRS`. -/
theorem sees_of_exported {w : SandboxTrees α} {hermetic hasBootstrap : Bool}
    {deps : List LayerDir} {archdeps : List ArchdepMount} {p : List Text} (hp : Exported p)
    (hm : ∀ m ∈ archdeps, ¬ pathParts m.mountpoint <+: p) :
    w.sees hermetic hasBootstrap deps archdeps p =
      view (sandboxLayers w hermetic hasBootstrap deps) p := by
  refine resolve_of_notMounted fun m hmem => ?_
  simp only [mountedTrees, List.mem_append, List.mem_map] at hmem
  rcases hmem with (hmem | ⟨m, hmem, rfl⟩) | hmem
  · exact hp.not_isPrefix (masked_hostMounts m hmem)
  · exact hm m hmem
  · exact hp.not_isPrefix (masked_sharedMounts m hmem)

/-- Below the mountpoint of an `ARCHDEPENDS` entry there is what its overlay shows. -/
theorem sees_archdep {w : SandboxTrees α} {hermetic hasBootstrap : Bool} {deps : List LayerDir}
    {l₁ l₂ : List ArchdepMount} {m : ArchdepMount} {p : List Text}
    (hp : Exported (pathParts m.mountpoint ++ p))
    (hlast : ∀ m' ∈ l₂, ¬ pathParts m'.mountpoint <+: pathParts m.mountpoint ++ p) :
    w.sees hermetic hasBootstrap deps (l₁ ++ m :: l₂) (pathParts m.mountpoint ++ p) =
      view (archdepLayers w m) p := by
  have hmounts : mountedTrees w (l₁ ++ m :: l₂) =
      (hostMounts w ++ l₁.map (archdepMounted w)) ++
        archdepMounted w m :: (l₂.map (archdepMounted w) ++ sharedMounts w) := by
    simp [mountedTrees]
  rw [SandboxTrees.sees, hmounts]
  refine resolve_of_last (m := archdepMounted w m) fun m' hm' => ?_
  rcases List.mem_append.1 hm' with hm' | hm'
  · obtain ⟨m', hmem, rfl⟩ := List.mem_map.1 hm'
    exact hlast m' hmem
  · exact hp.not_isPrefix (masked_sharedMounts m' hm')

/-! ### What is found -/

variable {bs : Builds} {metapackage : PkgName → Bool} {dirExists : LayerDir → Bool}

/-- The output of `u` is seen in the sandbox of `b` since a `DEPENDS` entry leads to it. -/
def DependsLayer (bs : Builds) (metapackage : PkgName → Bool) (b u : BuildKey) : Prop :=
  ∃ e ∈ (bs.build b).deps, metapackage u.1 = false ∧
    Relation.ReflTransGen bs.graph.Transitive e.1 u

/-- The same for a `BUILDTOOL` entry; then it is `distroot` of the output that is seen. -/
def ToolLayer (bs : Builds) (metapackage : PkgName → Bool) (b u : BuildKey) : Prop :=
  ∃ e ∈ (bs.build b).hostdeps, metapackage u.1 = false ∧
    Relation.ReflTransGen bs.graph.Transitive e.1 u

/-- Where a path is not obstructed in the sandbox of `b`: it is outside of `WHITEOUT_DIRS` and of
the mounts, and every directory that makes a layer has `a` there or lets the layers below be
seen. -/
structure Unobstructed (bs : Builds) (metapackage : PkgName → Bool) (w : SandboxTrees α)
    (hermetic hasBootstrap : Bool) (b : BuildKey) (archdeps : List ArchdepMount) (p : List Text)
    (a : α) : Prop where
  exported : Exported p
  notMounted : ∀ m ∈ archdeps, ¬ pathParts m.mountpoint <+: p
  own : Layer.Agrees w.upper.lookup p a
  deps : ∀ u, DependsLayer bs metapackage b u → Lets (w.raw u) p a
  tools : ∀ u, ToolLayer bs metapackage b u → ¬ DependsLayer bs metapackage b u →
    Lets (w.raw u) ("distroot".toList :: p) a
  copies : ∀ u, ToolLayer bs metapackage b u → DependsLayer bs metapackage b u →
    Layer.Agrees (w.copy u).lookup p a
  bottom : ∀ dir ∈ bottomDirs hermetic hasBootstrap, Layer.Agrees (w.base dir).lookup p a

/-- Which directories are the layers of the dependencies. -/
theorem mem_depLayerDirs_cases {n : ℕ} {b : BuildKey} {dirs : List LayerDir}
    (h : depLayerDirs bs metapackage dirExists n b = .ok dirs) (dir : LayerDir) :
    dir ∈ dirs ↔ (∃ u, DependsLayer bs metapackage b u ∧ dir = .out u) ∨
      (∃ u, ToolLayer bs metapackage b u ∧ ¬ DependsLayer bs metapackage b u ∧
        dir = .distroot u) ∨
      ∃ u, ToolLayer bs metapackage b u ∧ DependsLayer bs metapackage b u ∧
        dir = .distrootCopy u := by
  obtain ⟨s, s', depPart, hostPart, -, -, -, rfl, hmem, hmem'⟩ := depLayerDirs_eq_ok h
  have hout (u : BuildKey) :
      LayerDir.out u ∈ depPart.map LayerDir.out ↔ DependsLayer bs metapackage b u := by
    rw [DependsLayer, ← hmem u]
    simp
  have hhost (u : BuildKey) : dir = partDir true (depPart.map .out) u ↔
      ¬ DependsLayer bs metapackage b u ∧ dir = .distroot u ∨
        DependsLayer bs metapackage b u ∧ dir = .distrootCopy u := by
    rw [partDir, if_pos rfl, ← hout u]
    split_ifs with hu <;> simp [hu]
  rw [List.mem_append, List.mem_map, List.mem_map, or_comm]
  refine or_congr ?_ ?_
  · exact exists_congr fun u => and_congr (hmem u) eq_comm
  · rw [← exists_or]
    refine exists_congr fun u => ?_
    rw [← and_or_left, ← hhost u]
    exact and_congr (hmem' u) eq_comm

theorem layer_of_mem_bottomDirs {w : OutputTrees α} {hermetic hasBootstrap : Bool}
    {dir : LowerDir} (hdir : dir ∈ bottomDirs hermetic hasBootstrap) :
    w.layer dir = (w.base dir).lookup := by
  have hcases : dir = .bootstrap ∨ dir = .root ∨ dir = .baselayer := by
    rw [bottomDirs] at hdir
    split_ifs at hdir <;> simp at hdir <;> tauto
  rcases hcases with rfl | rfl | rfl <;> rfl

theorem mem_sandboxLayers {w : SandboxTrees α} {hermetic hasBootstrap : Bool}
    {dirs : List LayerDir} {L : Layer Text α} :
    L ∈ sandboxLayers w hermetic hasBootstrap dirs ↔
      L = w.upper.lookup ∨ L = whiteoutTree.lookup ∨ (∃ dir ∈ dirs, L = w.depLayer dir) ∨
        ∃ dir ∈ bottomDirs hermetic hasBootstrap, L = (w.base dir).lookup := by
  have hbottom : (∃ dir ∈ bottomDirs hermetic hasBootstrap, L = (w.base dir).lookup) ↔
      ∃ dir ∈ bottomDirs hermetic hasBootstrap, w.layer dir = L :=
    exists_congr fun dir => and_congr_right fun hdir => by
      rw [layer_of_mem_bottomDirs hdir, eq_comm]
  rw [hbottom]
  simp [sandboxLayers, lowerdirs, OutputTrees.layer, eq_comm]

section Shows

variable {n : ℕ} {w : SandboxTrees α} {hermetic hasBootstrap : Bool} {b : BuildKey}
  {dirs : List LayerDir} {archdeps : List ArchdepMount} {p : List Text} {a : α}

theorem sandboxLayers_agree (h : depLayerDirs bs metapackage dirExists n b = .ok dirs)
    (hp : Unobstructed bs metapackage w hermetic hasBootstrap b archdeps p a) :
    ∀ L ∈ sandboxLayers w hermetic hasBootstrap dirs, L.Agrees p a := by
  intro L hL
  rcases mem_sandboxLayers.1 hL with rfl | rfl | ⟨dir, hdir, rfl⟩ | ⟨dir, hdir, rfl⟩
  · exact hp.own
  · exact .inr (whiteoutTree_of_exported hp.exported)
  · rcases (mem_depLayerDirs_cases h dir).1 hdir with
      ⟨u, hu, rfl⟩ | ⟨u, htool, hu, rfl⟩ | ⟨u, htool, hu, rfl⟩
    · exact agrees_out (hp.deps u hu)
    · exact agrees_distroot (hp.tools u htool hu)
    · exact hp.copies u htool hu
  · exact hp.bottom dir hdir

/-- What the dependencies have, by the way in which they are needed. -/
theorem exists_depLayer_iff (h : depLayerDirs bs metapackage dirExists n b = .ok dirs) :
    (∃ dir ∈ dirs, w.depLayer dir p = some (Entry.object a)) ↔
      (∃ u, DependsLayer bs metapackage b u ∧ (w.raw u).lookup p = some (Entry.object a)) ∨
      (∃ u, ToolLayer bs metapackage b u ∧ ¬ DependsLayer bs metapackage b u ∧
        (w.raw u).lookup ("distroot".toList :: p) = some (Entry.object a)) ∨
      ∃ u, ToolLayer bs metapackage b u ∧ DependsLayer bs metapackage b u ∧
        (w.copy u).lookup p = some (Entry.object a) := by
  constructor
  · rintro ⟨dir, hdir, hL⟩
    rcases (mem_depLayerDirs_cases h dir).1 hdir with
      ⟨u, hu, rfl⟩ | ⟨u, htool, hu, rfl⟩ | ⟨u, htool, hu, rfl⟩
    · exact .inl ⟨u, hu, lookup_out_eq_object_iff.1 hL⟩
    · exact .inr (.inl ⟨u, htool, hu, lookup_out_eq_object_iff.1 hL⟩)
    · exact .inr (.inr ⟨u, htool, hu, hL⟩)
  · rintro (⟨u, hu, hL⟩ | ⟨u, htool, hu, hL⟩ | ⟨u, htool, hu, hL⟩)
    · exact ⟨_, (mem_depLayerDirs_cases h _).2 (.inl ⟨u, hu, rfl⟩),
        lookup_out_eq_object_iff.2 hL⟩
    · exact ⟨_, (mem_depLayerDirs_cases h _).2 (.inr (.inl ⟨u, htool, hu, rfl⟩)),
        lookup_out_eq_object_iff.2 hL⟩
    · exact ⟨_, (mem_depLayerDirs_cases h _).2 (.inr (.inr ⟨u, htool, hu, rfl⟩)), hL⟩

end Shows

/-- **What a build finds in its sandbox**: what it has put there itself; the output of direct
dependencies and of what these need transitively; below `distroot` of the output, what build-time
dependencies have, where for those that are also dependencies of the other kind it is the copy that
counts; and what is at the bottom. -/
theorem sandbox_shows_iff (bs : Builds) (metapackage : PkgName → Bool)
    (dirExists : LayerDir → Bool) (n : ℕ) (w : SandboxTrees α) (hermetic hasBootstrap : Bool)
    (b : BuildKey) (dirs : List LayerDir) (archdeps : List ArchdepMount) (p : List Text) (a : α)
    (h : depLayerDirs bs metapackage dirExists n b = .ok dirs)
    (hp : Unobstructed bs metapackage w hermetic hasBootstrap b archdeps p a) :
    w.sees hermetic hasBootstrap dirs archdeps p = some (.object a) ↔
      w.upper.lookup p = some (Entry.object a) ∨
      (∃ u, DependsLayer bs metapackage b u ∧ (w.raw u).lookup p = some (Entry.object a)) ∨
      (∃ u, ToolLayer bs metapackage b u ∧ ¬ DependsLayer bs metapackage b u ∧
        (w.raw u).lookup ("distroot".toList :: p) = some (Entry.object a)) ∨
      (∃ u, ToolLayer bs metapackage b u ∧ DependsLayer bs metapackage b u ∧
        (w.copy u).lookup p = some (Entry.object a)) ∨
      ∃ dir ∈ bottomDirs hermetic hasBootstrap,
        (w.base dir).lookup p = some (Entry.object a) := by
  have hwhiteout : (whiteoutTree : DirTree Text α).lookup p ≠ some (Entry.object a) := by
    rw [(whiteoutTree_of_exported hp.exported).1]
    exact Option.some_ne_none _ ∘ Eq.symm
  rw [sees_of_exported hp.exported hp.notMounted, view_eq_object_iff (sandboxLayers_agree h hp)]
  calc (∃ L ∈ sandboxLayers w hermetic hasBootstrap dirs, L p = some (Entry.object a))
    _ ↔ w.upper.lookup p = some (Entry.object a) ∨
        (∃ dir ∈ dirs, w.depLayer dir p = some (Entry.object a)) ∨
        ∃ dir ∈ bottomDirs hermetic hasBootstrap,
          (w.base dir).lookup p = some (Entry.object a) := by
      simp only [mem_sandboxLayers]
      constructor
      · rintro ⟨L, rfl | rfl | ⟨dir, hdir, rfl⟩ | ⟨dir, hdir, rfl⟩, hL⟩
        · exact .inl hL
        · exact absurd hL hwhiteout
        · exact .inr (.inl ⟨dir, hdir, hL⟩)
        · exact .inr (.inr ⟨dir, hdir, hL⟩)
      · rintro (hL | ⟨dir, hdir, hL⟩ | ⟨dir, hdir, hL⟩)
        · exact ⟨_, .inl rfl, hL⟩
        · exact ⟨_, .inr (.inr (.inl ⟨dir, hdir, rfl⟩)), hL⟩
        · exact ⟨_, .inr (.inr (.inr ⟨dir, hdir, rfl⟩)), hL⟩
    _ ↔ _ := by rw [exists_depLayer_iff h, or_assoc, or_assoc]

/-- The library and the tool of `stackBuilds` have a `distroot` with a file, which they have marked
as opaque; the application has nothing yet. -/
def stackTrees : SandboxTrees Unit where
  raw u := if u.1 = "app".toList then .nil
    else .dir "distroot".toList true (.leaf "lib.a".toList (some ()) .nil) .nil
  copy _ := .leaf "lib.a".toList (some ()) .nil
  base _ := .nil
  upper := .nil
  srcroot := .nil
  upperP := .nil
  host _ _ := none
  archdepUpper _ := .nil
  shared := .nil
  tmp := .nil

/-- The library has a file at `/vhost`, which the application does not see. -/
theorem sees_of_masked_vhost :
    let w := { stackTrees with raw := fun _ => .leaf "vhost".toList (some ()) .nil }
    w.depLayer (.out ("lib".toList, .x86_64)) ["vhost".toList] = some (Entry.object ()) ∧
      w.sees true false [.out ("lib".toList, .x86_64)] [] ["vhost".toList] = none :=
  ⟨rfl, (sees_of_masked _ true false _ _ (masked_of_mem (by decide))).trans rfl⟩

theorem lets_stackTrees (u : BuildKey) {p : List Text}
    (hp : p = ["distroot".toList, "lib.a".toList] ∨
      p = ["distroot".toList, "distroot".toList, "lib.a".toList]) :
    Lets (stackTrees.raw u) p () := by
  by_cases hu : u.1 = "app".toList
  · refine .inr ?_
    simp only [stackTrees, if_pos hu]
    refine ⟨by rcases hp with rfl | rfl <;> rfl, fun q _ _ e he => ?_⟩
    obtain ⟨-, rfl⟩ := FileTree.lookup_nil_cases he
    exact ⟨false, rfl, by simp⟩
  · simp only [stackTrees, if_neg hu]
    rcases hp with rfl | rfl
    · exact .inl rfl
    · refine .inr ⟨rfl, fun q hq hne e he => ?_⟩
      simp only [List.prefix_cons_iff, List.prefix_nil] at hq
      rcases hq with rfl | ⟨q, rfl, rfl | ⟨q, rfl, rfl | ⟨q, rfl, rfl⟩⟩⟩
      · cases he
        exact ⟨false, rfl, by simp⟩
      · cases he
        exact ⟨true, rfl, fun _ => rfl⟩
      · cases he
      · exact absurd rfl hne

theorem sandbox_shows_stackBuilds :
    stackTrees.sees true false
      [.distrootCopy ("lib".toList, .x86_64), .distroot ("tool".toList, .x86_64),
        .out ("lib".toList, .x86_64)] [] ["distroot".toList, "lib.a".toList] =
      some (.object ()) := by
  refine (sandbox_shows_iff stackBuilds (fun _ => false) (fun _ => true) 3 stackTrees true false
    ("app".toList, .x86_64) _ [] _ () rfl ⟨by decide, by simp, ?_, ?_, ?_, ?_, ?_⟩).2
      (.inr (.inl ?_))
  · exact .inr ⟨rfl, rfl⟩
  · exact fun u _ => lets_stackTrees u (.inl rfl)
  · exact fun u _ _ => lets_stackTrees u (.inr rfl)
  · exact fun u _ _ => .inr ⟨rfl, rfl⟩
  · exact fun dir _ => .inr ⟨rfl, rfl⟩
  · exact ⟨_, ⟨_, List.mem_singleton_self _, rfl, .refl⟩, rfl⟩

end Pbuild
