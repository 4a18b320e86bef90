import Playbit.Graph.Parts
import Playbit.Build.Runtime

/-!
# The mountpoints of `ARCHDEPENDS` entries

`setupArchdepLayers` groups the `ARCHDEPENDS` entries of a build by their mountpoints and mounts an
overlay for each group, with the output of the packages and of what these need at run time.

The entries are grouped by the mountpoint as it is written, but mounted without the slashes around
it, and what has been seen for one group is left out in those after it.  So a mountpoint is complete
only if all of what is needed there is needed in one group, and nowhere else.

`SeparateMountpoints` says which entries these are, and `archdepLayers_complete_iff` that they are
exactly the ones whose mountpoints are all complete.
-/

namespace Pbuild

open Python DepthFirst

/-! ### The code -/

/-- The variables of `visit_dep`. -/
structure ArchdepVisit where
  seen : List LayerDir := []
  dirs : List LayerDir := []

/-- An overlay, as `setupArchdepLayers` mounts it. -/
structure ArchdepMount where
  /-- From top to bottom. -/
  lowerdirs : List LayerDir
  /-- The directory in the sandbox, relative to `/`. -/
  mountpoint : Text
  /-- The overlay itself, in the build directory. -/
  mntdir : List Text
  /-- There are an upper and a work directory. -/
  writable : Bool
  deriving DecidableEq

section Def

variable (bs : Builds) (metapackage : PkgName → Bool) (dirExists : LayerDir → Bool)

/-- `visit_dep`.  The fuel bounds the depth of the recursion. -/
def visitArchdep : ℕ → ArchdepVisit → BuildKey → Except LayerError ArchdepVisit
  | 0, s, b => if .distroot b ∈ s.seen then .ok s else .error .recursion
  | n + 1, s, b =>
    if .distroot b ∈ s.seen then .ok s
    else do
      let s ← (bs.build b).deps.foldlM (fun s e =>
        if "transitive".toList ∈ e.2 then visitArchdep n s e.1 else .ok s) s
      let s : ArchdepVisit := { s with seen := s.seen ++ [.distroot b] }
      if metapackage b.1 then .ok s
      else do
        checkDepDirExist metapackage dirExists {} b (.distroot b)
        .ok { s with dirs := s.dirs ++ [.distroot b] }

/-- `mountpoints`: the dependencies by mountpoint. -/
def archdepGroups (archdeps : List (BuildKey × Text)) : Dict Text (List BuildKey) :=
  archdeps.foldl (fun d e => d.push e.2 e.1) []

/-- The overlay for `mountpoint_verbatim`.  A single directory is mounted with an upper one, since
it may be part of another overlay. -/
def archdepMount (mountpointVerbatim : Text) (lowerdirs : List LayerDir) : ArchdepMount :=
  let mountpoint := stripChar '/' mountpointVerbatim
  { lowerdirs := lowerdirs.reverse
    mountpoint
    mntdir := "archdep".toList :: (pathParts mountpoint ++ ["mnt".toList])
    writable := decide (lowerdirs.length = 1) }

/-- A round of the loop over the mountpoints, with the overlays that are mounted. -/
def setupArchdepLayer (n : ℕ) (s : List LayerDir × List ArchdepMount)
    (g : Text × List BuildKey) : Except LayerError (List LayerDir × List ArchdepMount) := do
  let v ← g.2.foldlM (visitArchdep bs metapackage dirExists n) ⟨s.1, []⟩
  .ok (v.seen, if v.dirs = [] then s.2 else s.2 ++ [archdepMount g.1 v.dirs])

/-- `PkgBuild.setupArchdepLayers`. -/
def setupArchdepLayers (n : ℕ) (archdeps : List (BuildKey × Text)) :
    Except LayerError (List ArchdepMount) :=
  ((archdepGroups archdeps).foldlM (setupArchdepLayer bs metapackage dirExists n) ([], [])).map
    Prod.snd

/-! ### What is needed -/

/-- `u`, which has an output, is needed for the entries with the mountpoint as it is written. -/
def NeededVerbatim (archdeps : List (BuildKey × Text)) (mountpointVerbatim : Text)
    (u : BuildKey) : Prop :=
  metapackage u.1 = false ∧ ∃ e ∈ archdeps, e.2 = mountpointVerbatim ∧
    Relation.ReflTransGen bs.graph.Transitive e.1 u

/-- `u`, which has an output, is needed at the mountpoint. -/
def NeededAt (archdeps : List (BuildKey × Text)) (mountpoint : Text) (u : BuildKey) : Prop :=
  metapackage u.1 = false ∧ ∃ e ∈ archdeps, stripChar '/' e.2 = mountpoint ∧
    Relation.ReflTransGen bs.graph.Transitive e.1 u

/-- The overlay has the output of everything that is needed at the mountpoint, once, and above
that of what it needs itself. -/
structure ArchdepMount.Complete (archdeps : List (BuildKey × Text)) (m : Text)
    (o : ArchdepMount) : Prop where
  nodup : o.lowerdirs.Nodup
  mem : ∀ dir, dir ∈ o.lowerdirs ↔ ∃ u, dir = .distroot u ∧ NeededAt bs metapackage archdeps m u
  above : ∀ l₁ u l₂, o.lowerdirs = l₁ ++ .distroot u :: l₂ → ∀ v, metapackage v.1 = false →
    Relation.TransGen bs.graph.Transitive u v → .distroot v ∈ l₂

/-- Every mountpoint has one overlay, and it is complete. -/
def MountpointsComplete (archdeps : List (BuildKey × Text)) (mounts : List ArchdepMount) : Prop :=
  ∀ e ∈ archdeps, ∃ o, mounts.filter (fun o => decide (o.mountpoint = stripChar '/' e.2)) = [o] ∧
    o.Complete bs metapackage archdeps (stripChar '/' e.2)

/-- The entries get complete mountpoints. -/
structure SeparateMountpoints (archdeps : List (BuildKey × Text)) : Prop where
  /-- Something is needed at each mountpoint, and the entries that write it like the first one
  that needs anything need everything. -/
  spelling : ∀ m ∈ archdeps.map fun e => stripChar '/' e.2, ∃ l₁ e l₂,
    archdeps = l₁ ++ e :: l₂ ∧ stripChar '/' e.2 = m ∧
    (∃ u, NeededVerbatim bs metapackage archdeps e.2 u) ∧
    (∀ u, NeededAt bs metapackage archdeps m u → NeededVerbatim bs metapackage archdeps e.2 u) ∧
    ∀ e' ∈ l₁, stripChar '/' e'.2 = m → ∀ u, ¬ NeededVerbatim bs metapackage archdeps e'.2 u
  /-- Nothing is needed at two mountpoints. -/
  apart : ∀ m m' u, NeededAt bs metapackage archdeps m u → NeededAt bs metapackage archdeps m' u →
    m = m'

end Def

variable {bs : Builds} {metapackage : PkgName → Bool} {dirExists : LayerDir → Bool}
  {archdeps : List (BuildKey × Text)} {n : ℕ}

theorem NeededVerbatim.neededAt {s : Text} {u : BuildKey}
    (h : NeededVerbatim bs metapackage archdeps s u) :
    NeededAt bs metapackage archdeps (stripChar '/' s) u := by
  obtain ⟨hmeta, e, he, rfl, hreach⟩ := h
  exact ⟨hmeta, e, he, rfl, hreach⟩

/-! ### The recursion -/

/-- The variables of `visit_dep` when `added` have been visited after `base`. -/
def visited (metapackage : PkgName → Bool) (base added : List BuildKey) : ArchdepVisit where
  seen := (base ++ added).map .distroot
  dirs := (added.filter fun u => !metapackage u.1).map .distroot

theorem distroot_mem_visited {base added : List BuildKey} {b : BuildKey} :
    .distroot b ∈ (visited metapackage base added).seen ↔ b ∈ base ++ added := by
  rw [visited, List.mem_map_of_injective]
  intro u v h
  cases h
  rfl

/-- What the builds of a closed set visit, where the output of these exists. -/
structure Visits (bs : Builds) (metapackage : PkgName → Bool) (dirExists : LayerDir → Bool)
    (S : BuildKey → Prop) : Prop where
  closed : ∀ u v, S u → bs.graph.Transitive u v → S v
  found : ∀ u, S u → metapackage u.1 = false → dirExists (.distroot u) = true

variable {S : BuildKey → Prop}

theorem foldlM_visitArchdep
    (hstep : ∀ b, S b → ∀ base added l',
      postorder (fun k => (bs.build k).transitiveDeps) n b (base ++ added) = some l' →
      ∃ added', l' = base ++ added' ∧
        visitArchdep bs metapackage dirExists n (visited metapackage base added) b =
          .ok (visited metapackage base added')) {ws : List BuildKey} (hws : ∀ w ∈ ws, S w)
    (base added : List BuildKey) {l' : List BuildKey}
    (h : ws.foldlM (fun l w => postorder (fun k => (bs.build k).transitiveDeps) n w l)
      (base ++ added) = some l') :
    ∃ added', l' = base ++ added' ∧
      ws.foldlM (visitArchdep bs metapackage dirExists n) (visited metapackage base added) =
        .ok (visited metapackage base added') := by
  induction ws generalizing added with
  | nil =>
    cases h
    exact ⟨added, rfl, rfl⟩
  | cons w ws ih =>
    rw [List.foldlM_cons] at h
    obtain ⟨l₁, hw, h⟩ := Option.bind_eq_some_iff.1 h
    obtain ⟨added₁, rfl, hvisit⟩ := hstep w (hws w List.mem_cons_self) base added l₁ hw
    rw [List.foldlM_cons, hvisit]
    exact ih (fun w' hw' => hws w' (.tail _ hw')) added₁ h

/-- **`visit_dep` lists in postorder.** -/
theorem visitArchdep_of_postorder (hV : Visits bs metapackage dirExists S) {b : BuildKey}
    (hb : S b) {base added l' : List BuildKey}
    (h : postorder (fun k => (bs.build k).transitiveDeps) n b (base ++ added) = some l') :
    ∃ added', l' = base ++ added' ∧
      visitArchdep bs metapackage dirExists n (visited metapackage base added) b =
        .ok (visited metapackage base added') := by
  induction n generalizing b base added l' with
  | zero =>
    rw [postorder] at h
    split_ifs at h with hmem
    cases h
    exact ⟨added, rfl, by rw [visitArchdep, if_pos (distroot_mem_visited.2 hmem)]⟩
  | succ n ih =>
    rw [postorder] at h
    split_ifs at h with hmem
    · cases h
      exact ⟨added, rfl, by rw [visitArchdep, if_pos (distroot_mem_visited.2 hmem)]⟩
    · -- `seen` has a directory for each build that is finished, metapackages included
      obtain ⟨l₁, hloop, rfl⟩ := Option.map_eq_some_iff.1 h
      obtain ⟨added₁, rfl, hvisit⟩ := foldlM_visitArchdep (fun b hb base added l' h => ih hb h)
        (fun w hw => hV.closed b w hb (mem_transitiveDeps.1 hw)) base added hloop
      refine ⟨added₁ ++ [b], List.append_assoc _ _ _, ?_⟩
      rw [visitArchdep, if_neg (fun hseen => hmem (distroot_mem_visited.1 hseen)),
        Machine.foldlM_ite, ← BuildDeps.transitiveDeps, hvisit]
      by_cases hmeta : metapackage b.1 = true
      · simp [bind, Except.bind, hmeta, visited]
      · have hfound := hV.found b hb (by simpa using hmeta)
        simp [bind, Except.bind, hmeta, visited, checkDepDirExist, Layers.exists, hfound]

/-! ### The loop -/

/-- The overlay for what a group adds. -/
def partMount (metapackage : PkgName → Bool) (x : Part Text BuildKey) : Option ArchdepMount :=
  let dirs : List LayerDir := (x.added.filter fun u => !metapackage u.1).map .distroot
  if dirs = [] then none else some (archdepMount x.label dirs)

theorem partMount_visited (metapackage : PkgName → Bool) (x : Part Text BuildKey)
    (base : List BuildKey) :
    partMount metapackage x = if (visited metapackage base x.added).dirs = [] then none
      else some (archdepMount x.label (visited metapackage base x.added).dirs) :=
  rfl

/-- The parts of the groups. -/
structure ArchdepParts (bs : Builds) (archdeps : List (BuildKey × Text))
    (parts : List (Part Text BuildKey)) : Prop
    extends Parts (fun k => (bs.build k).transitiveDeps) parts where
  groups : Dict.Groups Prod.snd Prod.fst archdeps (parts.map fun x => (x.label, x.roots))

theorem exists_visitGroup (hV : Visits bs metapackage dirExists S)
    (hacyc : ∀ u, ¬ Relation.TransGen bs.graph.Transitive u u) (hn : bs.processed.length < n)
    {parts : List (Part Text BuildKey)}
    (hparts : Parts (fun k => (bs.build k).transitiveDeps) parts) {roots : List BuildKey}
    (hroots : ∀ d ∈ roots, S d) (label : Text) :
    ∃ added, roots.foldlM (visitArchdep bs metapackage dirExists n)
          ⟨(finished parts).map .distroot, []⟩ =
        .ok (visited metapackage (finished parts) added) ∧
      Parts (fun k => (bs.build k).transitiveDeps) (parts ++ [⟨label, roots, added⟩]) := by
  have hrank : ∀ u v, True → v ∈ (bs.build u).transitiveDeps → True ∧
      height bs.graph.Transitive (bs.processed.map Prod.fst) v <
        height bs.graph.Transitive (bs.processed.map Prod.fst) u := by
    intro u v _ hv
    have htrans := mem_transitiveDeps.1 hv
    exact ⟨trivial, height_lt (mem_processed_of_dep (dep_of_transitive htrans)) (hacyc u) htrans⟩
  obtain ⟨l', hl'⟩ : ∃ l', roots.foldlM
      (fun l v => postorder (fun k => (bs.build k).transitiveDeps) n v l) (finished parts) =
        some l' := by
    refine Machine.exists_foldlM (fun d _ l => exists_postorder _ hrank trivial ?_ l) _
    exact Nat.lt_of_le_of_lt (height_le _ _ d) (by simpa using hn)
  have hacyc' : ∀ d ∈ roots, ∀ u,
      Relation.ReflTransGen (Edge fun k => (bs.build k).transitiveDeps) d u →
      ¬ Relation.TransGen (Edge fun k => (bs.build k).transitiveDeps) u u := by
    rw [edge_transitiveDeps]
    exact fun _ _ u _ => hacyc u
  -- the same list from both sides: as a part, and as what the code visits
  obtain ⟨added, hadded, hparts'⟩ := hparts.concat hacyc' hl' label
  obtain ⟨added', rfl, hvisit⟩ := foldlM_visitArchdep
    (fun b hb base added l' h => visitArchdep_of_postorder hV hb h) hroots (finished parts) []
    (by rw [List.append_nil]; exact hl')
  obtain rfl := List.append_cancel_left hadded
  refine ⟨added', ?_, hparts'⟩
  rw [← hvisit, visited, List.append_nil]
  rfl

/-- **What is mounted**, by what each group adds. -/
theorem setupArchdepLayers_parts
    (hacyc : ∀ u, ¬ Relation.TransGen bs.graph.Transitive u u) (hn : bs.processed.length < n)
    (hfound : ∀ m u, NeededAt bs metapackage archdeps m u → dirExists (.distroot u) = true) :
    ∃ parts, ArchdepParts bs archdeps parts ∧
      setupArchdepLayers bs metapackage dirExists n archdeps =
        .ok (parts.filterMap (partMount metapackage)) := by
  have hgroups := Dict.groups_foldl Prod.snd Prod.fst archdeps
  -- what the entries reach is closed
  have hV : Visits bs metapackage dirExists fun u =>
      ∃ e ∈ archdeps, Relation.ReflTransGen bs.graph.Transitive e.1 u :=
    ⟨fun u v ⟨e, he, hu⟩ huv => ⟨e, he, hu.tail huv⟩,
      fun u ⟨e, he, hu⟩ hmeta => hfound _ u ⟨hmeta, e, he, rfl, hu⟩⟩
  have hroots : ∀ g ∈ archdepGroups archdeps, ∀ d ∈ g.2,
      ∃ e ∈ archdeps, Relation.ReflTransGen bs.graph.Transitive e.1 d := by
    intro g hg d hd
    have hget := Dict.get?_of_mem hgroups.nodup (k := g.1) (v := g.2) hg
    obtain ⟨e, he, -, rfl⟩ := (hgroups.mem g.1 d).1 (by rw [hget]; exact hd)
    exact ⟨e, he, .refl⟩
  obtain ⟨s, hs, parts, hparts, hlabels, hseen, hmounts⟩ := Machine.foldlM_rule
    (archdepGroups archdeps) (f := setupArchdepLayer bs metapackage dirExists n)
    (s := ([], []))
    (I := fun groups s => ∃ parts : List (Part Text BuildKey),
      Parts (fun k => (bs.build k).transitiveDeps) parts ∧
      parts.map (fun x => (x.label, x.roots)) = groups ∧
      s.1 = (finished parts).map .distroot ∧ s.2 = parts.filterMap (partMount metapackage))
    ⟨[], Parts.nil, rfl, rfl, rfl⟩ (by
      rintro l₁ g l₂ ⟨seen, mounts⟩ hl ⟨parts, hparts, hlabels, hseen, hmounts⟩
      obtain ⟨added, hvisit, hparts'⟩ := exists_visitGroup hV hacyc hn hparts
        (hroots g (by simp [hl])) g.1
      dsimp only at hseen hmounts
      subst hseen hmounts
      refine ⟨_, by rw [setupArchdepLayer, hvisit]; rfl, parts ++ [⟨g.1, g.2, added⟩], hparts',
        by simp [hlabels], ?_, ?_⟩
      · simp [visited, finished_concat]
      · rw [List.filterMap_append, List.filterMap_cons, partMount_visited _ _ (finished parts)]
        split_ifs <;> simp)
  refine ⟨parts, ⟨hparts, by rw [hlabels]; exact hgroups⟩, ?_⟩
  rw [setupArchdepLayers, hs, ← hmounts]
  rfl

/-! ### Complete mountpoints -/

section Complete

variable {parts p₁ p₂ : List (Part Text BuildKey)} {x y : Part Text BuildKey} {u : BuildKey}
  {m : Text} {o : ArchdepMount}

theorem map_label (parts : List (Part Text BuildKey)) :
    (parts.map fun x => (x.label, x.roots)).map Prod.fst = parts.map Part.label := by
  rw [List.map_map]
  rfl

theorem ArchdepParts.mem_roots (h : ArchdepParts bs archdeps parts) (hx : x ∈ parts) :
    u ∈ x.roots ↔ ∃ e ∈ archdeps, e.2 = x.label ∧ e.1 = u := by
  have hget := Dict.get?_of_mem h.groups.nodup (k := x.label) (v := x.roots)
    (List.mem_map.2 ⟨x, hx, rfl⟩)
  rw [← h.groups.mem, hget]
  rfl

theorem ArchdepParts.needed (h : ArchdepParts bs archdeps parts) (hx : x ∈ parts)
    (hu : u ∈ x.added) (hmeta : metapackage u.1 = false) :
    NeededVerbatim bs metapackage archdeps x.label u := by
  obtain ⟨d, hd, hreach⟩ := h.reach x hx u hu
  rw [edge_transitiveDeps] at hreach
  obtain ⟨e, he, hlabel, rfl⟩ := (h.mem_roots hx).1 hd
  exact ⟨hmeta, e, he, hlabel, hreach⟩

theorem ArchdepParts.mem_of_needed (h : ArchdepParts bs archdeps (p₁ ++ x :: p₂))
    (hu : NeededVerbatim bs metapackage archdeps x.label u) : ∃ y ∈ p₁ ++ [x], u ∈ y.added := by
  obtain ⟨-, e, he, hlabel, hreach⟩ := hu
  rw [← edge_transitiveDeps] at hreach
  have hroot : e.1 ∈ x.roots := (h.mem_roots (by simp)).2 ⟨e, he, hlabel, rfl⟩
  exact mem_finished.1 (h.covers p₁ x p₂ rfl e.1 hroot u hreach)

theorem mem_lowerdirs (ho : partMount metapackage x = some o) {dir : LayerDir} :
    dir ∈ o.lowerdirs ↔ ∃ u, dir = .distroot u ∧ u ∈ x.added ∧ metapackage u.1 = false := by
  rw [partMount] at ho
  split_ifs at ho
  cases ho
  simp only [archdepMount, List.mem_reverse, List.mem_map, List.mem_filter, Bool.not_eq_true']
  exact ⟨fun ⟨u, hu, hdir⟩ => ⟨u, hdir.symm, hu⟩, fun ⟨u, hdir, hu⟩ => ⟨u, hu, hdir.symm⟩⟩

theorem mountpoint_partMount (ho : partMount metapackage x = some o) :
    o.mountpoint = stripChar '/' x.label := by
  rw [partMount] at ho
  split_ifs at ho
  cases ho
  rfl

/-- A group has an overlay if it adds something that has an output. -/
theorem exists_partMount : (∃ o, partMount metapackage x = some o) ↔
    ∃ u ∈ x.added, metapackage u.1 = false := by
  rw [partMount]
  split_ifs with hdirs
  · simpa using hdirs
  · simpa using hdirs

theorem ArchdepParts.complete (h : ArchdepParts bs archdeps parts) (hx : x ∈ parts)
    (ho : partMount metapackage x = some o)
    (hall : ∀ u, NeededAt bs metapackage archdeps m u ↔ u ∈ x.added ∧ metapackage u.1 = false) :
    o.Complete bs metapackage archdeps m := by
  have hsorted := (h.above hx).filter fun u => !metapackage u.1
  have hnodup : x.added.Nodup := by
    refine List.Nodup.sublist ?_ h.nodup
    obtain ⟨p₁, p₂, rfl⟩ := List.append_of_mem hx
    simp [finished]
  refine ⟨?_, fun dir => ?_, fun l₁ u l₂ hl v hmeta huv => ?_⟩
  · rw [partMount] at ho
    split_ifs at ho
    cases ho
    refine List.nodup_reverse.2 ((hnodup.filter _).map fun u v huv => ?_)
    cases huv
    rfl
  · rw [mem_lowerdirs ho]
    simp only [hall]
  · have hu : NeededAt bs metapackage archdeps m u := by
      have hmem : LayerDir.distroot u ∈ o.lowerdirs := by simp [hl]
      obtain ⟨_, hdir, hu⟩ := (mem_lowerdirs ho).1 hmem
      cases hdir
      exact (hall u).2 hu
    -- what `u` needs is needed as well
    have hv : NeededAt bs metapackage archdeps m v := by
      obtain ⟨-, e, he, hm, hreach⟩ := hu
      exact ⟨hmeta, e, he, hm, hreach.trans huv.to_reflTransGen⟩
    rw [partMount] at ho
    split_ifs at ho
    cases ho
    have hlist := congrArg List.reverse hl
    rw [archdepMount, List.reverse_reverse, List.reverse_append, List.reverse_cons,
      List.append_assoc] at hlist
    obtain ⟨l₃, l₄, hfilter, hl₃, hl₄⟩ := List.map_eq_append_iff.1 hlist
    obtain ⟨u', l₅, rfl, hu', -⟩ := List.map_eq_cons_iff.1 hl₄
    cases hu'
    have hmem := hsorted l₃ u l₅ hfilter v
      ⟨⟨((hall v).1 hv).1, by rw [edge_transitiveDeps]; exact huv⟩, by simp [hmeta]⟩
    rw [← List.mem_reverse, ← hl₃]
    exact List.mem_map_of_mem hmem

theorem filter_partMounts (ho : partMount metapackage x = some o) (hm : o.mountpoint = m)
    (hothers : ∀ y ∈ p₁ ++ p₂, stripChar '/' y.label = m → partMount metapackage y = none) :
    ((p₁ ++ x :: p₂).filterMap (partMount metapackage)).filter
      (fun o => decide (o.mountpoint = m)) = [o] := by
  have hnone : ∀ p : List (Part Text BuildKey), p ⊆ p₁ ++ p₂ →
      (p.filterMap (partMount metapackage)).filter (fun o => decide (o.mountpoint = m)) = [] := by
    intro p hp
    rw [List.filter_eq_nil_iff]
    intro o' ho' hm'
    obtain ⟨y, hy, hyo⟩ := List.mem_filterMap.1 ho'
    rw [decide_eq_true_eq, mountpoint_partMount hyo] at hm'
    rw [hothers y (hp hy) hm'] at hyo
    cases hyo
  rw [List.filterMap_append, List.filterMap_cons, ho, List.filter_append, List.filter_cons,
    hnone p₁ (by simp), hnone p₂ (by simp), if_pos (decide_eq_true hm)]
  rfl

theorem ArchdepParts.separate_of_complete (h : ArchdepParts bs archdeps parts)
    (hc : MountpointsComplete bs metapackage archdeps
      (parts.filterMap (partMount metapackage))) :
    SeparateMountpoints bs metapackage archdeps := by
  -- all that is needed at a mountpoint is in the part of one group
  have hone : ∀ m ∈ archdeps.map fun e => stripChar '/' e.2, ∃ x ∈ parts,
      stripChar '/' x.label = m ∧ (∃ u ∈ x.added, metapackage u.1 = false) ∧
      ∀ u, NeededAt bs metapackage archdeps m u → u ∈ x.added := by
    intro m hm
    obtain ⟨e, he, rfl⟩ := List.mem_map.1 hm
    obtain ⟨o, hfilter, hcomplete⟩ := hc e he
    have hmem := List.mem_filter.1 (hfilter ▸ List.mem_singleton_self o)
    obtain ⟨x, hx, hxo⟩ := List.mem_filterMap.1 hmem.1
    refine ⟨x, hx, ?_, exists_partMount.1 ⟨o, hxo⟩, fun u hu => ?_⟩
    · rw [← mountpoint_partMount hxo]
      exact of_decide_eq_true hmem.2
    · obtain ⟨_, hdir, hadded, -⟩ := (mem_lowerdirs hxo).1 ((hcomplete.mem _).2 ⟨u, rfl, hu⟩)
      cases hdir
      exact hadded
  have hdeclared : ∀ m u, NeededAt bs metapackage archdeps m u →
      m ∈ archdeps.map fun e => stripChar '/' e.2 := by
    rintro m u ⟨-, e, he, rfl, -⟩
    exact List.mem_map.2 ⟨e, he, rfl⟩
  constructor
  · intro m hm
    obtain ⟨x, hx, rfl, ⟨u₀, hu₀, hmeta₀⟩, hall⟩ := hone m hm
    obtain ⟨p₁, p₂, rfl⟩ := List.append_of_mem hx
    obtain ⟨l₁, e, l₂, hl, hlabel, hfirst⟩ := h.groups.first (p₁.map Part.label) x.label
      (p₂.map Part.label) (by rw [map_label]; simp)
    refine ⟨l₁, e, l₂, hl, by rw [hlabel], ⟨u₀, ?_⟩, fun u hu => ?_, fun e' he' hm' u hu => ?_⟩
    · rw [hlabel]
      exact h.needed hx hu₀ hmeta₀
    · rw [hlabel]
      exact h.needed hx (hall u hu) hu.1
    · -- the group of `e'` has been traversed before, so that `u` is not in the part of `x`
      obtain ⟨y, hy, hye⟩ := List.mem_map.1 (hfirst e' he')
      obtain ⟨q₁, q₂, rfl⟩ := List.append_of_mem hy
      rw [List.append_assoc, List.cons_append] at h
      obtain ⟨z, hz, huz⟩ := h.mem_of_needed (by rw [hye]; exact hu)
      rw [← List.cons_append, ← List.append_assoc] at h
      refine h.notMem (hall u ?_) (y := z) ?_ huz
      · rw [← hm']
        exact hu.neededAt
      · simp only [List.mem_append, List.mem_cons, List.not_mem_nil, or_false] at hz ⊢
        exact .inl (hz.imp_right .inl)
  · intro m m' u hu hu'
    obtain ⟨x, hx, rfl, -, hall⟩ := hone m (hdeclared m u hu)
    obtain ⟨y, hy, rfl, -, hall'⟩ := hone m' (hdeclared m' u hu')
    rw [h.eq_of_mem hx hy (hall u hu) (hall' u hu')]

theorem ArchdepParts.complete_of_separate (h : ArchdepParts bs archdeps parts)
    (hs : SeparateMountpoints bs metapackage archdeps) :
    MountpointsComplete bs metapackage archdeps (parts.filterMap (partMount metapackage)) := by
  intro e₀ he₀
  obtain ⟨l₁, e, l₂, hl, hm, ⟨u₀, hu₀⟩, hspelling, hfirst⟩ :=
    hs.spelling (stripChar '/' e₀.2) (List.mem_map.2 ⟨e₀, he₀, rfl⟩)
  generalize stripChar '/' e₀.2 = m at hm hspelling hfirst ⊢
  have hkey : e.2 ∈ parts.map Part.label := by
    rw [← map_label]
    exact (h.groups.keys e.2).2 (List.mem_map.2 ⟨e, by simp [hl], rfl⟩)
  obtain ⟨x, hx, hlabel⟩ := List.mem_map.1 hkey
  obtain ⟨p₁, p₂, rfl⟩ := List.append_of_mem hx
  -- the groups before add nothing that is needed here
  have hadded : ∀ u, NeededAt bs metapackage archdeps m u → u ∈ x.added := by
    intro u hu
    obtain ⟨y, hy, huy⟩ := h.mem_of_needed (by rw [hlabel]; exact hspelling u hu)
    rcases List.mem_append.1 hy with hy | hy
    · have hverbatim := h.needed (List.mem_append_left _ hy) huy hu.1
      obtain ⟨e', he', hlabel'⟩ := List.mem_map.1 (h.groups.before hl
        (p₁.map Part.label) (p₂.map Part.label) (by rw [map_label]; simp [hlabel])
        (List.mem_map_of_mem hy))
      have hm' := hs.apart _ m u hverbatim.neededAt hu
      exact absurd (by rw [hlabel']; exact hverbatim)
        (hfirst e' he' (by rw [hlabel']; exact hm') u)
    · rwa [← List.mem_singleton.1 hy]
  have hall : ∀ u, NeededAt bs metapackage archdeps m u ↔
      u ∈ x.added ∧ metapackage u.1 = false := by
    intro u
    refine ⟨fun hu => ⟨hadded u hu, hu.1⟩, fun hu => ?_⟩
    rw [← hm, ← hlabel]
    exact (h.needed hx hu.1 hu.2).neededAt
  obtain ⟨o, ho⟩ := exists_partMount.2
    ⟨u₀, hadded u₀ (by rw [← hm]; exact hu₀.neededAt), hu₀.1⟩
  refine ⟨o, filter_partMounts ho ?_ fun y hy hym => ?_, h.complete hx ho hall⟩
  · rw [mountpoint_partMount ho, hlabel, hm]
  · -- what another group for the mountpoint could add is in the part of `x`
    by_contra hne
    obtain ⟨o', ho'⟩ := Option.ne_none_iff_exists'.1 hne
    obtain ⟨u, huy, hmeta⟩ := exists_partMount.1 ⟨o', ho'⟩
    have hy' : y ∈ p₁ ++ x :: p₂ := by
      rcases List.mem_append.1 hy with hy | hy
      · exact List.mem_append_left _ hy
      · exact List.mem_append_right _ (.tail _ hy)
    have hu := (h.needed hy' huy hmeta).neededAt
    rw [hym] at hu
    exact h.notMem (hadded u hu) hy huy

end Complete

/-- **When the mountpoints are complete.**  On a graph without cycles where everything that is
needed has been built, `setupArchdepLayers` ends, and each mountpoint is complete exactly if they
are separate. -/
theorem archdepLayers_complete_iff (bs : Builds) (metapackage : PkgName → Bool)
    (dirExists : LayerDir → Bool) (archdeps : List (BuildKey × Text)) (n : ℕ)
    (hacyc : ∀ u, ¬ Relation.TransGen bs.graph.Transitive u u) (hn : bs.processed.length < n)
    (hfound : ∀ m u, NeededAt bs metapackage archdeps m u → dirExists (.distroot u) = true) :
    ∃ mounts, setupArchdepLayers bs metapackage dirExists n archdeps = .ok mounts ∧
      (MountpointsComplete bs metapackage archdeps mounts ↔
        SeparateMountpoints bs metapackage archdeps) := by
  obtain ⟨parts, hparts, hrun⟩ := setupArchdepLayers_parts hacyc hn hfound
  exact ⟨_, hrun, hparts.separate_of_complete, hparts.complete_of_separate⟩

/-- A sysroot with a library, for two architectures. -/
def sysrootBuilds : Builds where
  processed := [Arch.x86_64, .wasm32].flatMap fun a =>
    [(("sysroot", a), { deps := [(("libc", a), ["transitive"])] }), (("libc", a), {})]

theorem sysrootBuilds_acyclic (u : BuildKey) :
    ¬ Relation.TransGen sysrootBuilds.graph.Transitive u u := by
  intro h
  refine not_transGen_dep_of_rank sysrootBuilds
    (fun k => if k.1 = "sysroot".toList then 1 else 0) (by decide) u ?_
  exact h.lift id fun _ _ => dep_of_transitive

/-- Sysroots for two architectures, as for a system image. -/
theorem sysrootBuilds_complete :
    let archdeps : List (BuildKey × Text) :=
      [(("sysroot", .x86_64), "/sysroot/x86_64/"), (("sysroot", .wasm32), "/sysroot/wasm32")]
    ∃ mounts, setupArchdepLayers sysrootBuilds (fun _ => false) (fun _ => true) 5 archdeps =
        .ok mounts ∧
      mounts.map ArchdepMount.mountpoint = ["sysroot/x86_64".toList, "sysroot/wasm32".toList] ∧
      MountpointsComplete sysrootBuilds (fun _ => false) archdeps mounts := by
  intro archdeps
  obtain ⟨mounts, hrun, hiff⟩ := archdepLayers_complete_iff sysrootBuilds (fun _ => false)
    (fun _ => true) archdeps 5 sysrootBuilds_acyclic (by decide) (fun _ _ _ => rfl)
  have hmounts : ∃ mounts, setupArchdepLayers sysrootBuilds (fun _ => false) (fun _ => true) 5
        archdeps = .ok mounts ∧
      mounts.map ArchdepMount.mountpoint = ["sysroot/x86_64".toList, "sysroot/wasm32".toList] :=
    ⟨_, rfl, by decide⟩
  obtain ⟨mounts', hrun', hpoints⟩ := hmounts
  rw [hrun] at hrun'
  cases hrun'
  -- what is needed is of the architecture of the entry
  have harch : ∀ u v, sysrootBuilds.graph.Transitive u v → v.2 = u.2 := by
    intro u v h
    have hall : ∀ p ∈ sysrootBuilds.processed, ∀ d ∈ p.2.transitiveDeps, d.2 = p.1.2 := by decide
    have hv := mem_transitiveDeps.2 h
    rw [Builds.build] at hv
    cases hu : sysrootBuilds.processed.get? u with
    | none => rw [hu] at hv; cases hv
    | some p =>
      rw [hu] at hv
      exact hall (u, p) (Dict.mem_of_get? hu) v hv
  have hreach : ∀ b u, Relation.ReflTransGen sysrootBuilds.graph.Transitive b u → u.2 = b.2 := by
    intro b u h
    induction h with
    | refl => rfl
    | tail _ hstep ih => rw [harch _ _ hstep, ih]
  have hneeded : ∀ m u, NeededAt sysrootBuilds (fun _ => false) archdeps m u →
      ∃ e ∈ archdeps, stripChar '/' e.2 = m ∧ e.1.2 = u.2 := by
    rintro m u ⟨-, e, he, hm, h⟩
    exact ⟨e, he, hm, (hreach _ _ h).symm⟩
  have hsame : ∀ e ∈ archdeps, ∀ e' ∈ archdeps,
      (stripChar '/' e.2 = stripChar '/' e'.2 ∨ e.1.2 = e'.1.2) → e = e' := by decide
  refine ⟨mounts, hrun, hpoints, hiff.2 ⟨fun m hm => ?_, fun m m' u hu hu' => ?_⟩⟩
  · obtain ⟨e, he, rfl⟩ := List.mem_map.1 hm
    obtain ⟨l₁, l₂, hl⟩ := List.append_of_mem he
    have hverbatim : ∀ u, NeededAt sysrootBuilds (fun _ => false) archdeps (stripChar '/' e.2) u →
        NeededVerbatim sysrootBuilds (fun _ => false) archdeps e.2 u := by
      rintro u ⟨hmeta, e', he', hm', h⟩
      cases hsame e' he' e he (.inl hm')
      exact ⟨hmeta, e, he, rfl, h⟩
    refine ⟨l₁, e, l₂, hl, rfl, ⟨e.1, rfl, e, he, rfl, .refl⟩, hverbatim, ?_⟩
    intro e' he' hm'
    -- no entry comes twice
    have hmem : e' ∈ archdeps := by rw [hl]; exact List.mem_append_left _ he'
    have hnodup : archdeps.Nodup := by decide
    rw [hl, List.nodup_append] at hnodup
    exact absurd (hsame e' hmem e he (.inl hm')) (hnodup.2.2 e' he' e List.mem_cons_self)
  · obtain ⟨e, he, rfl, h⟩ := hneeded m u hu
    obtain ⟨e', he', rfl, h'⟩ := hneeded m' u hu'
    rw [hsame e he e' he' (.inr (h.trans h'.symm))]

/-- The library is needed at two mountpoints, but mounted at the first one only. -/
theorem sharedArchdep_incomplete :
    let archdeps : List (BuildKey × Text) :=
      [(("sysroot", .wasm32), "/sysroot"), (("libc", .wasm32), "/libc")]
    (∀ u, ¬ Relation.TransGen sysrootBuilds.graph.Transitive u u) ∧
    ∃ mounts, setupArchdepLayers sysrootBuilds (fun _ => false) (fun _ => true) 5 archdeps =
        .ok mounts ∧
      mounts.map (fun o => (o.mountpoint, o.lowerdirs)) =
        [("sysroot".toList, [.distroot ("sysroot", .wasm32), .distroot ("libc", .wasm32)])] ∧
      ¬ MountpointsComplete sysrootBuilds (fun _ => false) archdeps mounts := by
  intro archdeps
  refine ⟨sysrootBuilds_acyclic, _, rfl, rfl, fun h => ?_⟩
  obtain ⟨o, ho, -⟩ := h (("libc", .wasm32), "/libc") (by decide)
  cases ho

end Pbuild
