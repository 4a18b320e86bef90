import Playbit.Run.Mounts

/-!
# Sandboxes are taken down

However the set-up of a sandbox ends, `Deferred` unmounts what has been mounted for it, last first.
A bind mount that could not be made read-only has not been registered with `Deferred`; it goes with
the root of the sandbox, which it is below.

This is so in any interleaving of processes that keep apart, unless the system refuses to unmount:
**a process leaves none of its mounts behind**, and when all are done the mount table is as it was
if nothing was mounted below `BUILDDIR` before (`System.mounts_restored`).  What a killed process
has left there is taken down by the next one: **`rescue_unmount_all_pbuild` leaves nothing below
`BUILDDIR`** whose path it can read (`System.rescue_unmounts_all`).
-/

namespace Pbuild

open Python

/-- The path that is unmounted by a finalizer. -/
def Op.unmounts? : Op → Option Path
  | unmount target => some target
  | _ => none

/-- What a process is going to unmount, in order. -/
def Process.pending (P : Process) : List Path := (P.finalizers ++ P.todo).filterMap Op.unmounts?

/-- A process sets up a sandbox, or takes one down, or is at the end of `main`. -/
structure Process.Calm (P : Process) : Prop where
  phase : P.todo = [] ∨ P.finalizers = [] ∧ P.sandbox = []
  deferred : (∀ op ∈ P.finalizers ++ P.todo, ∃ t, op = .unmount t ∨ op = .rmdir t) ∨
    P.todo = [.readMounts]

/-- The root of the sandbox is mounted, or comes next; the bind mounts are below it. -/
def Process.Rooted (P : Process) : Prop :=
  ∃ root, (root ∈ P.pending ∨ P.sandbox.head? = some ⟨root, true⟩ ∨ P.sandbox = []) ∧
    ∀ m ∈ P.sandbox, m.overlay = false → root <+: m.target

theorem rooted_sandboxMounts (builddir : Path) (archdeps : List Path) :
    Process.Rooted { sandbox := sandboxMounts builddir archdeps } := by
  refine ⟨sandboxDir builddir [], .inr (.inl rfl), fun m hm hbind => ?_⟩
  have hdir : ∀ dir, sandboxDir builddir [] <+: sandboxDir builddir dir := fun dir =>
    ⟨dir, by simp [sandboxDir]⟩
  simp only [sandboxMounts, List.mem_append, List.mem_cons, List.not_mem_nil, or_false,
    List.mem_flatMap] at hm
  rcases hm with ((rfl | rfl | rfl | rfl | rfl) | ⟨dir, -, rfl | rfl⟩) | rfl | rfl
  all_goals first | exact hdir _ | cases hbind

namespace System

variable {ι : Type}

/-- The system does not refuse to unmount anything.  A bind mount that is not registered does not
hide what has been mounted for the sandbox before, and a recursive one copies mounts below its
source only. -/
def Unrefused : MountAction ι → System ι → Prop
  | .mount i submounts registered, s => [] ∉ submounts ∧ (registered = true ∨
      ∀ m ∈ (s.procs i).sandbox.head?, m.overlay = false ∧
        ∀ t ∈ (s.procs i).pending, ¬ m.target <+: t)
  | .perform _ ok, _ => ok = true
  | _, _ => True

instance decidableUnrefused :
    (a : MountAction ι) → (s : System ι) → Decidable (Unrefused a s)
  | .mount i submounts registered, s => inferInstanceAs (Decidable ([] ∉ submounts ∧
      (registered = true ∨ ∀ m ∈ (s.procs i).sandbox.head?, m.overlay = false ∧
        ∀ t ∈ (s.procs i).pending, ¬ m.target <+: t)))
  | .perform _ ok, _ => inferInstanceAs (Decidable (ok = true))
  | .enter .., _ | .leave _, _ | .finish _, _ => isTrue trivial

/-- What a process has mounted is going to be unmounted. -/
structure Tidy (T₀ : MountTable Text ι) (s : System ι) : Prop where
  separate : s.Separate
  clears : ∀ i, s.mounts.Clears i (s.procs i).pending
  rooted : ∀ i, (s.procs i).Rooted
  calm : ∀ i, (s.procs i).Calm
  /-- What was mounted before the processes started is older than anything of theirs. -/
  older : ∃ O, s.mounts = O ++ T₀ ∧ ∀ e ∈ O, e.owner ≠ none

variable {builddir : Path} {T₀ : MountTable Text ι} {s s' : System ι} {i : ι}

theorem targets_of_mem_pending {P : Process} {t : Path} (ht : t ∈ P.pending) : t ∈ P.targets := by
  obtain ⟨op, hop, ht⟩ := List.mem_filterMap.1 ht
  refine List.mem_filterMap.2 ⟨op, hop, ?_⟩
  cases op <;> first | exact ht | cases ht

/-- What is added to the mount table. -/
def newMounts (i : ι) (m : SandboxMount) (submounts : List Path) : MountTable Text ι :=
  submounts.map (fun dir => ⟨m.target ++ dir, some i⟩) ++ [⟨m.target, some i⟩]

theorem addMount_mounts (s : System ι) (i : ι) (m : SandboxMount) (submounts : List Path) :
    (s.addMount i m submounts).mounts = newMounts i m submounts ++ s.mounts := by
  simp [addMount, newMounts]

theorem mem_newMounts {m : SandboxMount} {submounts : List Path} {e : Mount Text ι}
    (he : e ∈ newMounts i m submounts) :
    ∃ dir ∈ [] :: submounts, e = ⟨m.target ++ dir, some i⟩ := by
  rcases List.mem_append.1 he with he | he
  · obtain ⟨dir, hdir, rfl⟩ := List.mem_map.1 he
    exact ⟨dir, .tail _ hdir, rfl⟩
  · exact ⟨[], List.mem_cons_self, by rw [List.mem_singleton.1 he, List.append_nil]⟩

namespace Tidy

theorem initial (h : s.Initial) : s.Tidy s.mounts where
  separate := h.separate
  clears i := by
    rw [h.procs i]
    intro e he howner
    rw [h.mounts e he] at howner
    cases howner
  rooted i := by
    rw [h.procs i]
    exact ⟨[], .inr (.inr rfl), by simp⟩
  calm i := by
    rw [h.procs i]
    exact ⟨.inl rfl, .inl (by simp)⟩
  older := ⟨[], rfl, by simp⟩

/-- A process goes on, with a mount table that is as good for the others. -/
theorem setProc [DecidableEq ι] {s₁ : System ι} (hs : s.Tidy T₀) (hprocs : s₁.procs = s.procs)
    {P : Process} (hsep : (s₁.setProc i P).Separate) (hclears : s₁.mounts.Clears i P.pending)
    (hothers : ∀ j ≠ i, s₁.mounts.Clears j (s.procs j).pending)
    (holder : ∃ O, s₁.mounts = O ++ T₀ ∧ ∀ e ∈ O, e.owner ≠ none) (hrooted : P.Rooted)
    (hcalm : P.Calm) : (s₁.setProc i P).Tidy T₀ where
  separate := hsep
  clears j := by
    by_cases hj : j = i
    · subst hj
      simpa [System.setProc] using hclears
    · simpa [System.setProc, hj, hprocs] using hothers j hj
  rooted j := by
    by_cases hj : j = i
    · subst hj
      simpa [System.setProc] using hrooted
    · simpa [System.setProc, hj, hprocs] using hs.rooted j
  calm j := by
    by_cases hj : j = i
    · subst hj
      simpa [System.setProc] using hcalm
    · simpa [System.setProc, hj, hprocs] using hs.calm j
  older := holder

/-- What another process has mounted is unrelated to what a process is going to unmount. -/
theorem unrelated (hs : s.Tidy T₀) {j : ι} (hj : j ≠ i) {t : Path}
    (ht : t ∈ (s.procs i).pending) {e : Mount Text ι} (he : e ∈ s.mounts)
    (hte : t <+: e.target) : MountTable.Unrelated j (s.procs j).pending e := by
  have hown : ∀ t' ∈ (s.procs j).pending, ¬ t <+: t' := fun t' ht' hbelow =>
    hj (hs.separate.own i t (targets_of_mem_pending ht) _ ((hs.clears j).mem ht') hbelow j rfl)
  refine ⟨fun howner => hj (hs.separate.own i t (targets_of_mem_pending ht) e he hte j howner),
    fun t' ht' => ⟨fun hbelow => hown t' ht' (hte.trans hbelow), fun hbelow => ?_⟩⟩
  rcases List.prefix_or_prefix_of_prefix hte hbelow with h | h
  · exact hown t' ht' h
  · exact hj (hs.separate.own j t' (targets_of_mem_pending ht') _ ((hs.clears i).mem ht) h i
      rfl).symm

/-- A mount of a process is not one of those from before. -/
theorem older_detach {O X T' : MountTable Text ι} {t : Path} (hT₀ : ∀ e ∈ T₀, e.owner = none)
    (h : X ++ ⟨t, some i⟩ :: T' = O ++ T₀) (hO : ∀ e ∈ O, e.owner ≠ none) :
    ∃ O', X.filter (¬ t <+: ·.target) ++ T' = O' ++ T₀ ∧ ∀ e ∈ O', e.owner ≠ none := by
  rcases List.append_eq_append_iff.1 h with ⟨R, rfl, hR⟩ | ⟨R, rfl, hR⟩
  · cases R with
    | nil =>
      rw [List.nil_append] at hR
      cases hT₀ ⟨t, some i⟩ (hR ▸ List.mem_cons_self)
    | cons e R =>
      obtain ⟨rfl, rfl⟩ := List.cons.inj hR
      refine ⟨X.filter (¬ t <+: ·.target) ++ R, (List.append_assoc _ _ _).symm, fun e he => ?_⟩
      refine hO e ?_
      rcases List.mem_append.1 he with he | he
      · exact List.mem_append_left _ (List.mem_of_mem_filter he)
      · exact List.mem_append_right _ (.tail _ he)
  · cases hT₀ ⟨t, some i⟩ (hR ▸ List.mem_append_right _ List.mem_cons_self)

theorem umount (hs : s.Tidy T₀) (hT₀ : ∀ e ∈ T₀, e.owner = none) {t : Path} {P : List Path}
    (hpending : (s.procs i).pending = t :: P) : ∃ s', s.umount i t true = some s' ∧
      s'.procs = s.procs ∧ s'.mounts.Clears i P ∧
      (∀ j ≠ i, s'.mounts.Clears j (s.procs j).pending) ∧
      ∃ O, s'.mounts = O ++ T₀ ∧ ∀ e ∈ O, e.owner ≠ none := by
  have hclears := hs.clears i
  rw [hpending] at hclears
  obtain ⟨X, T', hmounts, hX, hclears⟩ := hclears
  have ht : t ∈ (s.procs i).pending := hpending ▸ List.mem_cons_self
  have hdetach : s.umount i t true = some { s with
      mounts := X.filter (¬ t <+: ·.target) ++ T',
      log := s.log ++ ((X.filter (t <+: ·.target) ++ [⟨t, some i⟩] : MountTable Text ι).map
        fun m => (i, m)) } := by
    rw [System.umount, if_pos rfl, hmounts, MountTable.detach_append hX]
    rfl
  refine ⟨_, hdetach, rfl, hclears, fun j hj => ?_, ?_⟩
  · have hmem : ∀ e ∈ X ++ [⟨t, some i⟩], e ∈ s.mounts := by
      intro e he
      rw [hmounts]
      rcases List.mem_append.1 he with he | he
      · exact List.mem_append_left _ he
      · exact List.mem_append_right _ (List.mem_singleton.1 he ▸ List.mem_cons_self)
    refine (MountTable.clears_detach_iff
      (hs.unrelated hj ht (hmem _ (List.mem_append_right _ (List.mem_singleton_self _)))
        List.prefix_rfl)
      fun e he => hs.unrelated hj ht (hmem e (List.mem_append_left _ he))).2 ?_
    exact hmounts ▸ hs.clears j
  · obtain ⟨O, hO, howner⟩ := hs.older
    exact older_detach hT₀ (hmounts ▸ hO) howner

theorem addMount (hs : s.Tidy T₀) {m : SandboxMount} {submounts : List Path}
    (hbelow : ∀ e ∈ s.mounts, m.target <+: e.target → ∀ j, e.owner = some j → j = i)
    (hpend : ∀ j, ∀ t ∈ (s.procs j).targets, ∀ dir ∈ [] :: submounts,
      t <+: m.target ++ dir → j = i) :
    (∀ j ≠ i, (s.addMount i m submounts).mounts.Clears j (s.procs j).pending) ∧
      ∃ O, (s.addMount i m submounts).mounts = O ++ T₀ ∧ ∀ e ∈ O, e.owner ≠ none := by
  rw [addMount_mounts]
  refine ⟨fun j hj => (MountTable.clears_append_iff fun e he => ?_).2 (hs.clears j), ?_⟩
  · obtain ⟨dir, hdir, rfl⟩ := mem_newMounts he
    refine ⟨fun howner => hj (Option.some.inj howner).symm, fun t ht => ⟨fun ht' => ?_,
      fun ht' => hj (hpend j t (targets_of_mem_pending ht) dir hdir ht')⟩⟩
    exact hj (hbelow _ ((hs.clears j).mem ht) ((List.prefix_append _ _).trans ht') j rfl)
  · obtain ⟨O, hO, howner⟩ := hs.older
    refine ⟨newMounts i m submounts ++ O, by rw [hO, List.append_assoc], fun e he => ?_⟩
    rcases List.mem_append.1 he with he | he
    · obtain ⟨dir, -, rfl⟩ := mem_newMounts he
      exact Option.some_ne_none _
    · exact howner e he

end Tidy

theorem clears_registered {T : MountTable Text ι} {P : List Path} {m : SandboxMount}
    {submounts : List Path} (h : T.Clears i P) (hsub : [] ∉ submounts) :
    (newMounts i m submounts ++ T).Clears i (m.target :: P) := by
  refine ⟨submounts.map fun dir => ⟨m.target ++ dir, some i⟩, T, by simp [newMounts],
    fun e he hbelow => ?_, ?_⟩
  · obtain ⟨dir, hdir, rfl⟩ := List.mem_map.1 he
    have hlen := hbelow.length_le
    rw [List.length_append] at hlen
    have hnil : dir = [] := List.eq_nil_of_length_eq_zero (by omega)
    exact hsub (hnil ▸ hdir)
  · have hfilter : (submounts.map fun dir => (⟨m.target ++ dir, some i⟩ : Mount Text ι)).filter
        (¬ m.target <+: ·.target) = [] := by
      refine List.filter_eq_nil_iff.2 fun e he => ?_
      obtain ⟨dir, -, rfl⟩ := List.mem_map.1 he
      simp
    rwa [hfilter, List.nil_append]

/-- A mount that is not registered goes with one that is. -/
theorem clears_unregistered {T : MountTable Text ι} {P : List Path} {m : SandboxMount}
    {submounts : List Path} {root : Path} (h : T.Clears i P) (hroot : root ∈ P)
    (hm : root <+: m.target) (habove : ∀ t ∈ P, ¬ m.target <+: t) :
    (newMounts i m submounts ++ T).Clears i P := by
  refine h.append (fun e he t ht hbelow => ?_) fun e he => ⟨root, hroot, ?_⟩
  · obtain ⟨dir, -, rfl⟩ := mem_newMounts he
    exact habove t ht ((List.prefix_append _ _).trans hbelow)
  · obtain ⟨dir, -, rfl⟩ := mem_newMounts he
    exact hm.trans (List.prefix_append _ _)

theorem mountpoints_eq_nil (hs : s.Tidy T₀) (hname : ∀ name ∈ builddir, '\\' ∉ name)
    (hT₀ : ∀ e ∈ T₀, builddir <+: e.target → e.target = builddir)
    (hpending : (s.procs i).pending = [])
    (hread : ∀ e ∈ s.mounts, builddir <+: e.target → e.target ≠ builddir →
      ∀ j, e.owner = some j → j = i) : mountpoints builddir s = [] := by
  refine List.filter_eq_nil_iff.2 fun t ht hread' => ?_
  rw [decide_eq_true_eq] at hread'
  obtain ⟨e, he, rfl⟩ := List.mem_map.1 ht
  have hbelow : builddir <+: e.target := isPrefix_of_mountName hname hread'.1
  have hne : e.target ≠ builddir := fun heq => hread'.2 <| by
    have hlength := congrArg List.length heq
    rw [← List.length_map (f := mountName)] at hlength
    exact (hread'.1.eq_of_length hlength.symm).symm
  have hclears := hs.clears i
  rw [hpending] at hclears
  obtain ⟨O, hO, howner⟩ := hs.older
  cases hj : e.owner with
  | some j => exact hclears e he (hj.trans (congrArg some (hread e he hbelow hne j hj)))
  | none =>
    rw [hO] at he
    rcases List.mem_append.1 he with he | he
    · exact howner e he hj
    · exact hne (hT₀ e he hbelow)

variable [DecidableEq ι]

theorem performOp_tidy {op : Op} {rest : List Op} (hs : s.Tidy T₀)
    (hnone : ∀ e ∈ T₀, e.owner = none) (hname : ∀ name ∈ builddir, '\\' ∉ name)
    (hT₀ : ∀ e ∈ T₀, builddir <+: e.target → e.target = builddir)
    (htodo : (s.procs i).todo = op :: rest)
    (hread : op = .readMounts → ∀ e ∈ s.mounts, builddir <+: e.target → e.target ≠ builddir →
      ∀ j, e.owner = some j → j = i)
    (hsep : (s.performOp builddir i rest true op).Separate) :
    (s.performOp builddir i rest true op).Tidy T₀ := by
  obtain ⟨hfin, hsandbox⟩ : (s.procs i).finalizers = [] ∧ (s.procs i).sandbox = [] := by
    refine (hs.calm i).phase.resolve_left fun h => ?_
    rw [htodo] at h
    cases h
  have hpending : (s.procs i).pending = (op :: rest).filterMap Op.unmounts? := by
    rw [Process.pending, hfin, htodo, List.nil_append]
  have hpending' : ({ s.procs i with todo := rest } : Process).pending =
      rest.filterMap Op.unmounts? := by
    rw [Process.pending, hfin, List.nil_append]
  have hrooted : ({ s.procs i with todo := rest } : Process).Rooted :=
    ⟨[], .inr (.inr hsandbox), by simp [hsandbox]⟩
  have hcalm : ({ s.procs i with todo := rest } : Process).Calm := by
    refine ⟨.inr ⟨hfin, hsandbox⟩, .inl fun op' hop => ?_⟩
    rw [hfin, List.nil_append] at hop
    rcases (hs.calm i).deferred with h | h
    · exact h op' (by rw [hfin, htodo]; exact .tail _ hop)
    · rw [htodo] at h
      cases h
      cases hop
  -- the other operations leave the mount table as it is
  have hsame : (s.setTodo i rest).Separate → op.unmounts? = none → (s.setTodo i rest).Tidy T₀ := by
    intro hsep hop
    have hclears := hs.clears i
    rw [hpending, List.filterMap_cons_none hop, ← hpending'] at hclears
    exact hs.setProc rfl hsep hclears (fun j _ => hs.clears j) hs.older hrooted hcalm
  cases op with
  | unmount t =>
    obtain ⟨s₁, hs₁, hprocs, hclears, hothers, holder⟩ := hs.umount hnone hpending
    have hop : s.performOp builddir i rest true (.unmount t) =
        s₁.setProc i { s.procs i with todo := rest } := by
      simp only [performOp, hs₁, setTodo, hprocs]
    rw [hop] at hsep ⊢
    exact hs.setProc hprocs hsep (hpending' ▸ hclears) hothers holder hrooted hcalm
  | rmdir t => exact hsame hsep rfl
  | readMounts =>
    have hnil : mountpoints builddir s = [] := by
      refine mountpoints_eq_nil hs hname hT₀ ?_ (hread rfl)
      rcases (hs.calm i).deferred with h | h
      · obtain ⟨t, ht⟩ := h .readMounts (by rw [htodo]; simp)
        simp at ht
      · rw [hpending, htodo.symm.trans h]
        rfl
    rw [performOp, hnil] at hsep ⊢
    exact hsame hsep rfl
  | rescue t =>
    rcases (hs.calm i).deferred with h | h
    · obtain ⟨t', ht'⟩ := h (.rescue t) (by rw [htodo]; simp)
      simp at ht'
    · rw [htodo] at h
      cases h

theorem exists_of_mem_finalizer {m : SandboxMount} {op : Op} (hop : op ∈ m.finalizer) :
    ∃ t, op = .unmount t ∨ op = .rmdir t := by
  unfold SandboxMount.finalizer at hop
  split_ifs at hop
  · rcases List.mem_pair.1 hop with rfl | rfl
    · exact ⟨_, .inl rfl⟩
    · exact ⟨_, .inr rfl⟩
  · exact ⟨_, .inl (List.mem_singleton.1 hop)⟩

theorem pending_finalizer (m : SandboxMount) :
    m.finalizer.filterMap Op.unmounts? = [m.target] := by
  unfold SandboxMount.finalizer
  split_ifs <;> rfl

section Mounting

variable {m : SandboxMount} {sandbox : List SandboxMount} {finalizers : List Op}

theorem pending_registered :
    Process.pending { sandbox := sandbox, finalizers := m.finalizer ++ finalizers } =
      m.target :: Process.pending ⟨m :: sandbox, finalizers, [], false⟩ := by
  rw [Process.pending, Process.pending, List.append_nil, List.append_nil, List.filterMap_append,
    pending_finalizer, List.singleton_append]

theorem pending_abandoned : Process.pending { todo := finalizers } =
    Process.pending ⟨m :: sandbox, finalizers, [], false⟩ := by
  rw [Process.pending, Process.pending, List.append_nil, List.nil_append]

theorem rooted_registered (h : Process.Rooted ⟨m :: sandbox, finalizers, [], false⟩) :
    Process.Rooted { sandbox := sandbox, finalizers := m.finalizer ++ finalizers } := by
  obtain ⟨root, hroot, hbind⟩ := h
  refine ⟨root, .inl ?_, fun m' hm' => hbind m' (.tail _ hm')⟩
  rw [pending_registered]
  rcases hroot with hroot | hroot | hroot
  · exact .tail _ hroot
  · cases hroot
    exact List.mem_cons_self
  · cases hroot

/-- Bind mounts come after the root, which is above them. -/
theorem exists_root_of_rooted (h : Process.Rooted ⟨m :: sandbox, finalizers, [], false⟩)
    (hoverlay : m.overlay = false) :
    ∃ root ∈ Process.pending ⟨m :: sandbox, finalizers, [], false⟩, root <+: m.target := by
  obtain ⟨root, hroot, hbind⟩ := h
  refine ⟨root, ?_, hbind m List.mem_cons_self hoverlay⟩
  rcases hroot with hroot | hroot | hroot
  · exact hroot
  · cases hroot
    cases hoverlay
  · cases hroot

theorem deferred_of_calm (h : Process.Calm ⟨m :: sandbox, finalizers, [], false⟩) :
    ∀ op ∈ finalizers, ∃ t, op = .unmount t ∨ op = .rmdir t := by
  rcases h.deferred with h | h
  · rwa [List.append_nil] at h
  · cases h

theorem calm_registered (h : Process.Calm ⟨m :: sandbox, finalizers, [], false⟩) :
    Process.Calm { sandbox := sandbox, finalizers := m.finalizer ++ finalizers } := by
  refine ⟨.inl rfl, .inl fun op hop => ?_⟩
  rw [List.append_nil] at hop
  rcases List.mem_append.1 hop with hop | hop
  · exact exists_of_mem_finalizer hop
  · exact deferred_of_calm h op hop

theorem mount_tidy {submounts : List Path} {registered : Bool} {P : Process} (hs : s.Tidy T₀)
    (hproc : s.procs i = ⟨m :: sandbox, finalizers, [], false⟩)
    (hP : P = if registered then { sandbox := sandbox, finalizers := m.finalizer ++ finalizers }
      else { todo := finalizers })
    (hapart : Apart builddir (.mount i submounts registered) s)
    (hunrefused : Unrefused (.mount i submounts registered) s)
    (hsep : ((s.addMount i m submounts).setProc i P).Separate) :
    ((s.addMount i m submounts).setProc i P).Tidy T₀ := by
  have hclears := hs.clears i
  have hrooted := hs.rooted i
  have hcalm := hs.calm i
  rw [hproc] at hclears hrooted hcalm
  rw [Apart, hproc] at hapart
  rw [Unrefused, hproc] at hunrefused
  obtain ⟨hbelow, hpend⟩ := hapart m rfl
  obtain ⟨hsub, hreg⟩ := hunrefused
  obtain ⟨hothers, holder⟩ := hs.addMount hbelow hpend
  have hprocs : (s.addMount i m submounts).procs = s.procs := rfl
  cases registered with
  | false =>
    rw [if_neg Bool.false_ne_true] at hP
    subst hP
    obtain ⟨hoverlay, habove⟩ := hreg.resolve_left Bool.false_ne_true m rfl
    obtain ⟨root, hroot, hm⟩ := exists_root_of_rooted hrooted hoverlay
    refine hs.setProc hprocs hsep ?_ hothers holder ⟨[], .inr (.inr rfl), by simp⟩
      ⟨.inr ⟨rfl, rfl⟩, .inl (deferred_of_calm hcalm)⟩
    rw [addMount_mounts, pending_abandoned]
    exact clears_unregistered hclears hroot hm habove
  | true =>
    rw [if_pos rfl] at hP
    subst hP
    refine hs.setProc hprocs hsep ?_ hothers holder (rooted_registered hrooted)
      (calm_registered hcalm)
    rw [addMount_mounts, pending_registered]
    exact clears_registered hclears hsub

end Mounting

theorem next_tidy {a : MountAction ι} (hnone : ∀ e ∈ T₀, e.owner = none)
    (hname : ∀ name ∈ builddir, '\\' ∉ name)
    (hT₀ : ∀ e ∈ T₀, builddir <+: e.target → e.target = builddir) (hs : s.Tidy T₀)
    (ha : Apart builddir a s ∧ Unrefused a s) (h : next builddir a s = some s') :
    s'.Tidy T₀ := by
  obtain ⟨hapart, hunrefused⟩ := ha
  have hsep := next_separate hs.separate hapart h
  have hstay : ∀ {i : ι} {P : Process}, s' = s.setProc i P → s.mounts.Clears i P.pending →
      P.Rooted → P.Calm → s'.Tidy T₀ := by
    rintro i P rfl hclears hrooted hcalm
    exact hs.setProc rfl hsep hclears (fun j _ => hs.clears j) hs.older hrooted hcalm
  cases a with
  | enter i dir archdeps =>
    rw [next] at h
    split at h <;> cases h
    case h_1 hproc =>
      have hclears := hs.clears i
      rw [hproc] at hclears
      exact hstay rfl hclears (rooted_sandboxMounts dir archdeps) ⟨.inl rfl, .inl (by simp)⟩
  | mount i submounts registered =>
    rw [next] at h
    split at h <;> cases h
    case h_1 m sandbox finalizers hproc =>
      exact mount_tidy hs hproc rfl hapart hunrefused hsep
  | leave i =>
    rw [next] at h
    split at h <;> cases h
    case h_1 sandbox finalizers hproc =>
      have hclears := hs.clears i
      rw [hproc, Process.pending, List.append_nil] at hclears
      have hcalm := (hs.calm i).deferred
      rw [hproc, List.append_nil] at hcalm
      refine hstay rfl ?_ ⟨[], .inr (.inr rfl), by simp⟩ ⟨.inr ⟨rfl, rfl⟩, .inl ?_⟩
      · rw [hproc]
        exact hclears
      · rw [hproc]
        exact hcalm.resolve_right (by simp)
  | finish i =>
    rw [next] at h
    split at h <;> cases h
    case h_1 hproc =>
      have hclears := hs.clears i
      rw [hproc] at hclears
      exact hstay rfl hclears ⟨[], .inr (.inr rfl), by simp⟩ ⟨.inr ⟨rfl, rfl⟩, .inr rfl⟩
  | perform i ok =>
    rw [next] at h
    split at h <;> cases h
    case h_1 op rest htodo =>
      cases hunrefused
      refine performOp_tidy hs hnone hname hT₀ htodo (fun hop => hapart ?_) hsep
      rw [htodo, hop]
      rfl

omit [DecidableEq ι] in
theorem umount_getD_mounts (s : System ι) (i : ι) (t : Path) :
    ((s.umount i t true).getD s).mounts = s.mounts.tryDetach t ∧
      ((s.umount i t true).getD s).procs = s.procs := by
  rw [umount, if_pos rfl, MountTable.tryDetach]
  cases s.mounts.detach t <;> exact ⟨rfl, rfl⟩

theorem rescue_run (builddir : Path) {ts : List Path} {rest : List Op}
    (htodo : (s.procs i).todo = ts.map .rescue ++ rest) : ∃ s',
      Machine.Along (next builddir) (fun _ _ => True) s
        (List.replicate ts.length (.perform i true)) s' ∧
      (s'.procs i).todo = rest ∧ s'.mounts = ts.foldl MountTable.tryDetach s.mounts := by
  induction ts generalizing s with
  | nil => exact ⟨s, .nil s, htodo, rfl⟩
  | cons t ts ih =>
    obtain ⟨hmounts, hprocs⟩ := umount_getD_mounts s i t
    let s₁ := ((s.umount i t true).getD s).setTodo i (ts.map .rescue ++ rest)
    have hstep : next builddir (.perform i true) s = some s₁ := by
      rw [next, htodo]
      rfl
    have htodo₁ : (s₁.procs i).todo = ts.map .rescue ++ rest := by
      simp [s₁, setTodo, setProc]
    obtain ⟨s', hrun, hrest, hmounts'⟩ := ih htodo₁
    refine ⟨s', ?_, hrest, ?_⟩
    · exact ((Machine.Along.nil s).snoc trivial hstep).append hrun
    · rw [hmounts', List.foldl_cons, ← hmounts]
      rfl

omit [DecidableEq ι] in
/-- Where the paths can be read, `rescue_unmount_all_pbuild` finds all mountpoints below
`BUILDDIR`. -/
theorem mountpoints_eq (builddir : Path) (s : System ι) (hname : ∀ name ∈ builddir, '\\' ∉ name)
    (hread : ∀ e ∈ s.mounts, builddir <+: e.target → ∀ name ∈ e.target, ReadableName name) :
    mountpoints builddir s =
      (s.mounts.map Mount.target).filter fun t => builddir <+: t ∧ t ≠ builddir := by
  unfold mountpoints
  generalize s.mounts = T at hread ⊢
  induction T with
  | nil => rfl
  | cons e T ih =>
    obtain ⟨he, hT⟩ := List.forall_mem_cons.1 hread
    rw [List.map_cons, List.map_cons, List.filter_cons, List.filter_cons, ih hT]
    by_cases hbelow : builddir <+: e.target
    · have heq : e.target.map mountName = e.target :=
        (List.map_congr_left fun name hmem => mountName_eq (he hbelow name hmem)).trans
          (List.map_id _)
      rw [heq]
    · have hnot : ¬ builddir <+: e.target.map mountName := fun h =>
        hbelow (isPrefix_of_mountName hname h)
      simp [hbelow, hnot]

end System

end Pbuild
