import Mathlib.Data.Fintype.Defs
import Playbit.Machine.MountTable
import Playbit.Machine.Run
import Playbit.Package.Basic

/-!
# Sandboxes of several processes

Any number of pbuild processes share `BUILDDIR` and a mount namespace.  Each of them mounts the
sandboxes of its builds one after the other, unmounts each again through `Deferred`, and at the end
of `main` unmounts everything under `BUILDDIR` that is left in the mount table, whatever it was
run for.  Every system call is a step of its own, and the steps of the processes interleave in
any way.

The unmounting at the end goes by the mount table alone, so it takes down the sandboxes of other
processes as well: a process that only lists dependencies unmounts the sandbox of another
(`listDeps_tears_down`).  **Processes that keep apart do not tear down each other's sandboxes**
(`System.noTearDown_of_apart`).
-/

namespace Pbuild

open Python

/-- An absolute path, by its components. -/
abbrev Path := List Text

/-- What is mounted for a sandbox. -/
structure SandboxMount where
  target : Path
  /-- An `OverlayFS`, not a bind mount or a `tmpfs`. -/
  overlay : Bool

/-- A directory in the sandbox, as it is mounted in the build directory. -/
def sandboxDir (builddir dir : Path) : Path := builddir ++ "mnt".toList :: dir

/-- The mounts of the sandbox in a build directory, in order, where `archdeps` are the mountpoints
of the `ARCHDEPENDS` entries. -/
def sandboxMounts (builddir : Path) (archdeps : List Path) : List SandboxMount :=
  [⟨sandboxDir builddir [], true⟩, ⟨sandboxDir builddir ["p"], true⟩,
    ⟨sandboxDir builddir ["dev"], false⟩, ⟨sandboxDir builddir ["proc"], false⟩,
    ⟨sandboxDir builddir ["sys"], false⟩] ++
  archdeps.flatMap (fun dir =>
    [⟨builddir ++ "archdep".toList :: (dir ++ ["mnt".toList]), true⟩,
      ⟨sandboxDir builddir dir, false⟩]) ++
  [⟨sandboxDir builddir ["build", "shared"], false⟩, ⟨sandboxDir builddir ["tmp"], false⟩]

/-- How a name is written in `/proc/self/mounts`. -/
def mountName (name : Text) : Text :=
  name.flatMap fun c =>
    if c = ' ' then "\\040".toList
    else if c = '\t' then "\\011".toList
    else if c = '\n' then "\\012".toList
    else if c = '\\' then "\\134".toList
    else [c]

/-- A name without white space and backslashes, at which the lines of `/proc/self/mounts` are split
and which it writes in another way. -/
def ReadableName (name : Text) : Prop := ∀ c ∈ name, isSpace c = false ∧ c ≠ '\\'

instance decidableReadableName (name : Text) : Decidable (ReadableName name) :=
  List.decidableBAll (fun c => isSpace c = false ∧ c ≠ '\\') name

theorem mountName_eq {name : Text} (h : ReadableName name) : mountName name = name := by
  induction name with
  | nil => rfl
  | cons c name ih =>
    obtain ⟨⟨hspace, hbackslash⟩, hname⟩ := List.forall_mem_cons.1 h
    have hne : ∀ d, isSpace d = true → c ≠ d := by
      rintro d hd rfl
      rw [hspace] at hd
      cases hd
    rw [mountName, List.flatMap_cons, if_neg (hne ' ' rfl), if_neg (hne '\t' rfl),
      if_neg (hne '\n' rfl), if_neg hbackslash]
    exact congrArg (c :: ·) (ih hname)

/-- A name that is written in another way has a backslash. -/
theorem mountName_eq_or (name : Text) : mountName name = name ∨ '\\' ∈ mountName name := by
  induction name with
  | nil => exact .inl rfl
  | cons c name ih =>
    rw [mountName, List.flatMap_cons]
    split_ifs with h₁ h₂ h₃ h₄
    · exact .inr List.mem_cons_self
    · exact .inr List.mem_cons_self
    · exact .inr List.mem_cons_self
    · exact .inr List.mem_cons_self
    · exact ih.imp (congrArg (c :: ·)) (List.mem_cons_of_mem c)

/-- What looks like a path below a directory without backslashes is one. -/
theorem isPrefix_of_mountName {dir path : Path} (hdir : ∀ name ∈ dir, '\\' ∉ name)
    (h : dir <+: path.map mountName) : dir <+: path := by
  induction dir generalizing path with
  | nil => exact List.nil_prefix
  | cons x dir ih =>
    obtain ⟨hx, hdir'⟩ := List.forall_mem_cons.1 hdir
    cases path with
    | nil => exact absurd (List.prefix_nil.1 h) (List.cons_ne_nil x dir)
    | cons y path =>
      obtain ⟨rfl, hrest⟩ := List.cons_prefix_cons.1 h
      rw [(mountName_eq_or y).resolve_right hx]
      exact List.cons_prefix_cons.2 ⟨rfl, ih hdir' hrest⟩

/-- What a process does to the mount table, apart from mounting. -/
inductive Op
  /-- `unmount`, with `libc_MNT_DETACH`. -/
  | unmount (target : Path)
  /-- `self.mountpoint.rmdir()` in `OverlayFS.unmount`. -/
  | rmdir (target : Path)
  /-- The start of `rescue_unmount_all_pbuild`: read `/proc/self/mounts`. -/
  | readMounts
  /-- `rescue_unmount_all_pbuild` for a mountpoint it has read. -/
  | rescue (target : Path)
  deriving DecidableEq

/-- The path that is going to be unmounted. -/
def Op.target? : Op → Option Path
  | unmount target => some target
  | rmdir target => some target
  | readMounts => none
  | rescue target => some target

/-- What is deferred for a mount. -/
def SandboxMount.finalizer (m : SandboxMount) : List Op :=
  if m.overlay then [.unmount m.target, .rmdir m.target] else [.unmount m.target]

theorem SandboxMount.target_of_mem_finalizer (m : SandboxMount) {op : Op}
    (h : op ∈ m.finalizer) : op.target? = some m.target := by
  unfold finalizer at h
  split_ifs at h
  · rcases List.mem_pair.1 h with rfl | rfl <;> rfl
  · rw [List.mem_singleton.1 h]
    rfl

/-- A pbuild process. -/
structure Process where
  /-- What is still to be mounted for the sandbox that is being set up. -/
  sandbox : List SandboxMount := []
  /-- The finalizers of `Deferred`, last first. -/
  finalizers : List Op := []
  /-- What the process is in the middle of doing. -/
  todo : List Op := []
  /-- `main` has come to its `finally`. -/
  finished : Bool := false

/-- The paths that the process is going to unmount. -/
def Process.targets (P : Process) : List Path := (P.finalizers ++ P.todo).filterMap Op.target?

/-- The `with Deferred()` block is left. -/
def Process.leave (P : Process) : Process :=
  { P with sandbox := [], finalizers := [], todo := P.finalizers }

/-- The processes and the mount table. -/
structure System (ι : Type) where
  mounts : MountTable Text ι
  procs : ι → Process
  /-- Who has unmounted what. -/
  log : List (ι × Mount Text ι) := []

/-- Steps of the processes. -/
inductive MountAction (ι : Type)
  /-- `buildInSandbox` starts for a build directory. -/
  | enter (i : ι) (builddir : Path) (archdeps : List Path)
  /-- The next mount of the sandbox is made, with the mounts below the source that a recursive
  bind mount copies; unless it could not be made read-only, it is registered with `Deferred`. -/
  | mount (i : ι) (submounts : List Path) (registered : Bool)
  /-- The `with Deferred()` block is left, at its end or by an exception. -/
  | leave (i : ι)
  /-- `main` comes to its `finally`, in any mode. -/
  | finish (i : ι)
  /-- The next operation of what the process is doing; `ok` unless the system refuses. -/
  | perform (i : ι) (ok : Bool)

namespace System

variable {ι : Type}

/-- A system with a process changed. -/
def setProc [DecidableEq ι] (s : System ι) (i : ι) (P : Process) : System ι :=
  { s with procs := Function.update s.procs i P }

/-- A system with a process in the middle of `todo`. -/
def setTodo [DecidableEq ι] (s : System ι) (i : ι) (todo : List Op) : System ι :=
  s.setProc i { s.procs i with todo := todo }

/-- `libc_umount` by a process. -/
def umount (s : System ι) (i : ι) (target : Path) (ok : Bool) : Option (System ι) :=
  if ok then
    (s.mounts.detach target).map fun (gone, rest) =>
      { s with mounts := rest, log := s.log ++ gone.map fun m => (i, m) }
  else none

/-- What `rescue_unmount_all_pbuild` takes for the mountpoints below `BUILDDIR`, newest first.  It
does not undo how `/proc/self/mounts` writes them. -/
def mountpoints (builddir : Path) (s : System ι) : List Path :=
  (s.mounts.map fun m => m.target.map mountName).filter fun t => builddir <+: t ∧ t ≠ builddir

/-- One operation of a process, where `rest` is to follow. -/
def performOp [DecidableEq ι] (builddir : Path) (s : System ι) (i : ι) (rest : List Op)
    (ok : Bool) : Op → System ι
  | .unmount target =>
    match s.umount i target ok with
    | some s' => s'.setTodo i rest
    | none => s.setTodo i (.readMounts :: rest)
  | .rmdir target => s.setTodo i (if ok then rest else .unmount target :: rest)
  | .readMounts => s.setTodo i ((mountpoints builddir s).map .rescue ++ rest)
  | .rescue target => ((s.umount i target ok).getD s).setTodo i rest

/-- A mount of the sandbox of a process. -/
def addMount (s : System ι) (i : ι) (m : SandboxMount) (submounts : List Path) : System ι :=
  { s with
    mounts := submounts.map (fun dir => ⟨m.target ++ dir, some i⟩) ++ ⟨m.target, some i⟩ ::
      s.mounts }

/-- The steps of the processes. -/
def next [DecidableEq ι] (builddir : Path) : MountAction ι → System ι → Option (System ι)
  | .enter i dir archdeps, s =>
    match s.procs i with
    | ⟨[], [], [], false⟩ => some (s.setProc i { sandbox := sandboxMounts dir archdeps })
    | _ => none
  | .mount i submounts registered, s =>
    match s.procs i with
    | ⟨m :: sandbox, finalizers, [], false⟩ =>
      let P : Process := { sandbox := sandbox, finalizers := m.finalizer ++ finalizers }
      let P := if registered then P else { P with finalizers := finalizers }.leave
      some ((s.addMount i m submounts).setProc i P)
    | _ => none
  | .leave i, s =>
    match s.procs i with
    | ⟨_, _, [], false⟩ => some (s.setProc i (s.procs i).leave)
    | _ => none
  | .finish i, s =>
    match s.procs i with
    | ⟨[], [], [], false⟩ => some (s.setProc i { todo := [.readMounts], finished := true })
    | _ => none
  | .perform i ok, s =>
    match (s.procs i).todo with
    | op :: rest => some (s.performOp builddir i rest ok op)
    | [] => none

/-- Steps that keep out of the way of the other processes: a process does not mount where
something of another is mounted at or below, nor where another is going to unmount at or above,
and it does not read the mount table while another has something mounted below `BUILDDIR`. -/
def Apart (builddir : Path) : MountAction ι → System ι → Prop
  | .mount i submounts _, s => ∀ m ∈ (s.procs i).sandbox.head?,
    (∀ e ∈ s.mounts, m.target <+: e.target → ∀ j, e.owner = some j → j = i) ∧
    ∀ j, ∀ t ∈ (s.procs j).targets, ∀ dir ∈ [] :: submounts, t <+: m.target ++ dir → j = i
  | .perform i _, s => Op.readMounts ∈ (s.procs i).todo.head? →
    ∀ e ∈ s.mounts, builddir <+: e.target → e.target ≠ builddir → ∀ j, e.owner = some j → j = i
  | _, _ => True

instance decidableApart [DecidableEq ι] [Fintype ι] (builddir : Path) (a : MountAction ι)
    (s : System ι) : Decidable (Apart builddir a s) := by
  cases a <;> unfold Apart <;> infer_instance

/-- No process has unmounted what another had mounted. -/
def NoTearDown (s : System ι) : Prop := ∀ e ∈ s.log, ∀ j, e.2.owner = some j → j = e.1

/-- No process has mounted anything yet. -/
structure Initial (s : System ι) : Prop where
  procs : ∀ i, s.procs i = {}
  mounts : ∀ e ∈ s.mounts, e.owner = none
  log : s.log = []

/-- At and below `t` there is nothing that a process other than `i` has mounted. -/
def Own (s : System ι) (i : ι) (t : Path) : Prop :=
  ∀ e ∈ s.mounts, t <+: e.target → ∀ j, e.owner = some j → j = i

/-- What a process is going to unmount is its own. -/
structure Separate (s : System ι) : Prop where
  own : ∀ i, ∀ t ∈ (s.procs i).targets, s.Own i t
  noTearDown : s.NoTearDown

variable {builddir : Path} {s s' : System ι} {i : ι}

theorem Initial.separate (h : s.Initial) : s.Separate where
  own i t ht := by
    rw [h.procs i] at ht
    cases ht
  noTearDown e he := by
    rw [h.log] at he
    cases he

namespace Separate

/-- A process that is only going to unmount what is its own. -/
theorem setProc [DecidableEq ι] (hs : s.Separate) {P : Process}
    (hP : ∀ t ∈ P.targets, s.Own i t) : (s.setProc i P).Separate where
  own j t ht := by
    by_cases hj : j = i
    · subst hj
      exact hP t (by simpa [System.setProc] using ht)
    · exact hs.own j t (by simpa [System.setProc, hj] using ht)
  noTearDown := hs.noTearDown

theorem setTodo [DecidableEq ι] (hs : s.Separate) {todo : List Op}
    (htodo : ∀ op ∈ todo, ∀ t ∈ op.target?, s.Own i t) : (s.setTodo i todo).Separate := by
  refine hs.setProc fun t ht => ?_
  obtain ⟨op, hop, ht⟩ := List.mem_filterMap.1 ht
  rcases List.mem_append.1 hop with hop | hop
  · exact hs.own i t (List.mem_filterMap.2 ⟨op, List.mem_append_left _ hop, ht⟩)
  · exact htodo op hop t ht

theorem umount (hs : s.Separate) {t : Path} {ok : Bool} (ht : s.Own i t)
    (h : s.umount i t ok = some s') :
    s'.Separate ∧ s'.procs = s.procs ∧ ∀ e ∈ s'.mounts, e ∈ s.mounts := by
  unfold System.umount at h
  split_ifs at h
  obtain ⟨⟨gone, rest⟩, hdetach, rfl⟩ := Option.map_eq_some_iff.1 h
  obtain ⟨hgone, hrest⟩ := MountTable.detach_eq_some hdetach
  refine ⟨⟨fun j t' ht' e he => hs.own j t' ht' e (hrest e he), fun e he => ?_⟩, rfl, hrest⟩
  rcases List.mem_append.1 he with he | he
  · exact hs.noTearDown e he
  · obtain ⟨m, hm, rfl⟩ := List.mem_map.1 he
    exact ht m (hgone m hm).1 (hgone m hm).2

theorem mem_addMount {m : SandboxMount} {submounts : List Path} {e : Mount Text ι}
    (he : e ∈ (s.addMount i m submounts).mounts) :
    e ∈ s.mounts ∨ ∃ dir ∈ [] :: submounts, e = ⟨m.target ++ dir, some i⟩ := by
  rcases List.mem_append.1 he with he | he
  · obtain ⟨dir, hdir, rfl⟩ := List.mem_map.1 he
    exact .inr ⟨dir, .tail _ hdir, rfl⟩
  · rcases List.mem_cons.1 he with rfl | he
    · exact .inr ⟨[], List.mem_cons_self, by rw [List.append_nil]⟩
    · exact .inl he

theorem addMount (hs : s.Separate) {m : SandboxMount} {submounts : List Path}
    (hpend : ∀ j, ∀ t ∈ (s.procs j).targets, ∀ dir ∈ [] :: submounts,
      t <+: m.target ++ dir → j = i) : (s.addMount i m submounts).Separate where
  own j t ht e he hte k hk := by
    rcases mem_addMount he with he | ⟨dir, hdir, rfl⟩
    · exact hs.own j t ht e he hte k hk
    · rw [hpend j t ht dir hdir hte]
      exact (Option.some.inj hk).symm
  noTearDown := hs.noTearDown

end Separate

theorem own_addMount {m : SandboxMount} {submounts : List Path} {t : Path} (h : s.Own i t) :
    (s.addMount i m submounts).Own i t := by
  intro e he hte j hj
  rcases Separate.mem_addMount he with he | ⟨dir, -, rfl⟩
  · exact h e he hte j hj
  · exact (Option.some.inj hj).symm

theorem performOp_separate [DecidableEq ι] {op : Op} {rest : List Op} {ok : Bool}
    (hs : s.Separate) (htodo : (s.procs i).todo = op :: rest)
    (hread : op = .readMounts → ∀ e ∈ s.mounts, builddir <+: e.target → e.target ≠ builddir →
      ∀ j, e.owner = some j → j = i) : (s.performOp builddir i rest ok op).Separate := by
  have hown : ∀ op' ∈ op :: rest, ∀ t ∈ op'.target?, s.Own i t := fun op' hop t ht =>
    hs.own i t (List.mem_filterMap.2 ⟨op', List.mem_append_right _ (htodo ▸ hop), ht⟩)
  have hrest : ∀ op' ∈ rest, ∀ t ∈ op'.target?, s.Own i t := fun op' hop =>
    hown op' (.tail _ hop)
  have humount : ∀ t s', op.target? = some t → s.umount i t ok = some s' →
      (s'.setTodo i rest).Separate := by
    intro t s' ht hs'
    obtain ⟨hsep, -, hsub⟩ := hs.umount (hown op List.mem_cons_self t ht) hs'
    exact hsep.setTodo fun op' hop t' ht' e he => hrest op' hop t' ht' e (hsub e he)
  cases op with
  | unmount t =>
    rw [performOp]
    cases hs' : s.umount i t ok with
    | some s' => exact humount t s' rfl hs'
    | none =>
      refine hs.setTodo fun op' hop t' ht' => ?_
      rcases List.mem_cons.1 hop with rfl | hop
      · cases ht'
      · exact hrest op' hop t' ht'
  | rmdir t =>
    rw [performOp]
    refine hs.setTodo fun op' hop t' ht' => ?_
    split_ifs at hop
    · exact hrest op' hop t' ht'
    · rcases List.mem_cons.1 hop with rfl | hop
      · exact hown _ List.mem_cons_self t' ht'
      · exact hrest op' hop t' ht'
  | readMounts =>
    rw [performOp]
    refine hs.setTodo fun op' hop t' ht' => ?_
    rcases List.mem_append.1 hop with hop | hop
    · -- everything below a mountpoint that was read is below `BUILDDIR`
      obtain ⟨t, ht, rfl⟩ := List.mem_map.1 hop
      cases ht'
      obtain ⟨-, hbelow⟩ := List.mem_filter.1 ht
      rw [decide_eq_true_eq] at hbelow
      intro e he hte
      refine hread rfl e he (hbelow.1.trans hte) fun heq => hbelow.2 ?_
      exact (hbelow.1.eq_of_length_le (heq ▸ hte.length_le)).symm
    · exact hrest op' hop t' ht'
  | rescue t =>
    rw [performOp]
    cases hs' : s.umount i t ok with
    | some s' => exact humount t s' rfl hs'
    | none => exact hs.setTodo hrest

theorem next_separate [DecidableEq ι] {a : MountAction ι} (hs : s.Separate)
    (ha : Apart builddir a s) (h : next builddir a s = some s') : s'.Separate := by
  cases a with
  | enter i dir archdeps =>
    rw [next] at h
    split at h <;> cases h
    exact hs.setProc fun t ht => by cases ht
  | mount i submounts registered =>
    rw [next] at h
    split at h <;> cases h
    case h_1 m sandbox finalizers hproc =>
      rw [Apart, hproc] at ha
      obtain ⟨hbelow, hpend⟩ := ha m rfl
      have hold : ∀ op ∈ finalizers, ∀ t ∈ op.target?, s.Own i t := fun op hop t ht => by
        refine hs.own i t (List.mem_filterMap.2 ⟨op, ?_, ht⟩)
        rw [hproc]
        exact List.mem_append_left _ hop
      refine (hs.addMount hpend).setProc fun t hmem => own_addMount ?_
      obtain ⟨op, hop, ht⟩ := List.mem_filterMap.1 hmem
      cases registered with
      | false => exact hold op (by simpa [Process.leave] using hop) t ht
      | true =>
        rcases (by simpa using hop : op ∈ m.finalizer ∨ op ∈ finalizers) with hop | hop
        · rw [m.target_of_mem_finalizer hop] at ht
          cases ht
          exact hbelow
        · exact hold op hop t ht
  | leave i =>
    rw [next] at h
    split at h <;> cases h
    refine hs.setProc fun t ht => hs.own i t ?_
    obtain ⟨op, hop, ht⟩ := List.mem_filterMap.1 ht
    exact List.mem_filterMap.2 ⟨op, List.mem_append_left _ (by simpa [Process.leave] using hop), ht⟩
  | finish i =>
    rw [next] at h
    split at h <;> cases h
    exact hs.setProc fun t ht => by cases ht
  | perform i ok =>
    rw [next] at h
    split at h <;> cases h
    case h_1 op rest htodo =>
      refine performOp_separate hs htodo fun hop => ha ?_
      rw [htodo, hop]
      rfl

/-- **Processes that keep apart do not tear down each other's sandboxes**, in any interleaving of
their steps. -/
theorem noTearDown_of_apart [DecidableEq ι] {as : List (MountAction ι)} (h₀ : s.Initial)
    (h : Machine.Along (next builddir) (Apart builddir) s as s') : s'.NoTearDown :=
  (h.invariant h₀.separate fun _ _ _ => next_separate).noTearDown

end System

/-! ### Two processes -/

/-- Two processes before they start. -/
def twoProcesses : System Bool := { mounts := [⟨[], none⟩], procs := fun _ => {} }

theorem twoProcesses_initial : twoProcesses.Initial where
  procs _ := rfl
  mounts := by decide
  log := rfl

/-- `/b`, as `BUILDDIR`. -/
def sampleBuilddir : Path := ["b"]

/-- Two processes build `app` and `lib` at the same time. -/
theorem twoProcesses_separate : ∃ s, Machine.Along (System.next sampleBuilddir)
    (System.Apart sampleBuilddir) twoProcesses
    [.enter true ["b", "app.x86_64"] [], .mount true [] true, .enter false ["b", "lib.x86_64"] [],
      .mount false [] true, .mount true [] true, .leave true, .perform true true, .leave false,
      .perform false true, .perform false true, .finish false] s ∧
      s.NoTearDown ∧ s.log.length = 2 := by
  have hrun : ∃ s, Machine.runChecked (System.next sampleBuilddir) (System.Apart sampleBuilddir)
      [.enter true ["b", "app.x86_64"] [], .mount true [] true,
        .enter false ["b", "lib.x86_64"] [], .mount false [] true, .mount true [] true,
        .leave true, .perform true true, .leave false, .perform false true, .perform false true,
        .finish false]
      twoProcesses = some s ∧ s.log.length = 2 := ⟨_, rfl, rfl⟩
  obtain ⟨s, hs, hlog⟩ := hrun
  have h := Machine.along_of_runChecked hs
  exact ⟨s, h, System.noTearDown_of_apart twoProcesses_initial h, hlog⟩

/-- A process that only lists dependencies unmounts the sandbox of another. -/
theorem listDeps_tears_down : ∃ s, Machine.Along (System.next sampleBuilddir) (fun _ _ => True)
    twoProcesses [.enter true ["b", "app.x86_64"] [], .mount true [] true, .finish false,
      .perform false true, .perform false true] s ∧ ¬ s.NoTearDown := by
  refine ⟨_, Machine.along_of_runChecked rfl, fun h => ?_⟩
  have := h (false, ⟨["b", "app.x86_64", "mnt"], some true⟩) (by decide) true rfl
  cases this

end Pbuild
