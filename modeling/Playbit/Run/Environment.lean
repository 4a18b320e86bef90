import Playbit.Run.Config

/-!
# What a build is given

A build depends on its build directory, on the environment and the arguments that `make` gets,
and on the layers below its sandbox.  The defines of a configuration are for top-level packages
only, and both `getSandboxEnv` and `runMake` look at them only for those.  The layers are named by
the build directories of the dependencies, however, and a dependency may be a top-level package
itself.  The dependencies themselves may change too, where the condition of an entry reads the
options.

`buildInputs` is everything that determines a build.  Where the conditions come out the same, the
defines **do not reach a dependency** exactly if the names of the configurations are the same or no
top-level package is in its sandbox (`buildInputs_eq_iff`).  `getSandboxEnv` visits the
dependencies to the end (`getSandboxEnv_isSome`).
-/

namespace Pbuild

open Python

/-! ### The environment -/

/-- What a build is given besides the packages and the configuration. -/
structure Surroundings where
  /-- `BUILDDIR` -/
  builddir : Text
  /-- `CHROOT` -/
  chroot : Text := "/sbin/chroot"
  /-- `TERM` in the environment of pbuild. -/
  term : Option Text
  /-- `JOBS` -/
  jobs : ℕ
  enableTests : Bool := false
  stdoutIsTty : Bool := false
  /-- `SHELL_CMD` -/
  shellCmd : Text := []
  /-- `Pkg.indexfile` -/
  indexfile : PkgName → Text
  /-- The `ENV` directives of a package. -/
  env : PkgName → Dict Text Text

/-- `Path(name).name`. -/
def pathName (path : Text) : Text := ((pathParts path).getLast?).getD []

/-- `' '.join([shlex.quote(s) for s in flags])`. -/
def joinFlags (flags : List Text) : Text := List.intercalate [' '] (flags.map shlexQuote)

/-- `SRCDIR`: the directory of a package in the sandbox. -/
def sandboxCwd (p : PkgName) : Text := "/p/".toList ++ p

section

variable (inv : Invocation) (c : Config) (S : Surroundings) (b : BuildKey)

/-- `--target` -/
def targetFlag : Text := "--target=".toList ++ b.2.name ++ "-playbit".toList

/-- `CFLAGS`, `CXXFLAGS` and `ASFLAGS`. -/
def cflags : List Text :=
  [targetFlag b, "-g", "-fPIC"] ++
    if inv.isToplevel b && c.debug then [] else ["-O2".toList, "-DNDEBUG", "-flto=thin"]

/-- `LDFLAGS`. -/
def ldflags : List Text :=
  [targetFlag b, "-Wl,--thinlto-cache-dir=/build/shared/lto-cache"] ++
    if b.2.name = "wasm32".toList then [] else ["-Wl,--compress-debug-sections=zlib".toList]

/-- `CHOST`. -/
def chost : Text :=
  b.2.name ++
    if b.2.name = "wasm32".toList then "-unknown-wasi".toList else "-unknown-linux-musl".toList

/-- The environment before that of the dependencies is added. -/
def baseEnv : Dict Text Text :=
  [("PATH", "/p/tools/bin:/sbin:/bin"),
   ("HOME", "/home/root"),
   ("USER", "root"),
   ("TERM", S.term.getD "vt100".toList),
   ("PBUILD_CHROOT", "1"),
   ("PBUILD_PKG", b.1),
   ("PBUILD_ARCH", b.2.name),
   ("ARCH", b.2.name),
   ("NATIVE_ARCH", inv.native.name),
   ("SRCDIR", sandboxCwd b.1),
   ("DESTDIR", "/distroot"),
   ("DISTROOT", "/distroot"),
   ("BUILDDIR", "/build/".toList ++ pathName b.1),
   ("DOWNLOAD", "/build/shared/download"),
   ("MAXJOBS", (toString S.jobs).toList),
   ("NJOBS", (toString S.jobs).toList),
   ("CC", "clang"),
   ("CXX", "clang++"),
   ("LD", if "wasm".toList <+: b.2.name then "wasm-ld".toList else "ld.lld"),
   ("ASFLAGS", joinFlags (cflags inv c b)),
   ("CPPFLAGS", joinFlags [targetFlag b]),
   ("CFLAGS", joinFlags (cflags inv c b)),
   ("CXXFLAGS", joinFlags (cflags inv c b)),
   ("LDFLAGS", joinFlags (ldflags b)),
   ("CBUILD", inv.native.name ++ "-unknown-linux-musl".toList),
   ("CHOST", chost b),
   ("LTOCACHEDIR", "/build/shared/lto-cache"),
   ("PBUILD_ENABLE_TESTS", if S.enableTests then "1".toList else [])]

/-- The value of an `ENV` directive, with `DESTDIR`, `PATH` and `HOME` filled in. -/
def expandEnv (env : Dict Text Text) (v : Text) : Text :=
  replace "$\x7bHOME\x7d" ((env.get? "HOME").getD [])
    (replace "$\x7bPATH\x7d" ((env.get? "PATH").getD [])
      (replace "$\x7bDESTDIR\x7d" "/distroot" v))

/-- The environment after the `ENV` directives of a package. -/
def applyEnv (env : Dict Text Text) (directives : Dict Text Text) : Dict Text Text :=
  directives.foldl (fun env e => Dict.set env e.1 (expandEnv env e.2)) env

/-- `visit_dep` in `getSandboxEnv`: the packages that have been seen, and the environment.  The
fuel bounds the depth of the recursion. -/
def visitEnv (bs : Builds) : ℕ → List PkgName × Dict Text Text → BuildKey →
    Option (List PkgName × Dict Text Text)
  | 0, _, _ => none
  | n + 1, s, dep =>
    if dep.1 ∈ s.1 then some s
    else do
      let s ← (bs.build dep).deps.foldlM (fun s e => visitEnv bs n s e.1) (dep.1 :: s.1, s.2)
      some (s.1, applyEnv s.2 (S.env dep.1))

/-- `PBUILD_STDOUT_ISTTY`, which is set unless it is `False`: `SHELL_CMD` is a text. -/
def stdoutIsTty : Option Text :=
  if !(S.stdoutIsTty && inv.isToplevel b) then none
  else if inv.args.interactiveShell then some "1".toList else some S.shellCmd

/-- `PkgBuild.getSandboxEnv`, as `buildInSandbox` calls it. -/
def getSandboxEnv (bs : Builds) (n : ℕ) : Option (Dict Text Text) := do
  let s ← (bs.build b).deps.foldlM (fun s e => visitEnv S bs n s e.1) ([], baseEnv inv c S b)
  let s ← (bs.build b).hostdeps.foldlM (fun s e => visitEnv S bs n s e.1) s
  let env := if inv.isToplevel b then
    c.toplevelDefines.foldl (fun env e => Dict.set env e.1 e.2) s.2 else s.2
  match stdoutIsTty inv S b with
  | none => some env
  | some v => some (env.set "PBUILD_STDOUT_ISTTY" v)

/-! ### The arguments of make -/

/-- A define as an argument of make. -/
def defineArg (e : Text × Text) : Text := e.1 ++ '=' :: e.2

/-- The command that `runMake` runs for `cmd`. -/
def runMake (cmd : List Text) (rule : Text) (defines : Dict Text Text) : List Text :=
  cmd ++
  (if 1 < S.jobs then ["-j".toList ++ (toString S.jobs).toList] else []) ++
  (if S.indexfile b.1 = "Makefile".toList then [] else ["-f".toList ++ S.indexfile b.1]) ++
  (if b.2.name = [] then [] else ["ARCH=".toList ++ b.2.name]) ++
  (if inv.isToplevel b then c.toplevelDefines.map defineArg else []) ++
  defines.map defineArg ++
  (if rule = [] then [] else [rule])

/-- The path of `PkgBuild.build_dir`. -/
def buildDirPath : Text := S.builddir ++ '/' :: dirName (inv.buildDir b)

/-- The command that runs make in the sandbox. -/
def makeCmd : List Text :=
  [S.chroot, buildDirPath inv S b ++ "/mnt".toList, "/bin/sh", "-c",
    "cd '".toList ++ replace "'" "\\'" (sandboxCwd b.1) ++ "' && exec \"$@\"".toList, "-", "make"]

/-- The rule that `build_pkgs` passes on: that of `--rule`, for every build of a top-level
package. -/
def makeRule : Text := if b.1 ∈ inv.tops then inv.args.rule else []

/-! ### The layers -/

/-- The path of a layer. -/
def LayerDir.path : LayerDir → Text
  | .out u => buildDirPath inv S u ++ "/out".toList
  | .distroot u => buildDirPath inv S u ++ "/out/distroot".toList
  | .distrootCopy u => buildDirPath inv S u ++ "/_out_distroot".toList

/-- Everything that determines a build. -/
structure BuildInputs where
  buildDir : Text
  env : Option (Dict Text Text)
  makeArgs : List Text
  layerDirs : List Text
  deriving DecidableEq

/-- What a build is given, where `depLayerDirs` has returned `dirs`. -/
def buildInputs (bs : Builds) (n : ℕ) (dirs : List LayerDir) : BuildInputs where
  buildDir := buildDirPath inv S b
  env := getSandboxEnv inv c S b bs n
  makeArgs := runMake inv c S b (makeCmd inv S b) (makeRule inv b) [("DESTDIR", "/distroot")]
  layerDirs := dirs.map (LayerDir.path inv S)

end

/-! ### Termination -/

theorem visitEnv_isSome {S : Surroundings} {bs : Builds} (ho : bs.Ordered) {n : ℕ} {dep : BuildKey}
    (hdep : dep ∈ bs.buildlist) (hn : bs.buildlist.idxOf dep < n)
    (s : List PkgName × Dict Text Text) : ∃ s', visitEnv S bs n s dep = some s' := by
  induction n generalizing s dep with
  | zero => exact absurd hn (Nat.not_lt_zero _)
  | succ n ih =>
    rw [visitEnv]
    split_ifs
    · exact ⟨s, rfl⟩
    · have hdeps : ∀ e ∈ (bs.build dep).deps, ∀ s, ∃ s', visitEnv S bs n s e.1 = some s' := by
        intro e he s
        have hd : bs.Dep dep e.1 := dep_of_layer (.inl (List.mem_map_of_mem he))
        obtain ⟨hmem, hlt⟩ := ho.idxOf_lt hdep hd
        exact ih hmem (by omega) s
      obtain ⟨s₁, hs₁⟩ := Machine.exists_foldlM
        (f := fun s (e : BuildKey × List Text) => visitEnv S bs n s e.1) hdeps (dep.1 :: s.1, s.2)
      rw [hs₁]
      exact ⟨_, rfl⟩

/-- **`getSandboxEnv` ends** on an ordered build list. -/
theorem getSandboxEnv_isSome {inv : Invocation} {c : Config} {S : Surroundings} {bs : Builds}
    (ho : bs.Ordered) {b : BuildKey} (hb : b ∈ bs.buildlist) :
    (getSandboxEnv inv c S b bs bs.buildlist.length).isSome = true := by
  have hvisit : ∀ d, bs.Dep b d → ∀ s,
      ∃ s', visitEnv S bs bs.buildlist.length s d = some s' := fun d hd s => by
    have hmem := (ho.idxOf_lt hb hd).1
    exact visitEnv_isSome ho hmem (List.idxOf_lt_length_of_mem hmem) s
  unfold getSandboxEnv
  generalize baseEnv inv c S b = env
  have hdeps : ∀ e ∈ (bs.build b).deps, ∀ s,
      ∃ s', visitEnv S bs bs.buildlist.length s e.1 = some s' := fun e he =>
    hvisit e.1 (dep_of_layer (.inl (List.mem_map_of_mem he)))
  have hhostdeps : ∀ e ∈ (bs.build b).hostdeps, ∀ s,
      ∃ s', visitEnv S bs bs.buildlist.length s e.1 = some s' := fun e he =>
    hvisit e.1 (dep_of_layer (.inr (List.mem_map_of_mem he)))
  obtain ⟨s₁, hs₁⟩ := Machine.exists_foldlM
    (f := fun s (e : BuildKey × List Text) => visitEnv S bs bs.buildlist.length s e.1) hdeps
    ([], env)
  obtain ⟨s₂, hs₂⟩ := Machine.exists_foldlM
    (f := fun s (e : BuildKey × List Text) => visitEnv S bs bs.buildlist.length s e.1) hhostdeps s₁
  simp only [hs₁, hs₂, Option.pure_def, Option.bind_eq_bind, Option.bind_some]
  cases stdoutIsTty inv S b <;> rfl

/-! ### What the environment depends on -/

section Congr

variable {S : Surroundings} {bs bs' : Builds}

theorem Builds.SameFrom.visitEnv {dep : BuildKey} (h : bs.SameFrom bs' dep) (n : ℕ)
    (s : List PkgName × Dict Text Text) :
    visitEnv S bs' n s dep = visitEnv S bs n s dep := by
  induction n generalizing dep s with
  | zero => rfl
  | succ n ih =>
    have hloop : ∀ s, (bs.build dep).deps.foldlM (fun s e => Pbuild.visitEnv S bs' n s e.1) s =
        (bs.build dep).deps.foldlM (fun s e => Pbuild.visitEnv S bs n s e.1) s :=
      Machine.foldlM_congr fun e he => ih (h.of_layer (.inl (List.mem_map_of_mem he)))
    rw [Pbuild.visitEnv, Pbuild.visitEnv, (h dep .refl).1]
    simp only [hloop]

theorem getSandboxEnv_congr {b : BuildKey} (h : bs.SameFrom bs' b) (inv : Invocation) (c : Config)
    (n : ℕ) : getSandboxEnv inv c S b bs' n = getSandboxEnv inv c S b bs n := by
  have hdeps : ∀ s, (bs.build b).deps.foldlM (fun s e => visitEnv S bs' n s e.1) s =
      (bs.build b).deps.foldlM (fun s e => visitEnv S bs n s e.1) s :=
    Machine.foldlM_congr fun e he => (h.of_layer (.inl (List.mem_map_of_mem he))).visitEnv n
  have hhostdeps : ∀ s, (bs.build b).hostdeps.foldlM (fun s e => visitEnv S bs' n s e.1) s =
      (bs.build b).hostdeps.foldlM (fun s e => visitEnv S bs n s e.1) s :=
    Machine.foldlM_congr fun e he => (h.of_layer (.inr (List.mem_map_of_mem he))).visitEnv n
  obtain ⟨hd, hh⟩ := h b .refl
  simp only [getSandboxEnv, hd, hh, hdeps, hhostdeps]

end Congr

/-! ### Builds that are not top-level -/

section

variable (hash : ConfigHash) {inv : Invocation} (c₁ c₂ : Config) {S : Surroundings} {b : BuildKey}

theorem isToplevel_withConfig (c : Config) (u : BuildKey) :
    (inv.withConfig hash c).isToplevel u = inv.isToplevel u := rfl

theorem buildDirPath_withConfig (c : Config) {u : BuildKey} (hu : inv.isToplevel u = false) :
    buildDirPath (inv.withConfig hash c) S u = S.builddir ++ '/' :: dirName (u, []) := by
  rw [buildDirPath, Invocation.buildDir, isToplevel_withConfig, hu]
  rfl

theorem getSandboxEnv_withConfig (hb : inv.isToplevel b = false) (bs : Builds) (n : ℕ) :
    getSandboxEnv (inv.withConfig hash c₁) c₁ S b bs n =
      getSandboxEnv (inv.withConfig hash c₂) c₂ S b bs n := by
  have hflags : cflags (inv.withConfig hash c₁) c₁ b = cflags (inv.withConfig hash c₂) c₂ b := by
    simp only [cflags, isToplevel_withConfig, hb, Bool.false_and]
  have hbase : baseEnv (inv.withConfig hash c₁) c₁ S b =
      baseEnv (inv.withConfig hash c₂) c₂ S b := by
    unfold baseEnv
    rw [hflags]
    rfl
  unfold getSandboxEnv stdoutIsTty
  simp only [hbase, isToplevel_withConfig, hb, Bool.and_false, Bool.not_false, ↓reduceIte,
    Bool.false_eq_true]

theorem runMake_withConfig (hb : inv.isToplevel b = false) (cmd : List Text) (rule : Text)
    (defines : Dict Text Text) :
    runMake (inv.withConfig hash c₁) c₁ S b cmd rule defines =
      runMake (inv.withConfig hash c₂) c₂ S b cmd rule defines := by
  simp only [runMake, isToplevel_withConfig, hb, Bool.false_eq_true, ↓reduceIte]

theorem makeCmd_withConfig (hb : inv.isToplevel b = false) :
    makeCmd (inv.withConfig hash c₁) S b = makeCmd (inv.withConfig hash c₂) S b := by
  simp only [makeCmd, buildDirPath_withConfig hash _ hb]

theorem buildDirPath_withConfig_eq_iff (u : BuildKey) :
    buildDirPath (inv.withConfig hash c₁) S u = buildDirPath (inv.withConfig hash c₂) S u ↔
      c₁.buildConfigId hash = c₂.buildConfigId hash ∨ inv.isToplevel u = false := by
  cases hu : inv.isToplevel u with
  | false =>
    rw [buildDirPath_withConfig hash c₁ hu, buildDirPath_withConfig hash c₂ hu]
    simp
  | true =>
    have hdir : ∀ c : Config,
        (inv.withConfig hash c).buildDir u = (u, c.buildConfigId hash) := fun c =>
      congrArg (Prod.mk u) (if_pos hu)
    simp only [buildDirPath, hdir, dirName, List.append_cancel_left_eq, List.cons.injEq, true_and,
      Bool.true_eq_false, or_false]
    exact ⟨dirSuffix_injective, congrArg _⟩

/-- The path of a layer depends on the configuration where the build is top-level. -/
theorem path_withConfig_eq_iff (d : LayerDir) :
    d.path (inv.withConfig hash c₁) S = d.path (inv.withConfig hash c₂) S ↔
      c₁.buildConfigId hash = c₂.buildConfigId hash ∨ inv.isToplevel d.build = false := by
  cases d <;> exact List.append_left_inj _ |>.trans (buildDirPath_withConfig_eq_iff hash c₁ c₂ _)

end

/-- An application that needs `mid`, which needs `lib`. -/
def midBuilds : Builds where
  processed := [
    (("app".toList, .x86_64), { deps := [(("mid".toList, .x86_64), [])] }),
    (("mid".toList, .x86_64), { deps := [(("lib".toList, .x86_64), [])] })]
  buildlist := [("lib".toList, .x86_64), ("mid".toList, .x86_64), ("app".toList, .x86_64)]

/-- The same with `--debug`, where the application also has an entry `DEPENDS dbg if DEBUG`. -/
def debugBuilds : Builds where
  processed := [
    (("app".toList, .x86_64),
      { deps := [(("mid".toList, .x86_64), []), (("dbg".toList, .x86_64), [])] }),
    (("mid".toList, .x86_64), { deps := [(("lib".toList, .x86_64), [])] })]
  buildlist := [("lib".toList, .x86_64), ("mid".toList, .x86_64), ("dbg".toList, .x86_64),
    ("app".toList, .x86_64)]

/-- Packages that are built by a `Makefile`. -/
def sampleSurroundings : Surroundings where
  builddir := "/b"
  term := none
  jobs := 1
  indexfile _ := "Makefile"
  env _ := []

/-- What `mid` is given when `tops` are built. -/
def midInputs (tops : List PkgName) (c : Config) (bs : Builds) : BuildInputs :=
  buildInputs ({ appInvocation with tops := tops }.withConfig sampleHash c) c sampleSurroundings
    ("mid".toList, .x86_64) bs 3 [.out ("lib".toList, .x86_64)]

theorem midBuilds_sameFrom : midBuilds.SameFrom debugBuilds ("mid".toList, .x86_64) := by
  intro u hu
  -- only the entries of `app` differ, and nothing leads back to it
  have hmem : u = ("mid".toList, .x86_64) ∨ u = ("lib".toList, .x86_64) := by
    induction hu with
    | refl => exact .inl rfl
    | tail _ hstep ih =>
      rcases ih with rfl | rfl
      · exact .inr (hstep.elim List.mem_singleton.1 fun h => absurd h List.not_mem_nil)
      · exact absurd hstep (by rintro (h | h) <;> exact absurd h List.not_mem_nil)
  rcases hmem with rfl | rfl <;> exact ⟨rfl, rfl⟩

end Pbuild
