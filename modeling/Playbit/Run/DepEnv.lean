import Playbit.Graph.Marked
import Playbit.Python.Words
import Playbit.Run.Environment

/-!
# The environment from the dependencies

A package can set environment variables for its dependants with `ENV` directives, and refer to the
values of `PATH` and `HOME` so far.  `getSandboxEnv` visits the dependencies and the build tools of
a build, and what they depend on, and applies the directives of a package when it leaves it.

In a native graph a package has one build, so that it is visited once although only its name is
marked.  There the directives are applied in an order in which a package comes after those that it
depends on.  For each variable the last of them counts, unless the variable is set afterwards: by
the defines of a top-level package, or by pbuild itself, which sets `PBUILD_STDOUT_ISTTY`.

A directive can put a directory in front of `PATH`.  Since `${HOME}` is filled in last, in the value
of `PATH` too, this works as expected as long as `HOME` is a path.

`getSandboxEnv_spec` says what the environment is, as far as it comes from the directives, for every
order of them in which a package comes after what it depends on (`Builds.EnvOrder`).
-/

namespace Pbuild

open Python DepthFirst

/-! ### The order of the packages -/

/-- The builds of the `DEPENDS` entries. -/
def Builds.depends (bs : Builds) (k : BuildKey) : List BuildKey := (bs.build k).deps.map Prod.fst

/-- The builds that `getSandboxEnv` starts from. -/
def Builds.envRoots (bs : Builds) (b : BuildKey) : List BuildKey :=
  bs.depends b ++ (bs.build b).hostdeps.map Prod.fst

/-- The packages whose directives are for `b`, each of them once, and after those that it depends
on.  All builds are for `a`. -/
structure Builds.EnvOrder (bs : Builds) (a : Arch) (b : BuildKey) (order : List PkgName) :
    Prop where
  nodup : order.Nodup
  mem : ∀ p, p ∈ order ↔
    ∃ d ∈ bs.envRoots b, Relation.ReflTransGen (Edge bs.depends) d (p, a)
  after : Sorted (fun p q => (q, a) ∈ bs.depends (p, a)) order

section Order

variable {S : Surroundings} {bs : Builds} {b : BuildKey} {n : ℕ}

theorem visitEnv_eq_markedVisit (S : Surroundings) (bs : Builds) (n : ℕ) :
    visitEnv S bs n =
      markedVisit bs.depends Prod.fst (fun env k => applyEnv env (S.env k.1)) n := by
  induction n with
  | zero => rfl
  | succ n ih =>
    funext s dep
    rw [visitEnv, markedVisit, ih, Builds.depends, List.foldlM_map]
    split_ifs <;> rfl

theorem mem_buildlist_of_depends (ho : bs.Ordered) {u v : BuildKey} (hu : u ∈ bs.buildlist)
    (hv : v ∈ bs.depends u) :
    v ∈ bs.buildlist ∧ bs.buildlist.idxOf v < bs.buildlist.idxOf u :=
  ho.idxOf_lt hu (dep_of_layer (.inl hv))

theorem not_transGen_depends (ho : bs.Ordered) {u : BuildKey} (hu : u ∈ bs.buildlist) :
    ¬ Relation.TransGen (Edge bs.depends) u u := by
  intro hcyc
  exact Builds.not_transGen_self (fun k hk d hd => ho.idxOf_lt hk hd) hu
    (hcyc.lift id fun _ _ hv => dep_of_layer (.inl hv))

theorem mem_buildlist_of_reach (ho : bs.Ordered) {u v : BuildKey} (hu : u ∈ bs.buildlist)
    (h : Relation.ReflTransGen (Edge bs.depends) u v) : v ∈ bs.buildlist := by
  induction h with
  | refl => exact hu
  | tail _ hv ih => exact (mem_buildlist_of_depends ho ih hv).1

theorem mem_buildlist_of_envRoots (ho : bs.Ordered) (hb : b ∈ bs.buildlist) {d : BuildKey}
    (hd : d ∈ bs.envRoots b) : d ∈ bs.buildlist := by
  rcases List.mem_append.1 hd with hd | hd
  · exact (ho.idxOf_lt hb (dep_of_layer (.inl hd))).1
  · exact (ho.idxOf_lt hb (dep_of_layer (.inr hd))).1

theorem applyEnv_append (env m₁ m₂ : Dict Text Text) :
    applyEnv env (m₁ ++ m₂) = applyEnv (applyEnv env m₁) m₂ := List.foldl_append

theorem foldl_applyEnv (S : Surroundings) (ps : List BuildKey) (env : Dict Text Text) :
    ps.foldl (fun env k => applyEnv env (S.env k.1)) env =
      applyEnv env ((ps.map Prod.fst).flatMap S.env) := by
  induction ps generalizing env with
  | nil => rfl
  | cons k ps ih => rw [List.foldl_cons, ih, List.map_cons, List.flatMap_cons, applyEnv_append]

theorem Builds.EnvOrder.of_lists {a : Arch} {order : List BuildKey}
    (harch : ∀ u ∈ order, u = (u.1, a))
    (h : Lists bs.depends
      (fun u => ∃ d ∈ bs.envRoots b, Relation.ReflTransGen (Edge bs.depends) d u) [] order) :
    bs.EnvOrder a b (order.map Prod.fst) := by
  refine ⟨h.nodup.map_on fun u hu v hv huv => ?_, fun p => ?_, fun l₁ p l₂ hl q hq => ?_⟩
  · rw [harch u hu, harch v hv, huv]
  · have hp : p ∈ order.map Prod.fst ↔ (p, a) ∈ order := by
      rw [List.mem_map]
      constructor
      · rintro ⟨u, hu, rfl⟩
        exact harch u hu ▸ hu
      · exact fun h => ⟨_, h, rfl⟩
    rw [hp, h.mem]
    exact or_iff_right List.not_mem_nil
  · obtain ⟨m₁, m, rfl, rfl, hm⟩ := List.map_eq_append_iff.1 hl
    obtain ⟨u, m₂, rfl, rfl, rfl⟩ := List.map_eq_cons_iff.1 hm
    rw [← harch u (by simp)] at hq
    exact List.mem_map.2 ⟨_, h.sorted m₁ u m₂ rfl _ hq, rfl⟩

/-- **The directives are applied in order.** -/
theorem exists_envOrder (ho : bs.Ordered) (hb : b ∈ bs.buildlist) {a : Arch}
    (hnative : ∀ u ∈ bs.buildlist, u.2 = a) {env : Dict Text Text}
    {s : List PkgName × Dict Text Text}
    (h : (bs.envRoots b).foldlM (visitEnv S bs n) ([], env) = some s) :
    ∃ order, bs.EnvOrder a b order ∧ s.2 = applyEnv env (order.flatMap S.env) := by
  have hmark : ∀ u v : BuildKey, u ∈ bs.buildlist → v ∈ bs.buildlist → u.1 = v.1 → u = v :=
    fun u v hu hv h => Prod.ext h ((hnative u hu).trans (hnative v hv).symm)
  rw [visitEnv_eq_markedVisit] at h
  obtain ⟨order, hl, hs, -⟩ : Follows Prod.fst (· ∈ bs.buildlist)
      (fun env k => applyEnv env (S.env k.1)) (fun _ => False) []
      ((bs.envRoots b).foldlM (fun l v => postorder bs.depends n v l) []) ([], env) s :=
    Follows.foldlM (fun d hd s s' l hm hvisit =>
      Follows.of_markedVisit (fun k => bs.buildlist.idxOf k)
        (fun u v hu hv => mem_buildlist_of_depends ho hu hv) hmark
        (mem_buildlist_of_envRoots ho hb hd) (fun u hu => hu.elim) hm hvisit)
      (fun u _ => by simp) h
  have hlists := Lists.foldlM (fun d hd l l' hn hs hl => postorder_spec (fun u hu =>
    not_transGen_depends ho (mem_buildlist_of_reach ho (mem_buildlist_of_envRoots ho hb hd) hu))
    hn hs hl) List.nodup_nil Sorted.nil hl
  rw [List.nil_append] at hlists
  have hlist : ∀ u ∈ order, u ∈ bs.buildlist := by
    intro u hu
    obtain ⟨d, hd, hreach⟩ := ((hlists.mem u).1 hu).resolve_left List.not_mem_nil
    exact mem_buildlist_of_reach ho (mem_buildlist_of_envRoots ho hb hd) hreach
  have harch : ∀ u ∈ order, u = (u.1, a) := fun u hu => Prod.ext rfl (hnative u (hlist u hu))
  exact ⟨order.map Prod.fst, .of_lists harch hlists, hs.trans (foldl_applyEnv S order env)⟩

end Order

/-! ### The values -/

/-- A variable is set after the directives have been applied: by the defines of a top-level package,
or as `PBUILD_STDOUT_ISTTY`. -/
def Overridden (inv : Invocation) (c : Config) (S : Surroundings) (b : BuildKey) (k : Text) :
    Prop :=
  inv.isToplevel b = true ∧ k ∈ c.toplevelDefines.map Prod.fst ∨
    k = "PBUILD_STDOUT_ISTTY".toList ∧ (stdoutIsTty inv S b).isSome = true

section Values

variable {env m m₁ m₂ : Dict Text Text} {k v : Text}

theorem get?_foldl_set {f : Dict Text Text → Text × Text → Text} (h : k ∉ m.map Prod.fst)
    (env : Dict Text Text) :
    (m.foldl (fun env e => Dict.set env e.1 (f env e)) env).get? k = env.get? k := by
  induction m generalizing env with
  | nil => rfl
  | cons e m ih =>
    rw [List.map_cons, List.mem_cons, not_or] at h
    rw [List.foldl_cons, ih h.2, Dict.set, Dict.get?_alter_ne _ h.1]

/-- **The last directive for a variable counts**, with the values so far filled in. -/
theorem get?_applyEnv_last (h : k ∉ m₂.map Prod.fst) :
    (applyEnv env (m₁ ++ (k, v) :: m₂)).get? k = some (expandEnv (applyEnv env m₁) v) := by
  rw [applyEnv_append, applyEnv, List.foldl_cons]
  exact (get?_foldl_set h _).trans (Dict.get?_alter_self _ _ _)

/-- The environment is what the directives make of it, but for what is set afterwards. -/
theorem exists_of_getSandboxEnv {inv : Invocation} {c : Config} {S : Surroundings} {b : BuildKey}
    {bs : Builds} {n : ℕ} (h : getSandboxEnv inv c S b bs n = some env) :
    ∃ s, (bs.envRoots b).foldlM (visitEnv S bs n) ([], baseEnv inv c S b) = some s ∧
      ∀ k, ¬ Overridden inv c S b k → env.get? k = s.2.get? k := by
  unfold getSandboxEnv at h
  generalize baseEnv inv c S b = env₀ at h ⊢
  obtain ⟨s₁, h₁, h⟩ := Option.bind_eq_some_iff.1 h
  obtain ⟨s₂, h₂, h⟩ := Option.bind_eq_some_iff.1 h
  refine ⟨s₂, ?_, fun k hk => ?_⟩
  · rw [Builds.envRoots, Builds.depends, List.foldlM_append, List.foldlM_map]
    exact Option.bind_eq_some_iff.2 ⟨s₁, h₁, List.foldlM_map.trans h₂⟩
  · rw [Overridden, not_or, not_and, not_and] at hk
    have hdefines : (if inv.isToplevel b then
        c.toplevelDefines.foldl (fun env e => Dict.set env e.1 e.2) s₂.2 else s₂.2).get? k =
          s₂.2.get? k := by
      split_ifs with htop
      · exact get?_foldl_set (f := fun _ e => e.2) (hk.1 htop) _
      · rfl
    cases htty : stdoutIsTty inv S b with
    | none =>
      rw [htty] at h
      cases h
      exact hdefines
    | some v =>
      rw [htty] at h
      cases h
      have hne : k ≠ "PBUILD_STDOUT_ISTTY".toList := fun hk' => hk.2 hk' (by rw [htty]; rfl)
      exact (Dict.get?_alter_ne _ hne _).trans hdefines

end Values

/-! ### PATH -/

/-- Directories put in front of a path, one after the other. -/
def prependDirs (path : Text) (dirs : List Text) : Text :=
  dirs.foldl (fun path dir => dir ++ ':' :: path) path

/-- The value of a directive without `:${PATH}` at its end. -/
def pathDir (v : Text) : Text := v.take (v.length - ":$\x7bPATH\x7d".toList.length)

/-- The directories that the directives of a package put in front of `PATH`, as they are filled
in. -/
def pathDirs : Dict Text Text → Dict Text Text → List Text
  | _, [] => []
  | env, e :: m =>
    (if e.1 = "PATH".toList then [expandEnv env (pathDir e.2)] else []) ++
      pathDirs (env.set e.1 (expandEnv env e.2)) m

/-- The same for a sequence of packages, with the packages. -/
def addedDirs (S : Surroundings) : Dict Text Text → List PkgName → List (PkgName × Text)
  | _, [] => []
  | env, p :: ps => (pathDirs env (S.env p)).map (p, ·) ++ addedDirs S (applyEnv env (S.env p)) ps

/-- An absolute path without a dollar sign, so that nothing in it can be taken for a reference, nor
become one together with what follows it. -/
def PlainDir (t : Text) : Prop := t.head? = some '/' ∧ '$' ∉ t

/-- The directives for `PATH` put a directory in front of it, and those for `HOME` make it a
path. -/
structure PrependsPath (m : Dict Text Text) : Prop where
  path : ∀ v, ("PATH".toList, v) ∈ m → ∃ dir, v = dir ++ ":$\x7bPATH\x7d".toList
  home : ∀ v, ("HOME".toList, v) ∈ m → PlainDir (replace "$\x7bDESTDIR\x7d" "/distroot" v)

/-- An environment in which `PATH` can be referred to: filling in `HOME` leaves it as it is. -/
structure Fillable (env : Dict Text Text) (path : Text) : Prop where
  path_eq : env.get? "PATH".toList = some path
  no_home : ¬ "$\x7bHOME\x7d".toList <:+: path
  home : ∃ h, env.get? "HOME".toList = some h ∧ PlainDir h

section Path

variable {env m : Dict Text Text} {path k v : Text}

theorem PlainDir.not_ref {t : Text} (h : PlainDir t) (name : Text) : ¬ '$' :: name <:+: t :=
  fun hin => h.2 (hin.subset List.mem_cons_self)

theorem pathDir_append (dir : Text) : pathDir (dir ++ ":$\x7bPATH\x7d".toList) = dir := by
  rw [pathDir, List.length_append]
  exact List.take_left' (Nat.add_sub_cancel _ _).symm

/-- A reference to `HOME` is filled in once and for all. -/
theorem Fillable.not_home_expandEnv (h : Fillable env path) (v : Text) :
    ¬ "$\x7bHOME\x7d".toList <:+: expandEnv env v := by
  obtain ⟨home, hget, hplain⟩ := h.home
  rw [expandEnv, hget]
  exact not_infix_replace hplain.1 (by decide) (by decide)
    (fun u hu => infix_of_infix_append rfl hplain.2 hu) _

/-- **A directory is put in front of the path**, which is left as it is. -/
theorem Fillable.expandEnv_append (h : Fillable env path) (dir : Text) :
    expandEnv env (dir ++ ":$\x7bPATH\x7d".toList) = expandEnv env dir ++ ':' :: path := by
  have hdest : replace "$\x7bDESTDIR\x7d".toList "/distroot".toList "$\x7bPATH\x7d".toList =
      "$\x7bPATH\x7d".toList := replace_of_not_infix (by decide)
  unfold expandEnv
  rw [h.path_eq, Option.getD_some]
  generalize (env.get? "HOME".toList).getD [] = home
  have hcolon : ":$\x7bPATH\x7d".toList = ':' :: "$\x7bPATH\x7d".toList := rfl
  rw [hcolon, replace_append_cons (by decide) (by decide), hdest,
    replace_append_cons (by decide) (by decide), replace_self (by decide),
    replace_append_cons (by decide) (by decide), replace_of_not_infix h.no_home]

theorem expandEnv_plain (h : PlainDir (replace "$\x7bDESTDIR\x7d" "/distroot" v)) :
    expandEnv env v = replace "$\x7bDESTDIR\x7d" "/distroot" v := by
  unfold expandEnv
  have hpath : ∀ new, replace "$\x7bPATH\x7d".toList new
      (replace "$\x7bDESTDIR\x7d".toList "/distroot".toList v) =
      replace "$\x7bDESTDIR\x7d".toList "/distroot".toList v := fun new =>
    replace_of_not_infix (h.not_ref _)
  rw [hpath]
  exact replace_of_not_infix (h.not_ref _)

theorem Fillable.set (h : Fillable env path) (e : Text × Text) (hm : PrependsPath [e]) :
    Fillable (env.set e.1 (expandEnv env e.2)) (prependDirs path
      (if e.1 = "PATH".toList then [expandEnv env (pathDir e.2)] else [])) := by
  obtain ⟨k, v⟩ := e
  dsimp only
  by_cases hpath : k = "PATH".toList
  · subst hpath
    obtain ⟨dir, rfl⟩ := hm.path v List.mem_cons_self
    have hexp := h.expandEnv_append dir
    obtain ⟨home, hget, hplain⟩ := h.home
    rw [if_pos rfl, pathDir_append, prependDirs, List.foldl_cons, List.foldl_nil, ← hexp]
    exact ⟨Dict.get?_alter_self _ _ _, h.not_home_expandEnv _, home,
      (Dict.get?_alter_ne _ (by decide) _).trans hget, hplain⟩
  · rw [if_neg hpath, prependDirs, List.foldl_nil]
    refine ⟨(Dict.get?_alter_ne _ (Ne.symm hpath) _).trans h.path_eq, h.no_home, ?_⟩
    by_cases hhome : k = "HOME".toList
    · subst hhome
      have hplain := hm.home v List.mem_cons_self
      exact ⟨_, Dict.get?_alter_self _ _ _, (expandEnv_plain hplain).symm ▸ hplain⟩
    · obtain ⟨home, hget, hplain⟩ := h.home
      exact ⟨home, (Dict.get?_alter_ne _ (Ne.symm hhome) _).trans hget, hplain⟩

theorem prependDirs_append (path : Text) (dirs₁ dirs₂ : List Text) :
    prependDirs path (dirs₁ ++ dirs₂) = prependDirs (prependDirs path dirs₁) dirs₂ :=
  List.foldl_append

theorem Fillable.applyEnv (h : Fillable env path) (hm : PrependsPath m) :
    Fillable (applyEnv env m) (prependDirs path (pathDirs env m)) := by
  induction m generalizing env path with
  | nil => exact h
  | cons e m ih =>
    have he : PrependsPath [e] :=
      ⟨fun v hv => hm.path v (List.mem_singleton.1 hv ▸ List.mem_cons_self),
        fun v hv => hm.home v (List.mem_singleton.1 hv ▸ List.mem_cons_self)⟩
    rw [pathDirs, prependDirs_append]
    exact ih (h.set e he)
      ⟨fun v hv => hm.path v (.tail _ hv), fun v hv => hm.home v (.tail _ hv)⟩

theorem Fillable.flatMap {S : Surroundings} (h : Fillable env path) {order : List PkgName}
    (hm : ∀ p ∈ order, PrependsPath (S.env p)) :
    Fillable (Pbuild.applyEnv env (order.flatMap S.env))
      (prependDirs path ((addedDirs S env order).map Prod.snd)) := by
  induction order generalizing env path with
  | nil => exact h
  | cons p order ih =>
    have hmap : ((pathDirs env (S.env p)).map (p, ·)).map Prod.snd = pathDirs env (S.env p) := by
      simp
    rw [List.flatMap_cons, applyEnv_append, addedDirs, List.map_append, hmap, prependDirs_append]
    exact ih (h.applyEnv (hm p List.mem_cons_self)) fun q hq => hm q (.tail _ hq)

theorem length_pathDirs (env m : Dict Text Text) (hm : (m.map Prod.fst).Nodup) :
    (pathDirs env m).length = if "PATH".toList ∈ m.map Prod.fst then 1 else 0 := by
  induction m generalizing env with
  | nil => rfl
  | cons e m ih =>
    rw [List.map_cons, List.nodup_cons] at hm
    rw [pathDirs, List.length_append, ih _ hm.2, List.map_cons]
    by_cases he : e.1 = "PATH".toList
    · rw [if_pos he, if_neg (he ▸ hm.1), if_pos (he ▸ List.mem_cons_self)]
      rfl
    · rw [if_neg he, List.length_nil, Nat.zero_add]
      simp only [List.mem_cons, Ne.symm he, false_or]

/-- Every package that has a directive for `PATH` adds one directory. -/
theorem map_fst_addedDirs {S : Surroundings} (hS : ∀ p, ((S.env p).map Prod.fst).Nodup)
    (env : Dict Text Text) (order : List PkgName) :
    (addedDirs S env order).map Prod.fst =
      order.filter fun p => "PATH".toList ∈ (S.env p).map Prod.fst := by
  induction order generalizing env with
  | nil => rfl
  | cons p order ih =>
    have hmap : ((pathDirs env (S.env p)).map (p, ·)).map Prod.fst =
        List.replicate (pathDirs env (S.env p)).length p := by
      rw [List.map_map]
      exact List.map_const'
    rw [addedDirs, List.map_append, hmap, ih, length_pathDirs _ _ (hS p), List.filter_cons]
    split_ifs with h₁ h₂ h₂
    · rfl
    · exact absurd (decide_eq_true h₁) h₂
    · exact absurd (of_decide_eq_true h₂) h₁
    · rfl

theorem fillable_baseEnv (inv : Invocation) (c : Config) (S : Surroundings) (b : BuildKey) :
    Fillable (baseEnv inv c S b) "/p/tools/bin:/sbin:/bin".toList :=
  ⟨rfl, by decide, _, rfl, by decide, by decide⟩

end Path

/-- What the directives of the dependencies make of the environment. -/
structure EnvFromDeps (inv : Invocation) (c : Config) (S : Surroundings) (bs : Builds)
    (b : BuildKey) (order : List PkgName) (env : Dict Text Text) : Prop where
  envOrder : bs.EnvOrder inv.native b order
  /-- The directives of the packages are applied in this order, and nothing else. -/
  applied : ∀ k, ¬ Overridden inv c S b k →
    env.get? k = (applyEnv (baseEnv inv c S b) (order.flatMap S.env)).get? k
  /-- The last package that defines a variable determines it. -/
  last : ∀ k, ¬ Overridden inv c S b k → ∀ l₁ p l₂, order = l₁ ++ p :: l₂ →
    ∀ m₁ v m₂, S.env p = m₁ ++ (k, v) :: m₂ → (∀ q ∈ l₂, k ∉ (S.env q).map Prod.fst) →
    env.get? k = some (expandEnv (applyEnv (baseEnv inv c S b) (l₁.flatMap S.env ++ m₁)) v)
  /-- Directories are put in front of `PATH` in this order, one for each package that has one. -/
  path : ¬ Overridden inv c S b "PATH".toList → (∀ p ∈ order, PrependsPath (S.env p)) →
    env.get? "PATH".toList = some (prependDirs "/p/tools/bin:/sbin:/bin".toList
      ((addedDirs S (baseEnv inv c S b) order).map Prod.snd)) ∧
    (addedDirs S (baseEnv inv c S b) order).map Prod.fst =
      order.filter fun p => "PATH".toList ∈ (S.env p).map Prod.fst

/-- **The environment from the dependencies**, in a native graph without cycles. -/
theorem getSandboxEnv_spec {inv : Invocation} {c : Config} {S : Surroundings} {bs : Builds}
    {b : BuildKey} (ho : bs.Ordered) (hb : b ∈ bs.buildlist)
    (hnative : ∀ u ∈ bs.buildlist, u.2 = inv.native)
    (hS : ∀ p, ((S.env p).map Prod.fst).Nodup) :
    ∃ order env, getSandboxEnv inv c S b bs bs.buildlist.length = some env ∧
      EnvFromDeps inv c S bs b order env := by
  have hsome : (getSandboxEnv inv c S b bs bs.buildlist.length).isSome = true :=
    getSandboxEnv_isSome ho hb
  obtain ⟨env, henv⟩ := Option.isSome_iff_exists.1 hsome
  obtain ⟨s, hs, hget⟩ := exists_of_getSandboxEnv henv
  obtain ⟨order, horder, henv'⟩ := exists_envOrder ho hb hnative hs
  rw [henv'] at hget
  refine ⟨order, env, henv, horder, hget, ?_, fun hpath hm => ⟨?_, map_fst_addedDirs hS _ _⟩⟩
  · intro k hk l₁ p l₂ hl m₁ v m₂ hp hlast
    have hsplit : order.flatMap S.env =
        (l₁.flatMap S.env ++ m₁) ++ (k, v) :: (m₂ ++ l₂.flatMap S.env) := by
      rw [hl, List.flatMap_append, List.flatMap_cons, hp]
      simp
    have hnodup := hS p
    rw [hp, List.map_append, List.map_cons, List.nodup_append, List.nodup_cons] at hnodup
    rw [hget k hk, hsplit]
    refine get?_applyEnv_last fun hmem => ?_
    rw [List.map_append, List.mem_append] at hmem
    rcases hmem with hmem | hmem
    · exact hnodup.2.1.1 hmem
    · obtain ⟨e, he, rfl⟩ := List.mem_map.1 hmem
      obtain ⟨q, hq, he⟩ := List.mem_flatMap.1 he
      exact hlast q hq (List.mem_map.2 ⟨e, he, rfl⟩)
  · rw [hget _ hpath]
    exact ((fillable_baseEnv inv c S b).flatMap hm).path_eq

/-- Packages with `ENV` directives. -/
def envSurroundings (env : Dict PkgName (Dict Text Text)) : Surroundings :=
  { sampleSurroundings with env := fun p => (env.get? p).getD [] }

theorem nodup_envSurroundings {env : Dict PkgName (Dict Text Text)}
    (h : ∀ e ∈ env, (e.2.map Prod.fst).Nodup) (p : PkgName) :
    (((envSurroundings env).env p).map Prod.fst).Nodup := by
  change (((env.get? p).getD []).map Prod.fst).Nodup
  cases hget : env.get? p with
  | none => exact List.nodup_nil
  | some m => exact h _ (Dict.mem_of_get? hget)

/-- `app` needs `mid`, which needs `lib`, and both have a directory for `PATH`. -/
def pathSurroundings : Surroundings := envSurroundings [
  ("mid".toList, [("PATH".toList, "/mid/bin:$\x7bPATH\x7d".toList)]),
  ("lib".toList, [("PATH".toList, "$\x7bDESTDIR\x7d/lib:$\x7bPATH\x7d".toList)])]

theorem midBuilds_ordered : midBuilds.Ordered := Builds.ordered_of_zipIdx (by decide)

/-- The directory of `mid` is in front of that of `lib`. -/
theorem getSandboxEnv_app :
    (getSandboxEnv appInvocation {} pathSurroundings ("app".toList, .x86_64) midBuilds 3).map
        (·.get? "PATH".toList) =
      some (some "/mid/bin:/distroot/lib:/p/tools/bin:/sbin:/bin".toList) ∧
    ∃ order env, getSandboxEnv appInvocation {} pathSurroundings ("app".toList, .x86_64)
        midBuilds midBuilds.buildlist.length = some env ∧
      EnvFromDeps appInvocation {} pathSurroundings midBuilds ("app".toList, .x86_64)
        order env := by
  exact ⟨by decide +kernel, getSandboxEnv_spec midBuilds_ordered (by decide) (by decide)
    (nodup_envSurroundings (by decide))⟩

/-- `lib` makes `HOME` a dollar sign, and has a directory that refers to it. -/
def homeSurroundings : Surroundings := envSurroundings [
  ("mid".toList, [("PATH".toList, "/mid/bin:$\x7bPATH\x7d".toList)]),
  ("lib".toList, [("HOME".toList, "$".toList),
    ("PATH".toList, "$\x7bHOME\x7d\x7bHOME\x7d/lib:$\x7bPATH\x7d".toList)])]

/-- What is set afterwards, and a `HOME` that is not a path.  On a terminal, `lib` can not define
`PBUILD_STDOUT_ISTTY` for a top-level package, although there are no defines.  With `HOME` being
`$`, the directory that `lib` adds is changed when `mid` adds its own. -/
theorem envFromDeps_exceptions :
    (getSandboxEnv appInvocation {}
        { envSurroundings [("lib".toList, [("PBUILD_STDOUT_ISTTY".toList, "9".toList)])] with
          stdoutIsTty := true }
        ("app".toList, .x86_64) midBuilds 3).map (·.get? "PBUILD_STDOUT_ISTTY".toList) =
      some (some []) ∧
    ({} : Config).toplevelDefines = [] ∧
    (getSandboxEnv appInvocation {} homeSurroundings ("mid".toList, .x86_64) midBuilds 3).map
        (·.get? "PATH".toList) =
      some (some "$\x7bHOME\x7d/lib:/p/tools/bin:/sbin:/bin".toList) ∧
    (getSandboxEnv appInvocation {} homeSurroundings ("app".toList, .x86_64) midBuilds 3).map
        (·.get? "PATH".toList) =
      some (some "/mid/bin:$/lib:/p/tools/bin:/sbin:/bin".toList) := by
  refine ⟨by decide +kernel, by decide +kernel, by decide +kernel, by decide +kernel⟩

end Pbuild
