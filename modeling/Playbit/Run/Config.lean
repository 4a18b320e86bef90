import Playbit.Run.Basic

/-!
# Configurations of top-level packages

The `-D` options and `--debug` make up the configuration that the top-level packages are built
with, and `configure_BUILD_CONFIG_ID` names it, for the name of the build directory: `debug` or
`release` for the common ones, and a hash of the other defines.

The name does not tell all configurations apart.  Values end at their second `=`, values of `DEBUG`
and `RELEASE` other than `1` are left out, and what is hashed runs a value into the name after it.

`buildConfigId_eq_iff` says which configurations have the same name, and `buildDir_separates_iff`
when build directories tell configurations apart.  They do for plain values (`separates_of_plain`),
but not in general (`configs_share_buildDir`).
-/

namespace Pbuild

open Python

/-! ### Options -/

/-- The options that make up a configuration. -/
structure Config where
  /-- The values of the `-D` options: a name, or a name and a value with `=` between them. -/
  D : List Text := []
  /-- `--debug` -/
  debug : Bool := false

/-- The name that a `-D` option defines. -/
def defineName (d : Text) : Text := d.takeWhile (· ≠ '=')

/-- The value that a `-D` option gives to its name. -/
def defineValue (d : Text) : Text := (d.dropWhile (· ≠ '=')).tail

/-- What is defined as `name`: by the last `-D` option for it, or by `--debug`. -/
def Config.value (c : Config) (name : Text) : Option Text :=
  match c.D.reverse.find? (defineName · = name) with
  | some d => some (defineValue d)
  | none => if c.debug && decide (name = "DEBUG".toList) then some "1".toList else none

/-- A `-D` option, as `main` splits it. -/
def splitDefine (d : Text) : Text × Text :=
  match splitMax '=' 2 d with
  | [] => ([], [])
  | [name] => (name, [])
  | name :: value :: _ => (name, value)

/-- What the `-D` options define. -/
def Config.givenDefines (c : Config) : Dict Text Text :=
  c.D.foldl (fun defines d => Dict.set defines (splitDefine d).1 (splitDefine d).2) []

/-- `TOPLEVEL_DEFINES`. -/
def Config.toplevelDefines (c : Config) : Dict Text Text :=
  if c.debug && (c.givenDefines.get? "DEBUG").isNone then c.givenDefines.set "DEBUG" "1".toList
  else c.givenDefines

/-- The first 8 bytes of a SHA-256 digest, as hexadecimal digits. -/
structure ConfigHash where
  hex : Text → Text
  length_hex : ∀ t, (hex t).length = 16
  mem_hex : ∀ t, ∀ c ∈ hex t, c ∈ "0123456789abcdef".toList

/-- `KEYS_EXCLUDED_FROM_HASH`. -/
def keysExcludedFromHash : List Text := ["DEBUG", "RELEASE", "V"]

namespace Config

variable (c : Config)

/-- The symbolic name of some common configurations. -/
def symbolicName : Text :=
  if c.toplevelDefines.get? "DEBUG" = some "1".toList then "debug"
  else if c.toplevelDefines.get? "RELEASE" = some "1".toList then "release"
  else []

/-- `keys` in `configure_BUILD_CONFIG_ID`. -/
def hashedKeys : List Text :=
  ((c.toplevelDefines.map Prod.fst).filter (· ∉ keysExcludedFromHash)).insertionSort (· ≤ ·)

/-- The defines that are hashed, in order. -/
def hashed : List (Text × Text) :=
  c.hashedKeys.map fun k => (k, (c.toplevelDefines.get? k).getD [])

/-- What is hashed for one define. -/
def hashLine (e : Text × Text) : Text := '-' :: 'D' :: (e.1 ++ '=' :: e.2)

/-- `configure_BUILD_CONFIG_ID`. -/
def buildConfigId (hash : ConfigHash) : Text :=
  if c.toplevelDefines = [] then []
  else
    let id := c.symbolicName
    if c.hashedKeys = [] then id
    else (if id = [] then id else id ++ ['-']) ++ hash.hex (c.hashed.flatMap hashLine)

end Config

/-- An invocation with the options of a configuration. -/
def Invocation.withConfig (inv : Invocation) (hash : ConfigHash) (c : Config) : Invocation :=
  { inv with args := { inv.args with buildConfigId := c.buildConfigId hash } }

/-- The end of the name of a build directory. -/
def dirSuffix (id : Text) : Text := if id = [] then [] else '-' :: id

/-- The name of a build directory below `BUILDDIR`. -/
def dirName (d : BuildDir) : Text := buildName d.1 ++ dirSuffix d.2

/-! ### What is defined -/

theorem splitDefine_eq (d : Text) :
    splitDefine d = (defineName d, (defineValue d).takeWhile (· ≠ '=')) := by
  unfold splitDefine defineName defineValue
  by_cases hd : '=' ∈ d
  · by_cases hv : '=' ∈ (d.dropWhile (· ≠ '=')).tail
    · simp only [splitMax, hd, hv, ↓reduceIte]
    · have hcut : (d.dropWhile (· ≠ '=')).tail.takeWhile (· ≠ '=') =
          (d.dropWhile (· ≠ '=')).tail :=
        List.takeWhile_eq_self_iff.2 fun x hx => by simpa using ne_of_mem_of_not_mem hx hv
      simp only [splitMax, hd, hv, ↓reduceIte, hcut]
  · have hall : ∀ x ∈ d, decide (x ≠ '=') = true := fun x hx => by
      simpa using ne_of_mem_of_not_mem hx hd
    simp only [splitMax, hd, ↓reduceIte, List.takeWhile_eq_self_iff.2 hall,
      List.dropWhile_eq_nil_iff.2 hall, List.tail_nil, List.takeWhile_nil]

namespace Config

variable (c : Config)

/-- The options are read in order, so that the last one for a name counts. -/
theorem get?_givenDefines (k : Text) :
    c.givenDefines.get? k =
      (c.D.reverse.find? (defineName · = k)).map fun d => (defineValue d).takeWhile (· ≠ '=') := by
  unfold givenDefines
  induction c.D using List.reverseRecOn with
  | nil => rfl
  | append_singleton D d ih =>
    rw [List.foldl_append, List.reverse_append, List.foldl_cons, List.foldl_nil, splitDefine_eq]
    by_cases hk : defineName d = k
    · subst hk
      simp [Dict.set, Dict.get?_alter_self]
    · simpa [Dict.set, Dict.get?_alter_ne _ (Ne.symm hk), hk] using ih

theorem get?_toplevelDefines (k : Text) :
    c.toplevelDefines.get? k = (c.value k).map fun v => v.takeWhile (· ≠ '=') := by
  have hgiven := c.get?_givenDefines k
  unfold toplevelDefines value
  cases hf : c.D.reverse.find? (defineName · = k) with
  | some d =>
    rw [hf] at hgiven
    show _ = some ((defineValue d).takeWhile _)
    split_ifs with hadd
    · -- `--debug` adds `DEBUG` only where there is none
      have hk : k ≠ "DEBUG".toList := by
        rintro rfl
        rw [hgiven] at hadd
        simp at hadd
      exact (Dict.get?_alter_ne _ hk _).trans hgiven
    · exact hgiven
  | none =>
    rw [hf, Option.map_none] at hgiven
    by_cases hk : k = "DEBUG".toList
    · subst hk
      rw [hgiven]
      cases c.debug with
      | true => exact Dict.get?_alter_self _ _ _
      | false => exact hgiven
    · rw [decide_eq_false hk, Bool.and_false]
      show _ = none
      split_ifs
      · exact (Dict.get?_alter_ne _ hk _).trans hgiven
      · exact hgiven

theorem eq_notMem_of_get? {k v : Text} (h : c.toplevelDefines.get? k = some v) :
    '=' ∉ k ∧ '=' ∉ v := by
  have hcut : ∀ t : Text, '=' ∉ t.takeWhile (· ≠ '=') := fun t ht => by
    simpa using List.mem_takeWhile_imp ht
  rw [get?_toplevelDefines] at h
  obtain ⟨w, hw, rfl⟩ := Option.map_eq_some_iff.1 h
  refine ⟨?_, hcut w⟩
  unfold value at hw
  split at hw
  case h_1 d hd =>
    have hname := List.find?_some hd
    rw [← of_decide_eq_true hname]
    exact hcut d
  case h_2 =>
    split_ifs at hw with hdebug
    rw [of_decide_eq_true (Bool.and_eq_true_iff.1 hdebug).2]
    decide

/-! ### What is hashed -/

/-- The pieces between the `=` of what is hashed: `cur` and every value run into the name after
them. -/
def seams : Text → List (Text × Text) → List Text
  | cur, [] => [cur]
  | cur, (k, v) :: es => (cur ++ '-' :: 'D' :: k) :: seams v es

theorem seams_ne_nil (cur : Text) (es : List (Text × Text)) : seams cur es ≠ [] := by
  cases es <;> exact List.cons_ne_nil _ _

theorem append_flatMap_hashLine (cur : Text) (es : List (Text × Text)) :
    cur ++ es.flatMap hashLine = List.intercalate ['='] (seams cur es) := by
  induction es generalizing cur with
  | nil => simp [seams]
  | cons e es ih =>
    obtain ⟨k, v⟩ := e
    obtain ⟨t, ts, hseams⟩ := List.exists_cons_of_ne_nil (seams_ne_nil v es)
    have htail := ih v
    rw [hseams, List.intercalate] at htail
    simp [seams, hseams, hashLine, List.intercalate, htail]

theorem eq_notMem_seams {cur : Text} {es : List (Text × Text)} (hcur : '=' ∉ cur)
    (hes : ∀ e ∈ es, '=' ∉ e.1 ∧ '=' ∉ e.2) : ∀ t ∈ seams cur es, '=' ∉ t := by
  induction es generalizing cur with
  | nil => simpa [seams] using hcur
  | cons e es ih =>
    rw [List.forall_mem_cons] at hes
    rw [seams, List.forall_mem_cons]
    refine ⟨?_, ih hes.1.2 hes.2⟩
    simpa [hcur] using hes.1.1

theorem flatMap_hashLine_eq_iff {es es' : List (Text × Text)}
    (hes : ∀ e ∈ es, '=' ∉ e.1 ∧ '=' ∉ e.2) (hes' : ∀ e ∈ es', '=' ∉ e.1 ∧ '=' ∉ e.2) :
    es.flatMap hashLine = es'.flatMap hashLine ↔ seams [] es = seams [] es' := by
  have h := append_flatMap_hashLine [] es
  have h' := append_flatMap_hashLine [] es'
  rw [List.nil_append] at h h'
  rw [h, h']
  refine ⟨fun heq => ?_, congrArg _⟩
  rw [← List.splitOn_intercalate '=' (eq_notMem_seams List.not_mem_nil hes) (seams_ne_nil _ _),
    heq, List.splitOn_intercalate '=' (eq_notMem_seams List.not_mem_nil hes') (seams_ne_nil _ _)]

theorem mem_hashedKeys {k : Text} :
    k ∈ c.hashedKeys ↔ (∃ v, c.toplevelDefines.get? k = some v) ∧ k ∉ keysExcludedFromHash := by
  simp only [hashedKeys, List.mem_insertionSort, List.mem_filter, Dict.mem_keys_iff,
    decide_eq_true_eq]

theorem mem_hashed {e : Text × Text} :
    e ∈ c.hashed ↔ c.toplevelDefines.get? e.1 = some e.2 ∧ e.1 ∉ keysExcludedFromHash := by
  simp only [hashed, List.mem_map, mem_hashedKeys]
  constructor
  · rintro ⟨k, ⟨⟨v, hv⟩, hk⟩, rfl⟩
    exact ⟨by rw [hv, Option.getD_some], hk⟩
  · rintro ⟨hv, hk⟩
    exact ⟨e.1, ⟨⟨e.2, hv⟩, hk⟩, by rw [hv, Option.getD_some]⟩

theorem eq_notMem_hashed : ∀ e ∈ c.hashed, '=' ∉ e.1 ∧ '=' ∉ e.2 := fun _ he =>
  c.eq_notMem_of_get? ((c.mem_hashed).1 he).1

/-! ### The name of a configuration -/

/-- `name` is defined as `1`, up to a second `=`. -/
def IsOne (name : Text) : Prop :=
  (c.value name).map (fun v => v.takeWhile (· ≠ '=')) = some "1".toList

/-- Configurations that `BUILD_CONFIG_ID` does not tell apart: the same common configuration, and
the same other defines, apart from where a value ends and the next name starts. -/
structure Alike (c₁ c₂ : Config) : Prop where
  debug : c₁.IsOne "DEBUG" ↔ c₂.IsOne "DEBUG"
  /-- `RELEASE` counts where `DEBUG` is not 1. -/
  release : ¬ c₁.IsOne "DEBUG" → (c₁.IsOne "RELEASE" ↔ c₂.IsOne "RELEASE")
  seams : seams [] c₁.hashed = seams [] c₂.hashed

theorem ite_ite_eq_iff {α : Type} {a b e : α} (hab : a ≠ b) (hae : a ≠ e) (hbe : b ≠ e)
    (p q p' q' : Prop) [Decidable p] [Decidable q] [Decidable p'] [Decidable q'] :
    ((if p then a else if q then b else e) = if p' then a else if q' then b else e) ↔
      (p ↔ p') ∧ (¬ p → (q ↔ q')) := by
  by_cases hp : p <;> by_cases hp' : p' <;> by_cases hq : q <;> by_cases hq' : q' <;>
    simp [hp, hp', hq, hq', hab, hae, hbe, hab.symm, hae.symm, hbe.symm]

theorem symbolicName_eq_iff {c₁ c₂ : Config} :
    c₁.symbolicName = c₂.symbolicName ↔
      (c₁.IsOne "DEBUG" ↔ c₂.IsOne "DEBUG") ∧
        (¬ c₁.IsOne "DEBUG" → (c₁.IsOne "RELEASE" ↔ c₂.IsOne "RELEASE")) := by
  unfold symbolicName IsOne
  rw [ite_ite_eq_iff (by decide) (by decide) (by decide)]
  simp only [get?_toplevelDefines]

theorem length_symbolicName_le : c.symbolicName.length ≤ 7 := by
  unfold symbolicName
  split_ifs <;> decide

/-- A symbolic name, as it is followed by a hash. -/
def dashed (id : Text) : Text := if id = [] then id else id ++ ['-']

theorem dashed_injective {t u : Text} (h : dashed t = dashed u) : t = u := by
  unfold dashed at h
  split_ifs at h with ht hu hu
  · exact h
  · rw [ht] at h
    exact absurd h.symm (by simp)
  · rw [hu] at h
    exact absurd h (by simp)
  · exact List.append_cancel_right h

/-- The name of a configuration, without the case of no defines. -/
theorem buildConfigId_eq (hash : ConfigHash) :
    c.buildConfigId hash =
      if c.hashedKeys = [] then c.symbolicName
      else dashed c.symbolicName ++ hash.hex (c.hashed.flatMap hashLine) := by
  unfold buildConfigId
  by_cases hd : c.toplevelDefines = []
  · have hkeys : c.hashedKeys = [] := by simp [hashedKeys, hd]
    have hname : c.symbolicName = [] := by simp [symbolicName, hd, Dict.get?]
    rw [if_pos hd, if_pos hkeys, hname]
  · rw [if_neg hd]
    rfl

theorem flatMap_hashLine_eq_nil_iff : c.hashed.flatMap hashLine = [] ↔ c.hashedKeys = [] := by
  simp only [List.flatMap_eq_nil_iff, hashLine, reduceCtorEq, imp_false]
  rw [← List.eq_nil_iff_forall_not_mem, hashed, List.map_eq_nil_iff]

theorem symbolicName_ne_dashed_hex (hash : ConfigHash) (id t : Text) :
    c.symbolicName ≠ dashed id ++ hash.hex t := fun h => by
  have hlen := congrArg List.length h
  rw [List.length_append, hash.length_hex] at hlen
  have hle := c.length_symbolicName_le
  omega

/-- **The name of a configuration** tells apart what is not alike. -/
theorem buildConfigId_eq_iff {hash : ConfigHash} {c₁ c₂ : Config}
    (hcoll : hash.hex (c₁.hashed.flatMap hashLine) = hash.hex (c₂.hashed.flatMap hashLine) →
      c₁.hashed.flatMap hashLine = c₂.hashed.flatMap hashLine) :
    c₁.buildConfigId hash = c₂.buildConfigId hash ↔ Alike c₁ c₂ := by
  have hAlike : Alike c₁ c₂ ↔ c₁.symbolicName = c₂.symbolicName ∧
      c₁.hashed.flatMap hashLine = c₂.hashed.flatMap hashLine := by
    rw [symbolicName_eq_iff, flatMap_hashLine_eq_iff c₁.eq_notMem_hashed c₂.eq_notMem_hashed]
    exact ⟨fun h => ⟨⟨h.debug, h.release⟩, h.seams⟩, fun h => ⟨h.1.1, h.1.2, h.2⟩⟩
  rw [hAlike, buildConfigId_eq, buildConfigId_eq]
  by_cases h₁ : c₁.hashedKeys = [] <;> by_cases h₂ : c₂.hashedKeys = []
  · rw [if_pos h₁, if_pos h₂, (flatMap_hashLine_eq_nil_iff _).2 h₁,
      (flatMap_hashLine_eq_nil_iff _).2 h₂]
    exact (and_iff_left rfl).symm
  · rw [if_pos h₁, if_neg h₂, (flatMap_hashLine_eq_nil_iff _).2 h₁]
    refine iff_of_false (symbolicName_ne_dashed_hex _ _ _ _) fun h => h₂ ?_
    exact (flatMap_hashLine_eq_nil_iff _).1 h.2.symm
  · rw [if_neg h₁, if_pos h₂, (flatMap_hashLine_eq_nil_iff _).2 h₂]
    refine iff_of_false (symbolicName_ne_dashed_hex _ _ _ _).symm fun h => h₁ ?_
    exact (flatMap_hashLine_eq_nil_iff _).1 h.2
  · rw [if_neg h₁, if_neg h₂]
    constructor
    · intro h
      -- the hashes have the same length
      obtain ⟨hname, hhex⟩ := List.append_inj' h (by rw [hash.length_hex, hash.length_hex])
      exact ⟨dashed_injective hname, hcoll hhex⟩
    · rintro ⟨hname, htext⟩
      rw [hname, htext]

theorem dot_notMem_buildConfigId (hash : ConfigHash) : '.' ∉ c.buildConfigId hash := by
  have hname : '.' ∉ c.symbolicName := by
    unfold symbolicName
    split_ifs <;> decide
  have hhex : ∀ t, '.' ∉ hash.hex t := fun t ht => absurd (hash.mem_hex t _ ht) (by decide)
  have hdashed : '.' ∉ dashed c.symbolicName := by
    unfold dashed
    split_ifs <;> simp [hname]
  rw [buildConfigId_eq]
  split_ifs
  · exact hname
  · simp [hdashed, hhex]

/-- The same names and values, `V` apart. -/
def Agree (c₁ c₂ : Config) : Prop := ∀ name, name ≠ "V".toList → c₁.value name = c₂.value name

/-! ### Plain configurations -/

/-- A configuration without what `BUILD_CONFIG_ID` overlooks. -/
structure Plain : Prop where
  eq_notMem : ∀ k v, c.value k = some v → '=' ∉ v
  noSeam : ∀ k v, c.value k = some v → ¬ ['-', 'D'] <:+: v
  debug : ∀ v, c.value "DEBUG" = some v → v = "1".toList
  release : ∀ v, c.value "RELEASE" = some v → v = "1".toList
  oneOf : c.value "DEBUG" = none ∨ c.value "RELEASE" = none

theorem append_seam_injective {t u k l : Text} (ht : ¬ ['-', 'D'] <:+: t)
    (hu : ¬ ['-', 'D'] <:+: u) (h : t ++ '-' :: 'D' :: k = u ++ '-' :: 'D' :: l) :
    t = u ∧ k = l := by
  have hcase : ∀ {t u k l v : Text}, ¬ ['-', 'D'] <:+: u → u = t ++ v →
      '-' :: 'D' :: k = v ++ '-' :: 'D' :: l → v = [] := by
    intro t u k l v hu huv hv
    match v with
    | [] => rfl
    | [x] => simp at hv
    | x :: y :: v =>
      simp only [List.cons_append, List.cons.injEq] at hv
      obtain ⟨rfl, rfl, -⟩ := hv
      exact absurd ⟨t, v, by simp [huv]⟩ hu
  rcases List.append_eq_append_iff.1 h with ⟨v, rfl, hv⟩ | ⟨v, rfl, hv⟩
  · obtain rfl := hcase hu rfl hv
    simpa using hv
  · obtain rfl := hcase ht rfl hv
    simpa [eq_comm] using hv

theorem seams_injective {cur cur' : Text} {es es' : List (Text × Text)}
    (hcur : ¬ ['-', 'D'] <:+: cur) (hcur' : ¬ ['-', 'D'] <:+: cur')
    (hes : ∀ e ∈ es, ¬ ['-', 'D'] <:+: e.2) (hes' : ∀ e ∈ es', ¬ ['-', 'D'] <:+: e.2)
    (h : seams cur es = seams cur' es') : cur = cur' ∧ es = es' := by
  induction es generalizing cur cur' es' with
  | nil =>
    cases es' with
    | nil => exact ⟨List.head_eq_of_cons_eq h, rfl⟩
    | cons e' es' => exact absurd (List.tail_eq_of_cons_eq h).symm (seams_ne_nil _ _)
  | cons e es ih =>
    cases es' with
    | nil => exact absurd (List.tail_eq_of_cons_eq h) (seams_ne_nil _ _)
    | cons e' es' =>
      rw [List.forall_mem_cons] at hes hes'
      obtain ⟨rfl, hk⟩ := append_seam_injective hcur hcur' (List.head_eq_of_cons_eq h)
      obtain ⟨hv, rfl⟩ := ih hes.1 hes'.1 hes.2 hes'.2 (List.tail_eq_of_cons_eq h)
      exact ⟨rfl, congrArg (· :: es) (Prod.ext hk hv)⟩

variable {c} {c₁ c₂ : Config}

namespace Plain

theorem get?_toplevelDefines (hc : c.Plain) (k : Text) :
    c.toplevelDefines.get? k = c.value k := by
  rw [Config.get?_toplevelDefines]
  cases hv : c.value k with
  | none => rfl
  | some v =>
    rw [Option.map_some, List.takeWhile_eq_self_iff.2 fun x hx => by
      simpa using ne_of_mem_of_not_mem hx (hc.eq_notMem k v hv)]

theorem isOne_iff (hc : c.Plain) {k : Text} (hk : ∀ v, c.value k = some v → v = "1".toList) :
    c.IsOne k ↔ c.value k ≠ none := by
  rw [IsOne, ← Config.get?_toplevelDefines, hc.get?_toplevelDefines]
  cases hv : c.value k with
  | none => simp
  | some v => rw [hk v hv]; simp

theorem hashed_noSeam (hc : c.Plain) : ∀ e ∈ c.hashed, ¬ ['-', 'D'] <:+: e.2 := fun e he => by
  have hget := (c.mem_hashed.1 he).1
  rw [hc.get?_toplevelDefines] at hget
  exact hc.noSeam _ _ hget

theorem value_eq_of_ne_none_iff {k : Text} (h₁ : ∀ v, c₁.value k = some v → v = "1".toList)
    (h₂ : ∀ v, c₂.value k = some v → v = "1".toList)
    (h : c₁.value k ≠ none ↔ c₂.value k ≠ none) : c₁.value k = c₂.value k := by
  cases hv₁ : c₁.value k with
  | none => exact (not_not.1 fun hne => h.2 (Ne.symm hne) hv₁)
  | some v =>
    obtain ⟨w, hw⟩ := Option.ne_none_iff_exists'.1 (h.1 (by rw [hv₁]; exact Option.some_ne_none v))
    rw [hw, h₁ v hv₁, h₂ w hw]

end Plain

theorem Alike.agree (h : c₁.Alike c₂) (hc₁ : c₁.Plain) (hc₂ : c₂.Plain) : c₁.Agree c₂ := by
  intro name hV
  have hnil : ¬ ['-', 'D'] <:+: ([] : Text) := by decide
  have hhashed := (seams_injective hnil hnil hc₁.hashed_noSeam hc₂.hashed_noSeam h.seams).2
  have hdebug := h.debug
  rw [hc₁.isOne_iff hc₁.debug, hc₂.isOne_iff hc₂.debug] at hdebug
  have hvdebug := Plain.value_eq_of_ne_none_iff hc₁.debug hc₂.debug hdebug
  by_cases hD : name = "DEBUG".toList
  · rw [hD, hvdebug]
  by_cases hR : name = "RELEASE".toList
  · rw [hR]
    by_cases hone : c₁.value "DEBUG" = none
    · have hrelease := h.release fun hc => (hc₁.isOne_iff hc₁.debug).1 hc hone
      rw [hc₁.isOne_iff hc₁.release, hc₂.isOne_iff hc₂.release] at hrelease
      exact Plain.value_eq_of_ne_none_iff hc₁.release hc₂.release hrelease
    · rw [hc₁.oneOf.resolve_left hone, hc₂.oneOf.resolve_left (hvdebug ▸ hone)]
  · have hk : name ∉ keysExcludedFromHash := by
      simp only [keysExcludedFromHash, List.mem_cons, List.not_mem_nil, or_false, not_or]
      exact ⟨hD, hR, hV⟩
    refine Option.ext fun v => ?_
    have hmem : (name, v) ∈ c₁.hashed ↔ (name, v) ∈ c₂.hashed := by rw [hhashed]
    rw [c₁.mem_hashed, c₂.mem_hashed, hc₁.get?_toplevelDefines, hc₂.get?_toplevelDefines] at hmem
    simpa [hk] using hmem

end Config

/-! ### Build directories -/

theorem dirSuffix_injective {id₁ id₂ : Text} (h : dirSuffix id₁ = dirSuffix id₂) : id₁ = id₂ := by
  unfold dirSuffix at h
  split_ifs at h with h₁ h₂ h₂
  · rw [h₁, h₂]
  · exact List.tail_eq_of_cons_eq h

theorem takeWhile_append_dirSuffix {t : Text} (ht : '-' ∉ t) (id : Text) :
    (t ++ dirSuffix id).takeWhile (· ≠ '-') = t := by
  rw [List.takeWhile_append_of_pos fun x hx => by simpa using ne_of_mem_of_not_mem hx ht]
  unfold dirSuffix
  split_ifs <;> simp

/-- The name of a directory determines the build and the configuration. -/
theorem dirName_injective {d₁ d₂ : BuildDir} (hdash₁ : '-' ∉ d₁.1.2.name)
    (hdash₂ : '-' ∉ d₂.1.2.name) (hdot₁ : '.' ∉ d₁.2) (hdot₂ : '.' ∉ d₂.2)
    (h : dirName d₁ = dirName d₂) : d₁ = d₂ := by
  have hnoDot : ∀ d : BuildDir, '.' ∉ d.2 → '.' ∉ d.1.2.name ++ dirSuffix d.2 := by
    intro d hd
    rw [List.mem_append, not_or]
    refine ⟨d.1.2.noDot, ?_⟩
    unfold dirSuffix
    split_ifs <;> simp [hd]
  simp only [dirName, buildName, List.append_assoc, List.cons_append] at h
  obtain ⟨hname, hrest⟩ := append_dot_injective (hnoDot d₁ hdot₁) (hnoDot d₂ hdot₂) h
  have harch : d₁.1.2.name = d₂.1.2.name := by
    rw [← takeWhile_append_dirSuffix hdash₁ d₁.2, hrest, takeWhile_append_dirSuffix hdash₂]
  refine Prod.ext (buildName_injective ?_) (dirSuffix_injective ?_)
  · rw [buildName, buildName, hname, harch]
  · rw [harch] at hrest
    exact List.append_cancel_left hrest

theorem dash_notMem_of_valid {a : Arch} (h : a ∈ validArchs) : '-' ∉ a.name := by
  revert a
  decide

section

variable (hash : ConfigHash) {inv₁ inv₂ : Invocation} {b₁ b₂ : BuildKey} {c₁ c₂ : Config}
  (ha₁ : b₁.2 ∈ validArchs) (ha₂ : b₂.2 ∈ validArchs)
  (htop₁ : inv₁.isToplevel b₁ = true) (htop₂ : inv₂.isToplevel b₂ = true)
  (hcoll : hash.hex (c₁.hashed.flatMap Config.hashLine) =
      hash.hex (c₂.hashed.flatMap Config.hashLine) →
    c₁.hashed.flatMap Config.hashLine = c₂.hashed.flatMap Config.hashLine)

include ha₁ ha₂ htop₁ htop₂ hcoll

theorem dirName_buildDir_eq_iff :
    dirName ((inv₁.withConfig hash c₁).buildDir b₁) =
        dirName ((inv₂.withConfig hash c₂).buildDir b₂) ↔
      b₁ = b₂ ∧ c₁.Alike c₂ := by
  have hdir : ∀ {inv : Invocation} {b : BuildKey} {c : Config}, inv.isToplevel b = true →
      (inv.withConfig hash c).buildDir b = (b, c.buildConfigId hash) := by
    intro inv b c htop
    exact congrArg (Prod.mk b) (if_pos htop)
  rw [hdir htop₁, hdir htop₂, ← Config.buildConfigId_eq_iff hcoll]
  refine ⟨fun h => ?_, fun h => by rw [h.1, h.2]⟩
  have := dirName_injective (dash_notMem_of_valid ha₁) (dash_notMem_of_valid ha₂)
    (c₁.dot_notMem_buildConfigId hash) (c₂.dot_notMem_buildConfigId hash) h
  exact Prod.mk.inj this

/-- Plain configurations never share a build directory. -/
theorem separates_of_plain (hc₁ : c₁.Plain) (hc₂ : c₂.Plain)
    (h : dirName ((inv₁.withConfig hash c₁).buildDir b₁) =
      dirName ((inv₂.withConfig hash c₂).buildDir b₂)) : b₁ = b₂ ∧ c₁.Agree c₂ := by
  obtain ⟨hb, halike⟩ := (dirName_buildDir_eq_iff hash ha₁ ha₂ htop₁ htop₂ hcoll).1 h
  exact ⟨hb, halike.agree hc₁ hc₂⟩

/-- **Build directories tell configurations apart** unless two configurations of the same package
are alike without having the same defines. -/
theorem buildDir_separates_iff :
    (dirName ((inv₁.withConfig hash c₁).buildDir b₁) =
        dirName ((inv₂.withConfig hash c₂).buildDir b₂) →
      b₁.1 = b₂.1 ∧ b₁.2 = b₂.2 ∧ c₁.Agree c₂) ↔
    ¬ (b₁ = b₂ ∧ c₁.Alike c₂ ∧ ¬ c₁.Agree c₂) := by
  rw [dirName_buildDir_eq_iff hash ha₁ ha₂ htop₁ htop₂ hcoll]
  constructor
  · rintro h ⟨hb, hc, hagree⟩
    exact hagree (h ⟨hb, hc⟩).2.2
  · rintro h ⟨hb, hc⟩
    refine ⟨congrArg Prod.fst hb, congrArg Prod.snd hb, ?_⟩
    by_contra hagree
    exact h ⟨hb, hc, hagree⟩

end

/-- A hash of the first 16 code points, for the examples. -/
def sampleHash : ConfigHash where
  hex t := ((t ++ List.replicate 16 ' ').take 16).map fun c =>
    ("0123456789abcdef".toList[c.toNat % 16]?).getD '0'
  length_hex t := by simp
  mem_hex t c hc := by
    obtain ⟨d, -, rfl⟩ := List.mem_map.1 hc
    cases hd : "0123456789abcdef".toList[d.toNat % 16]? with
    | none => decide
    | some e => exact List.mem_of_getElem? hd

/-- An invocation for `app` on a machine with `x86_64`. -/
def appInvocation : Invocation := { native := .x86_64, target := .x86_64, tops := ["app"] }

/-- The name of the build directory of `app`. -/
def appDirName (c : Config) : Text :=
  dirName ((appInvocation.withConfig sampleHash c).buildDir ("app".toList, .x86_64))

/-- `-D A=1` and `-D A=2` have build directories of their own. -/
theorem buildDir_separates_values :
    appDirName { D := ["A=1"] } ≠ appDirName { D := ["A=2"] } ∧
    ¬ (Config.Alike { D := ["A=1"] } { D := ["A=2"] } ∧
      ¬ Config.Agree { D := ["A=1"] } { D := ["A=2"] }) := by
  have hne : appDirName { D := ["A=1"] } ≠ appDirName { D := ["A=2"] } := by decide
  have h := (@buildDir_separates_iff sampleHash appInvocation appInvocation
    ("app".toList, .x86_64) ("app".toList, .x86_64) { D := ["A=1"] } { D := ["A=2"] }
    (by decide) (by decide) rfl rfl (by decide)).1 fun h => absurd h hne
  exact ⟨hne, fun hc => h ⟨rfl, hc⟩⟩

/-- Configurations that share a build directory: a value of `DEBUG` other than `1`, a value with
`=` in it, and a value that runs into the next name. -/
theorem configs_share_buildDir :
    (appDirName { D := ["DEBUG=0"] } = appDirName {} ∧ ¬ Config.Agree { D := ["DEBUG=0"] } {}) ∧
    (appDirName { D := ["A=1=2"] } = appDirName { D := ["A=1"] } ∧
      ¬ Config.Agree { D := ["A=1=2"] } { D := ["A=1"] }) ∧
    (appDirName { D := ["A=x-Dy", "z=1"] } = appDirName { D := ["A=x", "y-Dz=1"] } ∧
      ¬ Config.Agree { D := ["A=x-Dy", "z=1"] } { D := ["A=x", "y-Dz=1"] }) := by
  refine ⟨⟨by decide, fun h => ?_⟩, ⟨by decide, fun h => ?_⟩, ⟨by decide, fun h => ?_⟩⟩
  · exact absurd (h "DEBUG" (by decide)) (by decide)
  · exact absurd (h "A" (by decide)) (by decide)
  · exact absurd (h "A" (by decide)) (by decide)

end Pbuild
