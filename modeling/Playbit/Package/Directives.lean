import Playbit.Package.Basic
import Playbit.Python.Words

/-!
# Scanning directives

The directives of a package are comments at the top of its index file, which `scan_directives`
reads line by line.  Lines that name the same package are merged into one entry: the tags are
collected, and the condition is that of the last line which has one.

A file with a directive that has no word is refused (`scanDirectives_error_iff`).  In the others an
entry says what its lines say under the conditions of `dependency_iff_line_iff`.
-/

namespace Pbuild

open Python

/-! ### Data -/

/-- String methods of Python that are used on directives. -/
structure StrMethods where
  /-- `str.upper()` -/
  upper : Text → Text
  /-- `repr` -/
  repr : Text → Text
  upper_eq : ∀ t : Text, (∀ c ∈ t, c.isUpper = true) → upper t = t

/-- A `Conditional`. -/
structure CondSource where
  file : Text
  line : ℕ
  pysrc : Text
  deriving DecidableEq

/-- An entry of `DEPENDS` or `BUILDTOOL`. -/
structure ScannedDep where
  /-- A set. -/
  tags : List Text := []
  cond : Option CondSource := none
  deriving DecidableEq

/-- The directives of a file. -/
structure Scanned where
  depends : Dict Text ScannedDep := []
  buildtool : Dict Text ScannedDep := []
  /-- Architecture to package path to mountpoint and condition. -/
  archdepends : Dict Arch (Dict Text (Text × Option CondSource)) := []
  archdepends_nodup : (archdepends.map Prod.fst).Nodup := by first | exact List.nodup_nil | decide
  ignore : Dict Text (Option CondSource) := []
  env : Dict Text Text := []
  /-- A set. -/
  check : List Text := []
  metapackage : Bool := false
  bootstrap : Bool := false
  deprecated : List Text := []
  deriving DecidableEq

/-- The directives that `scan_directive` knows. -/
inductive DirectiveKey
  | depends
  | buildtool
  | archdepends
  | ignore
  | env
  | check
  | metapackage
  | bootstrap
  | deprecated
  deriving DecidableEq

/-- The keys of directives in upper case. -/
def directiveKeys : Dict Text DirectiveKey :=
  [("DEP", .depends), ("DEPENDS", .depends), ("BUILDTOOL", .buildtool),
    ("ARCHDEPENDS", .archdepends), ("ARCHDEP", .archdepends), ("IGNORE", .ignore), ("ENV", .env),
    ("CHECK", .check), ("METAPACKAGE", .metapackage), ("BOOTSTRAP", .bootstrap),
    ("DEPRECATED", .deprecated)]

/-- The key under which a directive is stored, and that is in messages. -/
def DirectiveKey.text : DirectiveKey → Text
  | depends => "DEPENDS"
  | buildtool => "BUILDTOOL"
  | archdepends => "ARCHDEPENDS"
  | ignore => "IGNORE"
  | env => "ENV"
  | check => "CHECK"
  | metapackage => "METAPACKAGE"
  | bootstrap => "BOOTSTRAP"
  | deprecated => "DEPRECATED"

/-- The exceptions that are raised while a file is scanned. -/
inductive DirectiveError
  | pkgMetaSyntaxError (text : Text)
  /-- `IndexError`: the first item of an empty list. -/
  | indexError
  deriving DecidableEq

/-- The directive of a line, with its number. -/
structure DirectiveLine where
  line : ℕ
  key : Text
  value : Text
  deriving DecidableEq

/-! ### Scanning a line -/

/-- `tags.add(tag)`. -/
def addToSet (s : List Text) (t : Text) : List Text := if t ∈ s then s else s ++ [t]

section Scan

variable (py : StrMethods) (file : Text)

/-- `PkgMetaSyntaxError` with a message that starts with the file and the line. -/
def errorAt (line : ℕ) (msg : Text) : DirectiveError :=
  .pkgMetaSyntaxError (file ++ ':' :: ((toString line).toList ++ ": ".toList ++ msg))

/-- The check at the end of `scan_directive`. -/
def requireValue (line : ℕ) (key : DirectiveKey) (value : Text) (d : Scanned) :
    Except DirectiveError Scanned :=
  if value = [] then
    .error (errorAt file line ("missing value for directive ".toList ++ key.text))
  else .ok d

/-- The index in what comes after the package name at which a condition starts. -/
def condIdx (rest : Text) : Option ℕ :=
  match find? " if ".toList rest with
  | some i => some i
  | none => if "if ".toList <+: rest then some 0 else none

/-- What comes before a condition, and the condition. -/
def splitCond (rest : Text) : Text × Option Text :=
  match condIdx rest with
  | none => (rest, none)
  | some i => (rest.take i, some (strip (rest.drop i)))

/-- A tag without its brackets, where `run` is an alias of `transitive`. -/
def readTag (tag : Text) : Text :=
  replace "run".toList "transitive".toList (stripChars ['[', ']'] tag)

/-- What a `DEPENDS` or `BUILDTOOL` line says. -/
structure DepLine where
  name : Text
  tags : List Text
  cond : Option CondSource
  deriving DecidableEq

/-- A `DEPENDS` or `BUILDTOOL` line: `none` when there is no package name. -/
def scanDepLine (line : ℕ) (value : Text) : Option DepLine :=
  match splitOnce value with
  | [] => none
  | [name] => some ⟨name, [], none⟩
  | name :: rest :: _ =>
    some ⟨name, (splitWords (strip (splitCond rest).1)).map readTag,
      (splitCond rest).2.map (⟨file, line, ·⟩)⟩

/-- The entry of a package after another line for it. -/
def DepLine.merge (l : DepLine) (depm : Option ScannedDep) : ScannedDep :=
  { tags := l.tags.foldl addToSet (depm.getD {}).tags
    cond := l.cond.or (depm.getD {}).cond }

/-- The entries after another line. -/
def DepLine.addTo (entries : Dict Text ScannedDep) (l : DepLine) : Dict Text ScannedDep :=
  entries.alter l.name l.merge

/-- An `ARCHDEPENDS` line. -/
def scanArchDep (line : ℕ) (d : Scanned) (value : Text) : Except DirectiveError Scanned :=
  match splitUpTo 3 value with
  | pkgname :: arch :: mountpoint :: rest =>
    let cond : Option CondSource := rest.head?.map (⟨file, line, ·⟩)
    match validArchs.find? (·.name == arch) with
    | none => .error (errorAt file line
        ("invalid arch ".toList ++ py.repr arch ++ " in ARCHDEPENDS entry".toList))
    | some a =>
      let entries := (d.archdepends.get? a).getD []
      if pkgname ∈ entries.map Prod.fst then
        .error (errorAt file line ("duplicate ARCHDEPENDS entry: ".toList ++ pkgname ++
          " declared twice for arch ".toList ++ arch))
      else if ¬ ['/'] <+: mountpoint then
        .error (errorAt file line ("mountpoint ".toList ++ py.repr mountpoint ++
          " does not begin with \"/\"".toList))
      else .ok { d with
        archdepends := d.archdepends.set a (entries.set pkgname (mountpoint, cond))
        archdepends_nodup := Dict.nodup_alter d.archdepends_nodup }
  | _ => .error (errorAt file line ("invalid syntax for directive ARCHDEPENDS; " ++
      "expecting: pkg arch mountpoint [cond]").toList)

/-- `scan_directive`. -/
def scanDirective (d : Scanned) (e : DirectiveLine) : Except DirectiveError Scanned :=
  match directiveKeys.get? e.key with
  | some .depends =>
    match scanDepLine file e.line e.value with
    | none => .error .indexError
    | some l => requireValue file e.line .depends e.value { d with depends := l.addTo d.depends }
  | some .buildtool =>
    match scanDepLine file e.line e.value with
    | none => .error .indexError
    | some l =>
      requireValue file e.line .buildtool e.value { d with buildtool := l.addTo d.buildtool }
  | some .archdepends => do
    let d ← scanArchDep py file e.line d e.value
    requireValue file e.line .archdepends e.value d
  | some .ignore =>
    match splitOnce e.value with
    | [] => .error .indexError
    | path :: rest =>
      let cond : Option CondSource := rest.head?.map (⟨file, e.line, ·⟩)
      requireValue file e.line .ignore e.value { d with ignore := d.ignore.set path cond }
  | some .env =>
    match splitMax '=' 1 e.value with
    | k :: v :: _ => requireValue file e.line .env e.value { d with env := d.env.set k v }
    | _ => .error (errorAt file e.line
        ("missing =value in ".toList ++ DirectiveKey.env.text ++ " directive".toList))
  | some .check =>
    requireValue file e.line .check e.value
      { d with check := (splitWords e.value).foldl addToSet d.check }
  | some .metapackage => .ok { d with metapackage := true }
  | some .bootstrap => .ok { d with bootstrap := true }
  | some .deprecated =>
    requireValue file e.line .deprecated e.value
      { d with deprecated := d.deprecated ++ [e.value] }
  -- a warning is logged
  | none => .ok d

/-- The key and the value of a line that starts with `#!`. -/
def keyValue (line : Text) : Text × Text :=
  match splitMax ' ' 1 (strip (line.drop 2)) with
  | [] => (py.upper [], [])
  | [key] => (py.upper key, [])
  | key :: value :: _ => (py.upper key, lstrip value)

/-- The loop of `scan_directives`, with the number of the line before. -/
def scanLines : ℕ → List Text → Scanned → Except DirectiveError Scanned
  | _, [], d => .ok d
  | n, line :: rest, d =>
    if line = [] then scanLines (n + 1) rest d
    else if line.head? ≠ some '#' then
      -- a line with stray white space is skipped, and any other ends the header
      if strip line = [] then scanLines (n + 1) rest d else .ok d
    else if line.take 2 ≠ "#!".toList then scanLines (n + 1) rest d
    else do
      let d ← scanDirective py file d ⟨n + 1, (keyValue py line).1, (keyValue py line).2⟩
      scanLines (n + 1) rest d

/-- `scan_directives` for a file with the given contents. -/
def scanDirectives (text : Text) : Except DirectiveError Scanned :=
  scanLines py file 0 (lines text) {}

/-! ### The lines that are scanned -/

/-- The directives of the lines after the line with the number `n`. -/
def headerLines : ℕ → List Text → List DirectiveLine
  | _, [] => []
  | n, line :: rest =>
    if line = [] then headerLines (n + 1) rest
    else if line.head? ≠ some '#' then
      if strip line = [] then headerLines (n + 1) rest else []
    else if line.take 2 ≠ "#!".toList then headerLines (n + 1) rest
    else ⟨n + 1, (keyValue py line).1, (keyValue py line).2⟩ :: headerLines (n + 1) rest

/-- The directives of a file. -/
def directiveLines (text : Text) : List DirectiveLine := headerLines py 0 (lines text)

theorem scanLines_eq_foldlM (n : ℕ) (l : List Text) (d : Scanned) :
    scanLines py file n l d = (headerLines py n l).foldlM (scanDirective py file) d := by
  induction l generalizing n d with
  | nil => rfl
  | cons line rest ih =>
    rw [scanLines, headerLines]
    split_ifs
    · exact ih _ _
    · exact ih _ _
    · rfl
    · exact ih _ _
    · rw [List.foldlM_cons]
      exact bind_congr fun d => ih _ d

theorem scanDirectives_eq_foldlM (text : Text) :
    scanDirectives py file text = (directiveLines py text).foldlM (scanDirective py file) {} :=
  scanLines_eq_foldlM py file 0 (lines text) {}

end Scan

/-! ### Errors -/

/-- A directive for a package or a file that names none. -/
def DirectiveLine.LacksWord (e : DirectiveLine) : Prop :=
  (∃ k ∈ [DirectiveKey.depends, .buildtool, .ignore], directiveKeys.get? e.key = some k) ∧
    e.value = []

section Errors

variable {py : StrMethods} {file : Text} {d d' : Scanned} {e : DirectiveLine}

theorem splitOnce_eq_nil_iff {t : Text} : splitOnce t = [] ↔ lstrip t = [] := by
  rw [splitOnce]
  dsimp only
  split_ifs <;> simp_all

theorem scanDepLine_eq_none_iff {line : ℕ} {value : Text} :
    scanDepLine file line value = none ↔ lstrip value = [] := by
  rw [← splitOnce_eq_nil_iff, scanDepLine]
  split <;> simp_all

/-- A result that is not an error, or the error of the line. -/
def ReportsLine (file : Text) (line : ℕ) (r : Except DirectiveError Scanned) : Prop :=
  ∀ err, r = .error err → ∃ msg, err = errorAt file line msg

theorem reportsLine_ok (line : ℕ) : ReportsLine file line (.ok d) := fun _ h => nomatch h

theorem reportsLine_errorAt (line : ℕ) (msg : Text) :
    ReportsLine file line (.error (errorAt file line msg)) := by
  rintro _ ⟨⟩
  exact ⟨msg, rfl⟩

theorem reportsLine_requireValue (line : ℕ) (key : DirectiveKey) (value : Text) :
    ReportsLine file line (requireValue file line key value d) := by
  unfold requireValue
  split_ifs
  · exact reportsLine_errorAt line _
  · exact reportsLine_ok line

theorem reportsLine_scanArchDep (line : ℕ) (value : Text) :
    ReportsLine file line (scanArchDep py file line d value) := by
  unfold scanArchDep
  split
  · dsimp only
    split
    · exact reportsLine_errorAt line _
    · split_ifs
      · exact reportsLine_errorAt line _
      · exact reportsLine_ok line
      · exact reportsLine_errorAt line _
  · exact reportsLine_errorAt line _

/-- **One line.**  It is scanned or reported, unless it lacks a word. -/
theorem scanDirective_cases (py : StrMethods) (file : Text) (d : Scanned)
    (he : lstrip e.value = e.value) :
    (e.LacksWord ∧ scanDirective py file d e = .error .indexError) ∨
      ¬ e.LacksWord ∧ ReportsLine file e.line (scanDirective py file d e) := by
  -- the value has no white space in front, so that it is empty when there is no word in it
  have hnil : lstrip e.value = [] ↔ e.value = [] := by rw [he]
  have hother : ∀ k, directiveKeys.get? e.key = some k → k ∉ [.depends, .buildtool, .ignore] →
      ¬ e.LacksWord := by
    rintro k hk hnot ⟨⟨k', hk', hkey⟩, -⟩
    rw [hk] at hkey
    cases hkey
    exact hnot hk'
  -- a line with a dependency
  have hdep : ∀ k ∈ [DirectiveKey.depends, .buildtool, .ignore], directiveKeys.get? e.key = some k →
      ∀ g : DepLine → Scanned, let r := match scanDepLine file e.line e.value with
        | none => .error .indexError
        | some l => requireValue file e.line k e.value (g l)
      (e.LacksWord ∧ r = .error .indexError) ∨ ¬ e.LacksWord ∧ ReportsLine file e.line r := by
    intro k hk hkey g
    cases hl : scanDepLine file e.line e.value with
    | none => exact .inl ⟨⟨⟨k, hk, hkey⟩, hnil.1 (scanDepLine_eq_none_iff.1 hl)⟩, rfl⟩
    | some l =>
      refine .inr ⟨fun h => ?_, reportsLine_requireValue _ _ _⟩
      rw [scanDepLine_eq_none_iff.2 (hnil.2 h.2)] at hl
      cases hl
  unfold scanDirective
  cases hkey : directiveKeys.get? e.key with
  | none =>
    refine .inr ⟨fun h => ?_, reportsLine_ok _⟩
    obtain ⟨⟨k, -, hk⟩, -⟩ := h
    rw [hkey] at hk
    cases hk
  | some key =>
    cases key with
    | depends => exact hdep _ (by decide) hkey fun l => { d with depends := l.addTo d.depends }
    | buildtool =>
      exact hdep _ (by decide) hkey fun l => { d with buildtool := l.addTo d.buildtool }
    | archdepends =>
      refine .inr ⟨hother _ hkey (by decide), fun err herr => ?_⟩
      rcases Machine.bind_eq_error.1 herr with harr | ⟨d', -, hreq⟩
      · exact reportsLine_scanArchDep _ _ err harr
      · exact reportsLine_requireValue _ _ _ err hreq
    | ignore =>
      cases hs : splitOnce e.value with
      | nil => exact .inl ⟨⟨⟨_, by decide, hkey⟩, hnil.1 (splitOnce_eq_nil_iff.1 hs)⟩, rfl⟩
      | cons path rest =>
        refine .inr ⟨fun h => ?_, reportsLine_requireValue _ _ _⟩
        rw [splitOnce_eq_nil_iff.2 (hnil.2 h.2)] at hs
        cases hs
    | env =>
      refine .inr ⟨hother _ hkey (by decide), ?_⟩
      dsimp only
      split
      · exact reportsLine_requireValue _ _ _
      · exact reportsLine_errorAt _ _
    | check => exact .inr ⟨hother _ hkey (by decide), reportsLine_requireValue _ _ _⟩
    | metapackage => exact .inr ⟨hother _ hkey (by decide), reportsLine_ok _⟩
    | bootstrap => exact .inr ⟨hother _ hkey (by decide), reportsLine_ok _⟩
    | deprecated => exact .inr ⟨hother _ hkey (by decide), reportsLine_requireValue _ _ _⟩

theorem lstrip_keyValue (line : Text) :
    lstrip (keyValue py line).2 = (keyValue py line).2 := by
  unfold keyValue
  split
  · rfl
  · rfl
  · exact List.dropWhile_idempotent _ _

theorem lstrip_value {n : ℕ} {l : List Text} (he : e ∈ headerLines py n l) :
    lstrip e.value = e.value := by
  induction l generalizing n with
  | nil => cases he
  | cons line rest ih =>
    rw [headerLines] at he
    split_ifs at he
    · exact ih he
    · exact ih he
    · cases he
    · exact ih he
    · rcases List.mem_cons.1 he with rfl | he
      · exact lstrip_keyValue line
      · exact ih he

end Errors

/-- **Which files are scanned or reported.**  When the scan of a file raises an exception, it is a
`PkgMetaSyntaxError` with the file and the number of one of its lines with a directive, if and only
if no directive that is reached lacks the name of a package or file.  A directive is reached when
those before it are scanned. -/
theorem scanDirectives_error_iff (py : StrMethods) (file text : Text) :
    (∀ err, scanDirectives py file text = .error err →
      ∃ e ∈ directiveLines py text, ∃ msg, err = errorAt file e.line msg) ↔
      ∀ l₁ e l₂, directiveLines py text = l₁ ++ e :: l₂ →
        (∃ d, l₁.foldlM (scanDirective py file) {} = .ok d) → ¬ e.LacksWord := by
  rw [scanDirectives_eq_foldlM]
  have hvalue : ∀ e ∈ directiveLines py text, lstrip e.value = e.value := fun e he =>
    lstrip_value he
  constructor
  · rintro h l₁ e l₂ hl ⟨d, hd⟩ hlacks
    rcases scanDirective_cases py file d (hvalue e (hl ▸ by simp)) with ⟨-, herr⟩ | ⟨hnot, -⟩
    · obtain ⟨_, -, _, hmsg⟩ := h _ (Machine.foldlM_eq_error_iff.2 ⟨l₁, e, l₂, d, hl, hd, herr⟩)
      cases hmsg
    · exact hnot hlacks
  · intro h err herr
    obtain ⟨l₁, e, l₂, d, hl, hd, he⟩ := Machine.foldlM_eq_error_iff.1 herr
    have hmem : e ∈ directiveLines py text := hl ▸ by simp
    rcases scanDirective_cases py file d (hvalue e hmem) with ⟨hlacks, -⟩ | ⟨-, hreports⟩
    · exact absurd hlacks (h l₁ e l₂ hl ⟨d, hd⟩)
    · exact ⟨e, hmem, hreports err he⟩

/-- String methods for files in ASCII. -/
def StrMethods.ascii : StrMethods where
  upper := List.map Char.toUpper
  repr t := '\'' :: (t ++ ['\''])
  upper_eq t h := by
    refine (List.map_congr_left fun c hc => ?_).trans (List.map_id t)
    have hupper : c.val ≥ 'A'.val ∧ c.val ≤ 'Z'.val := of_decide_eq_true (h c hc)
    refine dif_neg ?_
    -- lower case letters come after the upper case ones
    rintro ⟨hlower, -⟩
    have hle := UInt32.le_iff_toNat_le.1 hlower
    exact absurd (hle.trans (UInt32.le_iff_toNat_le.1 hupper.2)) (by decide)

/-- A `DEPENDS` directive without a package. -/
theorem indexError_of_depends_nothing :
    scanDirectives .ascii "Makefile" "#!DEPENDS\n" = .error .indexError := by
  decide

/-! ### Lines for the same package -/

/-- The `DEPENDS` entries, or those of `BUILDTOOL`. -/
def Scanned.deps (d : Scanned) (tool : Bool) : Dict Text ScannedDep :=
  if tool then d.buildtool else d.depends

/-- The directive of these entries. -/
def depKey (tool : Bool) : DirectiveKey := if tool then .buildtool else .depends

/-- What a line says, if it is one of this directive. -/
def DirectiveLine.depLine? (file : Text) (tool : Bool) (e : DirectiveLine) : Option DepLine :=
  if directiveKeys.get? e.key = some (depKey tool) then scanDepLine file e.line e.value else none

/-- What the lines of a directive say. -/
def depLines (py : StrMethods) (file : Text) (tool : Bool) (text : Text) : List DepLine :=
  (directiveLines py text).filterMap (DirectiveLine.depLine? file tool)

/-- The last condition that the lines have for a package. -/
def lastCond (lines : List DepLine) (name : Text) : Option CondSource :=
  ((lines.filter (·.name = name)).filterMap DepLine.cond).getLast?

/-- The value of a condition for every architecture. -/
def CondSource.conditional (eval : CondSource → Arch → Bool) (c : CondSource) : Conditional :=
  ⟨eval c⟩

/-- An entry, as it is used to resolve dependencies. -/
def ScannedDep.info (eval : CondSource → Arch → Bool) (e : ScannedDep) : DepInfo :=
  ⟨e.tags, e.cond.map (CondSource.conditional eval)⟩

/-- The directives of a package. -/
def Scanned.directives (eval : CondSource → Arch → Bool) (d : Scanned) : Directives where
  depends := d.depends.map fun e => (e.1, e.2.info eval)
  buildtool := d.buildtool.map fun e => (e.1, e.2.info eval)
  archdepends := d.archdepends.map fun e =>
    (e.1, e.2.map fun x => (x.1, ⟨x.2.1, x.2.2.map (CondSource.conditional eval)⟩))
  archdepends_nodup := by
    rw [List.map_map]
    exact d.archdepends_nodup
  metapackage := d.metapackage

/-- A package is a dependency for an architecture by its entry. -/
def Directives.HasDep (dirs : Directives) (tool : Bool) (name : Text) (a : Arch) : Prop :=
  ∃ info, Dict.get? (if tool then dirs.buildtool else dirs.depends) name = some info ∧
    condPasses info.cond a = true

/-- A package is a dependency for an architecture by one of the lines. -/
def DepLine.HasDep (eval : CondSource → Arch → Bool) (lines : List DepLine) (name : Text)
    (a : Arch) : Prop :=
  ∃ l ∈ lines, l.name = name ∧ condPasses (l.cond.map (CondSource.conditional eval)) a = true

section Merge

variable {py : StrMethods} {file : Text} {d d' : Scanned} {e : DirectiveLine} {tool : Bool}

theorem eq_of_requireValue {line : ℕ} {key : DirectiveKey} {value : Text}
    (h : requireValue file line key value d = .ok d') : d' = d := by
  unfold requireValue at h
  split_ifs at h
  cases h
  rfl

theorem deps_scanArchDep {line : ℕ} {value : Text} (h : scanArchDep py file line d value = .ok d') :
    d'.deps tool = d.deps tool := by
  unfold scanArchDep at h
  split at h
  · dsimp only at h
    split at h
    · cases h
    · split_ifs at h
      cases h
      rfl
  · cases h

/-- A line leaves the entries of other directives as they are. -/
theorem deps_scanDirective_other (hkey : directiveKeys.get? e.key ≠ some (depKey tool))
    (h : scanDirective py file d e = .ok d') : d'.deps tool = d.deps tool := by
  unfold scanDirective at h
  cases hk : directiveKeys.get? e.key with
  | none =>
    rw [hk] at h
    cases h
    rfl
  | some key =>
    rw [hk] at h hkey
    cases key with
    | depends =>
      dsimp only at h
      split at h
      · cases h
      · cases eq_of_requireValue h
        cases tool with
        | false => exact absurd rfl hkey
        | true => rfl
    | buildtool =>
      dsimp only at h
      split at h
      · cases h
      · cases eq_of_requireValue h
        cases tool with
        | false => rfl
        | true => exact absurd rfl hkey
    | archdepends =>
      obtain ⟨d₁, hd₁, h⟩ := Machine.bind_eq_ok.1 h
      cases eq_of_requireValue h
      exact deps_scanArchDep hd₁
    | ignore | env =>
      dsimp only at h
      split at h <;> first | cases h | cases eq_of_requireValue h; rfl
    | check | deprecated =>
      cases eq_of_requireValue h
      rfl
    | metapackage | bootstrap =>
      cases h
      rfl

theorem deps_scanDirective_own (hkey : directiveKeys.get? e.key = some (depKey tool))
    (h : scanDirective py file d e = .ok d') :
    ∃ l, scanDepLine file e.line e.value = some l ∧ d'.deps tool = l.addTo (d.deps tool) := by
  unfold scanDirective at h
  rw [hkey] at h
  cases hl : scanDepLine file e.line e.value with
  | none =>
    rw [hl] at h
    cases tool <;> cases h
  | some l =>
    rw [hl] at h
    cases tool <;> cases eq_of_requireValue h <;> exact ⟨l, rfl, rfl⟩

theorem deps_scanDirective (h : scanDirective py file d e = .ok d') :
    d'.deps tool = (e.depLine? file tool).toList.foldl (fun s l => DepLine.addTo s l)
      (d.deps tool) := by
  rw [DirectiveLine.depLine?]
  by_cases hkey : directiveKeys.get? e.key = some (depKey tool)
  · obtain ⟨l, hl, hdeps⟩ := deps_scanDirective_own hkey h
    rw [if_pos hkey, hl]
    exact hdeps
  · rw [if_neg hkey]
    exact deps_scanDirective_other hkey h

/-- The entries are made from the lines of the directive. -/
theorem deps_scanDirectives {text : Text} (h : scanDirectives py file text = .ok d) :
    d.deps tool = (depLines py file tool text).foldl DepLine.addTo [] := by
  rw [scanDirectives_eq_foldlM] at h
  refine Machine.foldlM_ok_rule (I := fun l d => d.deps tool =
    (l.filterMap (DirectiveLine.depLine? file tool)).foldl DepLine.addTo []) h ?_ ?_
  · cases tool <;> rfl
  · intro l e d d' hd he
    rw [deps_scanDirective he, hd, List.filterMap_append, List.foldl_append]
    cases h : e.depLine? file tool <;> simp [h]

theorem lastCond_concat (lines : List DepLine) (l : DepLine) (name : Text) :
    lastCond (lines ++ [l]) name =
      if l.name = name then l.cond.or (lastCond lines name) else lastCond lines name := by
  rw [lastCond, List.filter_append, List.filterMap_append, List.getLast?_append]
  by_cases h : l.name = name
  · cases hc : l.cond <;> simp [lastCond, h, hc]
  · simp [lastCond, h]

theorem foldl_addTo_spec (lines : List DepLine) :
    (∀ name, name ∈ (lines.foldl DepLine.addTo []).map Prod.fst ↔ name ∈ lines.map DepLine.name) ∧
      ∀ name e, Dict.get? (lines.foldl DepLine.addTo []) name = some e →
        e.cond = lastCond lines name := by
  refine Machine.foldl_rule (I := fun l (s : Dict Text ScannedDep) =>
    (∀ name, name ∈ s.map Prod.fst ↔ name ∈ l.map DepLine.name) ∧
      ∀ name e, s.get? name = some e → e.cond = lastCond l name) ⟨by simp, by simp [Dict.get?]⟩ ?_
  rintro l₁ l l₂ s - ⟨hkeys, hcond⟩
  refine ⟨fun name => ?_, fun name e he => ?_⟩
  · rw [DepLine.addTo, Dict.mem_keys_alter, hkeys, List.map_append, List.mem_append, or_comm]
    simp
  · rw [lastCond_concat]
    by_cases hname : l.name = name
    · subst hname
      rw [DepLine.addTo, Dict.get?_alter_self] at he
      cases he
      rw [if_pos rfl, DepLine.merge]
      cases hs : s.get? l.name with
      | none =>
        -- no line before names the package
        have hnone : lastCond l₁ l.name = none := by
          have hnot : l.name ∉ l₁.map DepLine.name := fun hmem => by
            obtain ⟨v, hv⟩ := Dict.mem_keys_iff.1 ((hkeys _).2 hmem)
            rw [hs] at hv
            cases hv
          have hfilter : l₁.filter (·.name = l.name) = [] := by
            refine List.filter_eq_nil_iff.2 fun x hx h => ?_
            exact hnot (of_decide_eq_true h ▸ List.mem_map_of_mem hx)
          rw [lastCond, hfilter]
          rfl
        rw [hnone]
        rfl
      | some e₀ =>
        rw [← hcond _ e₀ hs]
        rfl
    · rw [if_neg hname]
      rw [DepLine.addTo, Dict.get?_alter_ne _ (Ne.symm hname)] at he
      exact hcond name e he

theorem get?_map_info (eval : CondSource → Arch → Bool) (s : Dict Text ScannedDep)
    (name : Text) :
    Dict.get? (s.map fun e => (e.1, e.2.info eval)) name =
      (s.get? name).map (ScannedDep.info eval) := by
  induction s with
  | nil => rfl
  | cons e s ih =>
    rw [List.map_cons, Dict.get?, Dict.get?]
    split_ifs
    · rfl
    · exact ih

theorem hasDep_directives_iff {text : Text} (h : scanDirectives py file text = .ok d)
    (eval : CondSource → Arch → Bool) (name : Text) (a : Arch) :
    (d.directives eval).HasDep tool name a ↔
      name ∈ (depLines py file tool text).map DepLine.name ∧
        ∀ c, lastCond (depLines py file tool text) name = some c → eval c a = true := by
  have hdeps : (if tool then (d.directives eval).buildtool else (d.directives eval).depends) =
      (d.deps tool).map fun e => (e.1, e.2.info eval) := by
    cases tool <;> rfl
  obtain ⟨hkeys, hcond⟩ := foldl_addTo_spec (depLines py file tool text)
  rw [Directives.HasDep, hdeps, get?_map_info, deps_scanDirectives h, ← hkeys,
    Dict.mem_keys_iff]
  cases hget : Dict.get? ((depLines py file tool text).foldl DepLine.addTo []) name with
  | none => simp
  | some e =>
    rw [← hcond name e hget]
    cases hc : e.cond <;> simp [ScannedDep.info, condPasses, hc, CondSource.conditional]

end Merge

/-- **When an entry says what its lines say.**  With the directives of a file, a package is a
dependency for an architecture just when one of the lines for it has no condition, or one that
holds for the architecture, if and only if for every package that has conditional lines, the last
one of these holds whenever any of its lines has no condition or one that holds. -/
theorem dependency_iff_line_iff (py : StrMethods) (file text : Text) (d : Scanned)
    (h : scanDirectives py file text = .ok d) (eval : CondSource → Arch → Bool) (tool : Bool) :
    (∀ name a, (d.directives eval).HasDep tool name a ↔
      DepLine.HasDep eval (depLines py file tool text) name a) ↔
    ∀ name a c, lastCond (depLines py file tool text) name = some c →
      DepLine.HasDep eval (depLines py file tool text) name a → eval c a = true := by
  refine forall₂_congr fun name a => ?_
  rw [hasDep_directives_iff h]
  have hnames : DepLine.HasDep eval (depLines py file tool text) name a →
      name ∈ (depLines py file tool text).map DepLine.name := by
    rintro ⟨l, hl, rfl, -⟩
    exact List.mem_map_of_mem hl
  constructor
  · intro hiff c hc hline
    exact (hiff.2 hline).2 c hc
  · intro hlast
    refine ⟨?_, fun hline => ⟨hnames hline, fun c hc => hlast c hc hline⟩⟩
    rintro ⟨hname, hcond⟩
    cases hc : lastCond (depLines py file tool text) name with
    | some c =>
      -- the line of the last condition says so
      obtain ⟨l, hl, hlc⟩ := List.mem_filterMap.1 (List.mem_of_getLast? hc)
      obtain ⟨hmem, hlname⟩ := List.mem_filter.1 hl
      refine ⟨l, hmem, of_decide_eq_true hlname, ?_⟩
      rw [hlc]
      exact hcond c hc
    | none =>
      -- no line for the package has a condition
      obtain ⟨l, hl, rfl⟩ := List.mem_map.1 hname
      refine ⟨l, hl, rfl, ?_⟩
      have hnil := List.getLast?_eq_none_iff.1 hc
      have hlc : l.cond = none :=
        (List.filterMap_eq_nil_iff.1 hnil) l (List.mem_filter.2 ⟨hl, by simp⟩)
      rw [hlc]
      rfl

/-- Conditions that compare `ARCH` with the name of an architecture. -/
def archEval (c : CondSource) (a : Arch) : Bool :=
  c.pysrc == "if ARCH == '".toList ++ a.name ++ "'".toList

/-- Two dependencies that are named twice: for one architecture, and for all of them. -/
theorem dependency_iff_line_sample :
    let text : Text := "#!DEPENDS lib if ARCH == 'x86_64'\n#!DEPENDS tool\n" ++
      "#!DEPENDS lib [run] if ARCH == 'x86_64'\n#!BUILDTOOL make\n#!DEP tool [run]\n"
    let cond : ℕ → CondSource := fun line => ⟨"Makefile", line, "if ARCH == 'x86_64'"⟩
    let d : Scanned :=
      { depends := [("lib", ⟨["transitive"], some (cond 3)⟩), ("tool", ⟨["transitive"], none⟩)]
        buildtool := [("make", {})] }
    scanDirectives .ascii "Makefile" text = .ok d ∧
      ∀ name a, (d.directives archEval).HasDep false name a ↔
        DepLine.HasDep archEval (depLines .ascii "Makefile" false text) name a := by
  intro text cond d
  have hscan : scanDirectives .ascii "Makefile" text = .ok d := by decide +kernel
  have hlines : depLines .ascii "Makefile" false text =
      [⟨"lib", [], some (cond 1)⟩, ⟨"tool", [], none⟩, ⟨"lib", ["transitive"], some (cond 3)⟩,
        ⟨"tool", ["transitive"], none⟩] := by decide +kernel
  refine ⟨hscan, (dependency_iff_line_iff .ascii "Makefile" text d hscan archEval false).2 ?_⟩
  rw [hlines]
  rintro name a c hc ⟨l, hl, rfl, hpass⟩
  simp only [List.mem_cons, List.not_mem_nil, or_false] at hl
  rcases hl with rfl | rfl | rfl | rfl
  -- both lines for `lib` have the same condition, and those for `tool` have none
  · have heq : cond 3 = c := by simpa [lastCond] using hc
    exact heq ▸ hpass
  · exact absurd hc (by simp [lastCond])
  · have heq : cond 3 = c := by simpa [lastCond] using hc
    exact heq ▸ hpass
  · exact absurd hc (by simp [lastCond])

/-- After a line without a condition, that of the line before is kept. -/
theorem condition_kept_after_unconditional :
    let text : Text := "#!DEPENDS lib if ARCH == 'wasm32'\n#!DEPENDS lib\n"
    let d : Scanned := { depends := [("lib", ⟨[], some ⟨"Makefile", 1, "if ARCH == 'wasm32'"⟩⟩)] }
    scanDirectives .ascii "Makefile" text = .ok d ∧
      DepLine.HasDep archEval (depLines .ascii "Makefile" false text) "lib" .x86_64 ∧
      ¬ (d.directives archEval).HasDep false "lib" .x86_64 := by
  intro text d
  refine ⟨by decide +kernel, ⟨⟨"lib", [], none⟩, by decide +kernel, rfl, rfl⟩, ?_⟩
  rintro ⟨info, hinfo, hpass⟩
  cases hinfo
  exact absurd hpass (by decide)

end Pbuild
