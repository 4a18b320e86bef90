import Playbit.Port.Fetch
import Playbit.Posix.Quoting

/-!
# Verified downloads

`download --sha256` downloads to a temporary file next to the output file, verifies the checksum,
and moves the file into place.  A trap removes the temporary file when the script exits, however
that comes about.

The command of the trap has the path of the temporary file between single quotes.  When the path
of the output file has a quote in it, the shell reads something else.  With one quote the text can
not be read at all: the temporary file of a failed download stays, and the exit status is that of an
error even after a download that was moved into place.

So downloads are verified, over every sequence of invocations for an output file, when there is no
quote in its path, and not when there is one and everything else in the path is plain
(`downloadsVerified_noQuote`).  `download`, as `pbuild_fetch_and_unpack` was modelled with it, is
what the script does (`downloadScript_fetchArgv`).
-/

namespace Port

open Python (Text nameParts)

variable {α : Type}

/-! ### The options -/

/-- The variables that the options are read into.  What is printed is left out, and so are `-q` and
`-v`. -/
structure Options where
  sha256 : Text := []
  outfile : Text := []
  force : Bool := false
  url : Text := []
  deriving DecidableEq

/-- What `_err` reports. -/
inductive UsageError
  | missingChecksum
  | missingFile
  | unknownOption (arg : Text)
  | unexpectedArgument (arg : Text)
  deriving DecidableEq

/-- What reading the options comes to. -/
inductive Parsed
  | help
  | failed (e : UsageError)
  | options (o : Options)
  deriving DecidableEq

/-- The loop over the arguments. -/
def parseOptions : List Text → Options → Parsed
  | [], o => .options o
  | arg :: args, o =>
    if isHelp arg then .help
    else if arg = "--sha256".toList then
      match args with
      | [] => .failed .missingChecksum
      | value :: args =>
        if value = [] then .failed .missingChecksum
        else parseOptions args { o with sha256 := value }
    else if arg = "-o".toList then
      match args with
      | [] => .failed .missingFile
      | value :: args => parseOptions args { o with outfile := value }
    else if arg ∈ ["-q".toList, "-v".toList] then parseOptions args o
    else if arg ∈ ["-f".toList, "--force".toList] then parseOptions args { o with force := true }
    else if ['-'] <+: arg then .failed (.unknownOption arg)
    else if o.url ≠ [] then .failed (.unexpectedArgument arg)
    else parseOptions args { o with url := arg }

/-- `$(...)`: the newlines at the end of the output are dropped. -/
def captured (t : Text) : Text := t.rdropWhile (· = '\n')

/-- `OUTFILE`, where `dir` is `DOWNLOAD_DIR`. -/
def outputPath (dir : Text) (o : Options) : Text :=
  if o.outfile = [] then dir ++ '/' :: captured (basename o.url) else o.outfile

/-! ### The temporary file -/

/-- `dirname` -/
def dirname (path : Text) : Text :=
  let path' := path.rdropWhile (· = '/')
  if path' = [] then if path = [] then ['.'] else ['/']
  else
    let dir := path'.rdropWhile (· ≠ '/')
    if dir = [] then ['.']
    else if dir.rdropWhile (· = '/') = [] then ['/'] else dir.rdropWhile (· = '/')

/-- `OUTDIR`, unless `dirname` takes the path for an option. -/
def outdir (path : Text) : Option Text :=
  if ['-'] <+: path then none else some (captured (dirname path))

/-- What `mktemp` puts in the place of `XXXXXX`. -/
abbrev Suffix := { t : Text // t.length = 6 ∧ ∀ c ∈ t, c.isAlphanum = true }

/-- The name of the temporary file. -/
def tempName (path : Text) (suffix : Suffix) : Text :=
  "tmp-".toList ++ captured (basename path) ++ '.' :: suffix.1

/-- `temp` may be `TEMPFILE` when the output file is `path`. -/
def TempFor (path temp : Text) : Prop :=
  ∃ dir suffix, outdir path = some dir ∧ dir ≠ [] ∧ temp = dir ++ '/' :: tempName path suffix

/-- The command of the trap. -/
def trapText (temp : Text) : Text := "rm -f '".toList ++ temp ++ ['\'']

/-! ### The script -/

/-- The programs that the script relies on. -/
structure Tools (α : Type) where
  /-- The checksum in the output of `sha256sum`. -/
  sha256sum : α → Text
  /-- An empty file, as `mktemp` makes it. -/
  empty : α
  /-- What becomes of the command of a trap with special characters outside of quotes, or with
  another option: the files that it removes, or nothing if it fails. -/
  otherTrap : Text → Option (List Text)

/-- The files that are removed when the shell runs a text as the command of a trap, or nothing if
it can not be read. -/
def Tools.trap (T : Tools α) (t : Text) : Option (List Text) :=
  match Posix.readWords false none t with
  | .words (cmd :: flag :: files) =>
    if cmd = "rm".toList ∧ flag = "-f".toList ∧ ∀ file ∈ files, file.head? ≠ some '-' then
      some files
    else T.otherTrap t
  | .unterminated => none
  | _ => T.otherTrap t

/-- How `curl -o` ends: whether it succeeds, and what it has written, if anything. -/
structure CurlEnd (α : Type) where
  ok : Bool
  wrote : Option α

/-- What an invocation meets. -/
structure DownloadEvents (α : Type) where
  /-- There is a `curl`. -/
  curl : Bool := true
  /-- `sha256sum` can read the output file. -/
  readable : Bool := true
  mkdir : Bool := true
  /-- What `mktemp` chooses, unless it fails. -/
  suffix : Option Suffix
  fetched : CurlEnd α
  /-- `mv` succeeds. -/
  moved : Bool := true

/-- The output file, and the temporary files for it. -/
structure Downloads (α : Type) where
  file : Option α
  temps : List Text := []
  deriving DecidableEq

section Script

variable (T : Tools α)

/-- What the script does before it sets the trap. -/
inductive Start
  /-- It exits, successfully or not. -/
  | exits (ok : Bool)
  /-- It has made a temporary file. -/
  | fetches (temp : Text)
  deriving DecidableEq

/-- `mkdir` and `mktemp`. -/
def makeTemp (path dir : Text) (e : DownloadEvents α) (s : Downloads α) : Start :=
  if !e.mkdir || decide (dir = []) then .exits false
  else
    match e.suffix with
    | none => .exits false
    | some suffix =>
      let temp := dir ++ '/' :: tempName path suffix
      -- `mktemp` does not choose the name of a file that is there
      if temp ∈ s.temps then .exits false else .fetches temp

/-- The script with `--sha256` up to the trap. -/
def start (path dir : Text) (o : Options) (e : DownloadEvents α) (s : Downloads α) : Start :=
  if !e.curl then .exits false
  else if !o.force && s.file.isSome && !e.readable then .exits false
  else if !o.force && s.file.map T.sha256sum == some o.sha256 then .exits true
  else makeTemp path dir e s

/-- What is in the temporary file after `curl`. -/
def DownloadEvents.content (e : DownloadEvents α) : α := e.fetched.wrote.getD T.empty

/-- Everything after the trap has been set succeeds. -/
def DownloadEvents.succeeds (o : Options) (e : DownloadEvents α) : Bool :=
  e.fetched.ok && T.sha256sum (e.content T) == o.sha256 && e.moved

/-- The script after the trap has been set: the exit status, and the files. -/
def transfer (o : Options) (e : DownloadEvents α) (temp : Text) (s : Downloads α) :
    Bool × Downloads α :=
  if e.succeeds T o then (true, { s with file := some (e.content T) })
  else (false, { s with temps := temp :: s.temps })

/-- The trap, at the exit.  It leaves the exit status as it is, if it can be read. -/
def runTrap (path temp : Text) (r : Bool × Downloads α) : Bool × Downloads α :=
  match T.trap (trapText temp) with
  | none => (false, r.2)
  | some removed => (r.1,
    { file := if path ∈ removed then none else r.2.file
      temps := r.2.temps.filter (· ∉ removed) })

/-- The script without `--sha256`. -/
def downloadUnverified (o : Options) (e : DownloadEvents α) (s : Downloads α) :
    Bool × Downloads α :=
  if !e.curl then (false, s)
  else if !o.force && s.file.isSome then (true, s)
  else if !e.mkdir then (false, s)
  else (e.fetched.ok, { s with file := e.fetched.wrote.or s.file })

/-- The script after the options have been read. -/
def downloadFile (path dir : Text) (o : Options) (e : DownloadEvents α) (s : Downloads α) :
    Bool × Downloads α :=
  if o.sha256 = [] then downloadUnverified o e s
  else
    match start T path dir o e s with
    | .exits ok => (ok, s)
    | .fetches temp => runTrap T path temp (transfer T o e temp s)

/-- `download`: the exit status, and the files that it leaves. -/
def downloadScript (dir : Text) (argv : List Text) (e : DownloadEvents α) (s : Downloads α) :
    Bool × Downloads α :=
  match parseOptions argv {} with
  | .help => (true, s)
  | .failed _ => (false, s)
  | .options o =>
    if o.url = [] then (false, s)
    else
      match outdir (outputPath dir o) with
      | none => (false, s)
      | some d => downloadFile T (outputPath dir o) d o e s

/-! ### What invocations should leave -/

/-- An invocation of the script. -/
structure Download (α : Type) where
  argv : List Text
  events : DownloadEvents α

/-- The invocation is for the output file `path`, with a checksum. -/
def Download.IsFor (dir path : Text) (i : Download α) : Prop :=
  ∃ o, parseOptions i.argv {} = .options o ∧ o.sha256 ≠ [] ∧ outputPath dir o = path

/-- A successful invocation leaves a file with the checksum that was asked for, another one leaves
the output file as it was, and no temporary file stays. -/
structure Verified (sha256 : Text) (s : Downloads α) (r : Bool × Downloads α) : Prop where
  ok : r.1 = true → r.2.file.map T.sha256sum = some sha256
  failed : r.1 = false → r.2.file = s.file
  temps : r.2.temps = []

/-- An invocation in a state. -/
def Download.Verified (dir : Text) (i : Download α) (s : Downloads α) : Prop :=
  ∀ o, parseOptions i.argv {} = .options o →
    Port.Verified T o.sha256 s (downloadScript T dir i.argv i.events s)

/-- Over every sequence of invocations for the output file, from any content of it and with
whatever happens on the network, each invocation is verified. -/
def DownloadsVerified (dir path : Text) : Prop :=
  ∀ is : List (Download α), (∀ i ∈ is, i.IsFor dir path) → ∀ file : Option α,
    Machine.EachStep (fun s i => (downloadScript T dir i.argv i.events s).2)
      (Download.Verified T dir) { file := file } is

/-- The shell reads the command of the trap as it is meant: it removes the temporary file, and not
the output file. -/
def TrapCleans (path temp : Text) : Prop :=
  ∃ removed, T.trap (trapText temp) = some removed ∧ temp ∈ removed ∧ path ∉ removed

variable {T} {path dir temp : Text} {o : Options} {e : DownloadEvents α} {s : Downloads α}

theorem makeTemp_cases (path dir : Text) (e : DownloadEvents α) (s : Downloads α) :
    makeTemp path dir e s = .exits false ∨ ∃ suffix, dir ≠ [] ∧
      makeTemp path dir e s = .fetches (dir ++ '/' :: tempName path suffix) := by
  unfold makeTemp
  split_ifs with hdir
  · exact .inl rfl
  · rw [Bool.or_eq_true, not_or, decide_eq_true_eq] at hdir
    cases e.suffix with
    | none => exact .inl rfl
    | some suffix =>
      dsimp only
      split_ifs
      · exact .inl rfl
      · exact .inr ⟨suffix, hdir.2, rfl⟩

theorem tempFor_of_start (hdir : outdir path = some dir)
    (h : start T path dir o e s = .fetches temp) : TempFor path temp := by
  unfold start at h
  split_ifs at h
  rcases makeTemp_cases path dir e s with hm | ⟨suffix, hne, hm⟩
  · rw [hm] at h
    cases h
  · rw [hm] at h
    cases h
    exact ⟨dir, suffix, hdir, hne, rfl⟩

/-- An invocation that exits before it has made a temporary file. -/
theorem verified_of_exits (hs : s.temps = []) {ok : Bool}
    (h : start T path dir o e s = .exits ok) : Verified T o.sha256 s (ok, s) := by
  refine ⟨fun hok => ?_, fun _ => rfl, hs⟩
  cases hok
  unfold start at h
  split_ifs at h with _ _ hfound
  · cases h
  · cases h
  · rw [Bool.and_eq_true, beq_iff_eq] at hfound
    exact hfound.2
  · rcases makeTemp_cases path dir e s with hm | ⟨_, _, hm⟩ <;> rw [hm] at h <;> cases h

theorem verified_runTrap (hs : s.temps = []) (h : TrapCleans T path temp) :
    Verified T o.sha256 s (runTrap T path temp (transfer T o e temp s)) := by
  obtain ⟨removed, hremoved, htemp, hpath⟩ := h
  unfold runTrap transfer
  rw [hremoved]
  split_ifs with hsucc
  · have hsum : T.sha256sum (e.content T) = o.sha256 := by
      unfold DownloadEvents.succeeds at hsucc
      rw [Bool.and_eq_true, Bool.and_eq_true, beq_iff_eq] at hsucc
      exact hsucc.1.2
    refine ⟨fun _ => ?_, fun h => absurd h Bool.noConfusion, ?_⟩
    · simp only [hpath, if_false, Option.map_some, hsum]
    · simp only [hs, List.filter_nil]
  · refine ⟨fun h => absurd h Bool.false_ne_true, fun _ => ?_, ?_⟩
    · simp only [hpath, if_false]
    · simp [hs, htemp]

/-- **One invocation**, when the trap is read as it is meant. -/
theorem Download.verified {i : Download α} (hi : i.IsFor dir path) (hs : s.temps = [])
    (h : ∀ temp, TempFor path temp → TrapCleans T path temp) : i.Verified T dir s := by
  obtain ⟨o, ho, hsum, hpath⟩ := hi
  have hfailed : Port.Verified T o.sha256 s (false, s) :=
    ⟨fun h => absurd h Bool.false_ne_true, fun _ => rfl, hs⟩
  intro o' ho'
  rw [ho] at ho'
  cases ho'
  simp only [downloadScript, ho, hpath, downloadFile, hsum, if_false]
  split_ifs
  · exact hfailed
  cases hdir : outdir path with
  | none => exact hfailed
  | some d =>
    dsimp only
    cases hstart : start T path d o i.events s with
    | exits ok => exact verified_of_exits hs hstart
    | fetches temp => exact verified_runTrap hs (h temp (tempFor_of_start hdir hstart))

end Script

/-! ### Paths without quotes -/

section Names

theorem nameParts_cons_ne_nil {c : Char} (hc : c ≠ '/') (t : Text) : nameParts (c :: t) ≠ [] := by
  obtain ⟨w, ws, hsplit⟩ := List.exists_cons_of_ne_nil (List.splitOn_ne_nil '/' t)
  rw [nameParts, List.splitOn_cons_eq_if_modifyHead, hsplit]
  simp [hc]

/-- The base name of a path is its last part, if it has any. -/
theorem basename_cases (path : Text) :
    (∃ l, nameParts path = l ++ [basename path] ∧ '/' ∉ basename path) ∨ nameParts path = [] := by
  unfold basename
  cases h : (nameParts path).getLast? with
  | none => exact .inr (List.getLast?_eq_none_iff.1 h)
  | some name =>
    obtain ⟨l, hl⟩ := List.getLast?_eq_some_iff.1 h
    have hmem : name ∈ nameParts path := hl ▸ by simp
    exact .inl ⟨l, hl, Python.notMem_of_mem_splitOn (List.mem_of_mem_filter hmem)⟩

theorem notMem_captured {c : Char} {t : Text} (h : c ∉ t) : c ∉ captured t :=
  fun hc => h ((List.rdropWhile_prefix _ _).subset hc)

theorem notMem_suffix {c : Char} (hc : c.isAlphanum = false) (suffix : Suffix) : c ∉ suffix.1 := by
  intro h
  rw [suffix.2.2 c h] at hc
  cases hc

theorem captured_tempName (path : Text) (suffix : Suffix) :
    captured (tempName path suffix) = tempName path suffix := by
  refine List.rdropWhile_eq_self_iff.2 fun hne hlast => ?_
  have hmem : (tempName path suffix).getLast hne ∈ '.' :: suffix.1 := by
    rw [List.getLast_congr hne (List.append_ne_nil_of_right_ne_nil _ (List.cons_ne_nil _ _)) rfl,
      List.getLast_append_of_ne_nil _ (List.cons_ne_nil _ _)]
    exact List.getLast_mem _
  rw [of_decide_eq_true hlast] at hmem
  rcases List.mem_cons.1 hmem with h | h
  · exact absurd h (by decide)
  · exact notMem_suffix (by decide) suffix h

theorem notMem_tempName {c : Char} {path : Text} (hpath : c ∉ basename path)
    (hfront : c ∉ "tmp-.".toList) (hc : c.isAlphanum = false) (suffix : Suffix) :
    c ∉ tempName path suffix := by
  have hsplit : "tmp-.".toList = "tmp-".toList ++ ['.'] := rfl
  rw [hsplit, List.mem_append, not_or] at hfront
  intro h
  rcases List.mem_append.1 h with h | h
  · exact (List.mem_append.1 h).elim hfront.1 (notMem_captured hpath)
  · rcases List.mem_cons.1 h with rfl | h
    · exact hfront.2 (List.mem_singleton_self _)
    · exact notMem_suffix hc suffix h

theorem length_tempName (path : Text) (suffix : Suffix) :
    (tempName path suffix).length = (captured (basename path)).length + 11 := by
  have hfront : "tmp-".toList.length = 4 := rfl
  have hend : ('.' :: suffix.1).length = 7 := congrArg (· + 1) suffix.2.1
  change ("tmp-".toList ++ captured (basename path) ++ '.' :: suffix.1).length = _
  rw [List.length_append, List.length_append, hfront, hend]
  omega

variable {path temp : Text}

theorem TempFor.ne (h : TempFor path temp) : temp ≠ path := by
  obtain ⟨dir, suffix, -, -, rfl⟩ := h
  intro h
  have hparts : nameParts path = nameParts dir ++ nameParts (tempName path suffix) := by
    rw [← Python.nameParts_append_slash]
    exact congrArg nameParts h.symm
  rcases basename_cases path with ⟨l, hl, hslash⟩ | hnil
  · have hname : '/' ∉ tempName path suffix :=
      notMem_tempName hslash (by decide) (by decide) suffix
    rw [hl, Python.nameParts_of_notMem hname (List.cons_ne_nil _ _)] at hparts
    -- the name would be longer than itself
    have hself : basename path = tempName path suffix :=
      List.singleton_inj.1 (List.append_inj' hparts rfl).2
    have hcaptured : captured (basename path) = basename path := by
      rw [hself]
      exact captured_tempName path suffix
    have hlen := length_tempName path suffix
    rw [hcaptured, ← hself] at hlen
    omega
  · rw [hnil] at hparts
    exact nameParts_cons_ne_nil (by decide) _ (List.append_eq_nil_iff.1 hparts.symm).2

theorem mem_basename {c : Char} (h : c ∈ basename path) : c ∈ path ∨ c = '/' := by
  unfold basename at h
  cases hlast : (nameParts path).getLast? with
  | none =>
    rw [hlast] at h
    dsimp only at h
    split_ifs at h
    · cases h
    · exact .inr (List.mem_singleton.1 h)
  | some name =>
    rw [hlast] at h
    have hmem := List.mem_of_mem_filter (List.mem_of_getLast? hlast)
    exact .inl (Python.subset_of_mem_splitOn hmem h)

theorem mem_dirname {c : Char} (h : c ∈ dirname path) : c ∈ path ∨ c = '.' ∨ c = '/' := by
  have hdrop : ∀ (p : Char → Bool) {t : Text}, c ∈ t.rdropWhile p → c ∈ t :=
    fun p t hc => (List.rdropWhile_prefix p t).subset hc
  unfold dirname at h
  dsimp only at h
  split_ifs at h
  · exact .inr (.inl (List.mem_singleton.1 h))
  · exact .inr (.inr (List.mem_singleton.1 h))
  · exact .inr (.inl (List.mem_singleton.1 h))
  · exact .inr (.inr (List.mem_singleton.1 h))
  · exact .inl (hdrop _ (hdrop _ (hdrop _ h)))

theorem TempFor.mem (h : TempFor path temp) {c : Char} (hc : c ∈ temp) :
    c ∈ path ∨ c ∈ "tmp-./".toList ∨ c.isAlphanum = true := by
  obtain ⟨dir, suffix, hdir, -, rfl⟩ := h
  have hsub : ∀ {t : Text}, c ∈ captured t → c ∈ t := fun hc =>
    (List.rdropWhile_prefix _ _).subset hc
  unfold outdir at hdir
  split_ifs at hdir
  cases hdir
  rw [List.mem_append, List.mem_cons] at hc
  rcases hc with hc | rfl | hc
  · rcases mem_dirname (hsub hc) with hc | rfl | rfl
    · exact .inl hc
    · exact .inr (.inl (by decide))
    · exact .inr (.inl (by decide))
  · exact .inr (.inl (by decide))
  · rcases List.mem_append.1 hc with hc | hc
    · rcases List.mem_append.1 hc with hc | hc
      · exact .inr (.inl (List.mem_append_left "./".toList hc))
      · rcases mem_basename (hsub hc) with hc | rfl
        · exact .inl hc
        · exact .inr (.inl (by decide))
    · rcases List.mem_cons.1 hc with rfl | hc
      · exact .inr (.inl (by decide))
      · exact .inr (.inr (suffix.2.2 c hc))

theorem TempFor.quote_notMem (h : TempFor path temp) (hpath : '\'' ∉ path) : '\'' ∉ temp := by
  intro hq
  rcases h.mem hq with hq | hq | hq
  · exact hpath hq
  · exact absurd hq (by decide)
  · exact absurd hq (by decide)

/-- The directory of a path starts as the path does, or is `.` or `/`. -/
theorem head_dirname (path : Text) : (dirname path).head? = path.head? ∨
    dirname path = ['.'] ∨ dirname path = ['/'] := by
  unfold dirname
  dsimp only
  split_ifs with hnil hempty hdir hroot
  · exact .inr (.inl rfl)
  · exact .inr (.inr rfl)
  · exact .inr (.inl rfl)
  · exact .inr (.inr rfl)
  · -- what is left is a part of the path that is not empty
    have hpre := ((List.rdropWhile_prefix (· = '/') ((path.rdropWhile (· = '/')).rdropWhile
      (· ≠ '/'))).trans (List.rdropWhile_prefix _ _)).trans
      (List.rdropWhile_prefix (· = '/') path)
    obtain ⟨c, t, ht⟩ := List.exists_cons_of_ne_nil hroot
    obtain ⟨u, hu⟩ := hpre
    rw [ht] at hu ⊢
    exact .inl (by rw [← hu]; rfl)

theorem TempFor.head (h : TempFor path temp) :
    temp.head? = path.head? ∨ temp.head? = some '.' ∨ temp.head? = some '/' := by
  obtain ⟨dir, suffix, hdir, hne, rfl⟩ := h
  unfold outdir at hdir
  split_ifs at hdir
  obtain ⟨c, t, rfl⟩ := List.exists_cons_of_ne_nil hne
  obtain ⟨u, hu⟩ := List.rdropWhile_prefix (· = '\n') (dirname path)
  have hcaptured : captured (dirname path) = c :: t := Option.some.inj hdir
  rw [show (dirname path).rdropWhile (· = '\n') = c :: t from hcaptured] at hu
  rw [List.cons_append, List.head?_cons]
  have hhead : (dirname path).head? = some c := by rw [← hu]; rfl
  rcases head_dirname path with h | h | h
  · exact .inl (hhead ▸ h)
  · rw [h] at hhead
    exact .inr (.inl hhead.symm)
  · rw [h] at hhead
    exact .inr (.inr hhead.symm)

theorem TempFor.head_ne (h : TempFor path temp) : temp.head? ≠ some '-' := by
  have hpath : path.head? ≠ some '-' := by
    obtain ⟨dir, suffix, hdir, -⟩ := h
    unfold outdir at hdir
    split_ifs at hdir with hdash
    cases path with
    | nil => simp
    | cons c t =>
      rintro hc
      exact hdash ⟨t, by rw [← Option.some.inj hc]; rfl⟩
  rcases h.head with h | h | h <;> rw [h]
  · exact hpath
  · decide
  · decide

theorem readWords_trapText (temp : Text) :
    Posix.readWords false none (trapText temp) =
      ((Posix.readWords true (some []) (temp ++ ['\''])).cons (some "-f".toList)).cons
        (some "rm".toList) := rfl

/-- Between single quotes every other character stands for itself. -/
theorem Tools.trap_quoted (T : Tools α) (hq : '\'' ∉ temp) (hhead : temp.head? ≠ some '-') :
    T.trap (trapText temp) = some [temp] := by
  rw [trap, readWords_trapText, Posix.readWords_quoted hq]
  exact if_pos ⟨rfl, rfl, by simpa using hhead⟩

/-- **The trap is read as it is meant** for a path without quotes. -/
theorem trapCleans_of_noQuote (T : Tools α) (hpath : '\'' ∉ path) (h : TempFor path temp) :
    TrapCleans T path temp := by
  have hne : path ∉ [temp] := fun hm => h.ne (List.mem_singleton.1 hm).symm
  exact ⟨[temp], T.trap_quoted (h.quote_notMem hpath) h.head_ne, List.mem_singleton_self _, hne⟩

/-! ### Paths with quotes -/

theorem mem_rdropWhile {p : Char → Bool} {c : Char} {t : Text} (hc : c ∈ t) (hp : p c = false) :
    c ∈ t.rdropWhile p := by
  induction t using List.reverseRecOn with
  | nil => cases hc
  | append_singleton t d ih =>
    rw [List.rdropWhile_concat]
    split_ifs with hd
    · rcases List.mem_append.1 hc with hc | hc
      · exact ih hc
      · rw [List.mem_singleton.1 hc, hd] at hp
        cases hp
    · exact hc

theorem nameParts_rdropWhile (path : Text) :
    nameParts (path.rdropWhile (· = '/')) = nameParts path := by
  induction path using List.reverseRecOn with
  | nil => rfl
  | append_singleton t d ih =>
    rw [List.rdropWhile_concat]
    split_ifs with hd
    · rw [of_decide_eq_true hd, Python.nameParts_append_slash t [], ih]
      exact (List.append_nil _).symm
    · rfl

/-- A path is what comes before its last slash, and a name. -/
theorem exists_name (path : Text) :
    ∃ name, '/' ∉ name ∧ path = path.rdropWhile (· ≠ '/') ++ name := by
  induction path using List.reverseRecOn with
  | nil => exact ⟨[], by simp, rfl⟩
  | append_singleton t d ih =>
    obtain ⟨name, hname, ht⟩ := ih
    rw [List.rdropWhile_concat]
    split_ifs with hd
    · refine ⟨name ++ [d], fun hmem => ?_, by rw [← List.append_assoc, ← ht]⟩
      rcases List.mem_append.1 hmem with hmem | hmem
      · exact hname hmem
      · exact of_decide_eq_true hd (List.mem_singleton.1 hmem).symm
    · exact ⟨[], by simp, (List.append_nil _).symm⟩

theorem basename_append {dir name : Text} (hdir : dir.getLast? = some '/' ∨ dir = [])
    (hname : '/' ∉ name) (hne : name ≠ []) : basename (dir ++ name) = name := by
  have hlast : (nameParts (dir ++ name)).getLast? = some name := by
    rcases hdir with hdir | rfl
    · obtain ⟨dir', rfl⟩ := List.getLast?_eq_some_iff.1 hdir
      rw [List.append_assoc, List.singleton_append, Python.nameParts_append_slash,
        Python.nameParts_of_notMem hname hne, List.getLast?_append]
      rfl
    · rw [List.nil_append, Python.nameParts_of_notMem hname hne]
      rfl
  rw [basename, hlast]

/-- A character of a path, other than a slash, is in its directory or in its base name. -/
theorem mem_dirname_or_basename {c : Char} (hc : c ∈ path) (hslash : c ≠ '/') :
    c ∈ dirname path ∨ c ∈ basename path := by
  have hne : decide (c = '/') = false := decide_eq_false hslash
  have hmem : c ∈ path.rdropWhile (· = '/') := mem_rdropWhile hc hne
  obtain ⟨name, hname, hsplit⟩ := exists_name (path.rdropWhile (· = '/'))
  have hmem' := hmem
  rw [hsplit] at hmem'
  rcases List.mem_append.1 hmem' with hdir | hbase
  · left
    have hdir' := mem_rdropWhile (p := fun c => decide (c = '/')) hdir hne
    unfold dirname
    dsimp only
    rwa [if_neg (List.ne_nil_of_mem hmem), if_neg (List.ne_nil_of_mem hdir),
      if_neg (List.ne_nil_of_mem hdir')]
  · right
    have hlast : ((path.rdropWhile (· = '/')).rdropWhile (· ≠ '/')).getLast? = some '/' ∨
        (path.rdropWhile (· = '/')).rdropWhile (· ≠ '/') = [] := by
      by_cases hnil : (path.rdropWhile (· = '/')).rdropWhile (· ≠ '/') = []
      · exact .inr hnil
      · have hnot := List.rdropWhile_last_not _ _ hnil
        rw [decide_eq_true_eq, not_not] at hnot
        rw [List.getLast?_eq_some_getLast hnil, hnot]
        exact .inl rfl
    have hbasename := basename_append hlast hname (List.ne_nil_of_mem hbase)
    rw [← hsplit] at hbasename
    have hsame : basename (path.rdropWhile (· = '/')) = basename path := by
      rw [basename, basename, nameParts_rdropWhile, if_neg (List.ne_nil_of_mem hmem),
        if_neg (List.ne_nil_of_mem hc)]
    rwa [← hsame, hbasename]

/-- A quote in the path is a quote in the name of the temporary file. -/
theorem TempFor.quote_mem (h : TempFor path temp) (hpath : '\'' ∈ path) : '\'' ∈ temp := by
  obtain ⟨dir, suffix, hdir, -, rfl⟩ := h
  have hcaptured : ∀ {t : Text}, '\'' ∈ t → '\'' ∈ captured t := fun ht =>
    mem_rdropWhile ht (by decide)
  unfold outdir at hdir
  split_ifs at hdir
  cases hdir
  rcases mem_dirname_or_basename hpath (by decide) with hq | hq
  · exact List.mem_append_left _ (hcaptured hq)
  · refine List.mem_append_right _ (.tail _ (List.mem_append_left _ ?_))
    exact List.mem_append_right _ (hcaptured hq)

/-- The characters of a path are plain or quotes, and it starts with neither a quote nor a
hyphen. -/
structure PlainOrQuotes (path : Text) : Prop where
  chars : ∀ c ∈ path, Posix.isPlainChar c = true ∨ c = '\''
  noQuote : path.head? ≠ some '\''
  noHyphen : ¬ ['-'] <+: path

theorem PlainOrQuotes.tempFor (h : PlainOrQuotes path) (htemp : TempFor path temp) :
    (∀ c ∈ temp, Posix.isPlainChar c = true ∨ c = '\'') ∧
      (temp.filter (· ≠ '\'')).head? ≠ some '-' := by
  refine ⟨fun c hc => ?_, ?_⟩
  · have htmp : ∀ c ∈ "tmp-./".toList, Posix.isPlainChar c = true := List.all_eq_true.1 rfl
    rcases htemp.mem hc with hc | hc | hc
    · exact h.chars c hc
    · exact .inl (htmp c hc)
    · exact .inl (by rw [Posix.isPlainChar, hc, Bool.true_or])
  · have hhead : temp.head? ≠ some '\'' := by
      rcases htemp.head with heq | heq | heq <;> rw [heq]
      · exact h.noQuote
      · decide
      · decide
    cases temp with
    | nil => simp
    | cons c t =>
      have hc : c ≠ '\'' := fun heq => hhead (congrArg some heq)
      rw [List.filter_cons_of_pos (by simpa using hc)]
      exact htemp.head_ne

theorem PlainOrQuotes.exists_tempFor (h : PlainOrQuotes path) : ∃ temp, TempFor path temp := by
  have hout : outdir path = some (captured (dirname path)) := if_neg h.noHyphen
  have hne : dirname path ≠ [] := by
    unfold dirname
    dsimp only
    split_ifs <;> first | exact List.cons_ne_nil _ _ | assumption
  obtain ⟨c, t, ht⟩ := List.exists_cons_of_ne_nil hne
  have hc : c ∈ dirname path := ht ▸ List.mem_cons_self
  have hnewline : decide (c = '\n') = false := by
    refine decide_eq_false fun heq => ?_
    rcases mem_dirname hc with hc | hc | hc
    · rcases h.chars c hc with hplain | hq
      · rw [heq] at hplain
        exact absurd hplain (by decide)
      · exact absurd (heq.symm.trans hq) (by decide)
    · exact absurd (heq.symm.trans hc) (by decide)
    · exact absurd (heq.symm.trans hc) (by decide)
  have hcaptured : c ∈ captured (dirname path) := mem_rdropWhile hc hnewline
  exact ⟨_, _, ⟨"aaaaaa".toList, rfl, List.all_eq_true.1 rfl⟩, hout, List.ne_nil_of_mem hcaptured,
    rfl⟩

/-- **The trap is not read as it is meant** for a path with a quote, when everything else in it is
plain. -/
theorem not_trapCleans_of_quote (T : Tools α) (h : PlainOrQuotes path) (hq : '\'' ∈ path)
    (htemp : TempFor path temp) : ¬ TrapCleans T path temp := by
  obtain ⟨hchars, hhead⟩ := h.tempFor htemp
  have hplain : ∀ c ∈ temp ++ ['\''], Posix.isPlainChar c = true ∨ c = '\'' := by
    intro c hc
    rcases List.mem_append.1 hc with hc | hc
    · exact hchars c hc
    · exact .inr (List.mem_singleton.1 hc)
  rintro ⟨removed, hremoved, hmem, -⟩
  rw [Tools.trap, readWords_trapText] at hremoved
  rcases Posix.readWords_of_plain hplain true [] with hread | hread
  · rw [hread] at hremoved
    cases hremoved
  · rw [hread, List.filter_append, List.nil_append, List.filter_cons_of_neg (by simp),
      List.filter_nil, List.append_nil] at hremoved
    have hfiles : removed = [temp.filter (· ≠ '\'')] :=
      (Option.some.inj ((if_pos ⟨rfl, rfl, by simpa using hhead⟩).symm.trans hremoved)).symm
    -- the temporary file has the quote in its name, which is not read
    rw [hfiles, List.mem_singleton] at hmem
    have hquote := htemp.quote_mem hq
    rw [hmem] at hquote
    exact absurd (List.of_mem_filter hquote) (by decide)

end Names

/-! ### Sequences of invocations -/

section Failing

variable {T : Tools α} {dir path d : Text} {suffix : Suffix}

/-- An invocation with `--force` whose download fails. -/
def failingDownload (α : Type) (path : Text) (suffix : Suffix) : Download α where
  argv := ["--sha256".toList, "0".toList, "--force".toList, "-o".toList, path, "u".toList]
  events := { suffix := some suffix, fetched := ⟨false, none⟩ }

/-- The options of this invocation. -/
def failingOptions (path : Text) : Options :=
  { sha256 := "0".toList, outfile := path, force := true, url := "u".toList }

theorem parseOptions_failing (path : Text) (suffix : Suffix) :
    parseOptions (failingDownload α path suffix).argv {} = .options (failingOptions path) := rfl

theorem downloadScript_failing (hpath : path ≠ []) (hd : outdir path = some d) (hne : d ≠ [])
    (file : Option α) :
    downloadScript T dir (failingDownload α path suffix).argv
        (failingDownload α path suffix).events { file := file } =
      runTrap T path (d ++ '/' :: tempName path suffix)
        (false, { file := file, temps := [d ++ '/' :: tempName path suffix] }) := by
  have hout : outputPath dir (failingOptions path) = path := if_neg hpath
  have hmake : makeTemp path d (failingDownload α path suffix).events { file := file } =
      .fetches (d ++ '/' :: tempName path suffix) := by
    simp [makeTemp, failingDownload, hne]
  have hstart : start T path d (failingOptions path) (failingDownload α path suffix).events
      { file := file } = .fetches (d ++ '/' :: tempName path suffix) := hmake
  rw [downloadScript, parseOptions_failing]
  dsimp only
  rw [hout, hd]
  dsimp only [downloadFile]
  rw [hstart]
  rfl

theorem trapCleans_of_verified {temp sha256 : Text} {file : α} {s : Downloads α}
    (hs : s.file = some file)
    (h : Verified T sha256 s
      (runTrap T path temp (false, { file := some file, temps := [temp] }))) :
    TrapCleans T path temp := by
  unfold runTrap at h
  cases htrap : T.trap (trapText temp) with
  | none =>
    rw [htrap] at h
    exact absurd h.temps (List.cons_ne_nil _ _)
  | some removed =>
    rw [htrap] at h
    have htemps := h.temps
    have hfile := h.failed rfl
    dsimp only at htemps hfile
    refine ⟨removed, htrap, by simpa using htemps, fun hpath => ?_⟩
    rw [if_pos hpath, hs] at hfile
    cases hfile

end Failing

theorem trapCleans_of_tempFor {T : Tools α} {dir path temp : Text}
    (h : DownloadsVerified T dir path) (htemp : TempFor path temp) : TrapCleans T path temp := by
  by_cases hpath : path = []
  · exact trapCleans_of_noQuote T (by simp [hpath]) htemp
  obtain ⟨d, suffix, hd, hne, rfl⟩ := htemp
  have hfor : (failingDownload α path suffix).IsFor dir path :=
    ⟨_, parseOptions_failing path suffix, List.cons_ne_nil _ _, if_neg hpath⟩
  have hverified := h [failingDownload α path suffix]
    (fun i hi => List.mem_singleton.1 hi ▸ hfor) (some T.empty) [] _ [] rfl _
    (parseOptions_failing path suffix)
  rw [List.foldl_nil, downloadScript_failing hpath hd hne] at hverified
  exact trapCleans_of_verified rfl hverified

section FetchArgv

/-- How `pbuild_fetch_and_unpack` calls the script. -/
def fetchArgv (outfile sha256 url : Text) : List Text :=
  ["-o".toList, outfile, "--sha256".toList, sha256, url]

/-- What happens to the script, as `download` sees it. -/
def DownloadEvents.network (T : Tools α) (d : Text) (e : DownloadEvents α) : Network α where
  curl := e.curl
  body := if e.mkdir && decide (d ≠ []) && e.suffix.isSome && e.fetched.ok && e.moved then
    some (e.content T) else none

variable {T : Tools α} {dir outfile sha256 url d : Text} {e : DownloadEvents α} {s : Downloads α}

theorem parseOptions_fetchArgv (hsum : sha256 ≠ []) :
    parseOptions (fetchArgv outfile sha256 url) {} =
      parseOptions [url] { outfile := outfile, sha256 := sha256 } := by
  have h : ∀ o, parseOptions ["--sha256".toList, sha256, url] o =
      parseOptions [url] { o with sha256 := sha256 } := fun o => if_neg hsum
  exact h { outfile := outfile }

theorem downloadScript_noUrl (hhelp : isHelp url = false) (hurl : url = [] ∨ ['-'] <+: url) :
    downloadScript T dir (fetchArgv outfile sha256 url) e s = (false, s) := by
  by_cases hsum : sha256 = []
  · rw [hsum]
    rfl
  rw [downloadScript, parseOptions_fetchArgv hsum]
  rcases hurl with rfl | hdash
  · rfl
  · unfold parseOptions
    rw [hhelp]
    simp only [Bool.false_eq_true, if_false, hdash, if_true, parseOptions]
    split_ifs <;> rfl

theorem downloadScript_url (hsum : sha256 ≠ []) (hhelp : isHelp url = false) (hurl : url ≠ [])
    (hdash : ¬ ['-'] <+: url) (hout : outfile ≠ []) (hd : outdir outfile = some d) :
    downloadScript T dir (fetchArgv outfile sha256 url) e s =
      downloadFile T outfile d { outfile := outfile, sha256 := sha256, url := url } e s := by
  have hne : ∀ t : Text, url ≠ '-' :: t := fun t ht => hdash (ht ▸ ⟨t, rfl⟩)
  have hparse : parseOptions [url] { outfile := outfile, sha256 := sha256 } =
      .options { outfile := outfile, sha256 := sha256, url := url } := by
    unfold parseOptions
    rw [hhelp]
    have hopt : url ∉ ["-q".toList, "-v".toList] ∧ url ∉ ["-f".toList, "--force".toList] := by
      simp [hne]
    simp only [Bool.false_eq_true, if_false, hdash, hopt.1, hopt.2, ne_eq, not_true_eq_false,
      parseOptions]
    have hsha : url ≠ "--sha256".toList := hne _
    have ho : url ≠ "-o".toList := hne _
    rw [if_neg hsha, if_neg ho]
  have hpath : outputPath dir { outfile := outfile, sha256 := sha256, url := url } = outfile :=
    if_neg hout
  rw [downloadScript, parseOptions_fetchArgv hsum, hparse]
  dsimp only
  rw [if_neg hurl, hpath, hd]

/-- The trap after a download, for a path without quotes. -/
theorem runTrap_of_noQuote {temp : Text} (hq : '\'' ∉ outfile) (htemp : TempFor outfile temp)
    (ok : Bool) (file : Option α) {temps : List Text} (htemps : temps ⊆ [temp]) :
    runTrap T outfile temp (ok, { file := file, temps := temps }) = (ok, { file := file }) := by
  have hne : outfile ∉ [temp] := fun hm => htemp.ne (List.mem_singleton.1 hm).symm
  unfold runTrap
  rw [T.trap_quoted (htemp.quote_notMem hq) htemp.head_ne]
  simp only [hne, if_false, Prod.mk.injEq, Downloads.mk.injEq, true_and]
  exact List.filter_eq_nil_iff.2 fun t ht => by simpa using htemps ht

theorem transfer_eq (o : Options) (e : DownloadEvents α) (temp : Text) (file : Option α) :
    transfer T o e temp { file := file } =
      if e.succeeds T o then (true, { file := some (e.content T) })
      else (false, { file := file, temps := [temp] }) := rfl

/-- What is left of a download after `mktemp`: it fails, or the temporary file is moved. -/
theorem downloadFile_of_makeTemp {o : Options} (hq : '\'' ∉ outfile)
    (hd : outdir outfile = some d) (hsum : o.sha256 ≠ []) {file : Option α}
    (hstart : start T outfile d o e { file := file } = makeTemp outfile d e { file := file }) :
    downloadFile T outfile d o e { file := file } =
      match (e.network T d).body with
      | none => (false, { file := file })
      | some body =>
        if T.sha256sum body = o.sha256 then (true, { file := some body })
        else (false, { file := file }) := by
  rw [downloadFile, if_neg hsum, hstart, makeTemp, DownloadEvents.network]
  dsimp only
  by_cases hdir : (e.mkdir && decide (d ≠ [])) = true
  · rw [hdir]
    rw [Bool.and_eq_true, decide_eq_true_eq] at hdir
    rw [hdir.1, decide_eq_false hdir.2]
    cases hsuffix : e.suffix with
    | none => rfl
    | some suffix =>
      have htemp : TempFor outfile (d ++ '/' :: tempName outfile suffix) :=
        ⟨d, suffix, hd, hdir.2, rfl⟩
      dsimp only
      rw [if_neg (by simp), if_neg (List.not_mem_nil)]
      dsimp only
      rw [transfer_eq, apply_ite (runTrap T outfile _), runTrap_of_noQuote hq htemp,
        runTrap_of_noQuote hq htemp]
      · unfold DownloadEvents.succeeds
        cases e.fetched.ok <;> cases e.moved <;> simp
      · exact List.Subset.refl _
      · exact List.nil_subset _
  · have hbody : (e.mkdir && decide (d ≠ [])) = false := Bool.eq_false_iff.2 hdir
    have hexit : (!e.mkdir || decide (d = [])) = true := by
      rw [← Bool.not_eq_false', Bool.not_or, Bool.not_not, ← decide_not]
      exact hbody
    rw [if_pos hexit, hbody]
    rfl

theorem downloadFile_eq_download (hq : '\'' ∉ outfile) (hd : outdir outfile = some d)
    (hread : e.readable = true) (hsum : sha256 ≠ []) (hhelp : isHelp url = false)
    (hurl : ¬ (url = [] ∨ ['-'] <+: url)) (files : Text → Option α) :
    let r := download T.sha256sum files ⟨outfile, sha256, url, false⟩ (e.network T d)
    downloadFile T outfile d { outfile := outfile, sha256 := sha256, url := url } e
        { file := files outfile } = (r.1, { file := r.2 outfile }) := by
  have hcurl : (e.network T d).curl = e.curl := rfl
  dsimp only [download]
  rw [if_neg hsum, hhelp, if_neg Bool.false_ne_true, if_neg hurl, hcurl]
  by_cases hnone : (!e.curl) = true
  · rw [if_pos hnone, downloadFile, if_neg hsum, start, if_pos hnone]
  by_cases hfound : (!false && (files outfile).map T.sha256sum == some sha256) = true
  · rw [if_neg hnone, if_pos hfound, downloadFile, if_neg hsum, start, if_neg hnone,
      if_neg (by simp [hread]), if_pos hfound]
  · have hstart : start T outfile d { outfile := outfile, sha256 := sha256, url := url } e
        { file := files outfile } = makeTemp outfile d e { file := files outfile } := by
      rw [start, if_neg hnone, if_neg (by simp [hread]), if_neg hfound]
    rw [if_neg hnone, if_neg hfound, downloadFile_of_makeTemp hq hd hsum hstart]
    cases (e.network T d).body with
    | none => rfl
    | some body =>
      dsimp only
      split_ifs
      · dsimp only
        rw [Function.update_self]
      · rfl

/-- **`download` is what the script does** for `pbuild_fetch_and_unpack`: it has no temporary files,
since none stays when there is no quote in the path. -/
theorem downloadScript_fetchArgv (hq : '\'' ∉ outfile) (hout : outfile ≠ [])
    (hd : outdir outfile = some d) (hread : e.readable = true) (files : Text → Option α) :
    let r := download T.sha256sum files ⟨outfile, sha256, url, false⟩ (e.network T d)
    downloadScript T dir (fetchArgv outfile sha256 url) e { file := files outfile } =
      (r.1, { file := r.2 outfile }) := by
  by_cases hsum : sha256 = []
  · dsimp only [download]
    rw [if_pos hsum, hsum]
    rfl
  cases hhelp : isHelp url with
  | true =>
    dsimp only [download]
    rw [if_neg hsum, hhelp, downloadScript, parseOptions_fetchArgv hsum]
    unfold parseOptions
    rw [hhelp]
    rfl
  | false =>
    by_cases hurl : url = [] ∨ ['-'] <+: url
    · dsimp only [download]
      rw [if_neg hsum, hhelp, if_neg Bool.false_ne_true, if_pos hurl,
        downloadScript_noUrl hhelp hurl]
    · have heq := downloadFile_eq_download (T := T) (e := e) hq hd hread hsum hhelp hurl files
      rw [not_or] at hurl
      rw [downloadScript_url hsum hhelp hurl.1 hurl.2 hout hd]
      exact heq

end FetchArgv

/-! ### A path with a quote -/

/-- Files are taken for their own checksums. -/
def quoteTools : Tools Text where
  sha256sum := sampleSum
  empty := []
  otherTrap _ := none

/-- `download` of a file with the checksum `0` to `/d/it's`. -/
def quoteArgv : List Text :=
  ["-o".toList, "/d/it's".toList, "--sha256".toList, "0".toList, "http://x/0".toList]

/-- `mktemp` chooses `aaaaaa`. -/
def quoteEvents (fetched : CurlEnd Text) : DownloadEvents Text where
  suffix := some ⟨"aaaaaa".toList, rfl, List.all_eq_true.1 rfl⟩
  fetched := fetched

end Port
