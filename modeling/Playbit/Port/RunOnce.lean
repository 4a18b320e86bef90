import Mathlib.Data.Set.Function
import Playbit.Machine.Run
import Playbit.Posix.Printf

/-!
# Commands that are run once

The build script of a port calls `pbuild_run_once` and `pbuild_configure_once` with the words of a
command.  After the command has succeeded a mark is left in `BUILDDIR`, and a later call for the
same command is skipped.  The name of the mark has the checksum of a text that is made from the
words: `pbuild_run_once` gives them to `printf`, which takes the first of them as a format, and
`pbuild_configure_once` gives them to `echo`, which joins them.  Commands that come to the same text
are taken for the same command.

Calls of both functions, over any number of builds, are the steps of a transition system.  For
commands whose words mean themselves, **only repeated commands are skipped** in every run iff no two
commands for `pbuild_run_once` have the same first word, and no two for `pbuild_configure_once` are
the same once they are cut at the spaces (`skipsOnlyRepeats_iff`).  The commands of the ports do not
all meet this: the second of two commands for `sed` is skipped (`different_commands_skipped`).
-/

namespace Port

open Posix (Bytes ascii IsWord IsPlain)

/-- What the functions find. -/
structure OnceShell where
  impl : Posix.Implementation
  /-- `BUILDDIR` -/
  builddir : Bytes
  /-- The digest that `sha1sum` prints. -/
  digest : Bytes → Bytes
  noSpace : ∀ text, Posix.space ∉ digest text

/-! ### The functions -/

/-- `sha1sum`, of its standard input. -/
def OnceShell.sha1sum (shell : OnceShell) (text : Bytes) : Bytes :=
  shell.digest text ++ ascii "  -"

/-- `cut -d' ' -f1` -/
def cutFirst (line : Bytes) : Bytes := line.takeWhile (· ≠ Posix.space)

/-- `${CHECKSUM% *}` -/
def dropLastWord (s : Bytes) : Bytes :=
  if Posix.space ∈ s then (s.reverse.dropWhile (· ≠ Posix.space)).tail.reverse else s

/-- `CHECKSUM` -/
def OnceShell.checksum (shell : OnceShell) (text : Bytes) : Bytes :=
  dropLastWord (cutFirst (shell.sha1sum text))

/-- In what the two functions differ. -/
structure OnceParams where
  name : Bytes
  /-- What `sha1sum` is given for the words of a command. -/
  rendered : List Bytes → Bytes
  /-- The end of the message. -/
  hint : Bytes

/-- `MARK`, without the directory. -/
def OnceParams.mark (fn : OnceParams) (shell : OnceShell) (cmd : List Bytes) : Bytes :=
  fn.name ++ (ascii "." ++ (shell.checksum (fn.rendered cmd) ++ ascii ".mark"))

/-- What becomes of a call. -/
inductive OnceResult
  | skipped (message : Bytes)
  | succeeded
  | failed
  deriving DecidableEq

/-- The two functions: what becomes of the call and the marks, where `ok` says whether the command
succeeds, and the mark can be left. -/
def once (fn : OnceParams) (shell : OnceShell) (marks : List Bytes) (cmd : List Bytes) (ok : Bool) :
    OnceResult × List Bytes :=
  let mark := fn.mark shell cmd
  if mark ∈ marks then
    (.skipped (ascii "[pbuild] " ++ cmd.headD [] ++ ascii " skipped ('rm " ++ shell.builddir ++
      ascii "/" ++ fn.name ++ ascii ".*' to " ++ fn.hint ++ ascii ")"), marks)
  else if ok then (.succeeded, mark :: marks)
  else (.failed, marks)

/-- The functions. -/
inductive Once
  | runOnce
  | configureOnce
  deriving DecidableEq

def runOnceParams (shell : OnceShell) : OnceParams where
  name := ascii "pbuild_run_once"
  rendered := Posix.printf shell.impl
  hint := ascii "re-run"

def configureOnceParams (shell : OnceShell) : OnceParams where
  name := ascii "pbuild_configure_once"
  rendered := Posix.echo shell.impl
  hint := ascii "reconfigure"

/-- `pbuild_run_once` -/
def pbuildRunOnce (shell : OnceShell) : List Bytes → List Bytes → Bool → OnceResult × List Bytes :=
  once (runOnceParams shell) shell

/-- `pbuild_configure_once` -/
def pbuildConfigureOnce (shell : OnceShell) :
    List Bytes → List Bytes → Bool → OnceResult × List Bytes :=
  once (configureOnceParams shell) shell

namespace Once

def params (shell : OnceShell) : Once → OnceParams
  | runOnce => runOnceParams shell
  | configureOnce => configureOnceParams shell

/-- What `sha1sum` is given. -/
def rendered (shell : OnceShell) (f : Once) : List Bytes → Bytes := (f.params shell).rendered

def mark (shell : OnceShell) (f : Once) (cmd : List Bytes) : Bytes :=
  (f.params shell).mark shell cmd

def call (shell : OnceShell) : Once → List Bytes → List Bytes → Bool → OnceResult × List Bytes
  | runOnce => pbuildRunOnce shell
  | configureOnce => pbuildConfigureOnce shell

end Once

/-! ### Builds -/

/-- A call in the log. -/
structure OnceCall where
  function : Once
  cmd : List Bytes
  skipped : Bool
  /-- The same command has succeeded before. -/
  repeated : Bool

/-- The marks in `BUILDDIR`, and what has happened. -/
structure OnceState where
  marks : List Bytes := []
  /-- The commands that have succeeded since the marks were last removed. -/
  succeeded : List (Once × List Bytes) := []
  log : List OnceCall := []

/-- What happens. -/
inductive OnceAction
  /-- A call, and whether the command succeeds if it is run. -/
  | call (f : Once) (cmd : List Bytes) (ok : Bool)
  /-- The marks of a function are removed, as with the command that the message names. -/
  | forget (f : Once)

namespace OnceState

/-- One action. -/
def next (shell : OnceShell) : OnceAction → OnceState → Option OnceState
  | .call f cmd ok, s =>
    let repeated := decide ((f, cmd) ∈ s.succeeded)
    match f.call shell s.marks cmd ok with
    | (.skipped _, marks) =>
      some { s with marks := marks, log := s.log ++ [⟨f, cmd, true, repeated⟩] }
    | (.succeeded, marks) =>
      some { marks := marks
             succeeded := (f, cmd) :: s.succeeded
             log := s.log ++ [⟨f, cmd, false, repeated⟩] }
    | (.failed, marks) =>
      some { s with marks := marks, log := s.log ++ [⟨f, cmd, false, repeated⟩] }
  | .forget f, s =>
    some { s with
      marks := s.marks.filter fun m => ¬ (f.params shell).name ++ ascii "." <+: m
      succeeded := s.succeeded.filter fun p => p.1 ≠ f }

/-- The functions are called for these commands. -/
def Uses (C : Once → Set (List Bytes)) : OnceAction → OnceState → Prop
  | .call f cmd _, _ => cmd ∈ C f
  | .forget _, _ => True

end OnceState

/-- A call is skipped just when the same command has succeeded before: in every run in which the
functions are called for the commands `C`. -/
def SkipsOnlyRepeats (shell : OnceShell) (C : Once → Set (List Bytes)) : Prop :=
  ∀ as s, Machine.Along (OnceState.next shell) (OnceState.Uses C) {} as s →
    ∀ e ∈ s.log, e.skipped = e.repeated

/-! ### Marks -/

section

variable {shell : OnceShell}

theorem checksum_eq (text : Bytes) : shell.checksum text = shell.digest text := by
  have hspace := shell.noSpace text
  have hcut : cutFirst (shell.sha1sum text) = shell.digest text := by
    have hne : ∀ b ∈ shell.digest text, decide (b ≠ Posix.space) = true := fun b hb =>
      decide_eq_true fun h => hspace (h ▸ hb)
    unfold cutFirst OnceShell.sha1sum
    rw [List.takeWhile_append_of_pos hne]
    exact List.append_nil _
  rw [OnceShell.checksum, hcut, dropLastWord, if_neg hspace]

theorem mark_eq (f : Once) (cmd : List Bytes) : f.mark shell cmd = (f.params shell).name ++
    (ascii "." ++ (shell.digest (f.rendered shell cmd) ++ ascii ".mark")) := by
  rw [← checksum_eq]
  rfl

/-- The marks of a function can be told by their names. -/
theorem isPrefix_mark_iff {f f' : Once} {cmd : List Bytes} :
    (f.params shell).name ++ ascii "." <+: f'.mark shell cmd ↔ f = f' := by
  constructor
  · -- the names differ at the eighth byte
    rintro ⟨rest, hrest⟩
    rw [mark_eq] at hrest
    have hbyte := congrArg (·[7]?) hrest
    cases f with
    | runOnce =>
      cases f' with
      | runOnce => rfl
      | configureOnce =>
        exact absurd (show some (0x72 : UInt8) = some 0x63 from hbyte) (by decide)
    | configureOnce =>
      cases f' with
      | runOnce => exact absurd (show some (0x63 : UInt8) = some 0x72 from hbyte) (by decide)
      | configureOnce => rfl
  · rintro rfl
    rw [mark_eq]
    exact ⟨_, List.append_assoc _ _ _⟩

theorem mark_inj {f f' : Once} {cmd cmd' : List Bytes}
    (h : f.mark shell cmd = f'.mark shell cmd') :
    f = f' ∧ shell.digest (f.rendered shell cmd) = shell.digest (f'.rendered shell cmd') := by
  have hf : f = f' := by
    have hprefix : (f.params shell).name ++ ascii "." <+: f.mark shell cmd :=
      isPrefix_mark_iff.2 rfl
    rw [h] at hprefix
    exact isPrefix_mark_iff.1 hprefix
  subst hf
  rw [mark_eq, mark_eq] at h
  exact ⟨rfl, List.append_cancel_right (List.append_cancel_left (List.append_cancel_left h))⟩

theorem call_eq_once (f : Once) : f.call shell = once (f.params shell) shell := by
  cases f <;> rfl

end

/-! ### Runs -/

namespace OnceState

variable {shell : OnceShell} {C : Once → Set (List Bytes)} {s s' : OnceState} {a : OnceAction}

theorem next_call_of_mem {f : Once} {cmd : List Bytes} (h : f.mark shell cmd ∈ s.marks)
    (ok : Bool) : next shell (.call f cmd ok) s = some { s with
      log := s.log ++ [⟨f, cmd, true, decide ((f, cmd) ∈ s.succeeded)⟩] } := by
  have hmem : (f.params shell).mark shell cmd ∈ s.marks := h
  rw [next, call_eq_once, once, if_pos hmem]

/-- A call that is not skipped leaves a mark if the command succeeds. -/
theorem next_call_of_notMem {f : Once} {cmd : List Bytes} (h : f.mark shell cmd ∉ s.marks)
    (ok : Bool) : next shell (.call f cmd ok) s = some
      { marks := if ok then f.mark shell cmd :: s.marks else s.marks
        succeeded := if ok then (f, cmd) :: s.succeeded else s.succeeded
        log := s.log ++ [⟨f, cmd, false, decide ((f, cmd) ∈ s.succeeded)⟩] } := by
  have hmem : (f.params shell).mark shell cmd ∉ s.marks := h
  rw [next, call_eq_once, once, if_neg hmem]
  cases ok <;> rfl

/-- The marks are those of the commands that have succeeded. -/
structure Tracks (shell : OnceShell) (C : Once → Set (List Bytes)) (s : OnceState) : Prop where
  marks_iff : ∀ m, m ∈ s.marks ↔ ∃ p ∈ s.succeeded, m = p.1.mark shell p.2
  used : ∀ p ∈ s.succeeded, p.2 ∈ C p.1
  faithful : ∀ e ∈ s.log, e.skipped = e.repeated

section

variable (hinj : ∀ f, Set.InjOn (fun cmd => shell.digest (f.rendered shell cmd)) (C f))

include hinj

/-- A command is skipped just when it is among those that have succeeded. -/
theorem Tracks.mark_mem_iff (h : s.Tracks shell C) {f : Once} {cmd : List Bytes}
    (hcmd : cmd ∈ C f) : f.mark shell cmd ∈ s.marks ↔ (f, cmd) ∈ s.succeeded := by
  rw [h.marks_iff]
  constructor
  · rintro ⟨⟨f', cmd'⟩, hmem, hmark⟩
    obtain ⟨rfl, hdigest⟩ := mark_inj hmark
    rwa [hinj f hcmd (h.used _ hmem) hdigest]
  · intro hmem
    exact ⟨_, hmem, rfl⟩

theorem Tracks.next (h : s.Tracks shell C) (huse : Uses C a s) (hnext : next shell a s = some s') :
    s'.Tracks shell C := by
  cases a with
  | call f cmd ok =>
    have hcmd : cmd ∈ C f := huse
    have hiff := h.mark_mem_iff hinj hcmd
    have hlog : ∀ skipped, (skipped = true ↔ f.mark shell cmd ∈ s.marks) →
        ∀ e ∈ s.log ++ [⟨f, cmd, skipped, decide ((f, cmd) ∈ s.succeeded)⟩],
          e.skipped = e.repeated := by
      intro skipped hskip e he
      rcases List.mem_append.1 he with he | he
      · exact h.faithful e he
      · rw [List.mem_singleton.1 he]
        exact Bool.eq_iff_iff.2 (hskip.trans (hiff.trans decide_eq_true_iff.symm))
    by_cases hmem : f.mark shell cmd ∈ s.marks
    · rw [next_call_of_mem hmem] at hnext
      cases hnext
      exact ⟨h.marks_iff, h.used, hlog true (iff_of_true rfl hmem)⟩
    · rw [next_call_of_notMem hmem] at hnext
      cases hnext
      have hlog := hlog false (iff_of_false Bool.false_ne_true hmem)
      cases ok with
      | false => exact ⟨h.marks_iff, h.used, hlog⟩
      | true =>
        refine ⟨fun m => ?_, List.forall_mem_cons.2 ⟨hcmd, h.used⟩, hlog⟩
        rw [if_pos rfl, if_pos rfl, List.mem_cons, h.marks_iff]
        simp
  | forget f =>
    cases hnext
    refine ⟨fun m => ?_, fun p hp => h.used p (List.mem_of_mem_filter hp), h.faithful⟩
    simp only [List.mem_filter, h.marks_iff, decide_eq_true_eq]
    constructor
    · rintro ⟨⟨p, hp, rfl⟩, hne⟩
      exact ⟨p, ⟨hp, fun hf => hne (isPrefix_mark_iff.2 hf.symm)⟩, rfl⟩
    · rintro ⟨p, ⟨hp, hne⟩, rfl⟩
      exact ⟨⟨p, hp, rfl⟩, fun hf => hne (isPrefix_mark_iff.1 hf).symm⟩

end

end OnceState

variable {shell : OnceShell} {C : Once → Set (List Bytes)}

/-- The second of two commands that come to the same text is skipped. -/
theorem not_skipsOnlyRepeats {f : Once} {cmd cmd' : List Bytes} (hcmd : cmd ∈ C f)
    (hcmd' : cmd' ∈ C f) (hne : cmd ≠ cmd')
    (hrendered : f.rendered shell cmd = f.rendered shell cmd') : ¬ SkipsOnlyRepeats shell C := by
  -- the state after the first command
  let s₁ : OnceState := ⟨[f.mark shell cmd], [(f, cmd)], [⟨f, cmd, false, false⟩]⟩
  have hfirst : OnceState.next shell (.call f cmd true) {} = some s₁ :=
    OnceState.next_call_of_notMem List.not_mem_nil true
  have hmark : f.mark shell cmd' ∈ s₁.marks := by
    rw [List.mem_singleton, mark_eq, mark_eq, hrendered]
  have huse : OnceState.Uses C (.call f cmd true) {} := hcmd
  have huse' : OnceState.Uses C (.call f cmd' true) s₁ := hcmd'
  have hrun := ((Machine.Along.nil _).snoc huse hfirst).snoc huse'
    (OnceState.next_call_of_mem hmark true)
  intro h
  have hskip : true = decide ((f, cmd') ∈ s₁.succeeded) :=
    h _ _ hrun _ (.tail _ List.mem_cons_self)
  rw [decide_eq_false (by simpa [s₁] using Ne.symm hne)] at hskip
  cases hskip

theorem skipsOnlyRepeats_of_injOn
    (hsha : ∀ f : Once, Set.InjOn shell.digest (f.rendered shell '' C f))
    (hinj : ∀ f : Once, Set.InjOn (f.rendered shell) (C f)) : SkipsOnlyRepeats shell C := by
  intro as s hrun
  have h₀ : OnceState.Tracks shell C {} := ⟨by simp, by simp, by simp⟩
  refine (hrun.invariant h₀ fun _ _ _ hs huse hnext => hs.next (fun f => ?_) huse hnext).faithful
  exact (hsha f).comp (hinj f) (Set.mapsTo_image _ _)

theorem skipsOnlyRepeats_iff_injOn
    (hsha : ∀ f : Once, Set.InjOn shell.digest (f.rendered shell '' C f)) :
    SkipsOnlyRepeats shell C ↔ ∀ f : Once, Set.InjOn (f.rendered shell) (C f) := by
  refine ⟨fun h f cmd hcmd cmd' hcmd' hrendered => ?_, skipsOnlyRepeats_of_injOn hsha⟩
  by_contra hne
  exact not_skipsOnlyRepeats hcmd hcmd' hne hrendered h

/-! ### Commands that are told apart -/

/-- Arguments are ignored when the format has no conversions, as by the implementations in use. -/
def IgnoresExtra (impl : Posix.Implementation) : Prop :=
  ∀ w args, IsWord w → Posix.printf impl (w :: args) = w

/-- Commands whose words mean themselves: the first word of those for `pbuild_run_once` has no
percent sign and no backslash, those for `pbuild_configure_once` have no backslash, and neither
start with a hyphen. -/
structure Ordinary (C : Once → Set (List Bytes)) : Prop where
  runOnce : ∀ cmd ∈ C .runOnce, ∃ w args, cmd = w :: args ∧ IsWord w
  configureOnce : ∀ cmd ∈ C .configureOnce, IsPlain cmd

/-- Commands for `pbuild_run_once` differ in their first words, and commands for
`pbuild_configure_once` differ when their words are cut at the spaces. -/
structure ToldApart (C : Once → Set (List Bytes)) : Prop where
  runOnce : ∀ cmd ∈ C .runOnce, ∀ cmd' ∈ C .runOnce, cmd.head? = cmd'.head? → cmd = cmd'
  configureOnce : ∀ cmd ∈ C .configureOnce, ∀ cmd' ∈ C .configureOnce,
    cmd.flatMap (List.splitOn Posix.space) = cmd'.flatMap (List.splitOn Posix.space) → cmd = cmd'

theorem rendered_runOnce_eq_iff (hextra : IgnoresExtra shell.impl) (hC : Ordinary C)
    {cmd cmd' : List Bytes} (hcmd : cmd ∈ C .runOnce) (hcmd' : cmd' ∈ C .runOnce) :
    Once.runOnce.rendered shell cmd = Once.runOnce.rendered shell cmd' ↔
      cmd.head? = cmd'.head? := by
  obtain ⟨w, args, rfl, hw⟩ := hC.runOnce cmd hcmd
  obtain ⟨w', args', rfl, hw'⟩ := hC.runOnce cmd' hcmd'
  have htext : ∀ {w} args, IsWord w → Once.runOnce.rendered shell (w :: args) = w :=
    fun args hw => hextra _ args hw
  rw [htext args hw, htext args' hw', List.head?_cons, List.head?_cons, Option.some.injEq]

/-- **Only repeated commands are skipped** iff the commands differ in their first words
(`pbuild_run_once`), and when they are cut at the spaces (`pbuild_configure_once`), as long as their
checksums do not collide. -/
theorem skipsOnlyRepeats_iff (hextra : IgnoresExtra shell.impl) (hC : Ordinary C)
    (hsha : ∀ f : Once, Set.InjOn shell.digest (f.rendered shell '' C f)) :
    SkipsOnlyRepeats shell C ↔ ToldApart C := by
  rw [skipsOnlyRepeats_iff_injOn hsha]
  have hecho : ∀ {cmd cmd'}, cmd ∈ C .configureOnce → cmd' ∈ C .configureOnce →
      (Once.configureOnce.rendered shell cmd = Once.configureOnce.rendered shell cmd' ↔
        cmd.flatMap (List.splitOn Posix.space) = cmd'.flatMap (List.splitOn Posix.space)) :=
    fun hcmd hcmd' => Posix.echo_eq_iff shell.impl (hC.configureOnce _ hcmd)
      (hC.configureOnce _ hcmd')
  constructor
  · intro h
    refine ⟨fun cmd hcmd cmd' hcmd' heq => ?_, fun cmd hcmd cmd' hcmd' heq => ?_⟩
    · exact h .runOnce hcmd hcmd' ((rendered_runOnce_eq_iff hextra hC hcmd hcmd').2 heq)
    · exact h .configureOnce hcmd hcmd' ((hecho hcmd hcmd').2 heq)
  · intro h f cmd hcmd cmd' hcmd' heq
    cases f with
    | runOnce =>
      exact h.runOnce cmd hcmd cmd' hcmd' ((rendered_runOnce_eq_iff hextra hC hcmd hcmd').1 heq)
    | configureOnce => exact h.configureOnce cmd hcmd cmd' hcmd' ((hecho hcmd hcmd').1 heq)

/-! ### Commands that are taken for others -/

/-- `sed` with two scripts. -/
def sedYes : List Bytes := [ascii "sed", ascii "-i", ascii "s/yes/no/", ascii "configure"]

def sedOptimize : List Bytes := [ascii "sed", ascii "-i", ascii "s/O2/Os/", ascii "configure"]

/-- `./configure` with one argument and with two. -/
def configureOne : List Bytes := [ascii "./configure", ascii "CFLAGS=-O2 --static"]

def configureTwo : List Bytes := [ascii "./configure", ascii "CFLAGS=-O2", ascii "--static"]

theorem isWord_sed : IsWord (ascii "sed") := ⟨by decide, by decide, by decide⟩

theorem rendered_configure (shell : OnceShell) :
    Once.configureOnce.rendered shell configureOne =
      Once.configureOnce.rendered shell configureTwo := by
  have h₁ : IsPlain configureOne := ⟨by decide, by decide, by decide⟩
  have h₂ : IsPlain configureTwo := ⟨by decide, by decide, by decide⟩
  exact (Posix.echo_eq_iff shell.impl h₁ h₂).2 (by decide)

theorem rendered_sed {shell : OnceShell} (hextra : IgnoresExtra shell.impl) :
    Once.runOnce.rendered shell sedYes = Once.runOnce.rendered shell sedOptimize := by
  have hsed : ∀ args, Once.runOnce.rendered shell (ascii "sed" :: args) = ascii "sed" :=
    fun args => hextra _ args isWord_sed
  rw [sedYes, sedOptimize, hsed, hsed]

/-- **Commands that are taken for each other**: for every implementation of `echo`, and for every
implementation of `printf` that ignores arguments.  Whatever the implementation of `printf`, a
command is taken for the same command with `%s` before it. -/
theorem not_skipsOnlyRepeats_of_shell (shell : OnceShell) :
    ¬ SkipsOnlyRepeats shell (fun _ => {configureOne, configureTwo}) ∧
    (IgnoresExtra shell.impl → ¬ SkipsOnlyRepeats shell fun _ => {sedYes, sedOptimize}) ∧
    ¬ SkipsOnlyRepeats shell fun _ => {[ascii "%s", ascii "sed"], [ascii "sed"]} := by
  refine ⟨?_, fun hextra => ?_, ?_⟩
  · exact not_skipsOnlyRepeats (.inl rfl) (.inr rfl) (by decide) (rendered_configure shell)
  · exact not_skipsOnlyRepeats (.inl rfl) (.inr rfl) (by decide) (rendered_sed hextra)
  · have hrendered : Once.runOnce.rendered shell [ascii "%s", ascii "sed"] =
        Once.runOnce.rendered shell [ascii "sed"] :=
      (Posix.printf_s shell.impl _).trans (Posix.printf_word shell.impl isWord_sed).symm
    exact not_skipsOnlyRepeats (.inl rfl) (.inr rfl) (by decide) hrendered

/-- The text itself, without spaces, for a digest. -/
def sampleDigest (text : Bytes) : Bytes := text.filter (· ≠ Posix.space)

/-- A shell for runs, with a `printf` that ignores arguments. -/
def sampleShell : OnceShell where
  impl :=
    { convert := fun _ arg => arg
      convert_s := fun _ => rfl
      otherPrintf := fun args => args.headD []
      otherEcho := fun args => [Posix.space].intercalate args }
  builddir := ascii "/build"
  digest := sampleDigest
  noSpace text h := absurd (List.of_mem_filter h) (by decide)

theorem sampleShell_ignoresExtra : IgnoresExtra sampleShell.impl := by
  intro w args hw
  cases args with
  | nil => exact Posix.printf_word _ hw
  | cons arg args => exact Posix.printf_word_cons _ hw arg args

/-- The second of two different commands is skipped. -/
theorem different_commands_skipped :
    (pbuildConfigureOnce sampleShell (pbuildConfigureOnce sampleShell [] configureOne true).2
      configureTwo true).1 =
        .skipped (ascii "[pbuild] ./configure skipped ('rm /build/pbuild_configure_once.*' to " ++
          ascii "reconfigure)") ∧
    ¬ SkipsOnlyRepeats sampleShell (fun _ => {configureOne, configureTwo}) ∧
    (pbuildRunOnce sampleShell (pbuildRunOnce sampleShell [] sedYes true).2 sedOptimize true).1 =
      .skipped (ascii "[pbuild] sed skipped ('rm /build/pbuild_run_once.*' to re-run)") ∧
    ¬ SkipsOnlyRepeats sampleShell fun _ => {sedYes, sedOptimize} := by
  obtain ⟨hconf, hsed, -⟩ := not_skipsOnlyRepeats_of_shell sampleShell
  exact ⟨by decide, hconf, by decide, hsed sampleShell_ignoresExtra⟩

/-- The commands of two ports. -/
def sampleCommands : Once → Set (List Bytes)
  | .runOnce => {[ascii "autoreconf", ascii "-i"], [ascii "_fetch_and_apply_patches"]}
  | .configureOnce =>
    {[ascii "./configure", ascii "--prefix=/usr"], [ascii "./configure", ascii "--disable-nls"]}

/-- The commands of the ports can be told apart. -/
theorem sampleCommands_told_apart : SkipsOnlyRepeats sampleShell sampleCommands := by
  refine (skipsOnlyRepeats_iff sampleShell_ignoresExtra ⟨?_, ?_⟩ fun f => ?_).2 ⟨?_, ?_⟩
  · rintro cmd (rfl | rfl)
    · exact ⟨_, _, rfl, by decide, by decide, by decide⟩
    · exact ⟨_, _, rfl, by decide, by decide, by decide⟩
  · rintro cmd (rfl | rfl)
    · exact ⟨by decide, by decide, by decide⟩
    · exact ⟨by decide, by decide, by decide⟩
  · cases f with
    | runOnce =>
      rw [sampleCommands, Set.image_pair, Set.injOn_pair]
      exact fun h => absurd h (by decide)
    | configureOnce =>
      rw [sampleCommands, Set.image_pair, Set.injOn_pair]
      exact fun h => absurd h (by decide)
  · rintro cmd (rfl | rfl) cmd' (rfl | rfl) h
    · rfl
    · exact absurd h (by decide)
    · exact absurd h (by decide)
    · rfl
  · rintro cmd (rfl | rfl) cmd' (rfl | rfl) h
    · rfl
    · exact absurd h (by decide)
    · exact absurd h (by decide)
    · rfl

end Port
