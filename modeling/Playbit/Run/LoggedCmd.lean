import Playbit.Machine.LineReader

/-!
# Commands whose output is logged

A build runs commands in the sandbox and keeps what they print in a log file.  There are three ways
of doing it.  `run_logged_cmd_quiet` gives the command the log file for its output, and the other
two read the output line by line from two pipes, one task for each, to show something of it on the
way: `run_logged_cmd_fwd` the last line, `run_logged_cmd_progress` a dot for every line.

The two tasks can take turns in any way, and the pipes deliver their streams in any chunks.

Reading has its limits.  `readline` refuses a line of more than 64 KiB and drops what it has of it,
and `run_logged_cmd_fwd` decodes every line that it has logged, which raises an exception when it is
not UTF-8.  The log of the quiet mode is complete in both cases.

All of them return what the exit status says and log everything just for lines that can be read
(`outputModesAgree_iff`); for these, the settings of a build make no difference
(`runLoggedCmd_logsBytes`).
-/

namespace Pbuild

open LineReader Lines

/-- What a command does. -/
structure Cmd where
  /-- What it writes, in its order; `true` is for stdout, and `false` for stderr. -/
  writes : List (Bool × List UInt8)
  /-- Its exit status. -/
  status : ℤ
  deriving DecidableEq

/-- All that has been written to one of the two. -/
def written (side : Bool) (writes : List (Bool × List UInt8)) : List UInt8 :=
  ((writes.filter (·.1 = side)).map (·.2)).flatten

namespace Cmd

def stdout (cmd : Cmd) : List UInt8 := written true cmd.writes

def stderr (cmd : Cmd) : List UInt8 := written false cmd.writes

/-- `p.returncode == 0` -/
def succeeds (cmd : Cmd) : Bool := cmd.status == 0

end Cmd

/-- The chunks in which the two pipes deliver the output of a command. -/
structure Arrivals (cmd : Cmd) where
  out : List (List UInt8)
  err : List (List UInt8)
  out_flatten : out.flatten = cmd.stdout
  err_flatten : err.flatten = cmd.stderr

/-- How running a command ends: the result and the log file, or an exception. -/
inductive CmdEnd
  | returned (ok : Bool) (log : List UInt8)
  | raised
  deriving DecidableEq

/-! ### The line readers -/

/-- `b'\n'` -/
def newline : UInt8 := 10

/-- The limit of a `StreamReader`: 64 KiB. -/
def streamLimit : ℕ := 65536

/-- `line.decode('utf8')` does not raise. -/
def decodes (line : List UInt8) : Bool := line.toByteArray.validateUTF8

/-- `stream_line_reader2`: the lines that are logged, and whether it returns.  A line is logged
before it is decoded, so the log has the line that can not be. -/
def streamLineReader2 (decode : List UInt8 → Bool) (chunks : List (List UInt8)) :
    Option (List (List UInt8) × Bool) :=
  readLoop newline streamLimit decode (chunks.flatten.length + 1) chunks []

/-- What `asyncio.gather` makes of the two readers, whose lines come to the log file in the order in
which the tasks are run. -/
inductive Gathers (cmd : Cmd) (out err : List (List UInt8) × Bool) : CmdEnd → Prop
  | returned {lines : List (List UInt8)} (hout : out.2 = true) (herr : err.2 = true)
      (h : Interleaved out.1 err.1 lines) :
      Gathers cmd out err (.returned cmd.succeeds lines.flatten)
  | raised (h : (out.2 && err.2) = false) : Gathers cmd out err .raised

/-- What the two modes that read the output have in common. -/
def runReadingLines (decode : List UInt8 → Bool) (cmd : Cmd) (arrivals : Arrivals cmd)
    (e : CmdEnd) : Prop :=
  ∃ out err, streamLineReader2 decode arrivals.out = some out ∧
    streamLineReader2 decode arrivals.err = some err ∧ Gathers cmd out err e

/-- `run_logged_cmd_fwd` -/
def runLoggedCmdFwd (cmd : Cmd) : Arrivals cmd → CmdEnd → Prop := runReadingLines decodes cmd

/-- `run_logged_cmd_progress` -/
def runLoggedCmdProgress (cmd : Cmd) : Arrivals cmd → CmdEnd → Prop :=
  -- there is nothing after the line has been logged that could raise an exception
  runReadingLines (fun _ => true) cmd

/-- `run_logged_cmd_quiet`: the two streams share the log file and its offset. -/
def runLoggedCmdQuiet (cmd : Cmd) : CmdEnd :=
  .returned cmd.succeeds (cmd.writes.map (·.2)).flatten

/-! ### Choosing a mode -/

/-- What the output of a build depends on. -/
structure OutputSettings where
  dryrun : Bool := false
  showBuildOutput : Bool := false
  verbose : ℕ := 0
  colorsStdout : Bool := false
  stdoutIsTty : Bool := false
  /-- There is a status line. -/
  statusline : Bool := false

/-- What `runLoggedCmd` does with the output of a command. -/
inductive OutputMode
  | dryrun
  /-- `run_logged_cmd_echo` -/
  | echo
  /-- `run_logged_cmd_fwd` -/
  | fwd
  /-- `run_logged_cmd_progress` -/
  | progress
  /-- `run_logged_cmd_quiet` -/
  | quiet
  deriving DecidableEq

/-- The branches of `PkgBuild.runLoggedCmd`. -/
def OutputSettings.mode (S : OutputSettings) (isToplevel : Bool) : OutputMode :=
  if S.dryrun then .dryrun
  else if S.showBuildOutput && (isToplevel || decide (2 < S.verbose)) then .echo
  else if decide (S.verbose ≠ 0) && (S.colorsStdout || S.stdoutIsTty) then
    if S.statusline then .fwd else .progress
  else .quiet

/-- `PkgBuild.runLoggedCmd`, where `log` is in the log file before. -/
def runLoggedCmd (S : OutputSettings) (isToplevel : Bool) (log : List UInt8) (cmd : Cmd)
    (arrivals : Arrivals cmd) (e : CmdEnd) : Prop :=
  match S.mode isToplevel with
  | .dryrun => e = .returned true log
  -- there is no `self` in `run_logged_cmd_echo`, and the log file is not truncated
  | .echo => e = .returned cmd.succeeds log
  | .fwd => runLoggedCmdFwd cmd arrivals e
  | .progress => runLoggedCmdProgress cmd arrivals e
  | .quiet => e = runLoggedCmdQuiet cmd

/-! ### What a log should be -/

/-- The result says whether the command has succeeded, and every line of each stream stands in the
log, in the stream's order. -/
def CmdEnd.LogsLines (cmd : Cmd) (e : CmdEnd) : Prop :=
  ∃ lines, Interleaved (linesOf newline cmd.stdout) (linesOf newline cmd.stderr) lines ∧
    e = .returned cmd.succeeds lines.flatten

/-- The same of the bytes: a command that writes parts of lines can have them interleaved. -/
def CmdEnd.LogsBytes (cmd : Cmd) (e : CmdEnd) : Prop :=
  ∃ log, Interleaved cmd.stdout cmd.stderr log ∧ e = .returned cmd.succeeds log

/-- Each write of the command is made of whole lines. -/
def Cmd.WritesLines (cmd : Cmd) : Prop :=
  ∀ w ∈ cmd.writes, w.2 = [] ∨ w.2.getLast? = some newline

/-- However the tasks of the readers take turns, the three modes end with the result and a log of
everything. -/
structure OutputModesAgree (cmd : Cmd) (arrivals : Arrivals cmd) : Prop where
  fwd_ends : ∃ e, runLoggedCmdFwd cmd arrivals e
  fwd_logs : ∀ e, runLoggedCmdFwd cmd arrivals e → e.LogsLines cmd
  progress_ends : ∃ e, runLoggedCmdProgress cmd arrivals e
  progress_logs : ∀ e, runLoggedCmdProgress cmd arrivals e → e.LogsLines cmd
  quiet_logs : (runLoggedCmdQuiet cmd).LogsBytes cmd
  quiet_lines : cmd.WritesLines → (runLoggedCmdQuiet cmd).LogsLines cmd

/-- A line that is neither refused by `readline` nor by `decode`. -/
def Readable (line : List UInt8) : Prop :=
  Fits newline streamLimit line ∧ decodes line = true

/-! ### The quiet mode -/

theorem interleaved_writes (writes : List (Bool × List UInt8)) :
    Interleaved (written true writes) (written false writes) (writes.map (·.2)).flatten := by
  induction writes with
  | nil => exact .nil
  | cons w writes ih =>
    obtain ⟨side, bytes⟩ := w
    cases side with
    | true => simpa [written] using ih.append_left bytes
    | false => simpa [written] using ih.append_right bytes

theorem runLoggedCmdQuiet_logsEverything (cmd : Cmd) : (runLoggedCmdQuiet cmd).LogsBytes cmd :=
  ⟨_, interleaved_writes cmd.writes, rfl⟩

theorem interleaved_linesOf {writes : List (Bool × List UInt8)}
    (h : ∀ w ∈ writes, w.2 = [] ∨ w.2.getLast? = some newline) :
    Interleaved (linesOf newline (written true writes)) (linesOf newline (written false writes))
      (linesOf newline (writes.map (·.2)).flatten) := by
  induction writes with
  | nil => exact .nil
  | cons w writes ih =>
    obtain ⟨side, bytes⟩ := w
    have hlines := linesOf_append (h (side, bytes) List.mem_cons_self)
    have ih := ih fun w hw => h w (.tail _ hw)
    cases side with
    | true => simpa [written, hlines] using ih.append_left (linesOf newline bytes)
    | false => simpa [written, hlines] using ih.append_right (linesOf newline bytes)

theorem runLoggedCmdQuiet_logsLines {cmd : Cmd} (h : cmd.WritesLines) :
    (runLoggedCmdQuiet cmd).LogsLines cmd :=
  ⟨_, interleaved_linesOf h, by rw [flatten_linesOf]; rfl⟩

/-! ### The modes that read -/

section Reading

variable {decode : List UInt8 → Bool} {cmd : Cmd} {arrivals : Arrivals cmd}

theorem exists_streamLineReader2 (decode : List UInt8 → Bool) (chunks : List (List UInt8)) :
    ∃ r, streamLineReader2 decode chunks = some r ∧
      ReadsAll newline streamLimit decode chunks.flatten r :=
  exists_readLoop (Nat.lt_succ_self _)

theorem exists_gathers (cmd : Cmd) (out err : List (List UInt8) × Bool) :
    ∃ e, Gathers cmd out err e := by
  cases h : out.2 && err.2 with
  | false => exact ⟨_, .raised h⟩
  | true =>
    rw [Bool.and_eq_true] at h
    obtain ⟨lines, hlines⟩ := Interleaved.exists_merge out.1 err.1
    exact ⟨_, .returned h.1 h.2 hlines⟩

/-- Running a command with its output read line by line: how the output arrives makes no
difference. -/
theorem exists_runReadingLines_iff (decode : List UInt8 → Bool) (arrivals : Arrivals cmd) :
    ∃ out err, ReadsAll newline streamLimit decode cmd.stdout out ∧
      ReadsAll newline streamLimit decode cmd.stderr err ∧
      ∀ e, runReadingLines decode cmd arrivals e ↔ Gathers cmd out err e := by
  obtain ⟨out, hout, hreadOut⟩ := exists_streamLineReader2 decode arrivals.out
  obtain ⟨err, herr, hreadErr⟩ := exists_streamLineReader2 decode arrivals.err
  refine ⟨out, err, arrivals.out_flatten ▸ hreadOut, arrivals.err_flatten ▸ hreadErr, fun e => ?_⟩
  simp [runReadingLines, hout, herr]

theorem runReadingLines_ends (decode : List UInt8 → Bool) (arrivals : Arrivals cmd) :
    ∃ e, runReadingLines decode cmd arrivals e := by
  obtain ⟨out, err, -, -, hiff⟩ := exists_runReadingLines_iff decode arrivals
  obtain ⟨e, he⟩ := exists_gathers cmd out err
  exact ⟨e, (hiff e).2 he⟩

theorem CmdEnd.LogsLines.length_log {ok : Bool} {log : List UInt8}
    (h : (CmdEnd.returned ok log).LogsLines cmd) :
    log.length = cmd.stdout.length + cmd.stderr.length := by
  obtain ⟨lines, hlines, heq⟩ := h
  obtain ⟨-, rfl⟩ := CmdEnd.returned.inj heq
  rw [hlines.flatten.length_eq, flatten_linesOf, flatten_linesOf]

/-- A log that is as long as the output has all of it, since no reader adds anything. -/
theorem runReadingLines_logsLines_iff (decode : List UInt8 → Bool) (arrivals : Arrivals cmd) :
    (∀ e, runReadingLines decode cmd arrivals e → e.LogsLines cmd) ↔
      ∀ l ∈ linesOf newline cmd.stdout ++ linesOf newline cmd.stderr,
        Fits newline streamLimit l ∧ decode l = true := by
  obtain ⟨out, err, hout, herr, hiff⟩ := exists_runReadingLines_iff decode arrivals
  simp only [hiff, List.forall_mem_append]
  constructor
  · intro hlogs
    obtain ⟨e, he⟩ := exists_gathers cmd out err
    have hlog := hlogs e he
    cases he with
    | raised =>
      obtain ⟨_, _, heq⟩ := hlog
      exact absurd heq CmdEnd.noConfusion
    | returned hokOut hokErr hlines =>
      have hlen := hlines.flatten.length_eq.symm.trans hlog.length_log
      have hleOut := hout.length_flatten_le
      have hleErr := herr.length_flatten_le
      exact ⟨hout.forall_fits hokOut (by omega), herr.forall_fits hokErr (by omega)⟩
  · rintro ⟨hfitsOut, hfitsErr⟩ e he
    rw [hout.complete hfitsOut, herr.complete hfitsErr] at he
    cases he with
    | raised h => exact absurd h Bool.noConfusion
    | returned _ _ hlines => exact ⟨_, hlines, rfl⟩

end Reading

/-! ### All modes -/

/-- **The output modes agree just on lines that can be read**: for every command, however its output
arrives, all three end with what the exit status says and a log of everything if and only if no line
of either stream is longer than 64 KiB and every one is UTF-8. -/
theorem outputModesAgree_iff (cmd : Cmd) (arrivals : Arrivals cmd) :
    OutputModesAgree cmd arrivals ↔
      ∀ l ∈ linesOf newline cmd.stdout ++ linesOf newline cmd.stderr, Readable l := by
  constructor
  · intro h
    exact (runReadingLines_logsLines_iff decodes arrivals).1 h.fwd_logs
  · intro h
    exact {
      fwd_ends := runReadingLines_ends decodes arrivals
      fwd_logs := (runReadingLines_logsLines_iff decodes arrivals).2 h
      progress_ends := runReadingLines_ends _ arrivals
      progress_logs := (runReadingLines_logsLines_iff _ arrivals).2 fun l hl => ⟨(h l hl).1, rfl⟩
      quiet_logs := runLoggedCmdQuiet_logsEverything cmd
      quiet_lines := runLoggedCmdQuiet_logsLines }

theorem CmdEnd.LogsLines.logsBytes {cmd : Cmd} {e : CmdEnd} (h : e.LogsLines cmd) :
    e.LogsBytes cmd := by
  obtain ⟨lines, hlines, rfl⟩ := h
  have hbytes := hlines.flatten
  rw [flatten_linesOf, flatten_linesOf] at hbytes
  exact ⟨_, hbytes, rfl⟩

/-- **The mode makes no difference** for lines that can be read: a command that is run and logged
succeeds as its exit status says, and everything is in the log. -/
theorem runLoggedCmd_logsBytes {S : OutputSettings} {isToplevel : Bool} {log : List UInt8}
    {cmd : Cmd} {arrivals : Arrivals cmd} {e : CmdEnd}
    (hread : ∀ l ∈ linesOf newline cmd.stdout ++ linesOf newline cmd.stderr, Readable l)
    (hdry : S.mode isToplevel ≠ .dryrun) (hecho : S.mode isToplevel ≠ .echo)
    (h : runLoggedCmd S isToplevel log cmd arrivals e) : e.LogsBytes cmd := by
  unfold runLoggedCmd at h
  cases hmode : S.mode isToplevel with
  | dryrun => exact absurd hmode hdry
  | echo => exact absurd hmode hecho
  | fwd =>
    rw [hmode] at h
    exact ((runReadingLines_logsLines_iff decodes arrivals).2 hread e h).logsBytes
  | progress =>
    rw [hmode] at h
    exact ((runReadingLines_logsLines_iff _ arrivals).2
      (fun l hl => ⟨(hread l hl).1, rfl⟩) e h).logsBytes
  | quiet =>
    rw [hmode] at h
    exact h ▸ runLoggedCmdQuiet_logsEverything cmd

/-- A command that writes some bytes to stdout at once, and ends well. -/
def printing (bytes : List UInt8) : Cmd := ⟨[(true, bytes)], 0⟩

/-- They arrive at once, too. -/
def printing.arrivals (bytes : List UInt8) : Arrivals (printing bytes) where
  out := [bytes]
  err := []
  out_flatten := by simp [printing, Cmd.stdout, written]
  err_flatten := by simp [printing, Cmd.stderr, written]

/-- A line that is too long is dropped as soon as it is in the buffer. -/
theorem streamLineReader2_long {decode : List UInt8 → Bool} {line : List UInt8}
    (hnl : newline ∉ line) (hlong : streamLimit < line.length) :
    streamLineReader2 decode [line] = some ([], true) := by
  have hread : readline newline streamLimit [line] [] = (.overrun, [], []) := by
    simp [readline, hnl, hlong]
  have hpos : 0 < line.length := Nat.zero_lt_of_lt hlong
  obtain ⟨n, hn⟩ := Nat.exists_eq_succ_of_ne_zero hpos.ne'
  rw [streamLineReader2, List.flatten_singleton, hn, readLoop, hread]
  rfl

theorem stdout_printing (bytes : List UInt8) : (printing bytes).stdout = bytes := by
  simp [printing, Cmd.stdout, written]

/-- 64 KiB and a byte, without a newline. -/
def longLine : List UInt8 := List.replicate (streamLimit + 1) 120

/-- One long line: the quiet mode has it in its log, and the other two return with an empty one.
One byte that is not UTF-8: the quiet mode logs it, and forwarding ends with an exception. -/
theorem output_lost :
    (runLoggedCmdQuiet (printing longLine) = .returned true longLine ∧
      runLoggedCmdFwd (printing longLine) (printing.arrivals longLine) (.returned true []) ∧
      runLoggedCmdProgress (printing longLine) (printing.arrivals longLine) (.returned true []) ∧
      ¬ OutputModesAgree (printing longLine) (printing.arrivals longLine)) ∧
    (runLoggedCmdQuiet (printing [255, 10]) = .returned true [255, 10] ∧
      runLoggedCmdProgress (printing [255, 10]) (printing.arrivals [255, 10])
        (.returned true [255, 10]) ∧
      runLoggedCmdFwd (printing [255, 10]) (printing.arrivals [255, 10]) .raised ∧
      ¬ OutputModesAgree (printing [255, 10]) (printing.arrivals [255, 10])) := by
  have hbyte : runLoggedCmdFwd (printing [255, 10]) (printing.arrivals [255, 10]) .raised :=
    ⟨([[255, 10]], false), ([], true), by decide, by decide, .raised rfl⟩
  have hnl : newline ∉ longLine := fun h => absurd (List.eq_of_mem_replicate h) (by decide)
  have hlen : longLine.length = streamLimit + 1 := List.length_replicate
  have hlost : ∀ decode, runReadingLines decode (printing longLine) (printing.arrivals longLine)
      (.returned true []) := fun decode =>
    ⟨([], true), ([], true), streamLineReader2_long hnl (hlen ▸ Nat.lt_succ_self _), rfl,
      @Gathers.returned _ _ _ [] rfl rfl .nil⟩
  refine ⟨⟨?_, hlost _, hlost _, fun h => ?_⟩, by decide, ?_, hbyte, fun h => ?_⟩
  · simp [runLoggedCmdQuiet, printing, Cmd.succeeds]
  · have hlog := (h.fwd_logs _ (hlost _)).length_log
    rw [stdout_printing, hlen, List.length_nil] at hlog
    omega
  · exact ⟨([[255, 10]], true), ([], true), by decide, by decide,
      @Gathers.returned _ _ _ [[255, 10]] rfl rfl (.left _ .nil)⟩
  · obtain ⟨_, _, heq⟩ := h.fwd_logs _ hbyte
    exact absurd heq CmdEnd.noConfusion

end Pbuild
