import Brainfuck.CommandLine.Transcript
import Brainfuck.Proofs.Machine.Trace
import Brainfuck.Proofs.Program.Bytes
import Brainfuck.Proofs.Utf8.Encoding

/-!
# What the command prints

The command writes the output of the run and nothing else to its output stream, in UTF-8 and however
the run ends. A value from 128 on takes two bytes there, but decoding gives it back: the decoded
stream has one character for each value that the run writes. The exit code and the error stream tell
how the run ended, and with which fault if it was one.
-/

namespace Brainfuck.CommandLine

/-- The machine that a command line asks for: with the chosen number of cells, or the standard
30000, and with the chosen step limit, or none. -/
def Arguments.machine (a : Arguments) : Machine :=
  .new ⟨a.settings.cellCount.getD .standard, a.settings.stepLimit⟩

def Arguments.inputText (a : Arguments) : String :=
  a.input.getD ""

/-- A transcript shows how a run ended and what it wrote: the given values, in order. The command
succeeds and reports nothing exactly for a run to the end of its program; otherwise it fails and
reports the fault. -/
structure Transcript.Shows (t : Transcript) (report : Report) (values : List UInt8) : Prop where
  stdout_eq : t.stdout = report.machine.output.toUTF8
  decoded : (Utf8.decode t.stdout.toList).map Char.toNat = values.map UInt8.toNat
  success : t.exitCode = 0 ∧ t.stderr = "" ↔ ∃ out, report.result = .ok out
  failure : ∀ fault, report.result = .error fault →
    t.exitCode = 1 ∧ t.stderr = "Runtime error: " ++ fault.message ++ "\n"

/-! ## The transcript of a report -/

theorem decode_stdout_ofReport (report : Report) :
    Utf8.decode (Transcript.ofReport report).stdout.toList = report.machine.output.toList :=
  Utf8.decode_toUTF8 _

theorem map_toNat_outputChars (values : List UInt8) :
    (outputChars values).map Char.toNat = values.map UInt8.toNat := by
  unfold outputChars
  rw [List.map_map]
  apply List.map_congr_left
  intro value _
  exact Utf8.toNat_ofNat_byte value

theorem ofReport_success {report : Report} {out : String} (h : report.result = .ok out) :
    (Transcript.ofReport report).exitCode = 0 ∧ (Transcript.ofReport report).stderr = "" := by
  unfold Transcript.ofReport
  rw [h]
  exact ⟨rfl, rfl⟩

theorem ofReport_failure {report : Report} {fault : Fault} (h : report.result = .error fault) :
    (Transcript.ofReport report).exitCode = 1 ∧
      (Transcript.ofReport report).stderr = "Runtime error: " ++ fault.message ++ "\n" := by
  unfold Transcript.ofReport
  rw [h]
  exact ⟨rfl, rfl⟩

theorem ofReport_success_iff (report : Report) :
    (Transcript.ofReport report).exitCode = 0 ∧ (Transcript.ofReport report).stderr = "" ↔
      ∃ out, report.result = .ok out := by
  constructor
  · rintro ⟨hcode, -⟩
    cases hresult : report.result with
    | ok out => exact ⟨out, rfl⟩
    | error fault =>
      rw [(ofReport_failure hresult).1] at hcode
      exact absurd hcode (by decide)
  · rintro ⟨out, hout⟩
    exact ofReport_success hout

theorem shows_ofReport {report : Report} {values : List UInt8}
    (h : report.machine.output.toList = outputChars values) :
    (Transcript.ofReport report).Shows report values where
  stdout_eq := rfl
  decoded := by rw [decode_stdout_ofReport, h, map_toNat_outputChars]
  success := ofReport_success_iff report
  failure _ := ofReport_failure

/-! ## From the file to the transcript -/

/-- A file that can be read is run as its program on the machine of the command line, and the
transcript is that of the run. -/
theorem perform_eq_map_report? {a : Arguments} {file : ByteSource} {program : Program}
    (loaded : Program.ofSource file = .ok program) (j : Journal) :
    a.perform file = (a.machine.report? program a.inputText j).map Transcript.ofReport := by
  rw [Machine.report?_eq_report? _ _ _ j (a.settings.build {}).2, Machine.report?, Option.map_map]
  unfold Arguments.perform
  rw [loaded]
  rfl

/-- A request to run a file that can be read runs the program in its bytes, whatever they are, on
the machine and the input of the command line. The command ends when the run does. Its transcript
then shows the report of the run and the values that the executed output commands found in their
cells. -/
theorem perform_shows_report {openFile : String → ByteSource} {wording : Wording} {a : Arguments}
    (readable : (openFile a.program).failure = none) :
    ∃ program, Program.ofSource (openFile a.program) = .ok program ∧ ∀ j,
      ((Request.run a).perform openFile wording = none ↔
        a.machine.report? program a.inputText j = none) ∧
      ∀ report, a.machine.report? program a.inputText j = some report →
        ∃ t trace, (Request.run a).perform openFile wording = some t ∧
          trace = a.machine.programTrace program a.inputText report.machine.processed ∧
          trace.length = report.machine.processed ∧ t.Shows report (printed trace) := by
  have loaded := Program.ofSource_of_readable readable
  refine ⟨_, loaded, fun j ↦ ?_⟩
  have hperform : (Request.run a).perform openFile wording =
      (a.machine.report? _ a.inputText j).map Transcript.ofReport :=
    perform_eq_map_report? loaded j
  rw [hperform]
  refine ⟨Option.map_eq_none_iff, fun report h ↦ ?_⟩
  obtain ⟨hlength, houtput⟩ := Machine.output_eq_of_report h
  exact ⟨_, _, congrArg (Option.map Transcript.ofReport) h, rfl, hlength, shows_ofReport houtput⟩

/-- A file with a byte that is no character, run on two cells: it writes 255, which takes two bytes,
and then leaves the tape. -/
theorem perform_shows_report_fault :
    ∃ t, (Request.run ⟨"p", none, { cellCount := some ⟨2, by decide⟩ }⟩).perform
        (fun _ ↦ .ofBytes [0x2D, 0xFF, 0x2E, 0x3E, 0x3E]) {} = some t ∧
      (Utf8.decode t.stdout.toList).map Char.toNat = [255] ∧ t.exitCode = 1 ∧
      t.stderr = "Runtime error: pointer too high: 2 at 1:5 Increment Pointer (>)\n" := by
  obtain ⟨program, loaded, h⟩ := @perform_shows_report
    (fun _ ↦ .ofBytes [0x2D, 0xFF, 0x2E, 0x3E, 0x3E]) {}
    ⟨"p", none, { cellCount := some ⟨2, by decide⟩ }⟩ rfl
  obtain rfl := Except.ok.inj loaded
  obtain ⟨t, trace, hperform, rfl, -, shows⟩ := (h {}).2 _ rfl
  obtain ⟨hcode, hstderr⟩ := shows.failure _ rfl
  exact ⟨t, hperform, shows.decoded, hcode, hstderr⟩

end Brainfuck.CommandLine
