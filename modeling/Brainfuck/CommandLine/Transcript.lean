import Brainfuck.CommandLine.Arguments

/-!
# Transcripts

A transcript is what a command leaves behind: its exit code and the bytes it wrote. Output that a
program produced before a fault is written all the same, and exactly as it was produced; the report
of the fault goes to the error stream. A file that cannot be read is reported without running
anything. How a request for help and a rejected command line are answered in words is left to
whoever reads the arguments; only the stream and the exit code are fixed.

A command is given in a folder, a directory that holds files and no directories. Paths are resolved
from it as a file system resolves them, one part at a time: empty parts and single dots stay where
they are, double dots go up, and a part after a file is an error even if it is empty. Of what lies
outside the folder only the directories on the way up are known.
-/

namespace Brainfuck.CommandLine

/-- The visible outcome of a command. -/
structure Transcript where
  exitCode : UInt8
  stdout : ByteArray
  stderr : String

/-- The words in which a request for help and a rejected command line are answered. -/
structure Wording where
  help : String := ""
  rejection : Rejection → String := fun _ ↦ ""

/-- The name and version of the program. -/
def versionText : String :=
  "bft 0.1.0\n"

namespace Transcript

/-- The transcript of a command that only prints a text. -/
def ofText (text : String) : Transcript where
  exitCode := 0
  stdout := text.toUTF8
  stderr := ""

def ofRejection (wording : Wording) (cause : Rejection) : Transcript where
  exitCode := 2
  stdout := .empty
  stderr := wording.rejection cause

def ofReadFailure (path : String) (failure : ReadFailure) : Transcript where
  exitCode := 1
  stdout := .empty
  stderr := "Error reading file '" ++ path ++ "': " ++ failure.message ++ "\n"

/-- The transcript of a run. -/
def ofReport (report : Report) : Transcript where
  exitCode := match report.result with
    | .ok _ => 0
    | .error _ => 1
  stdout := report.machine.output.toUTF8
  stderr := match report.result with
    | .ok _ => ""
    | .error fault => "Runtime error: " ++ fault.message ++ "\n"

end Transcript

/-- Runs the program of a file; no value means that the run never ends. -/
def Arguments.perform (a : Arguments) (file : ByteSource) : Option Transcript :=
  match Program.ofSource file with
  | .error failure => some (.ofReadFailure a.program failure)
  | .ok program =>
    let (m, j) := a.settings.build {}
    (m.interpret program (a.input.getD "") j).map fun (report, _) ↦ .ofReport report

/-- Does what a request asks for, with program files taken from `openFile`. -/
def Request.perform (openFile : String → ByteSource) (wording : Wording) :
    Request → Option Transcript
  | run arguments => arguments.perform (openFile arguments.program)
  | version => some (.ofText versionText)
  | help => some (.ofText wording.help)
  | rejected cause => some (.ofRejection wording cause)

/-! ## Commands in a folder -/

/-- The files of a directory by name. -/
structure Folder where
  files : List (String × List UInt8)

/-- What a path leads to: the folder itself, a directory that the folder lies in, or a file of the
folder. -/
inductive Entry where
  | inside
  | above
  | file (bytes : List UInt8)

namespace Folder

/-- The greatest length of a part of a path, in bytes. -/
def maxNameLength : Nat := 255

/-- The length, in bytes, from which on a path is too long. -/
def pathLimit : Nat := 4096

/-- Follows one part of a path. -/
def step (f : Folder) (e : Entry) (part : String) : Except ReadFailure Entry :=
  match e with
  | .file _ => .error .notADirectory
  | .inside =>
    if part = "" ∨ part = "." then .ok .inside
    else if part = ".." then .ok .above
    else if maxNameLength < part.utf8ByteSize then .error .nameTooLong
    else match f.files.lookup part with
      | some bytes => .ok (.file bytes)
      | none => .error .noSuchFile
  | .above =>
    if part = "" ∨ part = "." ∨ part = ".." then .ok .above
    else if maxNameLength < part.utf8ByteSize then .error .nameTooLong
    else .error .noSuchFile

/-- The parts of a path between its slashes. -/
def parts (path : String) : List String :=
  (path.toList.splitOn '/').map String.ofList

def resolve (f : Folder) (path : String) : Except ReadFailure Entry :=
  if path.isEmpty then .error .noSuchFile
  else if pathLimit ≤ path.utf8ByteSize then .error .nameTooLong
  else
    let start := if path.startsWith "/" then Entry.above else Entry.inside
    (parts path).foldlM f.step start

/-- Opens the file that a path names. A directory can be opened, but it fails when it is read. -/
def openFile (f : Folder) (path : String) : ByteSource :=
  match f.resolve path with
  | .ok (.file bytes) => .ofBytes bytes
  | .ok _ => { chunks := [], failure := some .isADirectory }
  | .error failure => { chunks := [], failure := some failure }

/-- What a command line leaves behind when it is given in a folder. -/
def perform (f : Folder) (arguments : List String) (wording : Wording := {}) : Option Transcript :=
  (Request.ofArguments arguments).perform f.openFile wording

end Folder

end Brainfuck.CommandLine
