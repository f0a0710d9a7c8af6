import Brainfuck.CommandLine.Transcript

/-!
# The command

The command reads the program file that its arguments name, hands everything to the library and
writes what comes back. A program that never ends keeps the command waiting for ever. It answers a
request for help and a rejected command line by its exit code and not in words.
-/

namespace Brainfuck.CommandLine

/-- The cause of a failed read. The system's number for it may come with a minus sign. -/
def readFailure (e : IO.Error) : ReadFailure :=
  match e with
  | .noFileOrDirectory .. => .noSuchFile
  | .inappropriateType _ code _ =>
    if code = 21 ∨ code = -21 then .isADirectory else .notADirectory
  | .invalidArgument _ code _ =>
    if code = 36 ∨ code = -36 then .nameTooLong else .other e.toString
  | .permissionDenied .. => .permissionDenied
  | e => .other e.toString

def openFile (path : String) : IO ByteSource := do
  match ← (IO.FS.readBinFile path).toBaseIO with
  | .ok bytes => return .ofBytes bytes.toList
  | .error e => return { chunks := [], failure := some (readFailure e) }

def Request.performFile : Request → IO (Option Transcript)
  | .run arguments => return arguments.perform (← openFile arguments.program)
  | request => return request.perform (fun _ ↦ .ofBytes []) {}

/-- Writes what a command leaves behind and returns its exit code. -/
def Transcript.emit (t : Transcript) : IO UInt32 := do
  let stdout ← IO.getStdout
  stdout.write t.stdout
  stdout.flush
  IO.eprint t.stderr
  return t.exitCode.toUInt32

partial def idle : IO UInt32 := do
  IO.sleep 1000
  idle

end Brainfuck.CommandLine

open Brainfuck.CommandLine in
/-- Runs the command. -/
def main (arguments : List String) : IO UInt32 := do
  match ← (Request.ofArguments arguments).performFile with
  | some transcript => transcript.emit
  | none => idle
