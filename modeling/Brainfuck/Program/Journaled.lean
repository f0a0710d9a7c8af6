import Brainfuck.Journal
import Brainfuck.Program.Basic

/-!
# Loading from sources

A program usually comes from something that delivers its bytes piece by piece and may fail on the
way. The pieces are joined before anything is decoded, so where the cuts fall does not matter, not
even in the middle of a character. A failure discards what came before it.

A loaded program is noted with its size. A source that fails leaves no note, since nothing was
loaded.
-/

namespace Brainfuck

/-- Why a source could not be read to its end: the causes that the operating system numbers, and any
other in the words of the source. A failure is one that ends the reading; an interrupted read is
tried again and is none. -/
inductive ReadFailure where
  | noSuchFile
  | permissionDenied
  | notADirectory
  | isADirectory
  | nameTooLong
  | other (message : String)
  deriving DecidableEq

def ReadFailure.message : ReadFailure → String
  | noSuchFile => "No such file or directory (os error 2)"
  | permissionDenied => "Permission denied (os error 13)"
  | notADirectory => "Not a directory (os error 20)"
  | isADirectory => "Is a directory (os error 21)"
  | nameTooLong => "File name too long (os error 36)"
  | other message => message

/-- Bytes delivered in chunks. A chunk is what one read delivers before the end of the source; a
read that delivers nothing is that end, so an empty chunk stands for no read. A failure comes after
the last chunk, in place of the end. -/
structure ByteSource where
  chunks : List (List UInt8)
  failure : Option ReadFailure := none

namespace ByteSource

/-- All the bytes of a source, or what kept them from being read. -/
def readAll (s : ByteSource) : Except ReadFailure (List UInt8) :=
  match s.failure with
  | none => .ok s.chunks.flatten
  | some failure => .error failure

def ofBytes (bytes : List UInt8) : ByteSource where
  chunks := [bytes]

end ByteSource

namespace Program

/-- Loads the program that a source delivers. -/
def ofSource (s : ByteSource) : Except ReadFailure Program :=
  s.readAll.map ofBytes

/-- A source that does not fail gives the program in its bytes, wherever they are cut. -/
theorem ofSource_of_readable {s : ByteSource} (readable : s.failure = none) :
    ofSource s = .ok (ofBytes s.chunks.flatten) := by
  rw [ofSource, ByteSource.readAll, readable]
  rfl

theorem ofSource_of_failure {s : ByteSource} {failure : ReadFailure}
    (fails : s.failure = some failure) : ofSource s = .error failure := by
  rw [ofSource, ByteSource.readAll, fails]
  rfl

/-! ## Loading with a journal -/

/-- Loads a program from text and notes its size. -/
def load (text : String) (j : Journal) : Program × Journal :=
  let program := ofString text
  (program, j.note (.loaded program.size))

/-- Loads the program that a source delivers and notes its size. A failure leaves no note. -/
def loadSource (s : ByteSource) (j : Journal) : Except ReadFailure Program × Journal :=
  match ofSource s with
  | .ok program => (.ok program, j.note (.loaded program.size))
  | .error failure => (.error failure, j)

end Program

end Brainfuck
