import Brainfuck.Program.Journaled

/-!
# Sample files

A sample file is a program file as an editor saves it: some content and a line feed after it. The
line feed adds no instruction, whatever stands before it. There is a standard content, a program
with loops in loops.
-/

namespace Brainfuck

/-- A sample file, given by the bytes before its final line feed. -/
structure Sample where
  content : List UInt8

namespace Sample

def standardText : String :=
  "+[-[<<[+[--->]-[<<<]]]>>>-]"

def ofString (text : String) : Sample :=
  ⟨text.toUTF8.toList⟩

def standard : Sample :=
  ofString standardText

def standardSize : Nat :=
  standardText.length

/-- The bytes of the file. -/
def bytes (s : Sample) : List UInt8 :=
  s.content ++ [0x0A]

def source (s : Sample) : ByteSource :=
  .ofBytes s.bytes

end Sample

end Brainfuck
