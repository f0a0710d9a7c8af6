import Brainfuck.Journal

/-!
# Stores

A tape is a row of byte cells with a head over one of them. Cells hold values from 0 to 255 and
arithmetic on them wraps around. The tape has two ends, and whoever moves the head asks first
whether there is a cell to move to.

A store is what the commands of a program act on: the tape, the input with a cursor and the output.
Two commands can fail, because they move the head and the tape has two ends. `fault?` tells which
commands fail and `perform` says what the others do, so a command that fails changes nothing.
-/

namespace Brainfuck

/-- The cells of a machine and the position of its head. -/
structure Tape where
  cells : Array UInt8
  head : Nat
  deriving DecidableEq

namespace Tape

/-- A tape of zeros with the head over the first cell. -/
def blank (size : Nat) : Tape where
  cells := Array.replicate size 0
  head := 0

def size (t : Tape) : Nat :=
  t.cells.size

def current (t : Tape) : UInt8 :=
  t.cells.getD t.head 0

def write (t : Tape) (value : UInt8) : Tape :=
  { t with cells := t.cells.setIfInBounds t.head value }

/-- Whether the head is over the last cell. -/
def atRightEnd (t : Tape) : Bool :=
  t.size ≤ t.head + 1

def atLeftEnd (t : Tape) : Bool :=
  t.head = 0

def moveRight (t : Tape) : Tape :=
  { t with head := t.head + 1 }

def moveLeft (t : Tape) : Tape :=
  { t with head := t.head - 1 }

/-- The cells that are not zero, with their positions. -/
def nonzero (t : Tape) : List (Nat × UInt8) :=
  t.cells.toList.zipIdx.filterMap fun (value, position) ↦
    if value = 0 then none else some (position, value)

/-! ## What the operations do to the size and the head -/

@[simp] theorem size_blank (size : Nat) : (blank size).size = size := by
  simp [blank, Tape.size]

@[simp] theorem head_blank (size : Nat) : (blank size).head = 0 := rfl

@[simp] theorem size_write (t : Tape) (value : UInt8) : (t.write value).size = t.size := by
  simp [write, size]

@[simp] theorem head_write (t : Tape) (value : UInt8) : (t.write value).head = t.head := rfl

@[simp] theorem size_moveRight (t : Tape) : t.moveRight.size = t.size := rfl

@[simp] theorem head_moveRight (t : Tape) : t.moveRight.head = t.head + 1 := rfl

@[simp] theorem size_moveLeft (t : Tape) : t.moveLeft.size = t.size := rfl

@[simp] theorem head_moveLeft (t : Tape) : t.moveLeft.head = t.head - 1 := rfl

/-- A value that was written is read back, as long as the head is over a cell. -/
theorem current_write {t : Tape} (h : t.head < t.size) (value : UInt8) :
    (t.write value).current = value := by
  have h : t.head < t.cells.size := h
  simp [write, current, h]

end Tape

/-- What the commands of a program read and change. The cursor is the number of characters read. -/
structure Store where
  tape : Tape
  input : Array Char
  cursor : Nat
  output : String
  deriving DecidableEq

namespace Store

/-- The store a run begins with: a tape of zeros, unread input and no output. -/
def fresh (cells : Nat) (input : String) : Store where
  tape := .blank cells
  input := input.toList.toArray
  cursor := 0
  output := ""

/-- The byte of the next input character: the low byte of its code point, or zero when no character
is left. -/
def nextByte (s : Store) : UInt8 :=
  match s.input[s.cursor]? with
  | some c => c.toNat.toUInt8
  | none => 0

/-- Reads a character into the current cell. The cursor stays where it is when no character is
left. -/
def read (s : Store) : Store :=
  { s with
    tape := s.tape.write s.nextByte
    cursor := if s.cursor < s.input.size then s.cursor + 1 else s.cursor }

/-- Writes the current cell to the output, as the character with that code point. -/
def print (s : Store) : Store :=
  { s with output := s.output.push (Char.ofNat s.tape.current.toNat) }

/-- The fault that an instruction with a command raises, if it raises one. -/
def fault? (s : Store) (c : Command) (i : Instruction) : Option Fault :=
  match c with
  | .moveRight => if s.tape.atRightEnd then some (.pointerTooHigh (s.tape.head + 1) i) else none
  | .moveLeft => if s.tape.atLeftEnd then some (.pointerTooLow i) else none
  | _ => none

def perform (s : Store) (c : Command) : Store :=
  match c with
  | .moveRight => { s with tape := s.tape.moveRight }
  | .moveLeft => { s with tape := s.tape.moveLeft }
  | .increment => { s with tape := s.tape.write (s.tape.current + 1) }
  | .decrement => { s with tape := s.tape.write (s.tape.current - 1) }
  | .output => s.print
  | .input => s.read

/-! ## Which commands fail -/

/-- Only moves of the head fail, each at one end of the tape and with a fault of its own. -/
theorem fault?_eq_some_iff {s : Store} {c : Command} {i : Instruction} {fault : Fault} :
    s.fault? c i = some fault ↔
      c = .moveRight ∧ s.tape.size ≤ s.tape.head + 1 ∧
        fault = .pointerTooHigh (s.tape.head + 1) i ∨
      c = .moveLeft ∧ s.tape.head = 0 ∧ fault = .pointerTooLow i := by
  cases c <;> simp [fault?, Tape.atRightEnd, Tape.atLeftEnd, eq_comm]

theorem fault?_eq_none_iff {s : Store} {c : Command} {i : Instruction} :
    s.fault? c i = none ↔
      (c = .moveRight → s.tape.head + 1 < s.tape.size) ∧ (c = .moveLeft → s.tape.head ≠ 0) := by
  cases c <;> simp [fault?, Tape.atRightEnd, Tape.atLeftEnd]

/-! ## What commands leave alone -/

@[simp] theorem size_perform (s : Store) (c : Command) : (s.perform c).tape.size = s.tape.size := by
  cases c <;> simp [perform, read, print]

@[simp] theorem input_perform (s : Store) (c : Command) : (s.perform c).input = s.input := by
  cases c <;> rfl

/-- A command that does not fail keeps the head over a cell. -/
theorem head_perform_lt {s : Store} {c : Command} {i : Instruction} (allowed : s.fault? c i = none)
    (h : s.tape.head < s.tape.size) : (s.perform c).tape.head < (s.perform c).tape.size := by
  rw [size_perform]
  cases c with
  | moveRight => exact (fault?_eq_none_iff.mp allowed).1 rfl
  | moveLeft => exact Nat.lt_of_le_of_lt (Nat.sub_le _ _) h
  | increment => exact h
  | decrement => exact h
  | output => exact h
  | input => exact h

/-- Reading does not go past the end of the input. -/
theorem cursor_perform_le {s : Store} (c : Command) (h : s.cursor ≤ s.input.size) :
    (s.perform c).cursor ≤ (s.perform c).input.size := by
  rw [input_perform]
  cases c with
  | input =>
    change (if s.cursor < s.input.size then s.cursor + 1 else s.cursor) ≤ s.input.size
    split
    · assumption
    · exact h
  | moveRight => exact h
  | moveLeft => exact h
  | increment => exact h
  | decrement => exact h
  | output => exact h

end Store

end Brainfuck
