/-!
# Instructions

A program is made of eight symbols: six commands, which act on the tape, the input and the output,
and two brackets, which make loops. Each is written as one ASCII character, and every other
character is a comment. The eight characters are pairwise distinct, so a symbol and its character
determine each other.

An instruction is a symbol together with the place it was read from. Lines and columns count from
one, as editors show them; the index counts the instructions of the program from zero.
-/

namespace Brainfuck

/-- What a program can do besides looping. -/
inductive Command where
  | moveRight
  | moveLeft
  | increment
  | decrement
  | output
  | input
  deriving DecidableEq

/-- The two ends of a loop. -/
inductive Bracket where
  | opening
  | closing
  deriving DecidableEq

/-- A character that means something in a program. -/
inductive Symbol where
  | command (command : Command)
  | bracket (bracket : Bracket)
  deriving DecidableEq

namespace Symbol

def toChar : Symbol → Char
  | command .moveRight => '>'
  | command .moveLeft => '<'
  | command .increment => '+'
  | command .decrement => '-'
  | command .output => '.'
  | command .input => ','
  | bracket .opening => '['
  | bracket .closing => ']'

/-- The symbol that a character stands for; `none` for a character of a comment. -/
def ofChar? (c : Char) : Option Symbol :=
  match c with
  | '>' => some (command .moveRight)
  | '<' => some (command .moveLeft)
  | '+' => some (command .increment)
  | '-' => some (command .decrement)
  | '.' => some (command .output)
  | ',' => some (command .input)
  | '[' => some (bracket .opening)
  | ']' => some (bracket .closing)
  | _ => none

/-- The name under which a symbol is reported. -/
def name : Symbol → String
  | command .moveRight => "Increment Pointer"
  | command .moveLeft => "Decrement Pointer"
  | command .increment => "Increment Byte"
  | command .decrement => "Decrement Byte"
  | command .output => "Output Byte"
  | command .input => "Input Byte"
  | bracket .opening => "Conditional Forward"
  | bracket .closing => "Conditional Backward"

/-- The name of a symbol followed by its character in parentheses. -/
def describe (s : Symbol) : String :=
  s.name ++ " (" ++ s.toChar.toString ++ ")"

/-! ## Symbols and characters determine each other -/

@[simp] theorem ofChar?_toChar (s : Symbol) : ofChar? s.toChar = some s := by
  rcases s with c | b
  · cases c <;> rfl
  · cases b <;> rfl

theorem toChar_injective {s t : Symbol} (h : s.toChar = t.toChar) : s = t := by
  simpa using congrArg ofChar? h

theorem eq_toChar_of_ofChar? {c : Char} {s : Symbol} (h : ofChar? c = some s) : c = s.toChar := by
  unfold ofChar? at h
  split at h <;> cases h <;> rfl

/-- A line feed is no symbol. -/
theorem toChar_ne_newline (s : Symbol) : s.toChar ≠ '\n' := by
  intro h
  have hs := congrArg ofChar? h
  rw [ofChar?_toChar] at hs
  cases hs

end Symbol

/-- Where an instruction stands: its line and its column in the text, from one, and the number of
instructions before it in the program. -/
structure Place where
  line : Nat
  column : Nat
  index : Nat
  deriving DecidableEq

/-- A symbol of a program and where it stands. -/
structure Instruction extends Place where
  symbol : Symbol
  deriving DecidableEq

/-- The position and the name of an instruction, such as `2:5 Increment Byte (+)`. -/
def Instruction.describe (i : Instruction) : String :=
  toString i.line ++ ":" ++ toString i.column ++ " " ++ i.symbol.describe

end Brainfuck
