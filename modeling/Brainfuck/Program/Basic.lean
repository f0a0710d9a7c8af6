import Brainfuck.Instruction
import Brainfuck.Utf8

/-!
# Programs

A program is the sequence of instructions left of a text once its comments are dropped. Its
instructions carry their own positions as indices; this is what lets a bracket be looked up by the
index it carries. Rendering a program writes the symbols alone, so the rendering of a program is a
program text with the same symbols in the same order.

The loader goes through a text once, keeps the line and the column of the next character and adds an
instruction for every symbol. Only a line feed ends a line; every other character takes one column,
a carriage return and a byte order mark included. Bytes are decoded first. An ill-formed part takes
one column like any other comment character, so loading never fails.
-/

namespace Brainfuck

/-- The instructions of a program in the order of the text, each with its position as index. -/
structure Program where
  instructions : Array Instruction
  index_eq : ∀ n (h : n < instructions.size), instructions[n].index = n
  deriving DecidableEq

namespace Program

def empty : Program where
  instructions := #[]
  index_eq n h := absurd h (Nat.not_lt_zero n)

/-- Adds an instruction after the others. -/
def push (p : Program) (symbol : Symbol) (line column : Nat) : Program where
  instructions := p.instructions.push { line, column, index := p.instructions.size, symbol }
  index_eq n h := by
    rw [Array.getElem_push]
    split
    · exact p.index_eq n _
    · rw [Array.size_push] at h
      dsimp only
      omega

def size (p : Program) : Nat :=
  p.instructions.size

def isEmpty (p : Program) : Bool :=
  p.instructions.isEmpty

def toList (p : Program) : List Instruction :=
  p.instructions.toList

def symbols (p : Program) : List Symbol :=
  p.toList.map Instruction.symbol

/-- The symbols of a program as text. -/
def render (p : Program) : String :=
  String.ofList (p.symbols.map Symbol.toChar)

/-! ## What the operations do to the list of instructions -/

@[simp] theorem toList_push (p : Program) (symbol : Symbol) (line column : Nat) :
    (p.push symbol line column).toList =
      p.toList ++ [{ line, column, index := p.size, symbol }] := by
  simp [push, toList, size]

@[simp] theorem length_toList (p : Program) : p.toList.length = p.size :=
  Array.length_toList

theorem index_eq_of_getElem? {p : Program} {n : Nat} {i : Instruction}
    (h : p.toList[n]? = some i) : i.index = n := by
  obtain ⟨hlt, rfl⟩ := List.getElem?_eq_some_iff.mp h
  exact p.index_eq n hlt

theorem fetched_of_split {p : Program} {before after : List Instruction} {i : Instruction}
    (split : p.toList = before ++ i :: after) : p.instructions[before.length]? = some i := by
  rw [← Array.getElem?_toList]
  change p.toList[before.length]? = some i
  rw [split, List.getElem?_append_right (Nat.le_refl _), Nat.sub_self, List.getElem?_cons_zero]

@[ext] theorem ext {p q : Program} (h : p.toList = q.toList) : p = q := by
  obtain ⟨a, _⟩ := p
  obtain ⟨b, _⟩ := q
  obtain rfl : a = b := Array.toList_inj.mp h
  rfl

end Program

/-! ## Loading -/

/-- A text being loaded, with the line and the column of the next character. -/
structure Loader where
  line : Nat := 1
  column : Nat := 1
  program : Program := .empty

/-- Goes past one character. -/
def Loader.read (l : Loader) (c : Char) : Loader :=
  if c = '\n' then { l with line := l.line + 1, column := 1 }
  else match Symbol.ofChar? c with
    | none => { l with column := l.column + 1 }
    | some symbol =>
      { l with
        column := l.column + 1
        program := l.program.push symbol l.line l.column }

namespace Loader

theorem read_comment {c : Char} (hc : c ≠ '\n') (hnone : Symbol.ofChar? c = none) (l : Loader) :
    l.read c = { l with column := l.column + 1 } := by
  simp only [read, hc, if_false, hnone]

theorem read_toChar (l : Loader) (s : Symbol) :
    l.read s.toChar =
      { l with column := l.column + 1, program := l.program.push s l.line l.column } := by
  simp only [read, s.toChar_ne_newline, if_false, Symbol.ofChar?_toChar]

end Loader

namespace Program

/-- The program written by a sequence of characters. -/
def ofChars (text : List Char) : Program :=
  (text.foldl Loader.read {}).program

def ofString (text : String) : Program :=
  ofChars text.toList

/-- The program written by bytes in UTF-8, well-formed or not. -/
def ofBytes (bytes : List UInt8) : Program :=
  ofChars (Utf8.decode bytes)

end Program

end Brainfuck
