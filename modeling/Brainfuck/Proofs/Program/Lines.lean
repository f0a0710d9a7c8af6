import Brainfuck.Program.Basic

/-!
# Loading line by line

A text can also be loaded by cutting it into lines first. Then the number of a line and the position
of a character within its line are given, and nothing has to be counted on the way. What ends a line
is not part of it: a line feed, together with a carriage return right before it. Both ways give the
same program, since the characters that are cut away are no symbols and come last in their line.
-/

namespace Brainfuck

/-! ## The lines of a text -/

def withoutReturn (line : List Char) : List Char :=
  if line.getLast? = some '\r' then line.dropLast else line

/-- The lines of a text that goes on from the given beginning of a line. A text that ends with a
line feed has no line after it, and a last line that no line feed ends stays as it is. -/
def linesFrom (line : List Char) : List Char → List (List Char)
  | [] => if line.isEmpty then [] else [line]
  | c :: text =>
    if c = '\n' then withoutReturn line :: linesFrom [] text else linesFrom (line ++ [c]) text

def lines (text : List Char) : List (List Char) :=
  linesFrom [] text

namespace Program

/-- Adds an instruction for every symbol of a line. -/
def pushLine (p : Program) (number : Nat) (line : List Char) : Program :=
  (line.zipIdx 1).foldl
    (fun p (c, column) ↦ match Symbol.ofChar? c with
      | none => p
      | some symbol => p.push symbol number column) p

/-- Adds the instructions of lines that are numbered from the given number on. -/
def pushLines (p : Program) (number : Nat) (lines : List (List Char)) : Program :=
  (lines.zipIdx number).foldl (fun p (line, number) ↦ p.pushLine number line) p

def ofLines (lines : List (List Char)) : Program :=
  empty.pushLines 1 lines

/-! ## One more character in a line -/

theorem pushLine_append_comment {c : Char} (hnone : Symbol.ofChar? c = none) (p : Program)
    (number : Nat) (line : List Char) :
    p.pushLine number (line ++ [c]) = p.pushLine number line := by
  simp [pushLine, List.zipIdx_append, hnone]

theorem pushLine_append_toChar (s : Symbol) (p : Program) (number : Nat) (line : List Char) :
    p.pushLine number (line ++ [s.toChar]) =
      (p.pushLine number line).push s number (line.length + 1) := by
  simp [pushLine, List.zipIdx_append, Nat.add_comm]

/-- A carriage return at the end of a line changes nothing. -/
theorem pushLine_withoutReturn (p : Program) (number : Nat) (line : List Char) :
    p.pushLine number (withoutReturn line) = p.pushLine number line := by
  unfold withoutReturn
  split
  · next hlast =>
    obtain ⟨front, rfl⟩ := List.getLast?_eq_some_iff.mp hlast
    rw [List.dropLast_concat, pushLine_append_comment rfl]
  · rfl

theorem pushLines_cons (p : Program) (number : Nat) (line : List Char)
    (lines : List (List Char)) :
    p.pushLines number (line :: lines) = (p.pushLine number line).pushLines (number + 1) lines :=
  rfl

end Program

/-! ## The loader within a line -/

/-- A loader has read the beginning of a line after the lines of a program: the columns of the line
are counted and its symbols are there. -/
structure Loader.Within (l : Loader) (p : Program) (line : List Char) : Prop where
  column_eq : l.column = line.length + 1
  program_eq : l.program = p.pushLine l.line line

namespace Loader.Within

variable {l : Loader} {p : Program} {line : List Char}

theorem read_newline (h : l.Within p line) :
    (l.read '\n').Within (p.pushLine l.line (withoutReturn line)) [] where
  column_eq := rfl
  program_eq := by
    rw [Program.pushLine_withoutReturn, ← h.program_eq]
    rfl

theorem read (h : l.Within p line) {c : Char} (hc : c ≠ '\n') :
    (l.read c).line = l.line ∧ (l.read c).Within p (line ++ [c]) := by
  have hcolumn : l.column + 1 = (line ++ [c]).length + 1 := by
    rw [h.column_eq, List.length_append, List.length_singleton]
  cases hs : Symbol.ofChar? c with
  | none =>
    rw [Loader.read_comment hc hs]
    refine ⟨rfl, hcolumn, ?_⟩
    rw [Program.pushLine_append_comment hs]
    exact h.program_eq
  | some s =>
    obtain rfl := Symbol.eq_toChar_of_ofChar? hs
    rw [Loader.read_toChar]
    refine ⟨rfl, hcolumn, ?_⟩
    rw [Program.pushLine_append_toChar, ← h.program_eq, ← h.column_eq]

/-- From the middle of a line on, the loader finds what the lines still to come hold. -/
theorem pushLines_linesFrom (h : l.Within p line) (text : List Char) :
    p.pushLines l.line (linesFrom line text) = (text.foldl Loader.read l).program := by
  induction text generalizing l p line with
  | nil =>
    rw [List.foldl_nil, h.program_eq, linesFrom]
    split
    · next hempty => rw [List.isEmpty_iff.mp hempty]; rfl
    · rfl
  | cons c text ih =>
    rw [linesFrom, List.foldl_cons]
    split
    · next hc =>
      subst hc
      rw [Program.pushLines_cons]
      exact ih h.read_newline
    · next hc =>
      obtain ⟨hline, hwithin⟩ := h.read hc
      rw [← hline]
      exact ih hwithin

end Loader.Within

/-- Loading a text line by line gives the same program as loading it character by character. -/
theorem Program.ofLines_lines (text : List Char) : ofLines (lines text) = ofChars text := by
  have hblank : Loader.Within {} empty [] := ⟨rfl, rfl⟩
  exact hblank.pushLines_linesFrom text

end Brainfuck
