import Brainfuck.Store

/-!
# Blocks

A block is a program as a tree: the body of a loop is a block of its own, so there are no brackets
left to pair and nothing to jump to. Writing a block out gives a balanced sequence of instructions,
and every balanced sequence is written by a block.

A block means a relation between the store it starts from, the number of steps it takes and what
comes of it. Meanings are put together as blocks are: one after the other, and round a loop. There
is no position in the program and no jump here. A block that never comes to an end is related to
nothing.

Steps count executed instructions. The opening bracket takes one step when a loop is come to,
whether the loop is entered or left out; the closing bracket takes one step after every pass through
the body. A command that fails takes none.
-/

namespace Brainfuck

/-- A program as a tree: nothing, or a command at its place or a loop between the places of its
brackets, each with what comes after it. -/
inductive Block where
  | nil
  | command (command : Command) (place : Place) (rest : Block)
  | loop (first : Place) (body : Block) (last : Place) (rest : Block)

namespace Block

/-- The instructions of a block in the order of the text. -/
def instructions : Block → List Instruction
  | nil => []
  | command c place rest => { place with symbol := .command c } :: rest.instructions
  | loop first body last rest =>
    { first with symbol := .bracket .opening } ::
      (body.instructions ++ { last with symbol := .bracket .closing } :: rest.instructions)

/-- A block writes a balanced sequence. -/
theorem balanced_instructions (b : Block) : Balanced b.instructions := by
  induction b with
  | nil => exact .nil
  | command c place rest ih => exact .command rfl ih
  | loop first body last rest body_ih rest_ih => exact .loop rfl body_ih rfl rest_ih

/-- Every balanced sequence is written by a block. -/
theorem exists_instructions_eq {is : List Instruction} (h : Balanced is) :
    ∃ b : Block, b.instructions = is := by
  induction h with
  | nil => exact ⟨nil, rfl⟩
  | @command i c rest isCommand _ ih =>
    obtain ⟨b, rfl⟩ := ih
    obtain ⟨place, symbol⟩ := i
    subst isCommand
    exact ⟨command c place b, rfl⟩
  | @loop first last body rest opens _ closes _ body_ih rest_ih =>
    obtain ⟨body, rfl⟩ := body_ih
    obtain ⟨rest, rfl⟩ := rest_ih
    obtain ⟨firstPlace, symbol⟩ := first
    subst opens
    obtain ⟨lastPlace, symbol⟩ := last
    subst closes
    exact ⟨loop firstPlace body lastPlace rest, rfl⟩

end Block

/-- The balanced sequences are those that blocks write. -/
theorem balanced_iff_exists_block {is : List Instruction} :
    Balanced is ↔ ∃ b : Block, b.instructions = is :=
  ⟨Block.exists_instructions_eq, fun ⟨b, h⟩ ↦ h ▸ b.balanced_instructions⟩

/-! ## The meaning of blocks -/

/-- What comes of a piece of program: it came to its end, or a command failed and left the store as
it was. -/
inductive Outcome where
  | finished (store : Store)
  | stopped (fault : Fault) (store : Store)
  deriving DecidableEq

/-- How a piece of program acts: from which store, in how many steps, to which outcome. -/
abbrev Meaning := Store → Nat → Outcome → Prop

namespace Meaning

/-- Doing nothing. -/
inductive Idle : Meaning where
  | finished {s : Store} : Idle s 0 (.finished s)

/-- Executing a single command: one step, or none if the command fails. -/
inductive Once (c : Command) (place : Place) : Meaning where
  | finished {s : Store} (allowed : s.fault? c { place with symbol := .command c } = none) :
      Once c place s 1 (.finished (s.perform c))
  | stopped {s : Store} {fault : Fault}
      (refused : s.fault? c { place with symbol := .command c } = some fault) :
      Once c place s 0 (.stopped fault s)

/-- Doing one thing after the other. A fault in the first leaves no room for the second. -/
inductive Seq (a b : Meaning) : Meaning where
  | finished {s t : Store} {m n : Nat} {o : Outcome}
      (first : a s m (.finished t)) (second : b t n o) : Seq a b s (m + n) o
  | stopped {s t : Store} {n : Nat} {fault : Fault}
      (first : a s n (.stopped fault t)) : Seq a b s n (.stopped fault t)

/-- Going through the body of a loop until the current cell is zero at its end. -/
inductive Passes (body : Meaning) : Meaning where
  | finished {s t : Store} {n : Nat}
      (pass : body s n (.finished t)) (zero : t.tape.current = 0) :
      Passes body s (n + 1) (.finished t)
  | again {s t : Store} {m n : Nat} {o : Outcome}
      (pass : body s m (.finished t)) (nonzero : t.tape.current ≠ 0)
      (others : Passes body t n o) : Passes body s (m + 1 + n) o
  | stopped {s t : Store} {n : Nat} {fault : Fault}
      (pass : body s n (.stopped fault t)) : Passes body s n (.stopped fault t)

/-- A loop around a body, which is left out when the current cell is zero. -/
inductive Loop (body : Meaning) : Meaning where
  | skipped {s : Store} (zero : s.tape.current = 0) : Loop body s 1 (.finished s)
  | entered {s : Store} {n : Nat} {o : Outcome}
      (nonzero : s.tape.current ≠ 0) (passes : Passes body s n o) : Loop body s (n + 1) o

end Meaning

def Block.meaning : Block → Meaning
  | nil => .Idle
  | command c place rest => (Meaning.Once c place).Seq rest.meaning
  | loop _ body _ rest => (Meaning.Loop body.meaning).Seq rest.meaning

end Brainfuck
