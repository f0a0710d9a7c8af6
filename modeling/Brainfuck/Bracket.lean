import Brainfuck.Instruction

/-!
# Brackets

The brackets of a program pair up if the program is balanced. The partner of a bracket is found by
walking away from it, forward from an opening bracket and backward from a closing one. The walk
counts the loops it has entered and not left again; the partner is the first bracket of the other
kind met outside all of them. Nothing but the instructions passed on the way has any influence on
the answer.

A jump table holds the partner of every bracket of a program, so that a jump costs one look-up. It
is built in a single pass that keeps the opening brackets still waiting for their partner, the
innermost first. A closing bracket met while none is waiting is reported at once; brackets left
waiting at the end are reported by the innermost of them.
-/

namespace Brainfuck

/-- The sequences of instructions in which every bracket has a partner. A balanced sequence is
empty, or a command followed by a balanced sequence, or a loop around a balanced sequence followed
by a balanced sequence. -/
inductive Balanced : List Instruction → Prop where
  | nil : Balanced []
  | command {i : Instruction} {c : Command} {rest : List Instruction}
      (isCommand : i.symbol = .command c) (balanced : Balanced rest) : Balanced (i :: rest)
  | loop {first last : Instruction} {body rest : List Instruction}
      (opens : first.symbol = .bracket .opening) (inner : Balanced body)
      (closes : last.symbol = .bracket .closing) (balanced : Balanced rest) :
      Balanced (first :: (body ++ last :: rest))

/-! ## Scanning for a partner -/

namespace Bracket

/-- Walks away from a bracket of the given kind and returns how many instructions lie between it and
its partner. `depth` counts the loops entered on the way and `passed` the instructions passed. -/
def walk (b : Bracket) : (depth passed : Nat) → List Instruction → Option Nat
  | _, _, [] => none
  | depth, passed, i :: rest =>
    match i.symbol with
    | .command _ => walk b depth (passed + 1) rest
    | .bracket met =>
      if met = b then walk b (depth + 1) (passed + 1) rest
      else match depth with
        | 0 => some passed
        | depth + 1 => walk b depth (passed + 1) rest

/-- The position of the partner of the bracket at a position. There is none if that position holds
no bracket or lies past the end, or if the walk runs off the sequence. -/
def partner? (instructions : List Instruction) (position : Nat) : Option Nat :=
  match instructions[position]?.map Instruction.symbol with
  | some (.bracket opening) =>
    (walk opening 0 0 (instructions.drop (position + 1))).map (position + 1 + ·)
  | some (.bracket closing) =>
    (walk closing 0 0 (instructions.take position).reverse).map (position - 1 - ·)
  | _ => none

/-- The character of a bracket between single quotes. -/
def quoted (b : Bracket) : String :=
  "'" ++ (Symbol.bracket b).toChar.toString ++ "'"

end Bracket

/-! ## Pairing all brackets in one pass -/

/-- A bracket that has no partner, with the instruction that holds it. -/
structure UnmatchedBracket where
  bracket : Bracket
  instruction : Instruction
  deriving DecidableEq

/-- The report of an unmatched bracket, such as `unmatched '[' at 1:1 Conditional Forward ([)`. -/
def UnmatchedBracket.message (u : UnmatchedBracket) : String :=
  "unmatched " ++ u.bracket.quoted ++ " at " ++ u.instruction.describe

/-- The partners of the brackets of a sequence of instructions, by position, with one entry for
every instruction. -/
structure JumpTable where
  partners : Array (Option Nat)
  deriving DecidableEq

def JumpTable.partner? (t : JumpTable) (position : Nat) : Option Nat :=
  t.partners.getD position none

/-- A jump table under construction: the number of instructions visited, the opening brackets that
wait for a partner with their positions, the innermost first, and the entries so far. -/
structure Pairing where
  position : Nat
  waiting : List (Nat × Instruction)
  partners : Array (Option Nat)

namespace Pairing

/-- The construction before the first of `size` instructions. -/
def blank (size : Nat) : Pairing where
  position := 0
  waiting := []
  partners := Array.replicate size none

/-- Makes two positions partners of each other. -/
def link (partners : Array (Option Nat)) (first last : Nat) : Array (Option Nat) :=
  (partners.setIfInBounds first (some last)).setIfInBounds last (some first)

/-- Visits the next instruction. -/
def visit (p : Pairing) (i : Instruction) : Except UnmatchedBracket Pairing :=
  match i.symbol with
  | .command _ => .ok { p with position := p.position + 1 }
  | .bracket .opening =>
    .ok { p with position := p.position + 1, waiting := (p.position, i) :: p.waiting }
  | .bracket .closing =>
    match p.waiting with
    | [] => .error ⟨.closing, i⟩
    | (first, _) :: waiting =>
      .ok {
        position := p.position + 1
        waiting
        partners := link p.partners first p.position }

def visitAll (p : Pairing) (instructions : List Instruction) : Except UnmatchedBracket Pairing :=
  instructions.foldlM visit p

/-- The table, unless an opening bracket is still waiting. -/
def finish (p : Pairing) : Except UnmatchedBracket JumpTable :=
  match p.waiting with
  | [] => .ok ⟨p.partners⟩
  | (_, i) :: _ => .error ⟨.opening, i⟩

end Pairing

/-- Pairs the brackets of a sequence of instructions. Positions count within the sequence, whatever
index the instructions carry. -/
def JumpTable.ofInstructions (instructions : List Instruction) :
    Except UnmatchedBracket JumpTable :=
  (Pairing.blank instructions.length).visitAll instructions >>= Pairing.finish

end Brainfuck
