import Brainfuck.Program.Basic
import Brainfuck.Store

/-!
# Machines

A machine holds everything a run depends on or changes: the store that commands act on, the position
in the program and a count of executed instructions. It is kept after a run, whether the run ended
well or not, and rewound before the next one. Its configuration never changes: it has at least one
cell and may have a limit on the instructions of a run.

A run is a sequence of turns. In a turn a machine finds that its program is at an end, is stopped by
a fault or executes one instruction. A fault leaves the machine as the turn found it.

A taken jump goes to the partner bracket and, like every instruction, on to the position after it.
Where the partner is comes with the code: from a jump table, by the index that the instruction
carries, or from a scan that starts at the bracket each time it is needed.
-/

namespace Brainfuck

/-- A number of cells; there is at least one, since a tape without cells has no place for the
head. -/
structure CellCount where
  value : Nat
  positive : 0 < value
  deriving DecidableEq

namespace CellCount

/-- The number of cells that programs traditionally rely on. -/
def standard : CellCount where
  value := 30000
  positive := by decide

def ofNat? (n : Nat) : Option CellCount :=
  if positive : 0 < n then some ⟨n, positive⟩ else none

end CellCount

/-- What a machine is built with: the number of its cells and the number of instructions a run may
execute, if that is limited. -/
structure Config where
  cellCount : CellCount
  stepLimit : Option Nat
  deriving DecidableEq

/-- The state of an interpreter: beside its configuration and its store the position of the next
instruction and the number of instructions executed. -/
structure Machine where
  config : Config
  store : Store
  position : Nat
  processed : Nat
  deriving DecidableEq

namespace Machine

/-- A machine about to begin a run on the given input. -/
def fresh (config : Config) (input : String) : Machine where
  config
  store := .fresh config.cellCount.value input
  position := 0
  processed := 0

def new (config : Config) : Machine :=
  fresh config ""

/-- Forgets everything but the configuration and takes up new input. -/
def rewind (m : Machine) (input : String) : Machine :=
  fresh m.config input

def tape (m : Machine) : Tape :=
  m.store.tape

def output (m : Machine) : String :=
  m.store.output

/-- The limit on executed instructions, if the machine has reached it. -/
def exhausted? (m : Machine) : Option Nat :=
  m.config.stepLimit.filter (· ≤ m.processed)

/-- Counts an instruction as executed and goes to the one after the given position. -/
def completeAt (m : Machine) (position : Nat) : Machine :=
  { m with position := position + 1, processed := m.processed + 1 }

/-- Executes a command and goes to the next instruction. -/
def perform (m : Machine) (c : Command) : Machine :=
  { m with
    store := m.store.perform c
    position := m.position + 1
    processed := m.processed + 1 }

/-- Rewinding a machine makes it as good as new. -/
theorem rewind_eq_rewind_new (m : Machine) (input : String) :
    m.rewind input = (new m.config).rewind input := rfl

end Machine

/-! ## Turns -/

/-- A program made ready to run. The partner of the bracket in an instruction is asked for with the
position at which the instruction stands. -/
structure Code where
  instructions : Array Instruction
  partner? : Nat → Instruction → Option Nat

namespace Code

/-- Code that looks its jumps up in a table. -/
def indexed (program : Program) (table : JumpTable) : Code where
  instructions := program.instructions
  partner? _ i := table.partner? i.index

/-- Code that finds the target of a jump by a scan every time. -/
def scanning (program : Program) : Code where
  instructions := program.instructions
  partner? position _ := Bracket.partner? program.toList position

end Code

/-- Whether a bracket sends a run to its partner when the current cell holds the given value. -/
def Bracket.jumps : Bracket → UInt8 → Bool
  | opening, cell => cell = 0
  | closing, cell => cell ≠ 0

/-- An executed instruction and the position of the bracket that it jumped to, if it jumped. -/
structure Action where
  instruction : Instruction
  target : Option Nat
  deriving DecidableEq

def Action.events (a : Action) : List Event :=
  match a.target with
  | none => [.processing a.instruction]
  | some target => [.processing a.instruction, .jumped a.instruction.index target]

/-- What a turn comes to: no instruction is left, a fault stopped the machine, or an instruction was
executed. -/
inductive Turn where
  | finished (machine : Machine)
  | stopped (fault : Fault) (machine : Machine)
  | executed (action : Action) (machine : Machine)

/-- What a turn leaves in the journal. -/
def Turn.events : Turn → List Event
  | finished m => [.finished m.processed]
  | stopped (.stepLimitExceeded limit) _ => [.limitReached limit]
  | stopped (.unmatchedBracket u) _ => [.processing u.instruction]
  | stopped (.pointerTooHigh position i) _ =>
    [.processing i, .faulted (.pointerTooHigh position i)]
  | stopped (.pointerTooLow i) _ => [.processing i, .faulted (.pointerTooLow i)]
  | executed action _ => action.events

namespace Machine

def command (m : Machine) (c : Command) (i : Instruction) : Turn :=
  match m.store.fault? c i with
  | some fault => .stopped fault m
  | none => .executed ⟨i, none⟩ (m.perform c)

/-- Jumps from a bracket to its partner. -/
def jump (m : Machine) (code : Code) (b : Bracket) (i : Instruction) : Turn :=
  match code.partner? m.position i with
  | some target => .executed ⟨i, some target⟩ (m.completeAt target)
  | none => .stopped (.unmatchedBracket ⟨b, i⟩) m

def execute (m : Machine) (code : Code) (i : Instruction) : Turn :=
  match i.symbol with
  | .command c => m.command c i
  | .bracket b =>
    if b.jumps m.tape.current then m.jump code b i
    else .executed ⟨i, none⟩ (m.completeAt m.position)

/-- Takes one turn. The step limit matters only while an instruction is left. -/
def turn (m : Machine) (code : Code) : Turn :=
  match code.instructions[m.position]? with
  | none => .finished m
  | some i =>
    match m.exhausted? with
    | some limit => .stopped (.stepLimitExceeded limit) m
    | none => m.execute code i

end Machine

end Brainfuck
