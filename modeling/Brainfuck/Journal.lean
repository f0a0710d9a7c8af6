import Brainfuck.Bracket

/-!
# Faults and the journal

A run ends early for one of four causes. A fault carries what its report needs: the instruction at
which the head would leave the tape, the bracket without a partner, or the limit that was reached.

What happens while programs are loaded and run is noted in a journal. An event says what happened;
its level says how much it matters and its message is what a reader sees. A journal has a threshold
and keeps the events that are at least that severe, in the order in which they happened.
-/

namespace Brainfuck

/-- Why a run ended before the end of its program. The position of `pointerTooHigh` is the one
behind the last cell, where the head would have gone. -/
inductive Fault where
  | pointerTooHigh (position : Nat) (instruction : Instruction)
  | pointerTooLow (instruction : Instruction)
  | unmatchedBracket (unmatched : UnmatchedBracket)
  | stepLimitExceeded (limit : Nat)
  deriving DecidableEq

def Fault.message : Fault → String
  | pointerTooHigh position i => "pointer too high: " ++ toString position ++ " at " ++ i.describe
  | pointerTooLow i => "pointer too low at " ++ i.describe
  | unmatchedBracket u => u.message
  | stepLimitExceeded limit => "step limit exceeded (" ++ toString limit ++ ")"

/-! ## The journal -/

/-- How much an event matters. -/
inductive Level where
  | error
  | info
  | debug
  | trace
  deriving DecidableEq

namespace Level

/-- The place of a level, from the most severe on. -/
def rank : Level → Nat
  | error => 0
  | info => 1
  | debug => 2
  | trace => 3

def name : Level → String
  | error => "ERROR"
  | info => "INFO"
  | debug => "DEBUG"
  | trace => "TRACE"

end Level

/-- Something that happened. A run that its step limit stops is told by `limitReached`, one that any
other fault stops by `faulted`. -/
inductive Event where
  | loaded (size : Nat)
  | standardCellCount (cells : Nat)
  | noStepLimit
  | started (size cells : Nat)
  | processing (instruction : Instruction)
  | jumped (origin target : Nat)
  | finished (processed : Nat)
  | limitReached (limit : Nat)
  | faulted (fault : Fault)
  deriving DecidableEq

namespace Event

def level : Event → Level
  | standardCellCount _ | noStepLimit => .info
  | loaded _ | started _ _ | jumped _ _ | finished _ => .debug
  | processing _ => .trace
  | limitReached _ | faulted _ => .error

def message : Event → String
  | loaded size => "Loaded " ++ toString size ++ " instructions"
  | standardCellCount cells => "Using default cell count " ++ toString cells
  | noStepLimit => "No step limit set"
  | started size cells =>
    "Running " ++ toString size ++ " instructions on " ++ toString cells ++ " cells"
  | processing i => "Processing instruction: " ++ i.describe
  | jumped origin target => "Jumping from " ++ toString origin ++ " to " ++ toString target
  | finished processed => "Program finished after " ++ toString processed ++ " instructions"
  | limitReached limit => "Step limit of " ++ toString limit ++ " reached"
  | faulted fault => fault.message

end Event

/-- A record of events in the order in which they happened. Without a threshold nothing is kept. -/
structure Journal where
  threshold : Option Level := none
  events : Array Event := #[]

namespace Journal

def keeps (j : Journal) (l : Level) : Bool :=
  match j.threshold with
  | none => false
  | some threshold => l.rank ≤ threshold.rank

/-- Notes an event if its level is no less severe than the threshold. -/
def note (j : Journal) (e : Event) : Journal :=
  if j.keeps e.level then { j with events := j.events.push e } else j

def noteAll (j : Journal) (events : List Event) : Journal :=
  events.foldl note j

end Journal

end Brainfuck
