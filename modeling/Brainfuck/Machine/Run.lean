import Brainfuck.Machine.Basic
import Brainfuck.Program.Journaled

/-!
# Runs

A run takes turns until one of them ends it. `advance` takes a bounded number of turns; `run` goes
on for as long as it can matter. A machine with a step limit takes at most one turn more than its
limit. Without a limit, a machine that has taken more turns than it has situations to be in has been
in one of them twice, and will be for ever. A situation is a position within the program, a position
of the head, the values of the cells and the number of characters read. So a run that is not over
within `horizon` turns never ends, and `run` has no value for it.

The turns are taken in rounds, each with twice as many turns as the one before, so that a short run
costs little however far the horizon is. Together they are as good as one long round.

Between its beginning and its end a run goes through a sequence of machines, one after every
executed instruction. `Steps code actions m last` says that a run goes from the machine `m` to the
machine `last` by executing the instructions of `actions`, in that order. A machine has one future
at most, so `m` and the number of actions determine both `last` and the actions.

To interpret a program, a machine is rewound, the brackets of the program are paired and the run
begins. A program with an unmatched bracket does not run at all: the fault is reported before the
first instruction, whatever the step limit.

A machine is used for one run after another. `History config m` says that `m` is what a new machine
with a configuration has become after some runs, whatever programs were run and however the runs
ended.

Settings are the choices made before a machine is built; what was left open gets its standard value
when it is built.
-/

namespace Brainfuck

/-- How a run ended and the machine it left. A run to the end of its program has its output as
result. -/
structure Report where
  result : Except Fault String
  machine : Machine

/-- What comes of a bounded number of turns: all of them were taken and the run is not over, or it
is. -/
inductive Progress where
  | unfinished (machine : Machine) (journal : Journal)
  | ended (report : Report) (journal : Journal)

def Progress.ended? : Progress → Option (Report × Journal)
  | unfinished _ _ => none
  | ended report j => some (report, j)

theorem Progress.ended?_eq_some_iff {p : Progress} {report : Report} {j : Journal} :
    p.ended? = some (report, j) ↔ p = .ended report j := by
  cases p <;> simp [ended?]

namespace Machine

/-- Takes at most the given number of turns. -/
def advance (code : Code) : Nat → Machine → Journal → Progress
  | 0, m, j => .unfinished m j
  | turns + 1, m, j =>
    let turn := m.turn code
    let j := j.noteAll turn.events
    match turn with
    | .finished m => .ended ⟨.ok m.output, m⟩ j
    | .stopped fault m => .ended ⟨.error fault, m⟩ j
    | .executed _ m => advance code turns m j

def rounds (code : Code) :
    (count turns : Nat) → Machine → Journal → Option (Report × Journal)
  | 0, _, _, _ => none
  | count + 1, turns, m, j =>
    match advance code turns m j with
    | .unfinished m j => rounds code count (2 * turns) m j
    | .ended report j => some (report, j)

/-- The number of situations inside a program of the given size that a run of the machine can be
in. -/
def situations (m : Machine) (size : Nat) : Nat :=
  size * m.config.cellCount.value * Nat.pow 256 m.config.cellCount.value *
    (m.store.input.size + 1)

/-- A number of turns within which every run of the machine ends that ends at all. -/
def horizon (m : Machine) (size : Nat) : Nat :=
  match m.config.stepLimit with
  | some limit => limit + 1
  | none => m.situations size + 1

/-- Runs a machine from where it stands; no value means that the run never ends. -/
def run (m : Machine) (code : Code) (j : Journal) : Option (Report × Journal) :=
  rounds code ((m.horizon code.instructions.size).log2 + 1) 1 m j

/-! ## Rounds add up -/

/-- Turns can be taken in two goes. -/
theorem advance_add (code : Code) (a b : Nat) (m : Machine) (j : Journal) :
    advance code (a + b) m j =
      match advance code a m j with
      | .unfinished m j => advance code b m j
      | .ended report j => .ended report j := by
  induction a generalizing m j with
  | zero => rw [Nat.zero_add]; rfl
  | succ a ih =>
    rw [Nat.succ_add]
    simp only [advance]
    cases m.turn code with
    | finished m => rfl
    | stopped fault m => rfl
    | executed action m => exact ih m _

/-- More turns do not change a run that is over. -/
theorem advance_of_le {code : Code} {a b : Nat} {m : Machine} {j j' : Journal} {report : Report}
    (h : advance code a m j = .ended report j') (hab : a ≤ b) :
    advance code b m j = .ended report j' := by
  obtain ⟨k, rfl⟩ := Nat.exists_eq_add_of_le hab
  rw [advance_add, h]

/-- The number of turns in some rounds, each of twice as many turns as the one before. -/
def turnsInRounds : (count turns : Nat) → Nat
  | 0, _ => 0
  | count + 1, turns => turns + turnsInRounds count (2 * turns)

/-- Rounds come to the same as all their turns at once. -/
theorem rounds_eq (code : Code) (count turns : Nat) (m : Machine) (j : Journal) :
    rounds code count turns m j = (advance code (turnsInRounds count turns) m j).ended? := by
  induction count generalizing turns m j with
  | zero => rfl
  | succ count ih =>
    rw [turnsInRounds, advance_add, rounds]
    cases advance code turns m j with
    | unfinished m j => exact ih _ _ _
    | ended report j => rfl

theorem turnsInRounds_add (count turns : Nat) :
    turnsInRounds count turns + turns = turns * Nat.pow 2 count := by
  induction count generalizing turns with
  | zero => exact (Nat.zero_add turns).trans (Nat.mul_one turns).symm
  | succ count ih =>
    have hrest := ih (2 * turns)
    have hpow : Nat.pow 2 (count + 1) = Nat.pow 2 count * 2 := rfl
    rw [turnsInRounds, hpow]
    generalize Nat.pow 2 count = power at hrest ⊢
    grind

/-- The rounds of a run reach as far as they have to. -/
theorem le_turnsInRounds (n : Nat) : n ≤ turnsInRounds (n.log2 + 1) 1 := by
  have hlt : n < Nat.pow 2 (n.log2 + 1) := Nat.lt_log2_self
  have hadd := turnsInRounds_add (n.log2 + 1) 1
  omega

/-- A run has the outcome that any number of turns up to the horizon brings about. -/
theorem run_eq_some_of_advance {code : Code} {turns : Nat} {m : Machine} {j j' : Journal}
    {report : Report} (h : advance code turns m j = .ended report j')
    (hle : turns ≤ m.horizon code.instructions.size) : m.run code j = some (report, j') := by
  rw [run, rounds_eq, advance_of_le h (Nat.le_trans hle (le_turnsInRounds _))]
  rfl

/-- A run with an outcome comes to it after finitely many turns. -/
theorem exists_advance_of_run {code : Code} {m : Machine} {j j' : Journal} {report : Report}
    (h : m.run code j = some (report, j')) :
    ∃ turns, advance code turns m j = .ended report j' := by
  rw [run, rounds_eq, Progress.ended?_eq_some_iff] at h
  exact ⟨_, h⟩

/-! ## Steps of a run -/

/-- Some executed instructions lead from one machine to another. -/
inductive Steps (code : Code) : List Action → Machine → Machine → Prop where
  | refl {m : Machine} : Steps code [] m m
  | cons {action : Action} {actions : List Action} {m next last : Machine}
      (first : m.turn code = .executed action next) (others : Steps code actions next last) :
      Steps code (action :: actions) m last

namespace Steps

theorem trans {code : Code} {as bs : List Action} {m next last : Machine}
    (first : Steps code as m next) (second : Steps code bs next last) :
    Steps code (as ++ bs) m last := by
  induction first with
  | refl => exact second
  | cons first _ ih => exact .cons first (ih second)

/-- As many steps from the same machine are the same steps. -/
theorem unique {code : Code} {as bs : List Action} {m a b : Machine}
    (ha : Steps code as m a) (hb : Steps code bs m b) (h : as.length = bs.length) :
    as = bs ∧ a = b := by
  induction ha generalizing bs with
  | refl =>
    obtain rfl := List.length_eq_zero_iff.mp h.symm
    cases hb
    exact ⟨rfl, rfl⟩
  | cons first _ ih =>
    cases hb with
    | refl => cases h
    | cons first' others =>
      obtain ⟨rfl, rfl⟩ := Turn.executed.inj (first.symm.trans first')
      obtain ⟨rfl, rfl⟩ := ih others (Nat.succ.inj h)
      exact ⟨rfl, rfl⟩

/-- Taking turns goes along the steps and notes them on the way. -/
theorem advance_eq {code : Code} {actions : List Action} {m last : Machine}
    (steps : Steps code actions m last) (turns : Nat) (j : Journal) :
    advance code (actions.length + turns) m j =
      advance code turns last (j.noteAll (actions.flatMap Action.events)) := by
  induction steps generalizing j with
  | refl => rw [List.length_nil, Nat.zero_add]; rfl
  | @cons action actions m next last first others ih =>
    rw [List.length_cons, Nat.succ_add, advance, first]
    simp only [Turn.events, List.flatMap_cons, Journal.noteAll, List.foldl_append]
    exact ih _

end Steps

end Machine

/-! ## Interpreting programs -/

namespace JumpTable

/-- Pairs the brackets of a sequence of instructions and notes a bracket without a partner. -/
def prepare (instructions : List Instruction) (j : Journal) :
    Except UnmatchedBracket JumpTable × Journal :=
  match ofInstructions instructions with
  | .ok table => (.ok table, j)
  | .error u => (.error u, j.note (.faulted (.unmatchedBracket u)))

end JumpTable

namespace Machine

/-- Runs a program from its beginning on new input. -/
def interpret (m : Machine) (program : Program) (input : String) (j : Journal) :
    Option (Report × Journal) :=
  let m := m.rewind input
  match JumpTable.prepare program.toList j with
  | (.error u, j) => some (⟨.error (.unmatchedBracket u), m⟩, j)
  | (.ok table, j) =>
    m.run (.indexed program table) (j.note (.started program.size m.tape.size))

/-- Loads a program from text and runs it. -/
def executeText (m : Machine) (text input : String) (j : Journal) : Option (Report × Journal) :=
  let (program, j) := Program.load text j
  m.interpret program input j

/-- The machines that a new machine becomes by running programs. -/
inductive History (config : Config) : Machine → Prop where
  | new : History config (.new config)
  | interpreted {m : Machine} {program : Program} {input : String} {j j' : Journal}
      {report : Report} (before : History config m)
      (run : m.interpret program input j = some (report, j')) : History config report.machine

end Machine

/-! ## Building machines -/

/-- The choices for a machine. -/
structure Settings where
  cellCount : Option CellCount := none
  stepLimit : Option Nat := none
  deriving DecidableEq

namespace Settings

def config (s : Settings) : Config where
  cellCount := s.cellCount.getD .standard
  stepLimit := s.stepLimit

/-- What is noted when a machine is built. -/
def events (s : Settings) : List Event :=
  (if s.cellCount = none then [.standardCellCount CellCount.standard.value] else []) ++
    if s.stepLimit = none then [.noStepLimit] else []

def build (s : Settings) (j : Journal) : Machine × Journal :=
  (.new s.config, j.noteAll s.events)

end Settings

/-- Runs a program text once, on a new machine without a step limit. -/
def execute (text input : String) (cells : CellCount) (j : Journal) :
    Option (Except Fault String × Journal) :=
  let (m, j) := Settings.build { cellCount := some cells } j
  (m.executeText text input j).map fun (report, j) ↦ (report.result, j)

end Brainfuck
