import Brainfuck.Proofs.Machine.StepLimit
import Brainfuck.Proofs.Program.Places

/-!
# What a fault tells

A fault is found before anything is changed. So the machine that a fault leaves is the one that the
last completed instruction has made, and the fault fits it: the instruction that the fault names is
the next one, and it would move the head off the tape at the end where the head is; or the machine
has executed as many instructions as it may and has one more to execute; or a bracket has no partner
and nothing has been executed at all. If the program was loaded from a text, the instruction can be
found in the text at the line and the column that the fault gives.
-/

namespace Brainfuck

def Fault.instruction? : Fault → Option Instruction
  | pointerTooHigh _ i => some i
  | pointerTooLow i => some i
  | unmatchedBracket u => some u.instruction
  | stepLimitExceeded _ => none

/-- The instructions of a run that were completed have made the machine `last` of the machine
`first`, and the next turn stops it with a fault. -/
def Machine.StopsWith (program : Program) (fault : Fault) (first last : Machine) : Prop :=
  ∃ table actions, JumpTable.ofInstructions program.toList = .ok table ∧
    Steps (.indexed program table) actions first last ∧ last.processed = actions.length ∧
      last.turn (.indexed program table) = .stopped fault last

/-- What a fault tells about the machine `last` that it leaves, when the run of the program began
with the machine `first`. -/
def Fault.Tells (program : Program) (first last : Machine) : Fault → Prop
  | pointerTooHigh position i =>
    Machine.StopsWith program (.pointerTooHigh position i) first last ∧
      program.instructions[last.position]? = some i ∧ i.symbol = .command .moveRight ∧
        last.tape.head + 1 = first.config.cellCount.value ∧
          position = first.config.cellCount.value
  | pointerTooLow i =>
    Machine.StopsWith program (.pointerTooLow i) first last ∧
      program.instructions[last.position]? = some i ∧ i.symbol = .command .moveLeft ∧
        last.tape.head = 0
  | stepLimitExceeded limit =>
    Machine.StopsWith program (.stepLimitExceeded limit) first last ∧
      first.config.stepLimit = some limit ∧ last.processed = limit ∧ last.position < program.size
  | unmatchedBracket u =>
    JumpTable.ofInstructions program.toList = .error u ∧ last = first ∧
      (∀ cell ∈ last.tape.cells, cell = 0) ∧ last.tape.head = 0 ∧ last.output = "" ∧
        last.processed = 0

theorem Tape.eq_zero_of_mem_blank {size : Nat} {cell : UInt8} (h : cell ∈ (blank size).cells) :
    cell = 0 :=
  (Array.mem_replicate.mp h).2

namespace Machine

/-- A program with an unmatched bracket does not run at all. -/
theorem tells_of_rejected {program : Program} {u : UnmatchedBracket}
    (rejected : JumpTable.ofInstructions program.toList = .error u) (m : Machine) (input : String) :
    (Fault.unmatchedBracket u).Tells program (m.rewind input) (m.rewind input) :=
  ⟨rejected, rfl, fun _ ↦ Tape.eq_zero_of_mem_blank, rfl, rfl, rfl⟩

/-- A machine that cannot execute the next instruction of an accepted program. -/
theorem Fails.tells {program : Program} {table : JumpTable} {actions : List Action}
    {first last : Machine} {fault : Fault}
    (accepted : JumpTable.ofInstructions program.toList = .ok table)
    (steps : Steps (.indexed program table) actions first last) (sound : first.Sound first.config)
    (hfirst : first.processed = 0) (h : last.Fails (.indexed program table) fault) :
    fault.Tells program first last := by
  have stops : StopsWith program fault first last :=
    ⟨table, actions, accepted, steps, steps.processed_eq_length hfirst, h.turn_eq⟩
  have hlast := steps.sound sound
  cases h with
  | limit fetched exhausted =>
    obtain ⟨hlimit, hle⟩ := exhausted?_eq_some_iff.mp exhausted
    rw [hlast.config_eq] at hlimit
    exact ⟨stops, hlimit, Nat.le_antisymm (hlast.processed_le _ hlimit) hle,
      (Array.getElem?_eq_some_iff.mp fetched).1⟩
  | command fetched _ isCommand refused =>
    rcases Store.fault?_eq_some_iff.mp refused with ⟨rfl, hend, rfl⟩ | ⟨rfl, hhead, rfl⟩
    · have hhead : last.tape.head + 1 = first.config.cellCount.value := by
        rw [← hlast.size_eq]
        exact Nat.le_antisymm hlast.head_lt hend
      exact ⟨stops, fetched, isCommand, hhead, hhead⟩
    · exact ⟨stops, fetched, isCommand, hhead⟩
  | jump fetched _ isBracket _ unpaired =>
    obtain ⟨target, partner⟩ := Code.exists_partner_indexed accepted fetched isBracket
    rw [unpaired] at partner
    cases partner

/-- A run of a program that ends in a fault. -/
theorem tells_of_interpret {m : Machine} {program : Program} {input : String} {j j' : Journal}
    {report : Report} {fault : Fault} (run : m.interpret program input j = some (report, j'))
    (hfault : report.result = .error fault) :
    fault.Tells program (m.rewind input) report.machine := by
  rcases interpret_cases run with ⟨u, rejected, rfl⟩ | ⟨table, actions, accepted, hends⟩
  · cases hfault
    exact tells_of_rejected rejected m input
  · exact (hends.fails hfault).tells accepted hends.steps (sound_rewind m input) rfl

end Machine

/-- A fault names an instruction of the program. -/
theorem Fault.Tells.mem {program : Program} {first last : Machine} {fault : Fault}
    {i : Instruction} (h : fault.Tells program first last) (hi : fault.instruction? = some i) :
    i ∈ program.toList := by
  cases fault with
  | pointerTooHigh position i' =>
    cases hi
    exact Array.mem_toList_iff.mpr (Array.mem_of_getElem? h.2.1)
  | pointerTooLow i' =>
    cases hi
    exact Array.mem_toList_iff.mpr (Array.mem_of_getElem? h.2.1)
  | unmatchedBracket u =>
    cases hi
    obtain ⟨before, after, hsplit, -⟩ := JumpTable.partner?_eq_none_of_ofInstructions h.1
    rw [hsplit]
    exact List.mem_append_right before List.mem_cons_self
  | stepLimitExceeded limit => cases hi

namespace Machine

/-- A run that ends in a fault leaves the machine as the fault tells. If the program was loaded from
a text, the character at the line and the column of the instruction that the fault names is the
symbol of that instruction, and the index of the instruction counts the symbols before it. -/
theorem fault_tells (m : Machine) (input : String) (j : Journal) :
    (∀ program report j' fault, m.interpret program input j = some (report, j') →
      report.result = .error fault → fault.Tells program (m.rewind input) report.machine) ∧
    ∀ text report j' fault, m.executeText text input j = some (report, j') →
      report.result = .error fault →
        fault.Tells (.ofString text) (m.rewind input) report.machine ∧
        ∀ i, fault.instruction? = some i →
          charAt? text.toList i.line i.column = some i.symbol.toChar ∧ i.StandsIn text.toList := by
  refine ⟨fun program report j' fault ↦ tells_of_interpret, ?_⟩
  intro text report j' fault run hfault
  have tells : fault.Tells (.ofString text) (m.rewind input) report.machine :=
    tells_of_interpret run hfault
  refine ⟨tells, fun i hi ↦ ?_⟩
  have stands := Program.mem_toList_ofChars.mp (tells.mem hi)
  exact ⟨stands.charAt?_eq, stands⟩

/-- On one cell the second line of a text moves the head too far. -/
theorem fault_tells_second_line :
    ∃ report j, (new ⟨⟨1, by decide⟩, none⟩).executeText "add +\nright >" "" {} = some (report, j) ∧
      report.result = .error (.pointerTooHigh 1 ⟨⟨2, 7, 1⟩, .command .moveRight⟩) ∧
      report.machine.tape.head = 0 ∧ report.machine.position = 1 ∧
      charAt? "add +\nright >".toList 2 7 = some '>' := by
  have run : (new ⟨⟨1, by decide⟩, none⟩).executeText "add +\nright >" "" {} = some (_, _) := rfl
  have tells := (fault_tells (new ⟨⟨1, by decide⟩, none⟩) "" {}).2 _ _ _ _ run rfl
  exact ⟨_, _, run, rfl, rfl, rfl, (tells.2 _ rfl).1⟩

end Machine

end Brainfuck
