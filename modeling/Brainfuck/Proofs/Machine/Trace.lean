import Brainfuck.Proofs.Machine.Recurrence

/-!
# Traces

The trace of a run lists the instructions that the run executes, each with the machine that it
finds. What an instruction does can be read off this machine; in particular, an output command
writes the value of the cell under the head. So the values that a run writes can be read off its
trace, and the output of the run has one character for each of them and no others, in the same
order, however the run ends.
-/

namespace Brainfuck

/-- The value that an executed instruction writes when it finds the given machine, if it writes
one. -/
def Action.printed? (a : Action) (m : Machine) : Option UInt8 :=
  if a.instruction.symbol = .command .output then some m.tape.current else none

def printed (trace : List (Machine × Action)) : List UInt8 :=
  trace.filterMap fun (m, action) ↦ action.printed? m

def outputChars (values : List UInt8) : List Char :=
  values.map fun value ↦ Char.ofNat value.toNat

namespace Machine

/-- The first `count` instructions that a run executes, each with the machine that it finds; fewer
if the run ends before. -/
def trace (code : Code) : (count : Nat) → Machine → List (Machine × Action)
  | 0, _ => []
  | count + 1, m =>
    match m.turn code with
    | .executed action next => (m, action) :: trace code count next
    | .finished _ => []
    | .stopped _ _ => []

/-- The trace of the run of a program from its beginning. A rejected program executes nothing. -/
def programTrace (m : Machine) (program : Program) (input : String) (count : Nat) :
    List (Machine × Action) :=
  match JumpTable.ofInstructions program.toList with
  | .ok table => trace (.indexed program table) count (m.rewind input)
  | .error _ => []

/-! ## One instruction -/

theorem trace_of_executed {m next : Machine} {code : Code} {action : Action}
    (first : m.turn code = .executed action next) (count : Nat) :
    trace code (count + 1) m = (m, action) :: trace code count next := by
  rw [trace, first]

theorem printed_cons (m : Machine) (action : Action) (others : List (Machine × Action)) :
    printed ((m, action) :: others) = (action.printed? m).toList ++ printed others := by
  cases hprinted : action.printed? m with
  | none => exact List.filterMap_cons_none hprinted
  | some value => exact List.filterMap_cons_some hprinted

theorem printed?_of_command {a : Action} {c : Command} (m : Machine)
    (h : a.instruction.symbol = .command c) :
    a.printed? m = if c = .output then some m.tape.current else none := by
  simp only [Action.printed?, h, Symbol.command.injEq]

theorem printed?_of_bracket {a : Action} {b : Bracket} (m : Machine)
    (h : a.instruction.symbol = .bracket b) : a.printed? m = none := by
  simp only [Action.printed?, h, reduceCtorEq, if_false]

/-- Only the output command adds something to the output. -/
theorem output_perform_eq (s : Store) (c : Command) :
    (s.perform c).output.toList = s.output.toList ++
      outputChars (if c = .output then some s.tape.current else none).toList := by
  cases c with
  | output => exact String.toList_push _
  | moveRight => exact (List.append_nil _).symm
  | moveLeft => exact (List.append_nil _).symm
  | increment => exact (List.append_nil _).symm
  | decrement => exact (List.append_nil _).symm
  | input => exact (List.append_nil _).symm

/-- An executed instruction adds to the output what it writes. -/
theorem Executes.output_eq {m next : Machine} {code : Code} {action : Action}
    (h : m.Executes code action next) :
    next.output.toList = m.output.toList ++ outputChars (action.printed? m).toList := by
  cases h with
  | command _ _ isCommand _ =>
    rw [printed?_of_command m isCommand]
    exact output_perform_eq m.store _
  | pass _ _ isBracket =>
    rw [printed?_of_bracket m isBracket]
    exact (List.append_nil _).symm
  | jump _ _ isBracket =>
    rw [printed?_of_bracket m isBracket]
    exact (List.append_nil _).symm

/-! ## Runs -/

/-- The trace of a run has the instructions of the run, each of them once. -/
theorem Steps.map_trace {code : Code} {actions : List Action} {m last : Machine}
    (h : Steps code actions m last) :
    (trace code actions.length m).map Prod.snd = actions := by
  induction h with
  | refl => rfl
  | cons first _ ih => rw [List.length_cons, trace_of_executed first, List.map_cons, ih]

theorem Steps.length_trace {code : Code} {actions : List Action} {m last : Machine}
    (h : Steps code actions m last) : (trace code actions.length m).length = actions.length := by
  have hlength := congrArg List.length h.map_trace
  rwa [List.length_map] at hlength

/-- A run adds to the output what the instructions of its trace write. -/
theorem Steps.output_eq {code : Code} {actions : List Action} {m last : Machine}
    (h : Steps code actions m last) :
    last.output.toList =
      m.output.toList ++ outputChars (printed (trace code actions.length m)) := by
  induction h with
  | refl => exact (List.append_nil _).symm
  | @cons action actions m next last first _ ih =>
    calc
      last.output.toList =
          next.output.toList ++ outputChars (printed (trace code actions.length next)) := ih
      _ = m.output.toList ++ (outputChars (action.printed? m).toList ++
          outputChars (printed (trace code actions.length next))) := by
        rw [(turn_eq_executed_iff.mp first).output_eq, List.append_assoc]
      _ = m.output.toList ++
          outputChars (printed (trace code (action :: actions).length m)) := by
        rw [List.length_cons, trace_of_executed first, printed_cons, outputChars, outputChars,
          outputChars, List.map_append]

/-- What is written stays written. -/
theorem Steps.output_prefix {code : Code} {actions : List Action} {m last : Machine}
    (h : Steps code actions m last) : m.output.toList <+: last.output.toList := by
  rw [h.output_eq]
  exact List.prefix_append _ _

/-! ## Runs of programs -/

theorem programTrace_of_accepted {program : Program} {table : JumpTable}
    (accepted : JumpTable.ofInstructions program.toList = .ok table) (m : Machine)
    (input : String) (count : Nat) :
    m.programTrace program input count =
      trace (.indexed program table) count (m.rewind input) := by
  unfold programTrace
  rw [accepted]

theorem programTrace_of_rejected {program : Program} {u : UnmatchedBracket}
    (rejected : JumpTable.ofInstructions program.toList = .error u) (m : Machine)
    (input : String) (count : Nat) : m.programTrace program input count = [] := by
  unfold programTrace
  rw [rejected]

/-- When a run is over, its trace has every instruction that was executed, and the output is what
they write. -/
theorem output_eq_of_report {m : Machine} {program : Program} {input : String} {j : Journal}
    {report : Report} (h : m.report? program input j = some report) :
    (m.programTrace program input report.machine.processed).length = report.machine.processed ∧
      report.machine.output.toList =
        outputChars (printed (m.programTrace program input report.machine.processed)) := by
  obtain ⟨_, run⟩ := report?_eq_some_iff.mp h
  rcases interpret_cases run with ⟨u, rejected, rfl⟩ | ⟨table, actions, accepted, hends⟩
  · rw [programTrace_of_rejected rejected]
    exact ⟨rfl, rfl⟩
  · have hcount : report.machine.processed = actions.length := hends.steps.processed_eq_length rfl
    rw [programTrace_of_accepted accepted, hcount]
    exact ⟨hends.steps.length_trace, hends.steps.output_eq⟩

/-- The journal that a run is noted in has no influence on its report. -/
theorem report?_eq_report? (m : Machine) (program : Program) (input : String) (j j' : Journal) :
    m.report? program input j = m.report? program input j' := by
  apply Option.ext
  intro report
  cases htable : JumpTable.ofInstructions program.toList with
  | error u => rw [report?_of_rejected htable, report?_of_rejected htable]
  | ok table => rw [report?_of_accepted htable, report?_of_accepted htable]

end Machine

end Brainfuck
