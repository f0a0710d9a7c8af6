import Brainfuck.Proofs.Bracket.OnePass
import Brainfuck.Proofs.Machine.Rules

/-!
# What every machine keeps

A machine is sound for a configuration when its tape has the configured size, its head is over a
cell, its cursor is within the input and it has not counted more instructions than its limit allows.
A new machine is sound, one turn keeps a machine sound whichever rule it follows, and so every
machine that a run goes through is sound, and every machine that a history of runs leads to. Jumps
stay inside the program because a jump table holds only positions of the program. So neither a look
at the current cell nor a look at the next instruction ever misses.
-/

namespace Brainfuck

/-! ## Where jumps go -/

/-- No jump from an instruction of the code leads out of it. -/
def Code.Closed (code : Code) : Prop :=
  ∀ position i target, code.instructions[position]? = some i →
    code.partner? position i = some target → target < code.instructions.size

/-- The index that an instruction carries is the position it stands at, so looking it up is as good
as scanning from it. -/
theorem Code.partner?_indexed {program : Program} {table : JumpTable}
    (accepted : JumpTable.ofInstructions program.toList = .ok table) {position : Nat}
    {i : Instruction} (fetched : program.instructions[position]? = some i) :
    (Code.indexed program table).partner? position i =
      Bracket.partner? program.toList position := by
  obtain ⟨hlt, rfl⟩ := Array.getElem?_eq_some_iff.mp fetched
  calc
    (Code.indexed program table).partner? position program.instructions[position] =
        table.partner? program.instructions[position].index := rfl
    _ = table.partner? position := by rw [program.index_eq position hlt]
    _ = Bracket.partner? program.toList position :=
      (JumpTable.balanced_of_ofInstructions accepted).2 position

theorem Code.closed_indexed {program : Program} {table : JumpTable}
    (accepted : JumpTable.ofInstructions program.toList = .ok table) :
    (Code.indexed program table).Closed := by
  intro position i target fetched partner
  rw [Code.partner?_indexed accepted fetched] at partner
  have hlt := Bracket.lt_length_of_partner? partner
  rwa [Program.length_toList] at hlt

/-- A bracket of an accepted program has somewhere to jump to. -/
theorem Code.exists_partner_indexed {program : Program} {table : JumpTable}
    (accepted : JumpTable.ofInstructions program.toList = .ok table) {position : Nat}
    {i : Instruction} {b : Bracket} (fetched : program.instructions[position]? = some i)
    (isBracket : i.symbol = .bracket b) :
    ∃ target, (Code.indexed program table).partner? position i = some target := by
  rw [Code.partner?_indexed accepted fetched]
  apply Bracket.exists_partner_of_balanced (JumpTable.balanced_of_ofInstructions accepted).1
  rw [Program.toList, Array.getElem?_toList, fetched, Option.map_some, isBracket]

namespace Machine

/-! ## Sound machines -/

/-- What holds of every machine with a configuration, before, during and after runs: the tape has as
many cells as were asked for, each with a byte, the head is over one of them, no more characters
were read than there are, and no more instructions were executed than the limit allows. -/
structure Sound (config : Config) (m : Machine) : Prop where
  config_eq : m.config = config
  size_eq : m.tape.size = config.cellCount.value
  cells_le : ∀ cell ∈ m.tape.cells, cell.toNat ≤ 255
  head_lt : m.tape.head < m.tape.size
  cursor_le : m.store.cursor ≤ m.store.input.size
  processed_le : ∀ limit, config.stepLimit = some limit → m.processed ≤ limit

theorem byte_le (cell : UInt8) : cell.toNat ≤ 255 :=
  Nat.le_of_lt_succ cell.toNat_lt

theorem sound_rewind (m : Machine) (input : String) : (m.rewind input).Sound m.config where
  config_eq := rfl
  size_eq := Tape.size_blank _
  cells_le cell _ := byte_le cell
  head_lt := by
    have hsize : (m.rewind input).tape.size = m.config.cellCount.value := Tape.size_blank _
    rw [hsize]
    exact m.config.cellCount.positive
  cursor_le := Nat.zero_le _
  processed_le _ _ := Nat.zero_le _

theorem sound_new (config : Config) : (new config).Sound config :=
  sound_rewind (new config) ""

theorem lt_of_exhausted?_eq_none {m : Machine} (h : m.exhausted? = none) {limit : Nat}
    (hlimit : m.config.stepLimit = some limit) : m.processed < limit := by
  rw [exhausted?, hlimit, Option.filter_some] at h
  apply Nat.lt_of_not_le
  intro hle
  rw [if_pos (decide_eq_true hle)] at h
  cases h

/-- Executing an instruction keeps a machine sound. -/
theorem Executes.sound {m next : Machine} {code : Code} {action : Action} {config : Config}
    (h : m.Executes code action next) (sound : m.Sound config) : next.Sound config := by
  have hprocessed : ∀ limit, config.stepLimit = some limit → next.processed ≤ limit := by
    intro limit hlimit
    rw [← sound.config_eq] at hlimit
    rw [h.processed_eq]
    exact lt_of_exhausted?_eq_none h.running hlimit
  have hconfig : next.config = config := h.config_eq.trans sound.config_eq
  rcases h.store_eq with hstore | ⟨c, -, allowed, hstore⟩
  · exact {
      config_eq := hconfig
      size_eq := by rw [tape, hstore]; exact sound.size_eq
      cells_le := fun cell _ ↦ byte_le cell
      head_lt := by rw [tape, hstore]; exact sound.head_lt
      cursor_le := by rw [hstore]; exact sound.cursor_le
      processed_le := hprocessed }
  · exact {
      config_eq := hconfig
      size_eq := by rw [tape, hstore, Store.size_perform]; exact sound.size_eq
      cells_le := fun cell _ ↦ byte_le cell
      head_lt := by rw [tape, hstore]; exact Store.head_perform_lt allowed sound.head_lt
      cursor_le := by rw [hstore]; exact Store.cursor_perform_le c sound.cursor_le
      processed_le := hprocessed }

/-- A jump lands inside the program, so the position after it is at most the program's size. -/
theorem Executes.position_le {m next : Machine} {code : Code} {action : Action}
    (h : m.Executes code action next) (closed : code.Closed) :
    next.position ≤ code.instructions.size := by
  have hlt := h.lt_size
  cases h with
  | command => exact hlt
  | pass => exact hlt
  | jump fetched _ _ _ partner => exact closed _ _ _ fetched partner

namespace Steps

theorem sound {code : Code} {actions : List Action} {m last : Machine} {config : Config}
    (h : Steps code actions m last) (sound : m.Sound config) : last.Sound config := by
  induction h with
  | refl => exact sound
  | cons first _ ih => exact ih ((turn_eq_executed_iff.mp first).sound sound)

theorem position_le {code : Code} {actions : List Action} {m last : Machine}
    (h : Steps code actions m last) (closed : code.Closed)
    (hm : m.position ≤ code.instructions.size) : last.position ≤ code.instructions.size := by
  induction h with
  | refl => exact hm
  | cons first _ ih => exact ih ((turn_eq_executed_iff.mp first).position_le closed)

end Steps

/-- A run to the end of its program stops right behind the last instruction. -/
theorem Ends.position_eq {code : Code} {actions : List Action} {m : Machine} {report : Report}
    {out : String} (h : Ends code actions m report) (hout : report.result = .ok out)
    (hle : report.machine.position ≤ code.instructions.size) :
    report.machine.position = code.instructions.size := by
  have hnone := h.getElem?_eq_none hout
  rw [Array.getElem?_eq_none_iff] at hnone
  exact Nat.le_antisymm hle hnone

/-! ## Runs of programs -/

theorem exists_ends_of_run {code : Code} {m : Machine} {j j' : Journal} {report : Report}
    (h : m.run code j = some (report, j')) :
    ∃ actions, Ends code actions m report ∧ j' = j.noteAll (runEvents code actions report) := by
  obtain ⟨turns, hadvance⟩ := exists_advance_of_run h
  obtain ⟨actions, -, hends, hj⟩ := advance_eq_ended_iff.mp hadvance
  exact ⟨actions, hends, hj⟩

/-- A program is rejected before it runs, which is all that is noted; or its beginning is noted and
then the events of its run, from the rewound machine to the end. -/
theorem interpret_events_cases {m : Machine} {program : Program} {input : String} {j j' : Journal}
    {report : Report} (h : m.interpret program input j = some (report, j')) :
    (∃ u, JumpTable.ofInstructions program.toList = .error u ∧
      report = ⟨.error (.unmatchedBracket u), m.rewind input⟩ ∧
      j' = j.noteAll [.faulted (.unmatchedBracket u)]) ∨
    ∃ table actions, JumpTable.ofInstructions program.toList = .ok table ∧
      Ends (.indexed program table) actions (m.rewind input) report ∧
      j' = j.noteAll (.started program.size (m.rewind input).tape.size ::
        runEvents (.indexed program table) actions report) := by
  cases htable : JumpTable.ofInstructions program.toList with
  | error u =>
    simp only [interpret, JumpTable.prepare, htable, Option.some.injEq, Prod.mk.injEq] at h
    exact .inl ⟨u, rfl, h.1.symm, h.2.symm⟩
  | ok table =>
    simp only [interpret, JumpTable.prepare, htable] at h
    obtain ⟨actions, hends, hj⟩ := exists_ends_of_run h
    exact .inr ⟨table, actions, rfl, hends, hj⟩

/-- A program is rejected before it runs, or its run goes from the rewound machine to its end. -/
theorem interpret_cases {m : Machine} {program : Program} {input : String} {j j' : Journal}
    {report : Report} (h : m.interpret program input j = some (report, j')) :
    (∃ u, JumpTable.ofInstructions program.toList = .error u ∧
      report = ⟨.error (.unmatchedBracket u), m.rewind input⟩) ∨
    ∃ table actions, JumpTable.ofInstructions program.toList = .ok table ∧
      Ends (.indexed program table) actions (m.rewind input) report := by
  rcases interpret_events_cases h with ⟨u, rejected, hreport, -⟩ | ⟨table, actions, hrun⟩
  · exact .inl ⟨u, rejected, hreport⟩
  · exact .inr ⟨table, actions, hrun.1, hrun.2.1⟩

/-- What a run leaves is sound, and it stands inside the program or right behind it. -/
theorem sound_of_interpret {m : Machine} {program : Program} {input : String} {j j' : Journal}
    {report : Report} (h : m.interpret program input j = some (report, j')) :
    report.machine.Sound m.config ∧ report.machine.position ≤ program.size ∧
      ∀ out, report.result = .ok out → report.machine.position = program.size := by
  rcases interpret_cases h with ⟨u, -, rfl⟩ | ⟨table, actions, accepted, hends⟩
  · refine ⟨sound_rewind m input, Nat.zero_le _, fun out hout ↦ ?_⟩
    cases hout
  · have hle := hends.steps.position_le (Code.closed_indexed accepted) (Nat.zero_le _)
    exact ⟨hends.steps.sound (sound_rewind m input), hle,
      fun out hout ↦ hends.position_eq hout hle⟩

theorem History.sound {config : Config} {m : Machine} (h : History config m) :
    m.Sound config := by
  induction h with
  | new => exact sound_new config
  | interpreted _ run ih =>
    rw [← ih.config_eq]
    exact (sound_of_interpret run).1

/-- Nothing that a turn looks up is missing, no move of the head leaves the tape or the range of the
numbers that count its cells, and a jump lands on an instruction. -/
structure InRange (code : Code) (m : Machine) : Prop where
  cell : m.tape.cells[m.tape.head]? = some m.tape.current
  instruction : m.turn code ≠ .finished m → m.position < code.instructions.size
  right : m.tape.head + 1 ≤ m.config.cellCount.value
  left : ∀ action next, m.turn code = .executed action next →
    action.instruction.symbol = .command .moveLeft → next.tape.head + 1 = m.tape.head
  right_lt : ∀ action next, m.turn code = .executed action next →
    action.instruction.symbol = .command .moveRight →
      next.tape.head = m.tape.head + 1 ∧ next.tape.head < m.tape.size
  target_lt : ∀ action next target, m.turn code = .executed action next →
    action.target = some target → target < code.instructions.size

theorem Executes.head_moveLeft {m next : Machine} {code : Code} {action : Action}
    (h : m.Executes code action next)
    (hsymbol : action.instruction.symbol = .command .moveLeft) :
    next.tape.head + 1 = m.tape.head := by
  cases h with
  | command _ _ isCommand allowed =>
    cases isCommand.symm.trans hsymbol
    exact Nat.succ_pred_eq_of_ne_zero ((Store.fault?_eq_none_iff.mp allowed).2 rfl)
  | pass _ _ isBracket => cases isBracket.symm.trans hsymbol
  | jump _ _ isBracket => cases isBracket.symm.trans hsymbol

theorem Executes.head_moveRight {m next : Machine} {code : Code} {action : Action}
    (h : m.Executes code action next)
    (hsymbol : action.instruction.symbol = .command .moveRight) :
    next.tape.head = m.tape.head + 1 ∧ next.tape.head < m.tape.size := by
  cases h with
  | command _ _ isCommand allowed =>
    cases isCommand.symm.trans hsymbol
    exact ⟨rfl, (Store.fault?_eq_none_iff.mp allowed).1 rfl⟩
  | pass _ _ isBracket => cases isBracket.symm.trans hsymbol
  | jump _ _ isBracket => cases isBracket.symm.trans hsymbol

theorem Executes.target_lt {m next : Machine} {code : Code} {action : Action} {target : Nat}
    (h : m.Executes code action next) (closed : code.Closed)
    (htarget : action.target = some target) : target < code.instructions.size := by
  cases h with
  | command => cases htarget
  | pass => cases htarget
  | jump fetched _ _ _ partner =>
    cases htarget
    exact closed _ _ _ fetched partner

theorem Sound.inRange {m : Machine} {config : Config} {code : Code} (h : m.Sound config)
    (closed : code.Closed) : m.InRange code where
  cell := by
    have hlt : m.tape.head < m.tape.cells.size := h.head_lt
    rw [Tape.current, Array.getD_eq_getD_getElem?, Array.getElem?_eq_getElem hlt, Option.getD_some]
  instruction := by
    intro hturn
    apply Nat.lt_of_not_le
    intro hle
    exact hturn (turn_of_none (Array.getElem?_eq_none hle))
  right := by
    have hlt := h.head_lt
    rw [h.size_eq] at hlt
    rw [h.config_eq]
    exact hlt
  left _ _ hturn := (turn_eq_executed_iff.mp hturn).head_moveLeft
  right_lt _ _ hturn := (turn_eq_executed_iff.mp hturn).head_moveRight
  target_lt _ _ _ hturn := (turn_eq_executed_iff.mp hturn).target_lt closed

/-- Whatever a machine has run before, it is sound; so is every machine on the way of its next run,
which never looks anything up out of range; and so is the machine that the run leaves. Running a
text is running the program loaded from it. -/
theorem sound_of_history {config : Config} {m : Machine} (history : History config m)
    (program : Program) (input : String) :
    m.Sound config ∧ (m.rewind input).Sound config ∧
    (∀ table, JumpTable.ofInstructions program.toList = .ok table → ∀ actions mid,
      Steps (.indexed program table) actions (m.rewind input) mid →
        mid.Sound config ∧ mid.position ≤ program.size ∧ mid.InRange (.indexed program table)) ∧
    (∀ j report j', m.interpret program input j = some (report, j') →
      History config report.machine ∧ report.machine.Sound config ∧
        report.machine.position ≤ program.size ∧
          ∀ out, report.result = .ok out → report.machine.position = program.size) ∧
    ∀ text j, ∃ j', m.executeText text input j = m.interpret (.ofString text) input j' := by
  have hm := history.sound
  have hrewind : (m.rewind input).Sound config := by
    have hsound := sound_rewind m input
    rwa [hm.config_eq] at hsound
  refine ⟨hm, hrewind, ?_, ?_, ?_⟩
  · intro table accepted actions mid steps
    have closed := Code.closed_indexed accepted
    have hmid := steps.sound hrewind
    exact ⟨hmid, steps.position_le closed (Nat.zero_le _), hmid.inRange closed⟩
  · intro j report j' run
    have hreport := sound_of_interpret run
    rw [hm.config_eq] at hreport
    exact ⟨history.interpreted run, hreport⟩
  · intro text j
    exact ⟨_, rfl⟩

/-- A machine with one cell and room for five instructions, after a run that left the tape. -/
theorem sound_of_history_pointerTooHigh :
    ∃ report j', (new ⟨⟨1, by decide⟩, some 5⟩).interpret (.ofString "+>") "" {} =
        some (report, j') ∧
      report.result = .error (.pointerTooHigh 1 ⟨⟨1, 2, 1⟩, .command .moveRight⟩) ∧
      report.machine.Sound ⟨⟨1, by decide⟩, some 5⟩ ∧
      (report.machine.rewind "a").Sound ⟨⟨1, by decide⟩, some 5⟩ := by
  refine ⟨_, _, rfl, rfl, ?_⟩
  have run : (new ⟨⟨1, by decide⟩, some 5⟩).interpret (.ofString "+>") "" {} = some (_, _) := rfl
  have hsound := sound_of_history (.interpreted .new run) (.ofString ",[.,]") "a"
  exact ⟨hsound.1, hsound.2.1⟩

end Machine

end Brainfuck
