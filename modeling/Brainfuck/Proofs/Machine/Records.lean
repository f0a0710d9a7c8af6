import Brainfuck.Proofs.Machine.StepLimit

/-!
# What a run leaves in the journal

The journal tells a run from its beginning to its end. A rejected program is told in one record.
Otherwise the run is announced; each completed instruction is told when its turn comes, and a jump
with its origin and its target right after the instruction that jumps; the last records tell how the
run ended. A run that never ends is told in the same way for as long as it is watched. An error is
told once and at the very end, so the records tell a run that failed from one that did not, and
their number tells how many instructions were executed.
-/

namespace Brainfuck

/-- What a reader of a journal sees of an event. -/
structure Record where
  level : Level
  text : String
  deriving DecidableEq

def Event.record (e : Event) : Record where
  level := e.level
  text := e.message

namespace Journal

def records (j : Journal) : List Record :=
  j.events.toList.map Event.record

/-! ## Noting events -/

theorem keeps_note (j : Journal) (e : Event) : (j.note e).keeps = j.keeps := by
  unfold note
  split <;> rfl

theorem records_note (j : Journal) (e : Event) :
    (j.note e).records = j.records ++ [e.record].filter (j.keeps ·.level) := by
  unfold note records
  cases hkeeps : j.keeps e.level with
  | true =>
    have hfilter : [e.record].filter (j.keeps ·.level) = [e.record] :=
      List.filter_cons_of_pos hkeeps
    rw [if_pos rfl, hfilter, Array.toList_push, List.map_append, List.map_singleton]
  | false =>
    have hfilter : [e.record].filter (j.keeps ·.level) = [] :=
      List.filter_cons_of_neg (by simp [Event.record, hkeeps])
    rw [if_neg Bool.false_ne_true, hfilter, List.append_nil]

/-- A journal takes up the events of the levels that it keeps, in the order in which they are
noted. -/
theorem records_noteAll (j : Journal) (events : List Event) :
    (j.noteAll events).records =
      j.records ++ (events.map Event.record).filter (j.keeps ·.level) := by
  induction events generalizing j with
  | nil => exact (List.append_nil _).symm
  | cons e events ih =>
    calc
      (j.noteAll (e :: events)).records =
          (j.note e).records ++
            (events.map Event.record).filter ((j.note e).keeps ·.level) := ih (j.note e)
      _ = j.records ++ ([e.record].filter (j.keeps ·.level) ++
          (events.map Event.record).filter (j.keeps ·.level)) := by
        rw [records_note, keeps_note, List.append_assoc]
      _ = j.records ++ ((e :: events).map Event.record).filter (j.keeps ·.level) := by
        rw [← List.filter_append, List.map_cons, List.singleton_append]

end Journal

namespace Machine

def processingRecord (i : Instruction) : Record where
  level := .trace
  text := "Processing instruction: " ++ i.describe

/-- The records of the instruction that a machine completes. A bracket that jumps leaves a second
one, which tells its position and that of its partner. -/
inductive Recorded (program : Program) (m : Machine) : List Record → Prop where
  | stays {i : Instruction} (fetched : program.instructions[m.position]? = some i)
      (stays : ∀ b, i.symbol = .bracket b → b.jumps m.tape.current = false) :
      Recorded program m [processingRecord i]
  | jumps {i : Instruction} {b : Bracket} {target : Nat}
      (fetched : program.instructions[m.position]? = some i) (isBracket : i.symbol = .bracket b)
      (jumps : b.jumps m.tape.current = true)
      (partner : Bracket.partner? program.toList m.position = some target) :
      Recorded program m [processingRecord i, {
        level := .debug
        text := "Jumping from " ++ toString m.position ++ " to " ++ toString target }]

/-- The records of the instructions that some machines complete, one after the other. -/
inductive RecordedAll (program : Program) : List Machine → List Record → Prop where
  | nil : RecordedAll program [] []
  | cons {m : Machine} {machines : List Machine} {records others : List Record}
      (first : Recorded program m records) (rest : RecordedAll program machines others) :
      RecordedAll program (m :: machines) (records ++ others)

/-- The records of the end of a run that executed instructions: the program came to its end, the
next instruction would have moved the head off the tape, or the step limit was reached. -/
inductive Closes (program : Program) (report : Report) : List Record → Prop where
  | finished {out : String} (result : report.result = .ok out) :
      Closes program report [{
        level := .debug
        text := "Program finished after " ++ toString report.machine.processed ++
          " instructions" }]
  | pointer {i : Instruction} {fault : Fault}
      (fetched : program.instructions[report.machine.position]? = some i)
      (isPointer : fault.IsPointer) (result : report.result = .error fault) :
      Closes program report [processingRecord i, { level := .error, text := fault.message }]
  | limit {limit : Nat} (result : report.result = .error (.stepLimitExceeded limit)) :
      Closes program report [{
        level := .error
        text := "Step limit of " ++ toString limit ++ " reached" }]

def startRecord (m : Machine) (program : Program) : Record where
  level := .debug
  text := "Running " ++ toString program.size ++ " instructions on " ++
    toString m.config.cellCount.value ++ " cells"

/-- The records of a run of a program that ended with a report. When a bracket has no partner,
nothing else is told; otherwise the beginning, the completed instructions and the end are told in
order. -/
inductive Logged (m : Machine) (program : Program) (input : String) (report : Report) :
    List Record → Prop where
  | rejected {u : UnmatchedBracket}
      (rejected : JumpTable.ofInstructions program.toList = .error u)
      (result : report.result = .error (.unmatchedBracket u)) :
      Logged m program input report
        [{ level := .error, text := (Fault.unmatchedBracket u).message }]
  | accepted {table : JumpTable} {records closing : List Record}
      (accepted : JumpTable.ofInstructions program.toList = .ok table)
      (completed : RecordedAll program
        ((m.programTrace program input report.machine.processed).map Prod.fst) records)
      (closes : Closes program report closing) :
      Logged m program input report (m.startRecord program :: (records ++ closing))

/-! ## The records of a run -/

section Accepted

variable {program : Program} {table : JumpTable}
  (accepted : JumpTable.ofInstructions program.toList = .ok table)

include accepted

theorem Executes.recorded {m next : Machine} {action : Action}
    (h : m.Executes (.indexed program table) action next) :
    Recorded program m (action.events.map Event.record) := by
  cases h with
  | command fetched _ isCommand =>
    apply Recorded.stays fetched
    intro b hb
    cases isCommand.symm.trans hb
  | pass fetched _ isBracket stays =>
    apply Recorded.stays fetched
    intro b hb
    cases isBracket.symm.trans hb
    exact stays
  | @jump i b target fetched _ isBracket jumps partner =>
    rw [Code.partner?_indexed accepted fetched] at partner
    have hindex : i.index = m.position := by
      apply Program.index_eq_of_getElem?
      rw [Program.toList, Array.getElem?_toList]
      exact fetched
    have hrecorded := Recorded.jumps fetched isBracket jumps partner
    rw [← hindex] at hrecorded
    exact hrecorded

theorem Steps.recordedAll {actions : List Action} {m last : Machine}
    (h : Steps (.indexed program table) actions m last) :
    RecordedAll program ((trace (.indexed program table) actions.length m).map Prod.fst)
      ((actions.flatMap Action.events).map Event.record) := by
  induction h with
  | refl => exact .nil
  | @cons action actions m next last first _ ih =>
    rw [List.length_cons, trace_of_executed first, List.map_cons, List.flatMap_cons,
      List.map_append]
    exact .cons ((turn_eq_executed_iff.mp first).recorded accepted) ih

theorem Fails.closes {m : Machine} {fault : Fault}
    (h : m.Fails (.indexed program table) fault) :
    Closes program ⟨.error fault, m⟩
      ((m.turn (.indexed program table)).events.map Event.record) := by
  rw [h.turn_eq]
  cases h with
  | limit => exact .limit rfl
  | @command i _ _ fetched _ _ refused =>
    have hpointer : ∀ fault : Fault, fault.IsPointer → Closes program ⟨.error fault, m⟩
        [processingRecord i, { level := .error, text := fault.message }] :=
      fun _ isPointer ↦ .pointer fetched isPointer rfl
    rcases Store.fault?_eq_some_iff.mp refused with ⟨-, -, rfl⟩ | ⟨-, -, rfl⟩
    · exact hpointer (.pointerTooHigh _ i) trivial
    · exact hpointer (.pointerTooLow i) trivial
  | jump fetched _ isBracket _ unpaired =>
    obtain ⟨target, partner⟩ := Code.exists_partner_indexed accepted fetched isBracket
    rw [unpaired] at partner
    cases partner

theorem Ends.closes {actions : List Action} {m : Machine} {report : Report}
    (h : Ends (.indexed program table) actions m report) :
    Closes program report
      ((report.machine.turn (.indexed program table)).events.map Event.record) := by
  cases hresult : report.result with
  | ok out =>
    rw [turn_of_none (h.getElem?_eq_none hresult)]
    exact .finished hresult
  | error fault =>
    have hcloses := (h.fails hresult).closes accepted
    rw [← hresult] at hcloses
    exact hcloses

end Accepted

/-- What interpreting a program adds to a journal. -/
theorem exists_logged {m : Machine} {program : Program} {input : String} {j j' : Journal}
    {report : Report} (run : m.interpret program input j = some (report, j')) :
    ∃ log, Logged m program input report log ∧
      j'.records = j.records ++ log.filter (j.keeps ·.level) := by
  rcases interpret_events_cases run with
    ⟨u, rejected, rfl, rfl⟩ | ⟨table, actions, accepted, hends, rfl⟩
  · exact ⟨_, .rejected rejected rfl, j.records_noteAll _⟩
  · have hcount : report.machine.processed = actions.length :=
      hends.steps.processed_eq_length rfl
    have hcompleted := hends.steps.recordedAll accepted
    rw [← hcount, ← programTrace_of_accepted accepted] at hcompleted
    have hsize : (m.rewind input).tape.size = m.config.cellCount.value := Tape.size_blank _
    refine ⟨_, .accepted accepted hcompleted (hends.closes accepted), ?_⟩
    rw [Journal.records_noteAll, hsize, runEvents, List.map_cons, List.map_append]
    rfl

/-- What has been noted when a run has executed some instructions, whether it will end or not. -/
theorem Steps.exists_recorded {m mid : Machine} {program : Program} {table : JumpTable}
    {input : String} {actions : List Action}
    (accepted : JumpTable.ofInstructions program.toList = .ok table)
    (steps : Steps (.indexed program table) actions (m.rewind input) mid) (j : Journal) :
    ∃ j' records, advance (.indexed program table) actions.length (m.rewind input)
        (j.note (.started program.size (m.rewind input).tape.size)) = .unfinished mid j' ∧
      RecordedAll program ((m.programTrace program input actions.length).map Prod.fst) records ∧
      j'.records =
        j.records ++ (m.startRecord program :: records).filter (j.keeps ·.level) := by
  have hadvance := steps.advance_eq 0 (j.note (.started program.size (m.rewind input).tape.size))
  have hcompleted := steps.recordedAll accepted
  have hsize : (m.rewind input).tape.size = m.config.cellCount.value := Tape.size_blank _
  rw [← programTrace_of_accepted accepted] at hcompleted
  refine ⟨_, _, hadvance, hcompleted, ?_⟩
  have hall := j.records_noteAll
    (.started program.size (m.rewind input).tape.size :: actions.flatMap Action.events)
  rw [hsize] at hall ⊢
  exact hall

/-! ## Levels -/

theorem Recorded.ne_error {program : Program} {m : Machine} {records : List Record}
    (h : Recorded program m records) : ∀ r ∈ records, r.level ≠ .error := by
  cases h <;> simp [processingRecord]

/-- An instruction has one record of its own. -/
theorem Recorded.countP_trace {program : Program} {m : Machine} {records : List Record}
    (h : Recorded program m records) : records.countP (·.level = .trace) = 1 := by
  cases h <;> rfl

theorem RecordedAll.ne_error {program : Program} {machines : List Machine}
    {records : List Record} (h : RecordedAll program machines records) :
    ∀ r ∈ records, r.level ≠ .error := by
  induction h with
  | nil => simp
  | cons first _ ih =>
    intro r hr
    rcases List.mem_append.mp hr with hr | hr
    · exact first.ne_error r hr
    · exact ih r hr

theorem RecordedAll.countP_trace {program : Program} {machines : List Machine}
    {records : List Record} (h : RecordedAll program machines records) :
    records.countP (·.level = .trace) = machines.length := by
  induction h with
  | nil => rfl
  | cons first _ ih =>
    rw [List.countP_append, first.countP_trace, ih, List.length_cons, Nat.add_comm]

/-- What the levels of the records tell about a report. An error is told if and only if the run
failed; it is told last and once. The executed instructions are told one by one, and so is the one
that could not move the head. -/
structure LevelsTell (report : Report) (log : List Record) : Prop where
  error_iff : (∃ r ∈ log, r.level = .error) ↔ ∃ fault, report.result = .error fault
  error_last : ∀ r ∈ log, r.level = .error →
    ∃ front, log = front ++ [r] ∧ ∀ r' ∈ front, r'.level ≠ .error
  trace_of_pointer : ∀ fault, report.result = .error fault → fault.IsPointer →
    log.countP (·.level = .trace) = report.machine.processed + 1
  trace_eq : (∀ fault, report.result = .error fault → ¬fault.IsPointer) →
    log.countP (·.level = .trace) = report.machine.processed

section Levels

variable {report : Report}

theorem levelsTell_of_ok {log : List Record} {out : String} (result : report.result = .ok out)
    (quiet : ∀ r ∈ log, r.level ≠ .error)
    (count : log.countP (·.level = .trace) = report.machine.processed) : LevelsTell report log where
  error_iff := by
    constructor
    · rintro ⟨r, hr, herror⟩
      exact absurd herror (quiet r hr)
    · rintro ⟨fault, hfault⟩
      cases result.symm.trans hfault
  error_last r hr herror := absurd herror (quiet r hr)
  trace_of_pointer fault hfault := by cases result.symm.trans hfault
  trace_eq _ := count

/-- The last record of a failed run is an error, so it is not one of those that are counted. -/
theorem levelsTell_of_error {front : List Record} {text : String} {fault : Fault}
    (result : report.result = .error fault) (quiet : ∀ r ∈ front, r.level ≠ .error)
    (pointer : fault.IsPointer →
      front.countP (·.level = .trace) = report.machine.processed + 1)
    (other : ¬fault.IsPointer → front.countP (·.level = .trace) = report.machine.processed) :
    LevelsTell report (front ++ [{ level := .error, text }]) := by
  have hcount : (front ++ [{ level := .error, text : Record }]).countP (·.level = .trace) =
      front.countP (·.level = .trace) := List.countP_append
  exact {
    error_iff := by
      constructor
      · intro _
        exact ⟨fault, result⟩
      · intro _
        exact ⟨_, List.mem_append_right front List.mem_cons_self, rfl⟩
    error_last := by
      intro r hr herror
      rcases List.mem_append.mp hr with hfront | hlast
      · exact absurd herror (quiet r hfront)
      · obtain rfl := List.mem_singleton.mp hlast
        exact ⟨front, rfl, quiet⟩
    trace_of_pointer := by
      intro fault' hfault isPointer
      cases result.symm.trans hfault
      rw [hcount, pointer isPointer]
    trace_eq := by
      intro hnone
      rw [hcount, other (hnone fault result)] }

theorem Closes.levelsTell {program : Program} {front closing : List Record}
    (h : Closes program report closing) (quiet : ∀ r ∈ front, r.level ≠ .error)
    (count : front.countP (·.level = .trace) = report.machine.processed) :
    LevelsTell report (front ++ closing) := by
  cases h with
  | finished result =>
    apply levelsTell_of_ok result
    · intro r hr
      rcases List.mem_append.mp hr with hr | hr
      · exact quiet r hr
      · simp [List.mem_singleton.mp hr]
    · rw [List.countP_append, count]
      rfl
  | @pointer i fault fetched isPointer result =>
    have hsplit : front ++ [processingRecord i, ⟨.error, fault.message⟩] =
        (front ++ [processingRecord i]) ++ [⟨.error, fault.message⟩] := by
      rw [List.append_assoc, List.singleton_append]
    rw [hsplit]
    apply levelsTell_of_error result
    · intro r hr
      rcases List.mem_append.mp hr with hr | hr
      · exact quiet r hr
      · simp [List.mem_singleton.mp hr, processingRecord]
    · intro _
      rw [List.countP_append, count]
      rfl
    · intro hnot
      exact absurd isPointer hnot
  | limit result => exact levelsTell_of_error result quiet (fun h ↦ h.elim) fun _ ↦ count

end Levels

theorem Logged.levelsTell {m : Machine} {program : Program} {input : String} {report : Report}
    {log : List Record} (h : Logged m program input report log)
    (hlength : (m.programTrace program input report.machine.processed).length =
      report.machine.processed) : LevelsTell report log := by
  cases h with
  | rejected rejected result =>
    rw [programTrace_of_rejected rejected] at hlength
    rw [← List.nil_append [_]]
    exact levelsTell_of_error result (by simp) (fun h ↦ h.elim) fun _ ↦ hlength
  | @accepted table records closing accepted completed closes =>
    rw [← List.cons_append]
    apply closes.levelsTell
    · intro r hr
      rcases List.mem_cons.mp hr with rfl | hr
      · simp [startRecord]
      · exact completed.ne_error r hr
    · have hcount := completed.countP_trace
      rw [List.length_map, hlength] at hcount
      exact hcount

/-- A run that is over has been noted faithfully, and a journal has taken up the records of the
levels that it keeps: the rejection of the program and nothing else; or the beginning of the run,
each completed instruction in the order of execution with its jump if it jumped, and the end of the
run. Errors are told last and for failed runs alone, and the instructions can be counted. A run that
is not over has been noted so far in the same way. -/
theorem journal_records_run (m : Machine) (program : Program) (input : String) (j : Journal) :
    (∀ report j', m.interpret program input j = some (report, j') →
      ∃ log, Logged m program input report log ∧ LevelsTell report log ∧
        j'.records = j.records ++ log.filter (j.keeps ·.level)) ∧
    ∀ table, JumpTable.ofInstructions program.toList = .ok table → ∀ actions mid,
      Steps (.indexed program table) actions (m.rewind input) mid →
        ∃ j' records, advance (.indexed program table) actions.length (m.rewind input)
            (j.note (.started program.size (m.rewind input).tape.size)) = .unfinished mid j' ∧
          RecordedAll program ((m.programTrace program input actions.length).map Prod.fst)
            records ∧
          j'.records =
            j.records ++ (m.startRecord program :: records).filter (j.keeps ·.level) := by
  refine ⟨fun report j' run ↦ ?_, fun table accepted actions mid steps ↦
    steps.exists_recorded accepted j⟩
  obtain ⟨log, logged, hrecords⟩ := exists_logged run
  have hlength := (output_eq_of_report (report?_eq_some_iff.mpr ⟨j', run⟩)).1
  exact ⟨log, logged, logged.levelsTell hlength, hrecords⟩

/-- A loop that is left out, told with its jump, and a move off the tape. -/
theorem journal_records_run_fault :
    ∃ report j', (new ⟨⟨1, by decide⟩, none⟩).interpret (.ofString "[+]>") ""
        { threshold := some .trace } = some (report, j') ∧
      j'.records = [
        ⟨.debug, "Running 4 instructions on 1 cells"⟩,
        ⟨.trace, "Processing instruction: 1:1 Conditional Forward ([)"⟩,
        ⟨.debug, "Jumping from 0 to 2"⟩,
        ⟨.trace, "Processing instruction: 1:4 Increment Pointer (>)"⟩,
        ⟨.error, "pointer too high: 1 at 1:4 Increment Pointer (>)"⟩] ∧
      ∃ log, Logged (new ⟨⟨1, by decide⟩, none⟩) (.ofString "[+]>") "" report log ∧
        LevelsTell report log := by
  have run : (new ⟨⟨1, by decide⟩, none⟩).interpret (.ofString "[+]>") ""
      { threshold := some .trace } = some (_, _) := rfl
  obtain ⟨log, logged, levels, -⟩ := (journal_records_run _ _ _ _).1 _ _ run
  exact ⟨_, _, run, rfl, log, logged, levels⟩

end Machine

end Brainfuck
