import Brainfuck.Machine.Run

/-!
# The rules of a turn

A turn executes an instruction by one of three rules: a command is performed, a bracket is passed,
or a bracket jumps to its partner. It stops by one of three others. The rules are stated here once,
with everything they demand, so that a proof about machines splits a turn into its rules and never
unfolds it. From the rules of a turn follow those of a run: where a run ends, the actions on the way
and the report are determined, and so is what taking turns comes to.
-/

namespace Brainfuck

namespace Machine

/-! ## One turn -/

/-- What executing an instruction comes to: a command that does not fail is performed, a bracket
that does not jump is passed, and one that jumps goes to its partner and past it. -/
inductive Executes (m : Machine) (code : Code) : Action → Machine → Prop where
  | command {i : Instruction} {c : Command} (fetched : code.instructions[m.position]? = some i)
      (running : m.exhausted? = none) (isCommand : i.symbol = .command c)
      (allowed : m.store.fault? c i = none) : Executes m code ⟨i, none⟩ (m.perform c)
  | pass {i : Instruction} {b : Bracket} (fetched : code.instructions[m.position]? = some i)
      (running : m.exhausted? = none) (isBracket : i.symbol = .bracket b)
      (stays : b.jumps m.tape.current = false) :
      Executes m code ⟨i, none⟩ (m.completeAt m.position)
  | jump {i : Instruction} {b : Bracket} {target : Nat}
      (fetched : code.instructions[m.position]? = some i) (running : m.exhausted? = none)
      (isBracket : i.symbol = .bracket b) (jumps : b.jumps m.tape.current = true)
      (partner : code.partner? m.position i = some target) :
      Executes m code ⟨i, some target⟩ (m.completeAt target)

/-- What keeps an instruction from being executed: the step limit is reached, a command fails, or a
bracket has to jump and has no partner. -/
inductive Fails (m : Machine) (code : Code) : Fault → Prop where
  | limit {i : Instruction} {limit : Nat} (fetched : code.instructions[m.position]? = some i)
      (exhausted : m.exhausted? = some limit) : Fails m code (.stepLimitExceeded limit)
  | command {i : Instruction} {c : Command} {fault : Fault}
      (fetched : code.instructions[m.position]? = some i) (running : m.exhausted? = none)
      (isCommand : i.symbol = .command c) (refused : m.store.fault? c i = some fault) :
      Fails m code fault
  | jump {i : Instruction} {b : Bracket} (fetched : code.instructions[m.position]? = some i)
      (running : m.exhausted? = none) (isBracket : i.symbol = .bracket b)
      (jumps : b.jumps m.tape.current = true) (unpaired : code.partner? m.position i = none) :
      Fails m code (.unmatchedBracket ⟨b, i⟩)

theorem turn_eq_execute {m : Machine} {code : Code} {i : Instruction}
    (fetched : code.instructions[m.position]? = some i) (running : m.exhausted? = none) :
    m.turn code = m.execute code i := by
  unfold turn
  simp only [fetched, running]

theorem Executes.turn_eq {m next : Machine} {code : Code} {action : Action}
    (h : m.Executes code action next) : m.turn code = .executed action next := by
  cases h with
  | command fetched running isCommand allowed =>
    simp only [turn_eq_execute fetched running, execute, isCommand, Machine.command, allowed]
  | pass fetched running isBracket stays =>
    simp only [turn_eq_execute fetched running, execute, isBracket, stays, Bool.false_eq_true,
      if_false]
  | jump fetched running isBracket jumps partner =>
    simp only [turn_eq_execute fetched running, execute, isBracket, jumps, if_true, Machine.jump,
      partner]

theorem Fails.turn_eq {m : Machine} {code : Code} {fault : Fault} (h : m.Fails code fault) :
    m.turn code = .stopped fault m := by
  cases h with
  | limit fetched exhausted => simp only [turn, fetched, exhausted]
  | command fetched running isCommand refused =>
    simp only [turn_eq_execute fetched running, execute, isCommand, Machine.command, refused]
  | jump fetched running isBracket jumps unpaired =>
    simp only [turn_eq_execute fetched running, execute, isBracket, jumps, if_true, Machine.jump,
      unpaired]

/-- A turn follows one of the rules, or no instruction is left. -/
theorem turn_cases (m : Machine) (code : Code) :
    (∃ action next, m.Executes code action next) ∨ (∃ fault, m.Fails code fault) ∨
      code.instructions[m.position]? = none := by
  cases fetched : code.instructions[m.position]? with
  | none => exact .inr (.inr rfl)
  | some i =>
    cases running : m.exhausted? with
    | some limit => exact .inr (.inl ⟨_, .limit fetched running⟩)
    | none =>
      cases hs : i.symbol with
      | command c =>
        cases hc : m.store.fault? c i with
        | none => exact .inl ⟨_, _, .command fetched running hs hc⟩
        | some fault => exact .inr (.inl ⟨_, .command fetched running hs hc⟩)
      | bracket b =>
        cases hb : b.jumps m.tape.current with
        | false => exact .inl ⟨_, _, .pass fetched running hs hb⟩
        | true =>
          cases hp : code.partner? m.position i with
          | some target => exact .inl ⟨_, _, .jump fetched running hs hb hp⟩
          | none => exact .inr (.inl ⟨_, .jump fetched running hs hb hp⟩)

theorem turn_of_none {m : Machine} {code : Code} (h : code.instructions[m.position]? = none) :
    m.turn code = .finished m := by
  unfold turn
  simp only [h]

theorem turn_eq_executed_iff {m next : Machine} {code : Code} {action : Action} :
    m.turn code = .executed action next ↔ m.Executes code action next := by
  refine ⟨fun h ↦ ?_, Executes.turn_eq⟩
  rcases m.turn_cases code with ⟨action', next', hrule⟩ | ⟨fault, hrule⟩ | hnone
  · rw [hrule.turn_eq] at h
    cases h
    exact hrule
  · rw [hrule.turn_eq] at h
    cases h
  · rw [turn_of_none hnone] at h
    cases h

theorem Executes.lt_size {m next : Machine} {code : Code} {action : Action}
    (h : m.Executes code action next) : m.position < code.instructions.size := by
  cases h with
  | command fetched => exact (Array.getElem?_eq_some_iff.mp fetched).1
  | pass fetched => exact (Array.getElem?_eq_some_iff.mp fetched).1
  | jump fetched => exact (Array.getElem?_eq_some_iff.mp fetched).1

theorem Executes.running {m next : Machine} {code : Code} {action : Action}
    (h : m.Executes code action next) : m.exhausted? = none := by
  cases h <;> assumption

theorem Executes.config_eq {m next : Machine} {code : Code} {action : Action}
    (h : m.Executes code action next) : next.config = m.config := by
  cases h <;> rfl

theorem Executes.processed_eq {m next : Machine} {code : Code} {action : Action}
    (h : m.Executes code action next) : next.processed = m.processed + 1 := by
  cases h <;> rfl

/-- Brackets leave the store as it is. -/
theorem Executes.store_eq {m next : Machine} {code : Code} {action : Action}
    (h : m.Executes code action next) :
    next.store = m.store ∨ ∃ c, action.instruction.symbol = .command c ∧
      m.store.fault? c action.instruction = none ∧ next.store = m.store.perform c := by
  cases h with
  | command _ _ isCommand allowed => exact .inr ⟨_, isCommand, allowed, rfl⟩
  | pass => exact .inl rfl
  | jump => exact .inl rfl

theorem Executes.input_eq {m next : Machine} {code : Code} {action : Action}
    (h : m.Executes code action next) : next.store.input = m.store.input := by
  rcases h.store_eq with hstore | ⟨c, -, -, hstore⟩
  · rw [hstore]
  · rw [hstore, Store.input_perform]

/-! ## Several turns -/

namespace Steps

theorem config_eq {code : Code} {actions : List Action} {m last : Machine}
    (h : Steps code actions m last) : last.config = m.config := by
  induction h with
  | refl => rfl
  | cons first _ ih => exact ih.trans (turn_eq_executed_iff.mp first).config_eq

theorem input_eq {code : Code} {actions : List Action} {m last : Machine}
    (h : Steps code actions m last) : last.store.input = m.store.input := by
  induction h with
  | refl => rfl
  | cons first _ ih => exact ih.trans (turn_eq_executed_iff.mp first).input_eq

theorem processed_eq {code : Code} {actions : List Action} {m last : Machine}
    (h : Steps code actions m last) : last.processed = m.processed + actions.length := by
  induction h with
  | refl => rfl
  | @cons action actions m next last first _ ih =>
    calc
      last.processed = next.processed + actions.length := ih
      _ = m.processed + 1 + actions.length := by
        rw [(turn_eq_executed_iff.mp first).processed_eq]
      _ = m.processed + (action :: actions).length := by
        rw [List.length_cons, Nat.add_assoc, Nat.add_comm 1]

theorem processed_eq_length {code : Code} {actions : List Action} {m last : Machine}
    (h : Steps code actions m last) (hm : m.processed = 0) :
    last.processed = actions.length := by
  rw [h.processed_eq, hm, Nat.zero_add]

/-- A run passes through one machine after any number of its instructions. -/
theorem exists_at {code : Code} {actions : List Action} {m last : Machine}
    (h : Steps code actions m last) {k : Nat} (hk : k ≤ actions.length) :
    ∃ mid, Steps code (actions.take k) m mid ∧ Steps code (actions.drop k) mid last := by
  induction h generalizing k with
  | @refl m => exact ⟨m, by rw [List.take_nil]; exact .refl, by rw [List.drop_nil]; exact .refl⟩
  | @cons action actions m next last first others ih =>
    cases k with
    | zero => exact ⟨m, .refl, .cons first others⟩
    | succ k =>
      obtain ⟨mid, before, after⟩ := ih (Nat.le_of_succ_le_succ hk)
      exact ⟨mid, .cons first before, after⟩

end Steps

end Machine

/-! ## The end of a run -/

def Turn.report? : Turn → Option Report
  | finished m => some ⟨.ok m.output, m⟩
  | stopped fault m => some ⟨.error fault, m⟩
  | executed _ _ => none

namespace Machine

/-- A run executes the instructions of `actions`, and the next turn ends it with a report. -/
structure Ends (code : Code) (actions : List Action) (m : Machine) (report : Report) : Prop where
  steps : Steps code actions m report.machine
  ending : (report.machine.turn code).report? = some report

theorem report?_turn {m : Machine} {code : Code} {report : Report}
    (h : (m.turn code).report? = some report) :
    report.machine = m ∧
      (code.instructions[m.position]? = none ∧ report.result = .ok m.output ∨
        ∃ fault, m.Fails code fault ∧ report.result = .error fault) := by
  rcases m.turn_cases code with ⟨action, next, hrule⟩ | ⟨fault, hrule⟩ | hnone
  · rw [hrule.turn_eq] at h
    cases h
  · rw [hrule.turn_eq] at h
    cases h
    exact ⟨rfl, .inr ⟨fault, hrule, rfl⟩⟩
  · rw [turn_of_none hnone] at h
    cases h
    exact ⟨rfl, .inl ⟨hnone, rfl⟩⟩

theorem report?_of_none {m : Machine} {code : Code}
    (h : code.instructions[m.position]? = none) :
    (m.turn code).report? = some ⟨.ok m.output, m⟩ := by
  rw [turn_of_none h, Turn.report?]

theorem Fails.report?_eq {m : Machine} {code : Code} {fault : Fault} (h : m.Fails code fault) :
    (m.turn code).report? = some ⟨.error fault, m⟩ := by
  rw [h.turn_eq, Turn.report?]

/-- Either an instruction is executed or the run ends. -/
theorem executes_or_report (m : Machine) (code : Code) :
    (∃ action next, m.Executes code action next) ∨
      ∃ report, (m.turn code).report? = some report := by
  rcases m.turn_cases code with hrule | ⟨fault, hrule⟩ | hnone
  · exact .inl hrule
  · exact .inr ⟨_, hrule.report?_eq⟩
  · exact .inr ⟨_, report?_of_none hnone⟩

theorem Ends.of_turn {m : Machine} {code : Code} {report : Report}
    (h : (m.turn code).report? = some report) : Ends code [] m report := by
  obtain ⟨rfl, -⟩ := report?_turn h
  exact ⟨.refl, h⟩

/-- Where a run ends well, no instruction is left. -/
theorem Ends.getElem?_eq_none {m : Machine} {code : Code} {actions : List Action}
    {report : Report} {out : String} (h : Ends code actions m report)
    (hout : report.result = .ok out) :
    code.instructions[report.machine.position]? = none := by
  obtain ⟨-, ⟨hnone, -⟩ | ⟨fault, -, hfault⟩⟩ := report?_turn h.ending
  · exact hnone
  · rw [hfault] at hout
    cases hout

/-- Where a run ends in a fault, one of the rules says so. -/
theorem Ends.fails {m : Machine} {code : Code} {actions : List Action} {report : Report}
    {fault : Fault} (h : Ends code actions m report) (hfault : report.result = .error fault) :
    report.machine.Fails code fault := by
  obtain ⟨-, ⟨-, hresult⟩ | ⟨fault', hfails, hresult⟩⟩ := report?_turn h.ending
  · rw [hresult] at hfault
    cases hfault
  · cases hresult.symm.trans hfault
    exact hfails

/-- The result of a run to the end is what was written. -/
theorem Ends.eq_output {m : Machine} {code : Code} {actions : List Action} {report : Report}
    {out : String} (h : Ends code actions m report) (hout : report.result = .ok out) :
    out = report.machine.output := by
  have hreport := h.ending
  rw [turn_of_none (h.getElem?_eq_none hout), Turn.report?, Option.some.injEq] at hreport
  rw [← hreport] at hout
  exact (Except.ok.inj hout).symm

theorem Steps.ends_ok {m last : Machine} {code : Code} {actions : List Action}
    (h : Steps code actions m last) (hnone : code.instructions[last.position]? = none) :
    Ends code actions m ⟨.ok last.output, last⟩ :=
  ⟨h, report?_of_none hnone⟩

theorem Steps.ends_error {m last : Machine} {code : Code} {actions : List Action} {fault : Fault}
    (h : Steps code actions m last) (hfails : last.Fails code fault) :
    Ends code actions m ⟨.error fault, last⟩ :=
  ⟨h, hfails.report?_eq⟩

theorem Ends.cons {m next : Machine} {code : Code} {action : Action} {actions : List Action}
    {report : Report} (first : m.Executes code action next) (h : Ends code actions next report) :
    Ends code (action :: actions) m report :=
  ⟨.cons first.turn_eq h.steps, h.ending⟩

/-- The first instruction of a run is determined, and so is what is left of the run after it. -/
theorem Ends.exists_of_executes {m next : Machine} {code : Code} {action : Action}
    {actions : List Action} {report : Report} (h : Ends code actions m report)
    (first : m.Executes code action next) :
    ∃ others, actions = action :: others ∧ Ends code others next report := by
  obtain ⟨steps, ending⟩ := h
  cases steps with
  | refl =>
    rw [first.turn_eq] at ending
    cases ending
  | cons first' others =>
    rw [first.turn_eq] at first'
    cases first'
    exact ⟨_, rfl, others, ending⟩

theorem Ends.exists_of_steps {m next : Machine} {code : Code} {as bs : List Action}
    {report : Report} (h : Ends code bs m report) (steps : Steps code as m next) :
    ∃ others, bs = as ++ others ∧ Ends code others next report := by
  induction steps generalizing bs with
  | refl => exact ⟨bs, rfl, h⟩
  | cons first _ ih =>
    obtain ⟨others, rfl, hothers⟩ := h.exists_of_executes (turn_eq_executed_iff.mp first)
    obtain ⟨rest, rfl, hrest⟩ := ih hothers
    exact ⟨rest, rfl, hrest⟩

theorem Ends.eq_nil_of_turn {m : Machine} {code : Code} {actions : List Action}
    {report report' : Report} (h : Ends code actions m report)
    (ending : (m.turn code).report? = some report') : actions = [] ∧ report = report' := by
  obtain ⟨steps, hending⟩ := h
  cases steps with
  | refl => exact ⟨rfl, Option.some.inj (hending.symm.trans ending)⟩
  | cons first _ =>
    rw [first] at ending
    cases ending

/-- A run has one end. -/
theorem Ends.unique {m : Machine} {code : Code} {as bs : List Action} {report report' : Report}
    (h : Ends code as m report) (h' : Ends code bs m report') : as = bs ∧ report = report' := by
  obtain ⟨others, rfl, hothers⟩ := h'.exists_of_steps h.steps
  obtain ⟨rfl, rfl⟩ := hothers.eq_nil_of_turn h.ending
  exact ⟨(List.append_nil as).symm, rfl⟩

def runEvents (code : Code) (actions : List Action) (report : Report) : List Event :=
  actions.flatMap Action.events ++ (report.machine.turn code).events

theorem advance_of_report? {code : Code} {m : Machine} {report : Report}
    (h : (m.turn code).report? = some report) (turns : Nat) (j : Journal) :
    advance code (turns + 1) m j = .ended report (j.noteAll (m.turn code).events) := by
  unfold advance
  cases hturn : m.turn code with
  | executed action next =>
    rw [hturn] at h
    cases h
  | finished last =>
    rw [hturn] at h
    cases h
    rfl
  | stopped fault last =>
    rw [hturn] at h
    cases h
    rfl

/-- Taking turns comes to an end when the run does, and notes the events of the run. -/
theorem advance_eq_ended_iff {code : Code} {turns : Nat} {m : Machine} {j j' : Journal}
    {report : Report} :
    advance code turns m j = .ended report j' ↔
      ∃ actions, actions.length < turns ∧ Ends code actions m report ∧
        j' = j.noteAll (runEvents code actions report) := by
  constructor
  · intro h
    induction turns generalizing m j with
    | zero => cases h
    | succ turns ih =>
      rcases m.executes_or_report code with ⟨action, next, first⟩ | ⟨last, hlast⟩
      · rw [advance, first.turn_eq] at h
        obtain ⟨actions, hlength, hends, rfl⟩ := ih h
        refine ⟨action :: actions, Nat.succ_lt_succ hlength, hends.cons first, ?_⟩
        simp only [runEvents, Journal.noteAll, List.flatMap_cons, List.foldl_append, Turn.events]
      · rw [advance_of_report? hlast] at h
        cases h
        obtain ⟨rfl, -⟩ := report?_turn hlast
        refine ⟨[], Nat.zero_lt_succ turns, .of_turn hlast, ?_⟩
        rw [runEvents, List.flatMap_nil, List.nil_append]
  · rintro ⟨actions, hlength, ⟨steps, ending⟩, rfl⟩
    obtain ⟨k, rfl⟩ := Nat.exists_eq_add_of_lt hlength
    rw [Nat.add_assoc, steps.advance_eq, advance_of_report? ending]
    simp only [runEvents, Journal.noteAll, List.foldl_append]

end Machine

end Brainfuck
