import Brainfuck.Proofs.Machine.Recurrence

/-!
# Runs in step

Two runs are compared by a relation between their machines. One run follows the other if, whatever
instruction a machine executes, a related machine executes the corresponding one, and the two are
related afterwards. What has to be checked is a matter of one turn; that it holds for runs of any
length is proved here once. If related machines also end their runs together, with reports that look
alike, then a run ends exactly when the other does, and the reports look alike.
-/

namespace Brainfuck.Machine

/-- Whatever instruction the first of two related machines executes, the second executes the
corresponding one, and they are related again. -/
structure Follows (code code' : Code) (correspond : Action → Action)
    (related : Machine → Machine → Prop) : Prop where
  executes : ∀ {m m' next action}, related m m' → m.Executes code action next →
    ∃ next', m'.Executes code' (correspond action) next' ∧ related next next'

theorem Follows.steps {code code' : Code} {correspond : Action → Action}
    {related : Machine → Machine → Prop} (h : Follows code code' correspond related)
    {m m' last : Machine} {actions : List Action} (start : related m m')
    (steps : Steps code actions m last) :
    ∃ last', Steps code' (actions.map correspond) m' last' ∧ related last last' := by
  induction steps generalizing m' with
  | refl => exact ⟨m', .refl, start⟩
  | cons first _ ih =>
    obtain ⟨next', hfirst, hnext⟩ := h.executes start (turn_eq_executed_iff.mp first)
    obtain ⟨last', hothers, hlast⟩ := ih hnext
    exact ⟨last', .cons hfirst.turn_eq hothers, hlast⟩

/-- Besides, related machines end their runs together, with reports of the same look: a fault on one
side is met by a fault on the other, and the end of the program is reached on both. -/
structure Lockstep {α : Type} (code code' : Code) (correspond : Action → Action)
    (related : Machine → Machine → Prop) (look look' : Report → α) : Prop extends
    Follows code code' correspond related where
  fails : ∀ {m m' fault}, related m m' → m.Fails code fault →
    ∃ fault', m'.Fails code' fault' ∧ look ⟨.error fault, m⟩ = look' ⟨.error fault', m'⟩
  finishes : ∀ {m m'}, related m m' → code.instructions[m.position]? = none →
    code'.instructions[m'.position]? = none ∧ look ⟨.ok m.output, m⟩ = look' ⟨.ok m'.output, m'⟩

namespace Lockstep

variable {α : Type} {code code' : Code} {correspond : Action → Action}
  {related : Machine → Machine → Prop} {look look' : Report → α} {m m' : Machine}

/-- Both turns end their runs, or neither does. -/
theorem report?_turn_map (h : Lockstep code code' correspond related look look')
    (start : related m m') :
    (m.turn code).report?.map look = (m'.turn code').report?.map look' := by
  rcases m.turn_cases code with ⟨action, next, first⟩ | ⟨fault, hfails⟩ | hnone
  · obtain ⟨next', first', -⟩ := h.executes start first
    rw [first.turn_eq, first'.turn_eq]
    rfl
  · obtain ⟨fault', hfails', hlook⟩ := h.fails start hfails
    rw [hfails.report?_eq, hfails'.report?_eq, Option.map_some, Option.map_some, hlook]
  · obtain ⟨hnone', hlook⟩ := h.finishes start hnone
    rw [report?_of_none hnone, report?_of_none hnone', Option.map_some, Option.map_some, hlook]

theorem exists_ends (h : Lockstep code code' correspond related look look') (start : related m m')
    {actions : List Action} {report : Report} (hends : Ends code actions m report) :
    ∃ report', Ends code' (actions.map correspond) m' report' ∧ look' report' = look report := by
  obtain ⟨last', steps, hlast⟩ := h.steps start hends.steps
  have hreport := h.report?_turn_map hlast
  rw [hends.ending, Option.map_some] at hreport
  obtain ⟨report', hending, hlook⟩ := Option.map_eq_some_iff.mp hreport.symm
  obtain ⟨rfl, -⟩ := report?_turn hending
  exact ⟨report', ⟨steps, hending⟩, hlook⟩

/-- A run that is followed executes an instruction as long as the following one does. -/
theorem exists_executes (h : Lockstep code code' correspond related look look')
    (start : related m m') {next' : Machine} {action' : Action}
    (first' : m'.Executes code' action' next') :
    ∃ action next, m.Executes code action next ∧ related next next' := by
  rcases m.executes_or_report code with ⟨action, next, first⟩ | ⟨report, hreport⟩
  · obtain ⟨other, hother, hnext⟩ := h.executes start first
    cases hother.turn_eq.symm.trans first'.turn_eq
    exact ⟨action, next, first, hnext⟩
  · have hnone := h.report?_turn_map start
    rw [hreport, first'.turn_eq] at hnone
    cases hnone

theorem exists_ends_of_ends (h : Lockstep code code' correspond related look look')
    (start : related m m') {actions' : List Action} {report' : Report}
    (hends : Ends code' actions' m' report') :
    ∃ actions report, Ends code actions m report ∧ look report = look' report' := by
  obtain ⟨steps, ending⟩ := hends
  -- The induction goes along the run on the right; the one on the left must keep up with it.
  generalize hlast : report'.machine = last' at steps ending
  induction steps generalizing m with
  | refl =>
    have hreport := h.report?_turn_map start
    rw [ending, Option.map_some] at hreport
    obtain ⟨report, hending, hlook⟩ := Option.map_eq_some_iff.mp hreport
    exact ⟨[], report, .of_turn hending, hlook⟩
  | cons first' _ ih =>
    obtain ⟨action, next, first, hnext⟩ :=
      h.exists_executes start (turn_eq_executed_iff.mp first')
    obtain ⟨actions, report, hends, hlook⟩ := ih hnext hlast ending
    exact ⟨action :: actions, report, hends.cons first, hlook⟩

/-- Programs whose code runs in step are reported alike, whether their runs end or not. -/
theorem report?_map {program program' : Program} {table table' : JumpTable}
    (h : Lockstep (.indexed program table) (.indexed program' table') correspond related look look')
    (accepted : JumpTable.ofInstructions program.toList = .ok table)
    (accepted' : JumpTable.ofInstructions program'.toList = .ok table') {input input' : String}
    (start : related (m.rewind input) (m'.rewind input')) (j j' : Journal) :
    (m.report? program input j).map look = (m'.report? program' input' j').map look' := by
  ext x
  simp only [Option.map_eq_some_iff, report?_of_accepted accepted, report?_of_accepted accepted']
  constructor
  · rintro ⟨report, ⟨actions, hends⟩, rfl⟩
    obtain ⟨report', hends', hlook⟩ := h.exists_ends start hends
    exact ⟨report', ⟨_, hends'⟩, hlook⟩
  · rintro ⟨report', ⟨actions', hends'⟩, rfl⟩
    obtain ⟨actions, report, hends, hlook⟩ := h.exists_ends_of_ends start hends'
    exact ⟨report, ⟨_, hends⟩, hlook⟩

end Lockstep

end Brainfuck.Machine
