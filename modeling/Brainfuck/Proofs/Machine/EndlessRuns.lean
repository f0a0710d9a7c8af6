import Brainfuck.Proofs.Machine.StepLimit

/-!
# Endless runs

How many instructions the run of a program can execute before it ends is bounded by a number that
can be computed from the program, the tape and the input. A run that is still inside its program
after as many instructions never ends, and no step limit lets it end otherwise than by cutting it.
So the bound tells runs that a larger limit would let finish from runs that no limit helps.
-/

namespace Brainfuck.Machine

/-- As many instructions as a run that ends can execute at most. -/
def stepBound (program : Program) (cells : CellCount) (input : String) : Nat :=
  program.size * cells.value * 256 ^ cells.value * (input.length + 1)

/-- After `count` instructions, the run of a program without a step limit has an instruction
left. -/
def InsideAfter (program : Program) (cells : CellCount) (input : String) (count : Nat) : Prop :=
  ∃ table actions mid, JumpTable.ofInstructions program.toList = .ok table ∧
    Steps (.indexed program table) actions (fresh ⟨cells, none⟩ input) mid ∧
      actions.length = count ∧ mid.position < program.size

/-- The run of a program without a step limit comes to no end, neither a good nor a bad one. -/
def NeverEnds (program : Program) (cells : CellCount) (input : String) : Prop :=
  ∃ table, JumpTable.ofInstructions program.toList = .ok table ∧
    ∀ actions report, ¬Ends (.indexed program table) actions (fresh ⟨cells, none⟩ input) report

section Bound

variable {program : Program} {cells : CellCount} {input : String} {j : Journal}

theorem situations_fresh :
    (fresh ⟨cells, none⟩ input).situations program.size = stepBound program cells input := by
  have hsize : input.toList.toArray.size = input.length := by
    rw [List.size_toArray, String.length_toList]
  calc
    (fresh ⟨cells, none⟩ input).situations program.size =
        program.size * cells.value * 256 ^ cells.value * (input.toList.toArray.size + 1) := rfl
    _ = stepBound program cells input := by rw [hsize, stepBound]

/-! ## Runs that end -/

theorem length_le_stepBound {table : JumpTable} {actions : List Action} {report : Report}
    (h : Ends (.indexed program table) actions (fresh ⟨cells, none⟩ input) report) :
    actions.length ≤ stepBound program cells input := by
  rw [← situations_fresh]
  exact h.length_le_situations (sound_rewind (new ⟨cells, none⟩) input) rfl

theorem processed_le_stepBound {report : Report}
    (h : reportWithin? program cells input j none = some report) :
    report.machine.processed ≤ stepBound program cells input := by
  obtain ⟨_, run⟩ := report?_eq_some_iff.mp h
  rcases interpret_cases run with ⟨u, -, rfl⟩ | ⟨table, actions, -, hends⟩
  · exact Nat.zero_le _
  · calc
      report.machine.processed = actions.length := hends.steps.processed_eq_length rfl
      _ ≤ stepBound program cells input := length_le_stepBound hends

/-! ## Runs that do not end -/

/-- A machine that is inside the program after as many instructions as there are situations is in
one of them for the second time, and the machines of a run that ends are not. -/
theorem InsideAfter.neverEnds {count : Nat} (h : InsideAfter program cells input count)
    (hcount : stepBound program cells input ≤ count) : NeverEnds program cells input := by
  obtain ⟨table, actions, mid, accepted, steps, rfl, inside⟩ := h
  refine ⟨table, accepted, fun others report hends ↦ ?_⟩
  obtain ⟨rest, -, hrest⟩ := hends.exists_of_steps steps
  have hlt : actions.length < (fresh ⟨cells, none⟩ input).situations program.size :=
    steps.length_lt_situations inside hrest (sound_rewind (new ⟨cells, none⟩) input) rfl
  rw [situations_fresh] at hlt
  exact Nat.not_lt_of_le hcount hlt

theorem NeverEnds.insideAfter (h : NeverEnds program cells input) (count : Nat) :
    InsideAfter program cells input count := by
  obtain ⟨table, accepted, endless⟩ := h
  rcases (fresh ⟨cells, none⟩ input).steps_or_ends (.indexed program table) count with
    ⟨actions, mid, steps, hlength⟩ | ⟨actions, report, hends, -⟩
  · refine ⟨table, actions, mid, accepted, steps, hlength, ?_⟩
    apply Nat.lt_of_not_le
    intro hle
    exact endless _ _ (steps.ends_ok (Array.getElem?_eq_none hle))
  · exact absurd hends (endless _ _)

theorem neverEnds_iff_no_report :
    NeverEnds program cells input ↔ reportWithin? program cells input j none = none := by
  constructor
  · rintro ⟨table, accepted, endless⟩
    rw [Option.eq_none_iff_forall_ne_some]
    intro report h
    obtain ⟨actions, hends⟩ := (reportWithin?_of_accepted accepted).mp h
    exact endless actions report hends
  · intro hnone
    cases htable : JumpTable.ofInstructions program.toList with
    | error u =>
      rw [reportWithin?_of_rejected htable] at hnone
      cases hnone
    | ok table =>
      refine ⟨table, htable, fun actions report hends ↦ ?_⟩
      have hsome : reportWithin? program cells input j none = some report :=
        (reportWithin?_of_accepted htable).mpr ⟨actions, hends⟩
      rw [hnone] at hsome
      cases hsome

/-- Every step limit cuts an endless run. -/
theorem NeverEnds.exceeds (h : NeverEnds program cells input) (limit : Nat) :
    ∃ report, reportWithin? program cells input j (some limit) = some report ∧
      report.result = .error (.stepLimitExceeded limit) := by
  obtain ⟨table, actions, mid, accepted, steps, rfl, inside⟩ := h.insideAfter limit
  obtain ⟨report, hreport, cut, hcut⟩ :=
    exceeds_of_fetched (j := j) accepted steps (Array.getElem?_eq_getElem inside)
  obtain ⟨rfl, -⟩ := steps_of_exceeds hreport hcut
  exact ⟨report, hreport, hcut⟩

/-- A run that every step limit cuts goes on for as many instructions as one likes. -/
theorem neverEnds_of_exceeds
    (h : ∀ limit, ∃ report, reportWithin? program cells input j (some limit) = some report ∧
      report.result = .error (.stepLimitExceeded limit)) : NeverEnds program cells input := by
  obtain ⟨report, hreport, hcut⟩ := h 0
  obtain ⟨-, -, table, -, accepted, -⟩ := steps_of_exceeds hreport hcut
  refine ⟨table, accepted, fun actions report hends ↦ ?_⟩
  -- A limit beyond the end would be reached after instructions that the run does not have.
  obtain ⟨report', hreport', hcut'⟩ := h (actions.length + 1)
  obtain ⟨-, -, table', others, accepted', hlength, steps⟩ := steps_of_exceeds hreport' hcut'
  obtain rfl : table' = table := Except.ok.inj (accepted'.symm.trans accepted)
  obtain ⟨rest, rfl, -⟩ := hends.exists_of_steps steps
  rw [List.length_append] at hlength
  omega

end Bound

/-- Without a step limit, a run that ends executes no more instructions than its bound, whichever
way it ends, and every end that executing instructions can lead to is reported. A run that has an
instruction left after as many instructions as its bound, or more, never ends; runs that never end
are those without a report, and those that every step limit cuts, however large. -/
theorem ends_within_stepBound (program : Program) (cells : CellCount) (input : String)
    (j : Journal) :
    (∀ report, reportWithin? program cells input j none = some report →
      report.machine.processed ≤ stepBound program cells input) ∧
    (∀ table, JumpTable.ofInstructions program.toList = .ok table → ∀ actions report,
      Ends (.indexed program table) actions (fresh ⟨cells, none⟩ input) report →
        actions.length ≤ stepBound program cells input ∧
          reportWithin? program cells input j none = some report) ∧
    (∀ count, stepBound program cells input ≤ count →
      (InsideAfter program cells input count ↔ NeverEnds program cells input)) ∧
    (NeverEnds program cells input ↔ reportWithin? program cells input j none = none) ∧
    (NeverEnds program cells input ↔
      ∀ limit, ∃ report, reportWithin? program cells input j (some limit) = some report ∧
        report.result = .error (.stepLimitExceeded limit)) := by
  refine ⟨fun report ↦ processed_le_stepBound, ?_, ?_, neverEnds_iff_no_report, ?_⟩
  · intro table accepted actions report hends
    exact ⟨length_le_stepBound hends, (reportWithin?_of_accepted accepted).mpr ⟨actions, hends⟩⟩
  · intro count hcount
    exact ⟨fun h ↦ h.neverEnds hcount, fun h ↦ h.insideAfter count⟩
  · exact ⟨fun h ↦ h.exceeds, neverEnds_of_exceeds⟩

/-- A loop around nothing that is entered never ends; on one cell, 768 instructions settle this. -/
theorem ends_within_stepBound_loop :
    stepBound (.ofString "+[]") ⟨1, by decide⟩ "" = 768 ∧
      NeverEnds (.ofString "+[]") ⟨1, by decide⟩ "" := by
  have hbound := ends_within_stepBound (.ofString "+[]") ⟨1, by decide⟩ "" {}
  have hnone : reportWithin? (.ofString "+[]") ⟨1, by decide⟩ "" {} none = none :=
    Option.isNone_iff_eq_none.mp (by decide +kernel)
  exact ⟨rfl, hbound.2.2.2.1.mpr hnone⟩

end Brainfuck.Machine
