import Brainfuck.Proofs.Machine.Trace

/-!
# Step limits

A step limit cuts a run and changes nothing else. As long as the limit is not reached, a limited
machine executes the same instructions as an unlimited one and goes through the same machines but
for the limit they carry; when it is reached and an instruction is left, the run ends there. A run
to the end of its program may use its limit up, since nothing is left to be refused, while a run
that ends in a fault must have one instruction to spare.
-/

namespace Brainfuck

def Fault.IsPointer : Fault → Prop
  | pointerTooHigh _ _ | pointerTooLow _ => True
  | unmatchedBracket _ | stepLimitExceeded _ => False

theorem Fault.IsPointer.result_ne {fault : Fault} (h : fault.IsPointer)
    {result : Except Fault String} (hfault : result = .error fault) (u : UnmatchedBracket) :
    result ≠ .error (.unmatchedBracket u) := by
  rintro rfl
  cases hfault
  exact h

/-- A run that its step limit has cut. -/
def Report.Exceeds (report : Report) : Prop :=
  ∃ limit, report.result = .error (.stepLimitExceeded limit)

namespace Machine

def withLimit (m : Machine) (limit : Option Nat) : Machine :=
  { m with config := { m.config with stepLimit := limit } }

theorem exhausted?_eq_some_iff {m : Machine} {limit : Nat} :
    m.exhausted? = some limit ↔ m.config.stepLimit = some limit ∧ limit ≤ m.processed := by
  rw [exhausted?, Option.filter_eq_some_iff, decide_eq_true_iff]

theorem exhausted?_withLimit {m : Machine} {limit : Option Nat}
    (h : ∀ n, limit = some n → m.processed < n) : (m.withLimit limit).exhausted? = none := by
  rw [Option.eq_none_iff_forall_ne_some]
  intro n hn
  obtain ⟨hlimit, hle⟩ := exhausted?_eq_some_iff.mp hn
  exact Nat.lt_irrefl _ (Nat.lt_of_lt_of_le (h n hlimit) hle)

/-! ## The same instructions under another limit -/

theorem Executes.withLimit {m next : Machine} {code : Code} {action : Action}
    {limit : Option Nat} (h : m.Executes code action next)
    (allowed : ∀ n, limit = some n → m.processed < n) :
    (m.withLimit limit).Executes code action (next.withLimit limit) := by
  have running := exhausted?_withLimit allowed
  cases h with
  | command fetched _ isCommand allowed => exact .command fetched running isCommand allowed
  | pass fetched _ isBracket stays => exact .pass fetched running isBracket stays
  | jump fetched _ isBracket jumps partner =>
    exact .jump fetched running isBracket jumps partner

theorem Fails.withLimit {m : Machine} {code : Code} {fault : Fault} {limit : Option Nat}
    (h : m.Fails code fault) (hfault : ∀ n, fault ≠ .stepLimitExceeded n)
    (allowed : ∀ n, limit = some n → m.processed < n) :
    (m.withLimit limit).Fails code fault := by
  have running := exhausted?_withLimit allowed
  cases h with
  | limit => exact absurd rfl (hfault _)
  | command fetched _ isCommand refused => exact .command fetched running isCommand refused
  | jump fetched _ isBracket jumps unpaired =>
    exact .jump fetched running isBracket jumps unpaired

theorem Steps.withLimit {code : Code} {actions : List Action} {m last : Machine}
    {limit : Option Nat} (h : Steps code actions m last)
    (allowed : ∀ n, limit = some n → last.processed ≤ n) :
    Steps code actions (m.withLimit limit) (last.withLimit limit) := by
  induction h with
  | refl => exact .refl
  | cons first others ih =>
    have hfirst := turn_eq_executed_iff.mp first
    have hcount := others.processed_eq
    rw [hfirst.processed_eq] at hcount
    refine .cons (hfirst.withLimit fun n hn ↦ ?_).turn_eq (ih allowed)
    have hle := allowed n hn
    omega

theorem Fails.exhausted {m : Machine} {code : Code} {limit : Nat}
    (h : m.Fails code (.stepLimitExceeded limit)) : m.exhausted? = some limit := by
  generalize hfault : Fault.stepLimitExceeded limit = fault at h
  cases h with
  | limit _ exhausted =>
    cases hfault
    exact exhausted
  | command _ _ _ refused =>
    subst hfault
    simp [Store.fault?_eq_some_iff] at refused
  | jump => cases hfault

theorem Fails.running {m : Machine} {code : Code} {fault : Fault} (h : m.Fails code fault)
    (hfault : ∀ n, fault ≠ .stepLimitExceeded n) : m.exhausted? = none := by
  cases h with
  | limit => exact absurd rfl (hfault _)
  | command _ running => exact running
  | jump _ running => exact running

theorem Fails.unpaired {m : Machine} {code : Code} {u : UnmatchedBracket}
    (h : m.Fails code (.unmatchedBracket u)) :
    ∃ i b, code.instructions[m.position]? = some i ∧ i.symbol = .bracket b ∧
      code.partner? m.position i = none := by
  generalize hfault : Fault.unmatchedBracket u = fault at h
  cases h with
  | limit => cases hfault
  | command _ _ _ refused =>
    subst hfault
    simp [Store.fault?_eq_some_iff] at refused
  | jump fetched _ isBracket _ unpaired => exact ⟨_, _, fetched, isBracket, unpaired⟩

theorem Fails.fetched {m : Machine} {code : Code} {fault : Fault} (h : m.Fails code fault) :
    ∃ i, code.instructions[m.position]? = some i := by
  cases h <;> exact ⟨_, by assumption⟩

/-! ## The same end under another limit -/

end Machine

def Report.withLimit (report : Report) (limit : Option Nat) : Report :=
  { report with machine := report.machine.withLimit limit }

namespace Machine

theorem Ends.withLimit_ok {code : Code} {actions : List Action} {m : Machine} {report : Report}
    {limit : Option Nat} {out : String} (h : Ends code actions m report)
    (hout : report.result = .ok out)
    (allowed : ∀ n, limit = some n → report.machine.processed ≤ n) :
    Ends code actions (m.withLimit limit) (report.withLimit limit) := by
  refine ⟨h.steps.withLimit allowed, ?_⟩
  rw [Report.withLimit, hout, h.eq_output hout]
  exact report?_of_none (h.getElem?_eq_none hout)

theorem Ends.withLimit_error {code : Code} {actions : List Action} {m : Machine}
    {report : Report} {limit : Option Nat} {fault : Fault} (h : Ends code actions m report)
    (hfault : report.result = .error fault) (hne : ∀ n, fault ≠ .stepLimitExceeded n)
    (allowed : ∀ n, limit = some n → report.machine.processed < n) :
    Ends code actions (m.withLimit limit) (report.withLimit limit) := by
  refine ⟨h.steps.withLimit fun n hn ↦ Nat.le_of_lt (allowed n hn), ?_⟩
  rw [Report.withLimit, hfault]
  exact ((h.fails hfault).withLimit hne allowed).report?_eq

/-- A limit that is reached while an instruction is left ends the run. -/
theorem ends_of_fetched {code : Code} {actions : List Action} {m mid : Machine} {i : Instruction}
    (steps : Steps code actions m mid) (fetched : code.instructions[mid.position]? = some i) :
    Ends code actions (m.withLimit (some mid.processed))
      ⟨.error (.stepLimitExceeded mid.processed), mid.withLimit (some mid.processed)⟩ := by
  have hfails : (mid.withLimit (some mid.processed)).Fails code
      (.stepLimitExceeded mid.processed) :=
    .limit fetched (exhausted?_eq_some_iff.mpr ⟨rfl, Nat.le_refl _⟩)
  apply (steps.withLimit _).ends_error hfails
  intro n hn
  cases hn
  exact Nat.le_refl _

/-- Any number of instructions can be executed, unless the run ends before. -/
theorem steps_or_ends (m : Machine) (code : Code) (n : Nat) :
    (∃ actions last, Steps code actions m last ∧ actions.length = n) ∨
      ∃ actions report, Ends code actions m report ∧ actions.length < n := by
  induction n generalizing m with
  | zero => exact .inl ⟨[], m, .refl, rfl⟩
  | succ n ih =>
    rcases m.executes_or_report code with ⟨action, next, first⟩ | ⟨report, hreport⟩
    · rcases ih next with ⟨actions, last, steps, rfl⟩ | ⟨actions, report, hends, hlength⟩
      · exact .inl ⟨action :: actions, last, .cons first.turn_eq steps, rfl⟩
      · exact .inr ⟨action :: actions, report, hends.cons first, Nat.succ_lt_succ hlength⟩
    · exact .inr ⟨[], report, .of_turn hreport, Nat.zero_lt_succ n⟩

/-- A limited machine comes to an end. -/
theorem exists_ends_of_limited {m : Machine} {config : Config} {limit : Nat} (code : Code)
    (sound : m.Sound config) (hlimit : config.stepLimit = some limit) :
    ∃ actions report, Ends code actions m report := by
  rcases m.steps_or_ends code (limit + 1) with ⟨actions, last, steps, hlength⟩ | ⟨_, _, hends, _⟩
  · have hle := (steps.sound sound).processed_le limit hlimit
    rw [steps.processed_eq] at hle
    omega
  · exact ⟨_, _, hends⟩

/-! ## Programs under different limits -/

/-- The report of a program on a new machine with the given limit, if its run ends. -/
def reportWithin? (program : Program) (cells : CellCount) (input : String) (j : Journal)
    (limit : Option Nat) : Option Report :=
  (new ⟨cells, limit⟩).report? program input j

section Limits

variable {program : Program} {cells : CellCount} {input : String} {j : Journal}

theorem reportWithin?_of_accepted {table : JumpTable} {limit : Option Nat} {report : Report}
    (accepted : JumpTable.ofInstructions program.toList = .ok table) :
    reportWithin? program cells input j limit = some report ↔
      ∃ actions, Ends (.indexed program table) actions
        ((fresh ⟨cells, none⟩ input).withLimit limit) report :=
  report?_of_accepted accepted

theorem reportWithin?_of_rejected {u : UnmatchedBracket}
    (rejected : JumpTable.ofInstructions program.toList = .error u) (limit : Option Nat) :
    reportWithin? program cells input j limit =
      some ⟨.error (.unmatchedBracket u), (fresh ⟨cells, none⟩ input).withLimit limit⟩ :=
  report?_of_rejected rejected _ _ _

/-- A run that does not report a bracket is the run of an accepted program. -/
theorem exists_ends_of_reportWithin {limit : Option Nat} {report : Report}
    (h : reportWithin? program cells input j limit = some report)
    (hresult : ∀ u, report.result ≠ .error (.unmatchedBracket u)) :
    ∃ table actions, JumpTable.ofInstructions program.toList = .ok table ∧
      Ends (.indexed program table) actions ((fresh ⟨cells, none⟩ input).withLimit limit)
        report := by
  cases htable : JumpTable.ofInstructions program.toList with
  | error u =>
    rw [reportWithin?_of_rejected htable] at h
    cases h
    exact absurd rfl (hresult u)
  | ok table =>
    obtain ⟨actions, hends⟩ := (reportWithin?_of_accepted htable).mp h
    exact ⟨table, actions, rfl, hends⟩

/-- A limited run ends, and it has executed at most as many instructions as it may. -/
theorem exists_reportWithin (n : Nat) :
    ∃ report, reportWithin? program cells input j (some n) = some report ∧
      report.machine.processed ≤ n := by
  cases htable : JumpTable.ofInstructions program.toList with
  | error u => exact ⟨_, reportWithin?_of_rejected htable _, Nat.zero_le n⟩
  | ok table =>
    have sound := sound_rewind (new ⟨cells, some n⟩) input
    obtain ⟨actions, report, hends⟩ :=
      exists_ends_of_limited (.indexed program table) sound rfl
    have hle := (hends.steps.sound sound).processed_le n rfl
    exact ⟨report, (reportWithin?_of_accepted htable).mpr ⟨actions, hends⟩, hle⟩

/-- A run that its limit does not cut is the run under every larger limit and under none. -/
theorem reportWithin?_of_not_exceeds {m : Nat} {limit : Option Nat} {report : Report}
    (h : reportWithin? program cells input j (some m) = some report) (hcut : ¬report.Exceeds)
    (hle : ∀ n, limit = some n → m ≤ n) :
    reportWithin? program cells input j limit = some (report.withLimit limit) := by
  cases htable : JumpTable.ofInstructions program.toList with
  | error u =>
    rw [reportWithin?_of_rejected htable] at h ⊢
    cases h
    rfl
  | ok table =>
    rw [reportWithin?_of_accepted htable] at h ⊢
    obtain ⟨actions, hends⟩ := h
    have sound := hends.steps.sound (sound_rewind (new ⟨cells, some m⟩) input)
    refine ⟨actions, ?_⟩
    cases hresult : report.result with
    | ok out =>
      apply hends.withLimit_ok hresult
      intro n hn
      exact Nat.le_trans (sound.processed_le m rfl) (hle n hn)
    | error fault =>
      have hne : ∀ n, fault ≠ .stepLimitExceeded n := by
        intro n hn
        exact hcut ⟨n, hn ▸ hresult⟩
      have hlimit : report.machine.config.stepLimit = some m := by
        rw [hends.steps.config_eq]
        rfl
      have hlt := lt_of_exhausted?_eq_none ((hends.fails hresult).running hne) hlimit
      apply hends.withLimit_error hresult hne
      intro n hn
      exact Nat.lt_of_lt_of_le hlt (hle n hn)

/-- A run that its limit cuts has executed exactly as many instructions as it may, and it stands
where the unlimited run stands after as many. -/
theorem steps_of_exceeds {m limit : Nat} {report : Report}
    (h : reportWithin? program cells input j (some m) = some report)
    (hcut : report.result = .error (.stepLimitExceeded limit)) :
    limit = m ∧ report.machine.processed = m ∧ ∃ table actions,
      JumpTable.ofInstructions program.toList = .ok table ∧ actions.length = m ∧
        Steps (.indexed program table) actions (fresh ⟨cells, none⟩ input)
          (report.machine.withLimit none) := by
  have hbracket : ∀ u, report.result ≠ .error (.unmatchedBracket u) := by
    intro u hu
    cases hu.symm.trans hcut
  obtain ⟨table, actions, accepted, hends⟩ := exists_ends_of_reportWithin h hbracket
  have sound := hends.steps.sound (sound_rewind (new ⟨cells, some m⟩) input)
  obtain ⟨hlimit, hle⟩ := exhausted?_eq_some_iff.mp (hends.fails hcut).exhausted
  have hm : limit = m := by
    rw [hends.steps.config_eq] at hlimit
    exact (Option.some.inj hlimit).symm
  have hprocessed : report.machine.processed = m :=
    Nat.le_antisymm (sound.processed_le m rfl) (hm ▸ hle)
  have hlength : actions.length = m := by
    rw [← hprocessed]
    exact (hends.steps.processed_eq_length rfl).symm
  have steps := hends.steps.withLimit fun n (hn : none = some n) ↦ by cases hn
  exact ⟨hm, hprocessed, table, actions, accepted, hlength, steps⟩

/-- What a run has written when its limit cuts it is the beginning of what it writes under a larger
limit. -/
theorem output_prefix_of_exceeds {m n limit : Nat} {report report' : Report} (hle : m ≤ n)
    (h : reportWithin? program cells input j (some m) = some report)
    (hcut : report.result = .error (.stepLimitExceeded limit))
    (h' : reportWithin? program cells input j (some n) = some report') :
    report.machine.output.toList <+: report'.machine.output.toList := by
  obtain ⟨-, hprocessed, table, actions, accepted, -, steps⟩ := steps_of_exceeds h hcut
  obtain ⟨others, hends⟩ := (reportWithin?_of_accepted accepted).mp h'
  have hallowed : ∀ k, some n = some k → report.machine.processed ≤ k := by
    intro k hk
    cases hk
    rwa [hprocessed]
  obtain ⟨rest, -, hrest⟩ := hends.exists_of_steps (steps.withLimit hallowed)
  exact hrest.steps.output_prefix

/-- A limit that is reached while the unlimited run has an instruction left cuts the run. -/
theorem exceeds_of_fetched {table : JumpTable} {actions : List Action} {mid : Machine}
    {i : Instruction} (accepted : JumpTable.ofInstructions program.toList = .ok table)
    (steps : Steps (.indexed program table) actions (fresh ⟨cells, none⟩ input) mid)
    (fetched : program.instructions[mid.position]? = some i) :
    ∃ report, reportWithin? program cells input j (some actions.length) = some report ∧
      report.Exceeds := by
  have hcount : mid.processed = actions.length := steps.processed_eq_length rfl
  have hends := ends_of_fetched steps fetched
  rw [hcount] at hends
  exact ⟨_, (reportWithin?_of_accepted accepted).mpr ⟨actions, hends⟩, _, rfl⟩

/-- While instructions of the unlimited run are left, a limit cuts it. -/
theorem exceeds_of_lt {n : Nat} {report : Report}
    (h : reportWithin? program cells input j none = some report)
    (hlt : n < report.machine.processed) :
    ∃ report', reportWithin? program cells input j (some n) = some report' ∧
      report'.Exceeds := by
  cases htable : JumpTable.ofInstructions program.toList with
  | error u =>
    rw [reportWithin?_of_rejected htable] at h
    cases h
    exact absurd hlt (Nat.not_lt_zero n)
  | ok table =>
    obtain ⟨actions, hends⟩ := (reportWithin?_of_accepted htable).mp h
    have hcount : report.machine.processed = actions.length :=
      hends.steps.processed_eq_length rfl
    rw [hcount] at hlt
    obtain ⟨mid, before, after⟩ := hends.steps.exists_at (Nat.le_of_lt hlt)
    rw [List.drop_eq_getElem_cons hlt] at after
    cases after with
    | cons first _ =>
      have hfetched := (turn_eq_executed_iff.mp first).lt_size
      have hcut := exceeds_of_fetched (j := j) htable before (Array.getElem?_eq_getElem hfetched)
      rwa [List.length_take, Nat.min_eq_left (Nat.le_of_lt hlt)] at hcut

/-- A run that a fault ends has an instruction left, so a limit cuts it there too. -/
theorem exceeds_of_error {report : Report} {fault : Fault}
    (h : reportWithin? program cells input j none = some report)
    (hfault : report.result = .error fault) (hpointer : fault.IsPointer) :
    ∃ report', reportWithin? program cells input j (some report.machine.processed) =
      some report' ∧ report'.Exceeds := by
  obtain ⟨table, actions, accepted, hends⟩ :=
    exists_ends_of_reportWithin h (hpointer.result_ne hfault)
  have hcount : report.machine.processed = actions.length :=
    hends.steps.processed_eq_length rfl
  obtain ⟨i, fetched⟩ := (hends.fails hfault).fetched
  rw [hcount]
  exact exceeds_of_fetched accepted hends.steps fetched

theorem not_exceeds_of_ok {n : Nat} {report : Report} {out : String}
    (h : reportWithin? program cells input j none = some report) (hout : report.result = .ok out)
    (hle : report.machine.processed ≤ n) :
    reportWithin? program cells input j (some n) = some (report.withLimit (some n)) := by
  have hbracket : ∀ u, report.result ≠ .error (.unmatchedBracket u) := by
    intro u hu
    cases hu.symm.trans hout
  obtain ⟨table, actions, accepted, hends⟩ := exists_ends_of_reportWithin h hbracket
  rw [reportWithin?_of_accepted accepted]
  refine ⟨actions, hends.withLimit_ok hout fun k hk ↦ ?_⟩
  cases hk
  exact hle

theorem not_exceeds_of_pointer {n : Nat} {report : Report} {fault : Fault}
    (h : reportWithin? program cells input j none = some report)
    (hfault : report.result = .error fault) (hpointer : fault.IsPointer)
    (hlt : report.machine.processed < n) :
    reportWithin? program cells input j (some n) = some (report.withLimit (some n)) := by
  obtain ⟨table, actions, accepted, hends⟩ :=
    exists_ends_of_reportWithin h (hpointer.result_ne hfault)
  have hne : ∀ k, fault ≠ .stepLimitExceeded k := by
    rintro k rfl
    exact hpointer
  rw [reportWithin?_of_accepted accepted]
  refine ⟨actions, hends.withLimit_error hfault hne fun k hk ↦ ?_⟩
  cases hk
  exact hlt

/-- An unmatched bracket is reported exactly when the program is rejected. -/
theorem unmatched_iff_rejected (limit : Option Nat) (u : UnmatchedBracket) :
    (∃ report, reportWithin? program cells input j limit = some report ∧
      report.result = .error (.unmatchedBracket u)) ↔
      JumpTable.ofInstructions program.toList = .error u := by
  constructor
  · rintro ⟨report, h, hresult⟩
    cases htable : JumpTable.ofInstructions program.toList with
    | error v =>
      rw [reportWithin?_of_rejected htable] at h
      cases h
      cases hresult
      rfl
    | ok table =>
      obtain ⟨actions, hends⟩ := (reportWithin?_of_accepted htable).mp h
      obtain ⟨i, b, fetched, isBracket, unpaired⟩ := (hends.fails hresult).unpaired
      obtain ⟨target, partner⟩ := Code.exists_partner_indexed htable fetched isBracket
      rw [unpaired] at partner
      cases partner
  · intro rejected
    exact ⟨_, reportWithin?_of_rejected rejected limit, rfl⟩

end Limits

/-- A step limit cuts a run and changes nothing else. A limited run ends within its limit. If it is
not cut, every larger limit and no limit give the same report; if it is cut, it stands where the
unlimited run stands after as many instructions, and what it has written is continued under a larger
limit. A limit cuts a run to the end of its program exactly when it is smaller than the number of
instructions of the run, and it cuts a run into a fault of the head also when it is equal to it. An
unmatched bracket is reported under every limit alike. -/
theorem step_limit_cuts (program : Program) (cells : CellCount) (input : String) (j : Journal) :
    (∀ n, ∃ report, reportWithin? program cells input j (some n) = some report ∧
      report.machine.processed ≤ n) ∧
    (∀ m n report, m ≤ n → reportWithin? program cells input j (some m) = some report →
      ¬report.Exceeds →
        reportWithin? program cells input j (some n) = some (report.withLimit (some n)) ∧
        reportWithin? program cells input j none = some (report.withLimit none)) ∧
    (∀ m report limit, reportWithin? program cells input j (some m) = some report →
      report.result = .error (.stepLimitExceeded limit) →
        limit = m ∧ report.machine.processed = m ∧
        (∃ table actions, JumpTable.ofInstructions program.toList = .ok table ∧
          actions.length = m ∧
          Steps (.indexed program table) actions (fresh ⟨cells, none⟩ input)
            (report.machine.withLimit none)) ∧
        ∀ n report', m ≤ n → reportWithin? program cells input j (some n) = some report' →
          report.machine.output.toList <+: report'.machine.output.toList) ∧
    (∀ n report out, reportWithin? program cells input j none = some report →
      report.result = .ok out →
        ((∃ report', reportWithin? program cells input j (some n) = some report' ∧
          report'.Exceeds) ↔ n < report.machine.processed)) ∧
    (∀ n report fault, reportWithin? program cells input j none = some report →
      report.result = .error fault → fault.IsPointer →
        ((∃ report', reportWithin? program cells input j (some n) = some report' ∧
          report'.Exceeds) ↔ n ≤ report.machine.processed)) ∧
    ∀ limit u, (∃ report, reportWithin? program cells input j limit = some report ∧
      report.result = .error (.unmatchedBracket u)) ↔
        JumpTable.ofInstructions program.toList = .error u := by
  refine ⟨exists_reportWithin, ?_, ?_, ?_, ?_, unmatched_iff_rejected⟩
  · intro m n report hle h hcut
    refine ⟨reportWithin?_of_not_exceeds h hcut ?_, reportWithin?_of_not_exceeds h hcut ?_⟩
    · intro k hk
      cases hk
      exact hle
    · intro k hk
      cases hk
  · intro m report limit h hcut
    obtain ⟨hlimit, hprocessed, hsteps⟩ := steps_of_exceeds h hcut
    exact ⟨hlimit, hprocessed, hsteps,
      fun n report' hle h' ↦ output_prefix_of_exceeds hle h hcut h'⟩
  · intro n report out h hout
    constructor
    · rintro ⟨report', h', limit, hlimit⟩
      apply Nat.lt_of_not_le
      intro hle
      rw [not_exceeds_of_ok h hout hle] at h'
      cases h'
      cases hout.symm.trans hlimit
    · exact exceeds_of_lt h
  · intro n report fault h hfault hpointer
    constructor
    · rintro ⟨report', h', limit, hlimit⟩
      apply Nat.le_of_not_lt
      intro hlt
      rw [not_exceeds_of_pointer h hfault hpointer hlt] at h'
      cases h'
      cases hfault.symm.trans hlimit
      exact hpointer
    · intro hle
      rcases Nat.lt_or_eq_of_le hle with hlt | rfl
      · exact exceeds_of_lt h hlt
      · exact exceeds_of_error h hfault hpointer

end Machine

end Brainfuck
