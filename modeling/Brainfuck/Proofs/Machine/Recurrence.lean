import Brainfuck.Proofs.Machine.Invariant
import Mathlib.Data.Fintype.BigOperators

/-!
# Runs that come back

Without a step limit, what a machine does next depends on its situation alone: the position in the
program, the tape and the number of characters read. What it has written and how many instructions
it has counted have no influence. Inside a program a sound machine can be in finitely many
situations, so a run with more instructions than situations is in one of them twice, and then the
two rests of the run are equally long, which they are not. Hence a run ends within its horizon if it
ends at all, and `run` has a value for exactly the runs that end.
-/

namespace Brainfuck.Machine

/-- A machine in the same situation with another past. -/
def retold (m : Machine) (output : String) (processed : Nat) : Machine :=
  { m with store := { m.store with output }, processed }

theorem exhausted?_of_unlimited {m : Machine} (h : m.config.stepLimit = none) :
    m.exhausted? = none := by
  rw [exhausted?, h, Option.filter_none]

theorem fault?_retold (m : Machine) (output : String) (processed : Nat) (c : Command)
    (i : Instruction) : (m.retold output processed).store.fault? c i = m.store.fault? c i := by
  cases c <;> rfl

theorem exists_retold_perform (m : Machine) (output : String) (processed : Nat) (c : Command) :
    ∃ output' processed',
      (m.retold output processed).perform c = (m.perform c).retold output' processed' := by
  cases c <;> exact ⟨_, _, rfl⟩

/-- The past has no influence on the next instruction. -/
theorem Executes.retold {m next : Machine} {code : Code} {action : Action}
    (h : m.Executes code action next) (unlimited : m.config.stepLimit = none) (output : String)
    (processed : Nat) :
    ∃ output' processed',
      (m.retold output processed).Executes code action (next.retold output' processed') := by
  have running : (m.retold output processed).exhausted? = none :=
    exhausted?_of_unlimited unlimited
  cases h with
  | command fetched _ isCommand allowed =>
    obtain ⟨output', processed', hperform⟩ := exists_retold_perform m output processed _
    refine ⟨output', processed', ?_⟩
    rw [← hperform]
    exact .command fetched running isCommand ((fault?_retold ..).trans allowed)
  | pass fetched _ isBracket stays => exact ⟨_, _, .pass fetched running isBracket stays⟩
  | jump fetched _ isBracket jumps partner =>
    exact ⟨_, _, .jump fetched running isBracket jumps partner⟩

theorem Fails.retold {m : Machine} {code : Code} {fault : Fault} (h : m.Fails code fault)
    (unlimited : m.config.stepLimit = none) (output : String) (processed : Nat) :
    (m.retold output processed).Fails code fault := by
  have running : (m.retold output processed).exhausted? = none :=
    exhausted?_of_unlimited unlimited
  cases h with
  | limit _ exhausted =>
    rw [exhausted?_of_unlimited unlimited] at exhausted
    cases exhausted
  | command fetched _ isCommand refused =>
    exact .command fetched running isCommand ((fault?_retold ..).trans refused)
  | jump fetched _ isBracket jumps unpaired =>
    exact .jump fetched running isBracket jumps unpaired

theorem exists_report_retold {m : Machine} {code : Code} {report : Report}
    (h : (m.turn code).report? = some report) (unlimited : m.config.stepLimit = none)
    (output : String) (processed : Nat) :
    ∃ report', ((m.retold output processed).turn code).report? = some report' := by
  obtain ⟨-, ⟨hnone, -⟩ | ⟨fault, hfails, -⟩⟩ := report?_turn h
  · exact ⟨_, report?_of_none hnone⟩
  · exact ⟨_, (hfails.retold unlimited output processed).report?_eq⟩

/-- Machines in the same situation execute the same instructions until their runs end. -/
theorem Ends.retold {code : Code} {actions : List Action} {m : Machine} {report : Report}
    (h : Ends code actions m report) (unlimited : m.config.stepLimit = none) (output : String)
    (processed : Nat) : ∃ report', Ends code actions (m.retold output processed) report' := by
  induction actions generalizing m output processed with
  | nil =>
    obtain ⟨steps, ending⟩ := h
    cases steps
    obtain ⟨report', hending⟩ := exists_report_retold ending unlimited output processed
    exact ⟨report', .of_turn hending⟩
  | cons action actions ih =>
    obtain ⟨steps, ending⟩ := h
    cases steps with
    | cons first others =>
      have hfirst := turn_eq_executed_iff.mp first
      obtain ⟨output', processed', hretold⟩ := hfirst.retold unlimited output processed
      have hnext := hfirst.config_eq ▸ unlimited
      obtain ⟨report', hends⟩ := ih ⟨others, ending⟩ hnext output' processed'
      exact ⟨report', hends.cons hretold⟩

/-! ## Counting situations -/

/-- The situation of a machine with the given number of cells. -/
def situation (cells : Nat) (m : Machine) : Nat × Nat × (Fin cells → Fin 256) × Nat :=
  (m.position, m.tape.head, fun n ↦ (m.tape.cells.getD n 0).toFin, m.store.cursor)

theorem Sound.tape_eq {m m' : Machine} {config : Config} (hm : m.Sound config)
    (hm' : m'.Sound config) (hhead : m.tape.head = m'.tape.head)
    (hcells : ∀ n : Fin config.cellCount.value,
      (m.tape.cells.getD n 0).toFin = (m'.tape.cells.getD n 0).toFin) : m.tape = m'.tape := by
  have hsize : m.tape.cells.size = config.cellCount.value := hm.size_eq
  have hsize' : m'.tape.cells.size = config.cellCount.value := hm'.size_eq
  have harray : m.tape.cells = m'.tape.cells := by
    apply Array.ext
    · rw [hsize, hsize']
    · intro n hn hn'
      have hcell := UInt8.toFin_inj.mp (hcells ⟨n, hsize ▸ hn⟩)
      simpa [Array.getD_eq_getD_getElem?, hn, hn'] using hcell
  obtain ⟨⟨cells, head⟩, _, _, _⟩ := m.store
  exact Tape.mk.injEq .. ▸ ⟨harray, hhead⟩

/-- Sound machines with the same input in the same situation differ in their past alone. -/
theorem Sound.eq_retold {m m' : Machine} {config : Config} (hm : m.Sound config)
    (hm' : m'.Sound config) (hinput : m.store.input = m'.store.input)
    (hsituation : situation config.cellCount.value m = situation config.cellCount.value m') :
    m' = m.retold m'.store.output m'.processed := by
  simp only [situation, Prod.mk.injEq] at hsituation
  obtain ⟨hposition, hhead, hcells, hcursor⟩ := hsituation
  have htape := hm.tape_eq hm' hhead (congrFun hcells)
  have hconfig := hm.config_eq.trans hm'.config_eq.symm
  obtain ⟨_, ⟨_, _, _, _⟩, _, _⟩ := m
  obtain ⟨_, ⟨_, _, _, _⟩, _, _⟩ := m'
  simp_all [retold, tape]

/-- The situations inside a program of the given size that a machine with a configuration can be
in while it reads an input of the given length. -/
def situationsInside (config : Config) (size length : Nat) :
    Finset (Nat × Nat × (Fin config.cellCount.value → Fin 256) × Nat) :=
  Finset.range size ×ˢ Finset.range config.cellCount.value ×ˢ Finset.univ ×ˢ
    Finset.range (length + 1)

theorem card_situationsInside (config : Config) (size length : Nat) :
    (situationsInside config size length).card =
      size * config.cellCount.value * Nat.pow 256 config.cellCount.value * (length + 1) := by
  have hcells : Fintype.card (Fin config.cellCount.value → Fin 256) =
      Nat.pow 256 config.cellCount.value := by
    rw [Fintype.card_fun, Fintype.card_fin, Fintype.card_fin]
    rfl
  unfold situationsInside
  rw [Finset.card_product, Finset.card_product, Finset.card_product, Finset.card_range,
    Finset.card_range, Finset.card_range, Finset.card_univ, hcells]
  generalize Nat.pow 256 config.cellCount.value = power
  rw [Nat.mul_assoc, Nat.mul_assoc]

theorem Sound.situation_mem {m : Machine} {config : Config} {size : Nat} (h : m.Sound config)
    (hposition : m.position < size) :
    situation config.cellCount.value m ∈
      situationsInside config size m.store.input.size := by
  have hhead := h.head_lt
  have hcursor := h.cursor_le
  rw [h.size_eq] at hhead
  simp only [situationsInside, situation, Finset.mem_product, Finset.mem_range, Finset.mem_univ]
  exact ⟨hposition, hhead, trivial, Nat.lt_succ_of_le hcursor⟩

/-! ## Runs that end, end within the horizon -/

theorem Steps.lt_size {code : Code} {actions : List Action} {m last : Machine}
    (h : Steps code actions m last) (hlength : 0 < actions.length) :
    m.position < code.instructions.size := by
  cases h with
  | refl => exact absurd hlength (Nat.lt_irrefl 0)
  | cons first _ => exact (turn_eq_executed_iff.mp first).lt_size

/-- A run that ends is in a situation of its own at every machine inside the program. So there are
fewer instructions up to such a machine than situations. -/
theorem Steps.length_lt_situations {code : Code} {actions others : List Action}
    {m last : Machine} {report : Report} {config : Config} (steps : Steps code actions m last)
    (inside : last.position < code.instructions.size) (h : Ends code others last report)
    (sound : m.Sound config) (unlimited : m.config.stepLimit = none) :
    actions.length < m.situations code.instructions.size := by
  have hmids : ∀ k, ∃ mid, k ≤ actions.length →
      Steps code (actions.take k) m mid ∧ Steps code (actions.drop k) mid last := by
    intro k
    by_cases hk : k ≤ actions.length
    · obtain ⟨mid, hmid⟩ := steps.exists_at hk
      exact ⟨mid, fun _ ↦ hmid⟩
    · exact ⟨m, fun hle ↦ absurd hle hk⟩
  choose mids hmids using hmids
  have hsound : ∀ k ≤ actions.length, (mids k).Sound config := fun k hk ↦
    (hmids k hk).1.sound sound
  have hinput : ∀ k ≤ actions.length, (mids k).store.input = m.store.input := fun k hk ↦
    (hmids k hk).1.input_eq
  have hinside : ∀ k ≤ actions.length, (mids k).position < code.instructions.size := by
    intro k hk
    have hrest := (hmids k hk).2
    rcases Nat.lt_or_eq_of_le hk with hlt | rfl
    · apply hrest.lt_size
      rw [List.length_drop]
      exact Nat.sub_pos_of_lt hlt
    · rw [List.drop_length] at hrest
      cases hrest
      exact inside
  have hends : ∀ k ≤ actions.length, Ends code (actions.drop k ++ others) (mids k) report :=
    fun k hk ↦ ⟨(hmids k hk).2.trans h.steps, h.ending⟩
  apply Nat.lt_of_not_le
  intro hle
  have hcard : (situationsInside config code.instructions.size m.store.input.size).card <
      (Finset.range (actions.length + 1)).card := by
    rw [card_situationsInside, Finset.card_range]
    rw [situations, sound.config_eq] at hle
    exact Nat.lt_succ_of_le hle
  obtain ⟨a, ha, b, hb, hne, hsame⟩ := Finset.exists_ne_map_eq_of_card_lt_of_maps_to hcard
    fun k hk ↦ by
      have hk := Nat.le_of_lt_succ (Finset.mem_range.mp hk)
      have hmem := (hsound k hk).situation_mem (hinside k hk)
      rwa [hinput k hk] at hmem
  have ha := Nat.le_of_lt_succ (Finset.mem_range.mp ha)
  have hb := Nat.le_of_lt_succ (Finset.mem_range.mp hb)
  have hretold := (hsound a ha).eq_retold (hsound b hb)
    ((hinput a ha).trans (hinput b hb).symm) hsame
  have hunlimited : (mids a).config.stepLimit = none := (hmids a ha).1.config_eq ▸ unlimited
  -- The two machines have the same future, so as many instructions are left to both.
  obtain ⟨report', hretolds⟩ := (hends a ha).retold hunlimited (mids b).store.output
    (mids b).processed
  rw [← hretold] at hretolds
  have hlength := congrArg List.length (hretolds.unique (hends b hb)).1
  rw [List.length_append, List.length_append, List.length_drop, List.length_drop] at hlength
  omega

/-- Inside a run that ends, every instruction is executed in a situation of its own. -/
theorem Ends.length_le_situations {code : Code} {actions : List Action} {m : Machine}
    {report : Report} {config : Config} (h : Ends code actions m report) (sound : m.Sound config)
    (unlimited : m.config.stepLimit = none) :
    actions.length ≤ m.situations code.instructions.size := by
  rcases Nat.eq_zero_or_pos actions.length with hzero | hpos
  · rw [hzero]
    exact Nat.zero_le _
  -- The machine that executes the last instruction is inside the program.
  · obtain ⟨mid, before, after⟩ := h.steps.exists_at (Nat.sub_le actions.length 1)
    have hlast : 0 < (actions.drop (actions.length - 1)).length := by
      rw [List.length_drop]
      omega
    have hlt := before.length_lt_situations (after.lt_size hlast) ⟨after, h.ending⟩ sound unlimited
    rw [List.length_take, Nat.min_eq_left (Nat.sub_le _ _)] at hlt
    omega

theorem Ends.length_lt_horizon {code : Code} {actions : List Action} {m : Machine}
    {report : Report} {config : Config} (h : Ends code actions m report)
    (sound : m.Sound config) : actions.length < m.horizon code.instructions.size := by
  unfold horizon
  cases hlimit : m.config.stepLimit with
  | none => exact Nat.lt_succ_of_le (h.length_le_situations sound hlimit)
  | some limit =>
    rw [sound.config_eq] at hlimit
    have hle := (h.steps.sound sound).processed_le limit hlimit
    rw [h.steps.processed_eq] at hle
    exact Nat.lt_succ_of_le (Nat.le_trans (Nat.le_add_left _ _) hle)

/-- A run has a value exactly when it ends. -/
theorem run_eq_some_iff {code : Code} {m : Machine} {config : Config} {j j' : Journal}
    {report : Report} (sound : m.Sound config) :
    m.run code j = some (report, j') ↔
      ∃ actions, Ends code actions m report ∧ j' = j.noteAll (runEvents code actions report) := by
  constructor
  · exact exists_ends_of_run
  · rintro ⟨actions, hends, rfl⟩
    have hadvance : advance code (actions.length + 1) m j =
        .ended report (j.noteAll (runEvents code actions report)) :=
      advance_eq_ended_iff.mpr ⟨actions, Nat.lt_succ_self _, hends, rfl⟩
    exact run_eq_some_of_advance hadvance (hends.length_lt_horizon sound)

/-- The report of the run of a program from its beginning; there is none if the run never ends. -/
def report? (m : Machine) (program : Program) (input : String) (j : Journal) : Option Report :=
  (m.interpret program input j).map Prod.fst

theorem report?_eq_some_iff {m : Machine} {program : Program} {input : String} {j : Journal}
    {report : Report} :
    m.report? program input j = some report ↔
      ∃ j', m.interpret program input j = some (report, j') := by
  rw [report?, Option.map_eq_some_iff]
  constructor
  · rintro ⟨⟨_, j'⟩, h, rfl⟩
    exact ⟨j', h⟩
  · rintro ⟨j', h⟩
    exact ⟨_, h, rfl⟩

theorem report?_of_rejected {program : Program} {u : UnmatchedBracket}
    (rejected : JumpTable.ofInstructions program.toList = .error u) (m : Machine) (input : String)
    (j : Journal) :
    m.report? program input j = some ⟨.error (.unmatchedBracket u), m.rewind input⟩ := by
  simp only [report?, interpret, JumpTable.prepare, rejected, Option.map_some]

/-- The run of an accepted program is the run of its code from the rewound machine. -/
theorem report?_of_accepted {program : Program} {table : JumpTable}
    (accepted : JumpTable.ofInstructions program.toList = .ok table) {m : Machine} {input : String}
    {j : Journal} {report : Report} :
    m.report? program input j = some report ↔
      ∃ actions, Ends (.indexed program table) actions (m.rewind input) report := by
  have hrun : m.interpret program input j =
      (m.rewind input).run (.indexed program table)
        (j.note (.started program.size (m.rewind input).tape.size)) := by
    simp only [interpret, JumpTable.prepare, accepted]
  rw [report?_eq_some_iff, hrun]
  simp only [run_eq_some_iff (sound_rewind m input)]
  constructor
  · rintro ⟨_, actions, hends, -⟩
    exact ⟨actions, hends⟩
  · rintro ⟨actions, hends⟩
    exact ⟨_, actions, hends, rfl⟩

end Brainfuck.Machine
