import Brainfuck.Proofs.Machine.Lockstep
import Brainfuck.Proofs.Machine.StepLimit

/-!
# Longer tapes

A run on a longer tape is the run on the shorter one, with zeros beyond its last cell, for as long
as the head stays on the shorter tape. Commands touch no cell but the current one, so the zeros stay
zeros, and the only turn that can tell the two tapes apart is one that moves the head to the right
from the last cell of the shorter one. There the shorter run ends and the longer one goes on.
-/

namespace Brainfuck

/-- A number of cells increased by some more. -/
def CellCount.add (c : CellCount) (more : Nat) : CellCount where
  value := c.value + more
  positive := Nat.lt_of_lt_of_le c.positive (Nat.le_add_right c.value more)

theorem CellCount.add_sub {c d : CellCount} (hle : c.value ≤ d.value) :
    c.add (d.value - c.value) = d := by
  obtain ⟨d, _⟩ := d
  exact (CellCount.mk.injEq ..).mpr (Nat.add_sub_of_le hle)

namespace Tape

/-- A tape with zeros after its last cell. -/
def lengthen (t : Tape) (zeros : Nat) : Tape :=
  { t with cells := t.cells ++ Array.replicate zeros 0 }

@[simp] theorem head_lengthen (t : Tape) (zeros : Nat) : (t.lengthen zeros).head = t.head := rfl

@[simp] theorem size_lengthen (t : Tape) (zeros : Nat) :
    (t.lengthen zeros).size = t.size + zeros := by
  simp [lengthen, size]

/-- The head sees no difference, since the tape reads as zero beyond its end anyway. -/
@[simp] theorem current_lengthen (t : Tape) (zeros : Nat) :
    (t.lengthen zeros).current = t.current := by
  simp only [lengthen, current, Array.getD_eq_getD_getElem?, Array.getElem?_append,
    Array.getElem?_replicate]
  split
  · rfl
  · next hlt =>
    rw [Array.getElem?_eq_none (Nat.le_of_not_lt hlt)]
    split <;> rfl

theorem lengthen_write {t : Tape} (h : t.head < t.size) (value : UInt8) (zeros : Nat) :
    (t.write value).lengthen zeros = (t.lengthen zeros).write value := by
  have h : t.head < t.cells.size := h
  simp only [lengthen, write, Array.setIfInBounds_append_left h]

theorem lengthen_blank (size zeros : Nat) :
    (blank size).lengthen zeros = blank (size + zeros) := by
  simp only [lengthen, blank, Array.replicate_append_replicate]

end Tape

namespace Store

/-- A store with a longer tape. -/
def lengthen (s : Store) (zeros : Nat) : Store :=
  { s with tape := s.tape.lengthen zeros }

@[simp] theorem tape_lengthen (s : Store) (zeros : Nat) :
    (s.lengthen zeros).tape = s.tape.lengthen zeros := rfl

theorem lengthen_perform {s : Store} (h : s.tape.head < s.tape.size) (c : Command) (zeros : Nat) :
    (s.perform c).lengthen zeros = (s.lengthen zeros).perform c := by
  cases c with
  | moveRight => rfl
  | moveLeft => rfl
  | increment =>
    simp only [lengthen, perform, Tape.lengthen_write h, Tape.current_lengthen]
  | decrement =>
    simp only [lengthen, perform, Tape.lengthen_write h, Tape.current_lengthen]
  | output => simp only [lengthen, perform, print, Tape.current_lengthen]
  | input =>
    simp only [lengthen, perform, read, Tape.lengthen_write h]
    rfl

/-- A longer tape has no faults of its own. -/
theorem fault?_lengthen_eq_none {s : Store} {c : Command} {i : Instruction}
    (allowed : s.fault? c i = none) (zeros : Nat) : (s.lengthen zeros).fault? c i = none := by
  rw [fault?_eq_none_iff, tape_lengthen, Tape.size_lengthen, Tape.head_lengthen]
  obtain ⟨hright, hleft⟩ := fault?_eq_none_iff.mp allowed
  exact ⟨fun hc ↦ Nat.lt_add_right zeros (hright hc), hleft⟩

/-- A longer tape has all the faults but those on the right. -/
theorem fault?_lengthen_eq_some {s : Store} {c : Command} {i : Instruction} {fault : Fault}
    (refused : s.fault? c i = some fault)
    (hfault : ∀ position i', fault ≠ .pointerTooHigh position i') (zeros : Nat) :
    (s.lengthen zeros).fault? c i = some fault := by
  rcases fault?_eq_some_iff.mp refused with ⟨-, -, heq⟩ | hleft
  · exact absurd heq (hfault _ _)
  · exact fault?_eq_some_iff.mpr (.inr hleft)

end Store

namespace Machine

/-- A machine with a longer tape. -/
def lengthen (m : Machine) (zeros : Nat) : Machine :=
  { m with
    config := { m.config with cellCount := m.config.cellCount.add zeros }
    store := m.store.lengthen zeros }

theorem lengthen_fresh {c d : CellCount} (hle : c.value ≤ d.value) (limit : Option Nat)
    (input : String) :
    (fresh ⟨c, limit⟩ input).lengthen (d.value - c.value) = fresh ⟨d, limit⟩ input := by
  simp only [lengthen, fresh, Store.lengthen, Store.fresh, Tape.lengthen_blank,
    CellCount.add_sub hle, Nat.add_sub_of_le hle]

theorem lengthen_perform {m : Machine} (h : m.tape.head < m.tape.size) (c : Command)
    (zeros : Nat) : (m.perform c).lengthen zeros = (m.lengthen zeros).perform c := by
  simp only [lengthen, perform, Store.lengthen_perform h]

/-! ## The same instructions on a longer tape -/

theorem Executes.lengthen {m next : Machine} {code : Code} {action : Action}
    (h : m.Executes code action next) (hhead : m.tape.head < m.tape.size) (zeros : Nat) :
    (m.lengthen zeros).Executes code action (next.lengthen zeros) := by
  have hcurrent : (m.lengthen zeros).tape.current = m.tape.current :=
    Tape.current_lengthen m.tape zeros
  cases h with
  | command fetched running isCommand allowed =>
    rw [lengthen_perform hhead]
    exact .command fetched running isCommand (Store.fault?_lengthen_eq_none allowed zeros)
  | pass fetched running isBracket stays =>
    exact .pass fetched running isBracket (hcurrent ▸ stays)
  | jump fetched running isBracket jumps partner =>
    exact .jump fetched running isBracket (hcurrent ▸ jumps) partner

theorem Fails.lengthen {m : Machine} {code : Code} {fault : Fault} (h : m.Fails code fault)
    (hfault : ∀ position i, fault ≠ .pointerTooHigh position i) (zeros : Nat) :
    (m.lengthen zeros).Fails code fault := by
  have hcurrent : (m.lengthen zeros).tape.current = m.tape.current :=
    Tape.current_lengthen m.tape zeros
  cases h with
  | limit fetched exhausted => exact .limit fetched exhausted
  | command fetched running isCommand refused =>
    have hrefused := Store.fault?_lengthen_eq_some refused hfault zeros
    exact .command fetched running isCommand hrefused
  | jump fetched running isBracket jumps unpaired =>
    exact .jump fetched running isBracket (hcurrent ▸ jumps) unpaired

/-- Where the head would leave the shorter tape on the right, it moves on along the longer one. -/
theorem Fails.executes_lengthen {m : Machine} {code : Code} {position : Nat} {i : Instruction}
    (h : m.Fails code (.pointerTooHigh position i)) (hhead : m.tape.head < m.tape.size)
    {zeros : Nat} (hzeros : 0 < zeros) :
    i.symbol = .command .moveRight ∧
      (m.lengthen zeros).Executes code ⟨i, none⟩ ((m.lengthen zeros).perform .moveRight) := by
  generalize hfault : Fault.pointerTooHigh position i = fault at h
  cases h with
  | limit => cases hfault
  | jump => cases hfault
  | command fetched running isCommand refused =>
    subst hfault
    obtain ⟨rfl, -, heq⟩ | ⟨-, -, heq⟩ := Store.fault?_eq_some_iff.mp refused
    · cases heq
      refine ⟨isCommand, .command fetched running isCommand (Store.fault?_eq_none_iff.mpr ?_)⟩
      -- The head is over the last cell of the shorter tape at most, so there is one more cell.
      have hroom : m.store.tape.head + 1 < m.store.tape.size + zeros := by
        have hlt : m.store.tape.head < m.store.tape.size := hhead
        omega
      refine ⟨fun _ ↦ ?_, nofun⟩
      simpa [Machine.lengthen] using hroom
    · cases heq

theorem follows_lengthen (code : Code) (config : Config) (zeros : Nat) :
    Follows code code id fun m m' ↦ m.Sound config ∧ m' = m.lengthen zeros where
  executes := by
    rintro m _ next action ⟨sound, rfl⟩ first
    exact ⟨_, first.lengthen sound.head_lt zeros, first.sound sound, rfl⟩

theorem Steps.lengthen {code : Code} {actions : List Action} {m last : Machine}
    {config : Config} (h : Steps code actions m last) (sound : m.Sound config) (zeros : Nat) :
    Steps code actions (m.lengthen zeros) (last.lengthen zeros) := by
  obtain ⟨_, steps, -, rfl⟩ := (follows_lengthen code config zeros).steps ⟨sound, rfl⟩ h
  rwa [List.map_id] at steps

end Machine

/-- A report of the same run on a longer tape. -/
def Report.lengthen (report : Report) (zeros : Nat) : Report :=
  { report with machine := report.machine.lengthen zeros }

namespace Machine

theorem Ends.lengthen {code : Code} {actions : List Action} {m : Machine} {report : Report}
    {config : Config} (h : Ends code actions m report) (sound : m.Sound config)
    (hresult : ∀ position i, report.result ≠ .error (.pointerTooHigh position i)) (zeros : Nat) :
    Ends code actions (m.lengthen zeros) (report.lengthen zeros) := by
  refine ⟨h.steps.lengthen sound zeros, ?_⟩
  cases hout : report.result with
  | ok out =>
    rw [Report.lengthen, hout, h.eq_output hout]
    exact report?_of_none (h.getElem?_eq_none hout)
  | error fault =>
    have hfault : ∀ position i, fault ≠ .pointerTooHigh position i := by
      rintro position i rfl
      exact hresult position i hout
    rw [Report.lengthen, hout]
    exact ((h.fails hout).lengthen hfault zeros).report?_eq

/-! ## Programs on tapes of different lengths -/

section Programs

variable {program : Program} {input : String} {limit : Option Nat} {c d : CellCount}
  {report : Report} {j : Journal}

theorem report?_lengthen (hle : c.value ≤ d.value)
    (h : (new ⟨c, limit⟩).report? program input j = some report)
    (hresult : ∀ position i, report.result ≠ .error (.pointerTooHigh position i)) :
    (new ⟨d, limit⟩).report? program input j =
      some (report.lengthen (d.value - c.value)) := by
  cases htable : JumpTable.ofInstructions program.toList with
  | error u =>
    rw [report?_of_rejected htable] at h ⊢
    cases h
    rw [Report.lengthen]
    exact congrArg (fun m ↦ some (Report.mk _ m)) (lengthen_fresh hle limit input).symm
  | ok table =>
    obtain ⟨actions, hends⟩ := (report?_of_accepted htable).mp h
    have hlonger := hends.lengthen (sound_rewind _ input) hresult (d.value - c.value)
    have hfresh : ((new ⟨c, limit⟩).rewind input).lengthen (d.value - c.value) =
        (new ⟨d, limit⟩).rewind input := lengthen_fresh hle limit input
    rw [hfresh] at hlonger
    exact (report?_of_accepted htable).mpr ⟨actions, hlonger⟩

/-- On a longer tape, a run that the shorter tape ends on the right comes to the same machine and
executes the move to the right there. -/
theorem exists_steps_of_tooHigh (hlt : c.value < d.value) {position : Nat} {i : Instruction}
    (h : (new ⟨c, limit⟩).report? program input j = some report)
    (hresult : report.result = .error (.pointerTooHigh position i)) :
    ∃ table actions, JumpTable.ofInstructions program.toList = .ok table ∧
      actions.length = report.machine.processed ∧
      Steps (.indexed program table) actions (fresh ⟨d, limit⟩ input)
        (report.machine.lengthen (d.value - c.value)) ∧
      i.symbol = .command .moveRight ∧
      (report.machine.lengthen (d.value - c.value)).Executes (.indexed program table) ⟨i, none⟩
        ((report.machine.lengthen (d.value - c.value)).perform .moveRight) := by
  cases htable : JumpTable.ofInstructions program.toList with
  | error u =>
    rw [report?_of_rejected htable] at h
    cases h
    cases hresult
  | ok table =>
    obtain ⟨actions, hends⟩ := (report?_of_accepted htable).mp h
    have sound := sound_rewind (new ⟨c, limit⟩) input
    have hcount : report.machine.processed = actions.length :=
      hends.steps.processed_eq_length rfl
    have steps := hends.steps.lengthen sound (d.value - c.value)
    have hfresh : ((new ⟨c, limit⟩).rewind input).lengthen (d.value - c.value) =
        fresh ⟨d, limit⟩ input := lengthen_fresh (Nat.le_of_lt hlt) limit input
    rw [hfresh] at steps
    exact ⟨table, actions, rfl, hcount.symm, steps, (hends.fails hresult).executes_lengthen
      (hends.steps.sound sound).head_lt (Nat.sub_pos_of_lt hlt)⟩

end Programs

/-- What a longer tape changes. A run that does not leave the shorter tape on the right ends on the
longer one with the same report, and zeros after the last cell. A run that does leave it there
comes, on the longer tape, after as many instructions, to the same machine with zeros after the last
cell, and executes the move to the right; whatever comes after it, the output so far is its
beginning. -/
theorem longer_tape_extends (program : Program) (input : String) (limit : Option Nat) (j : Journal)
    {c d : CellCount} (hle : c.value ≤ d.value) :
    (∀ report, (new ⟨c, limit⟩).report? program input j = some report →
      (∀ position i, report.result ≠ .error (.pointerTooHigh position i)) →
        (new ⟨d, limit⟩).report? program input j =
          some (report.lengthen (d.value - c.value))) ∧
    ∀ report position i, (new ⟨c, limit⟩).report? program input j = some report →
      report.result = .error (.pointerTooHigh position i) → c.value < d.value →
        ∃ table actions next, JumpTable.ofInstructions program.toList = .ok table ∧
          actions.length = report.machine.processed ∧
          Steps (.indexed program table) actions (fresh ⟨d, limit⟩ input)
            (report.machine.lengthen (d.value - c.value)) ∧
          i.symbol = .command .moveRight ∧
          (report.machine.lengthen (d.value - c.value)).turn (.indexed program table) =
            .executed ⟨i, none⟩ next ∧
          (∀ others last, Steps (.indexed program table) others next last →
            report.machine.output.toList <+: last.output.toList) ∧
          ∀ report', (new ⟨d, limit⟩).report? program input j = some report' →
            report.machine.processed + 1 ≤ report'.machine.processed ∧
            report.machine.output.toList <+: report'.machine.output.toList := by
  refine ⟨fun report h hresult ↦ report?_lengthen hle h hresult, ?_⟩
  intro report position i h hresult hlt
  obtain ⟨table, actions, accepted, hlength, steps, hsymbol, hmove⟩ :=
    exists_steps_of_tooHigh hlt h hresult
  have hprefix : ∀ others last, Steps (.indexed program table) others
      ((report.machine.lengthen (d.value - c.value)).perform .moveRight) last →
        report.machine.output.toList <+: last.output.toList :=
    fun others last hothers ↦ hothers.output_prefix
  refine ⟨table, actions, _, accepted, hlength, steps, hsymbol, hmove.turn_eq, hprefix, ?_⟩
  intro report' h'
  obtain ⟨all, hends⟩ := (report?_of_accepted accepted).mp h'
  obtain ⟨rest, -, hrest⟩ := hends.exists_of_steps steps
  obtain ⟨others, -, hothers⟩ := hrest.exists_of_executes hmove
  refine ⟨?_, hprefix others report'.machine hothers.steps⟩
  rw [hothers.steps.processed_eq]
  exact Nat.le_add_right _ _

/-- The program `+>.` leaves one cell and stays on two. -/
theorem longer_tape_extends_two :
    (new ⟨⟨1, by decide⟩, none⟩).report? (.ofString "+>.") "" {} =
      some ⟨.error (.pointerTooHigh 1 ⟨⟨1, 2, 1⟩, .command .moveRight⟩),
        ⟨⟨⟨1, by decide⟩, none⟩, ⟨⟨#[1], 0⟩, #[], 0, ""⟩, 1, 1⟩⟩ ∧
    ∃ table actions next,
      JumpTable.ofInstructions (Program.ofString "+>.").toList = .ok table ∧
      Steps (.indexed (.ofString "+>.") table) actions (fresh ⟨⟨2, by decide⟩, none⟩ "")
        ⟨⟨⟨2, by decide⟩, none⟩, ⟨⟨#[1, 0], 0⟩, #[], 0, ""⟩, 1, 1⟩ ∧
      Machine.turn ⟨⟨⟨2, by decide⟩, none⟩, ⟨⟨#[1, 0], 0⟩, #[], 0, ""⟩, 1, 1⟩
        (.indexed (.ofString "+>.") table) =
          .executed ⟨⟨⟨1, 2, 1⟩, .command .moveRight⟩, none⟩ next := by
  have h : (new ⟨⟨1, by decide⟩, none⟩).report? (.ofString "+>.") "" {} =
      some ⟨.error (.pointerTooHigh 1 ⟨⟨1, 2, 1⟩, .command .moveRight⟩),
        ⟨⟨⟨1, by decide⟩, none⟩, ⟨⟨#[1], 0⟩, #[], 0, ""⟩, 1, 1⟩⟩ := rfl
  have hlonger := longer_tape_extends (.ofString "+>.") "" none {}
    (c := ⟨1, by decide⟩) (d := ⟨2, by decide⟩) (by decide)
  obtain ⟨table, actions, next, accepted, -, steps, -, hturn, -⟩ :=
    hlonger.2 _ _ _ h rfl (by decide)
  exact ⟨h, table, actions, next, accepted, steps, hturn⟩

end Machine

end Brainfuck
