import Brainfuck.Proofs.Machine.Lockstep
import Brainfuck.Proofs.Machine.StepLimit

/-!
# Jumps by table and by scan

A machine can find the target of a jump by a look-up under the index of the instruction, or by a
scan from the position of the bracket. Three facts make the two the same: an instruction carries the
position it stands at, the table is made for positions, and the table agrees with the scan. So every
turn comes to the same with the table and with the scan, and so does every run, to the last note in
the journal. A jump never lacks its target, since a program is accepted only if every bracket has a
partner.
-/

namespace Brainfuck.Machine

/-! ## Codes that take the same turns -/

/-- A turn depends on the instruction at the position and on where that instruction jumps to. -/
theorem turn_congr {m : Machine} {code code' : Code}
    (hinstructions : code.instructions = code'.instructions)
    (hpartner : ∀ i, code.instructions[m.position]? = some i →
      code.partner? m.position i = code'.partner? m.position i) :
    m.turn code = m.turn code' := by
  unfold turn
  rw [← hinstructions]
  cases fetched : code.instructions[m.position]? with
  | none => rfl
  | some i =>
    have hjump (b : Bracket) : m.jump code b i = m.jump code' b i := by
      unfold jump
      rw [hpartner i fetched]
    simp only [execute, hjump]

theorem advance_congr {code code' : Code} (hturn : ∀ m : Machine, m.turn code = m.turn code')
    (turns : Nat) (m : Machine) (j : Journal) :
    advance code turns m j = advance code' turns m j := by
  induction turns generalizing m j with
  | zero => rfl
  | succ turns ih =>
    simp only [advance, hturn]
    cases m.turn code' with
    | finished last => rfl
    | stopped fault last => rfl
    | executed action next => exact ih next _

theorem run_congr {code code' : Code} (hturn : ∀ m : Machine, m.turn code = m.turn code')
    (hsize : code.instructions.size = code'.instructions.size) (m : Machine) (j : Journal) :
    m.run code j = m.run code' j := by
  rw [run, run, rounds_eq, rounds_eq, hsize, advance_congr hturn]

theorem steps_congr {code code' : Code} (hturn : ∀ m : Machine, m.turn code = m.turn code')
    {actions : List Action} {m last : Machine} (steps : Steps code actions m last) :
    Steps code' actions m last := by
  have follows : Follows code code' id Eq := ⟨by
    rintro m _ next action rfl first
    refine ⟨next, turn_eq_executed_iff.mp ?_, rfl⟩
    rw [← hturn]
    exact first.turn_eq⟩
  obtain ⟨_, steps', rfl⟩ := follows.steps rfl steps
  rwa [List.map_id] at steps'

/-! ## Scanning at every jump -/

/-- Runs a program that looks for the target of a jump each time it jumps. The brackets are checked
beforehand all the same. -/
def interpretScanning (m : Machine) (program : Program) (input : String) (j : Journal) :
    Option (Report × Journal) :=
  let m := m.rewind input
  match JumpTable.prepare program.toList j with
  | (.error u, j) => some (⟨.error (.unmatchedBracket u), m⟩, j)
  | (.ok _, j) => m.run (.scanning program) (j.note (.started program.size m.tape.size))

section Accepted

variable {program : Program} {table : JumpTable}

theorem turn_indexed_eq_turn_scanning
    (accepted : JumpTable.ofInstructions program.toList = .ok table) (m : Machine) :
    m.turn (.indexed program table) = m.turn (.scanning program) :=
  turn_congr rfl fun _ fetched ↦ Code.partner?_indexed accepted fetched

/-- A bracket of an accepted program finds the same partner under its index and from its
position. -/
theorem exists_partner_of_fetched
    (accepted : JumpTable.ofInstructions program.toList = .ok table) {position : Nat}
    {i : Instruction} {b : Bracket} (fetched : program.instructions[position]? = some i)
    (isBracket : i.symbol = .bracket b) :
    i.index = position ∧ ∃ target, table.partner? i.index = some target ∧
      Bracket.partner? program.toList position = some target := by
  obtain ⟨target, htarget⟩ := Code.exists_partner_indexed accepted fetched isBracket
  have hscan := (Code.partner?_indexed accepted fetched).symm.trans htarget
  obtain ⟨hlt, rfl⟩ := Array.getElem?_eq_some_iff.mp fetched
  exact ⟨program.index_eq position hlt, target, htarget, hscan⟩

/-- No turn of an accepted program stops at a bracket. -/
theorem turn_ne_unmatched (accepted : JumpTable.ofInstructions program.toList = .ok table)
    (m : Machine) (u : UnmatchedBracket) (last : Machine) :
    m.turn (.indexed program table) ≠ .stopped (.unmatchedBracket u) last := by
  intro hturn
  have hreport : (m.turn (.indexed program table)).report? =
      some ⟨.error (.unmatchedBracket u), last⟩ := by rw [hturn, Turn.report?]
  have hfails := (Ends.of_turn hreport).fails rfl
  obtain ⟨i, b, fetched, isBracket, unpaired⟩ := hfails.unpaired
  obtain ⟨target, htarget⟩ := Code.exists_partner_indexed accepted fetched isBracket
  exact absurd (unpaired.symm.trans htarget) (Option.some_ne_none target).symm

end Accepted

theorem interpret_eq_interpretScanning (m : Machine) (program : Program) (input : String)
    (j : Journal) : m.interpret program input j = m.interpretScanning program input j := by
  unfold interpret interpretScanning JumpTable.prepare
  cases htable : JumpTable.ofInstructions program.toList with
  | error u => rfl
  | ok table => exact run_congr (turn_indexed_eq_turn_scanning htable) rfl _ _

/-- A run that looks its jumps up goes through the same machines, by the same instructions, as a run
that scans at every jump, and comes to the same end with the same journal. Wherever it comes to a
bracket, the index of the instruction is the position in the program and the table has the partner
that the scan finds from there; so no jump ever lacks its target. -/
theorem indexed_jumps_as_scanned (m : Machine) (program : Program) (input : String) :
    (∀ j, m.interpret program input j = m.interpretScanning program input j) ∧
    ∀ table, JumpTable.ofInstructions program.toList = .ok table →
      (∀ actions last, Steps (.indexed program table) actions (m.rewind input) last ↔
        Steps (.scanning program) actions (m.rewind input) last) ∧
      ∀ actions mid, Steps (.indexed program table) actions (m.rewind input) mid →
        (∀ i b, program.instructions[mid.position]? = some i → i.symbol = .bracket b →
          i.index = mid.position ∧ ∃ target, table.partner? i.index = some target ∧
            Bracket.partner? program.toList mid.position = some target) ∧
        ∀ u last, mid.turn (.indexed program table) ≠ .stopped (.unmatchedBracket u) last := by
  refine ⟨m.interpret_eq_interpretScanning program input, fun table accepted ↦ ⟨?_, ?_⟩⟩
  · intro actions last
    have hturn := turn_indexed_eq_turn_scanning accepted
    exact ⟨steps_congr hturn, steps_congr fun m ↦ (hturn m).symm⟩
  · intro actions mid _
    exact ⟨fun i b ↦ exists_partner_of_fetched accepted, turn_ne_unmatched accepted mid⟩

/-- The closing bracket of `+[-]`, come to after three instructions, jumps back to position one. -/
theorem indexed_jumps_as_scanned_clear :
    ∃ actions mid, Steps (.indexed (.ofString "+[-]") ⟨#[none, some 3, none, some 1]⟩) actions
        ((new ⟨⟨1, by decide⟩, none⟩).rewind "") mid ∧
      mid.position = 3 ∧ Bracket.partner? (Program.ofString "+[-]").toList 3 = some 1 := by
  have accepted : JumpTable.ofInstructions (Program.ofString "+[-]").toList =
      .ok ⟨#[none, some 3, none, some 1]⟩ := by decide
  have steps : Steps (.indexed (.ofString "+[-]") ⟨#[none, some 3, none, some 1]⟩) _
      ((new ⟨⟨1, by decide⟩, none⟩).rewind "") _ := .cons rfl (.cons rfl (.cons rfl .refl))
  have hpartners := (indexed_jumps_as_scanned (new ⟨⟨1, by decide⟩, none⟩) _ "").2 _ accepted
  obtain ⟨-, target, htarget, hscan⟩ := (hpartners.2 _ _ steps).1 _ .closing rfl rfl
  cases htarget
  exact ⟨_, _, steps, rfl, hscan⟩

end Brainfuck.Machine
