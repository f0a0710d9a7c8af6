import Brainfuck.Proofs.Block.Shapes

/-!
# Clearing a cell in nested loops

The loop `[-]` clears the current cell, in two steps for every unit. Around it any number of loops
can be put, and the program comes to its end all the same: each of them is entered once and left at
once, since the cell is zero when the innermost loop is done. So the depth costs two steps a loop,
whatever the value of the cell; and if the cell is zero already, a single jump leaves out all the
loops together.
-/

namespace Brainfuck

/-- The text of a program that counts the first cell up and clears it again, in loops nested to the
given depth. -/
def nestedClear (v depth : Nat) : String :=
  String.ofList (List.replicate v '+' ++ List.replicate depth '[' ++
    '-' :: List.replicate depth ']')

namespace Shape

def clearing : (depth : Nat) → Shape
  | 0 => command .decrement nil
  | depth + 1 => loop (clearing depth) nil

theorem symbols_clearing (depth : Nat) :
    (clearing depth).symbols = List.replicate depth (.bracket .opening) ++
      .command .decrement :: List.replicate depth (.bracket .closing) := by
  induction depth with
  | zero => rfl
  | succ depth ih =>
    rw [clearing, symbols, ih, symbols, List.replicate_succ, List.replicate_succ']
    simp only [List.cons_append, List.append_assoc]

theorem nestedClear_eq (v depth : Nat) :
    nestedClear v depth =
      String.ofList ((commands (List.replicate v .increment) (clearing depth)).symbols.map
        Symbol.toChar) := by
  rw [symbols_commands, symbols_clearing, nestedClear]
  simp only [List.map_append, List.map_cons, List.map_replicate, Symbol.toChar, List.append_assoc]

variable {s : Store} {left right : List UInt8}

/-- A cell that is not zero is cleared in two steps for each unit and two for each loop, less the
one that the innermost loop saves. -/
theorem finishes_clearing {x : UInt8} (hx : x ≠ 0) (depth : Nat) :
    (clearing (depth + 1)).Finishes (s.withTape (.around left x right))
      (2 * depth + 1 + 2 * x.toNat) (s.withTape (.around left 0 right)) := by
  have hcell (y : UInt8) : (s.withTape (.around left y right)).tape.current = y := Tape.current_around
  induction depth with
  | zero =>
    have hpass (y : UInt8) : Finishes (command .decrement nil)
        (s.withTape (.around left y right)) 1 (s.withTape (.around left (y - 1) right)) :=
      .commands .decrement (finishes_nil _)
    have hloop := finishes_countdown hcell (fun y _ ↦ hpass y) x
    rwa [Nat.add_comm] at hloop
  | succ depth ih =>
    have hnonzero : (s.withTape (.around left x right)).tape.current ≠ 0 := by rwa [hcell]
    have hloop := Finishes.enter hnonzero (.last ih (hcell 0)) (finishes_nil _)
    have hcount : 2 * depth + 1 + 2 * x.toNat + 1 + 1 + 0 =
        2 * (depth + 1) + 1 + 2 * x.toNat := by
      omega
    rwa [hcount] at hloop

/-- The whole program leaves everything as it was at the beginning. -/
theorem finishes_nestedClear {depth : Nat} (hdepth : 1 ≤ depth) (v : Nat) (cells : CellCount)
    (input : String) :
    (commands (List.replicate v .increment) (clearing depth)).Finishes
      (.fresh cells.value input)
      (if 256 ∣ v then v + 1 else v + 2 * depth - 1 + 2 * (v % 256))
      (.fresh cells.value input) := by
  obtain ⟨d, rfl⟩ := Nat.exists_eq_add_of_le' hdepth
  by_cases hv : 256 ∣ v
  · rw [if_pos hv]
    exact finishes_skipped hv (clearing d) cells input
  · have hnonzero : UInt8.ofNat v ≠ 0 := fun hzero ↦ hv (ofNat_eq_zero_iff.mp hzero)
    have hcount : (UInt8.ofNat v).toNat = v % 256 := UInt8.toNat_ofNat'
    have hall := Finishes.commands (.increments_fresh cells input v) (finishes_clearing hnonzero d)
    have hsteps : v + (2 * d + 1 + 2 * (v % 256)) = v + 2 * (d + 1) - 1 + 2 * (v % 256) := by
      omega
    rw [Store.withTape_around_fresh, List.length_replicate, hcount, hsteps] at hall
    rwa [if_neg hv]

end Shape

namespace Machine

/-- On any tape and any input, nested loops around a decrement come to their end and leave every
cell as it was at the beginning. -/
theorem nestedClear_run {program : Program} {v depth : Nat}
    (written : program.render = nestedClear v depth) (hdepth : 1 ≤ depth) (cells : CellCount)
    (input : String) (j : Journal) :
    ∃ report, reportWithin? program cells input j none = some report ∧
      report.result = .ok "" ∧ report.machine.output = "" ∧
      report.machine.tape = .blank cells.value ∧
      report.machine.processed =
        if 256 ∣ v then v + 1 else v + 2 * depth - 1 + 2 * (v % 256) := by
  rw [Shape.nestedClear_eq] at written
  have hsymbols := Program.symbols_eq_of_render_eq written
  obtain ⟨report, hreport, hresult, hstore, hprocessed⟩ :=
    exists_report_of_finishes hsymbols (Shape.finishes_nestedClear hdepth v cells input) j
  have houtput : report.machine.output = "" := congrArg Store.output hstore
  have htape : report.machine.tape = .blank cells.value := congrArg Store.tape hstore
  exact ⟨report, hreport, hresult, houtput, htape, hprocessed⟩

/-- Three loops around a decrement and a cell that holds three. -/
theorem nestedClear_run_three :
    (Program.ofString "+++[[[-]]]").render = nestedClear 3 3 ∧ 1 ≤ 3 ∧
    ∃ report, reportWithin? (.ofString "+++[[[-]]]") ⟨2, by decide⟩ "x" {} none = some report ∧
      report.result = .ok "" ∧ report.machine.tape = .blank 2 ∧ report.machine.processed = 14 := by
  have written : (Program.ofString "+++[[[-]]]").render = nestedClear 3 3 := rfl
  obtain ⟨report, hreport, hresult, -, htape, hprocessed⟩ :=
    nestedClear_run written (by decide) ⟨2, by decide⟩ "x" {}
  exact ⟨written, by decide, report, hreport, hresult, htape, hprocessed⟩

end Machine

end Brainfuck
