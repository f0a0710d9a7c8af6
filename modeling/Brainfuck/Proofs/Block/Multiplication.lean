import Brainfuck.Proofs.Block.Shapes

/-!
# Loops that multiply

A loop that takes one off the current cell and adds a fixed number to each of the cells to the right
of it multiplies: when the current cell is used up, every other cell holds its number times what the
current cell held, modulo 256. Such a loop needs a cell for every number. On a shorter tape the head
runs off at the right end during the first pass, when each cell that exists has received its number
once.
-/

namespace Brainfuck

/-- The text of a program that counts the first cell up and multiplies it by each of the given
factors, into the cells to the right of it. -/
def multiplication (v : Nat) (factors : List Nat) : String :=
  String.ofList (List.replicate v '+' ++ '[' :: '-' ::
    (factors.flatMap fun a ↦ '>' :: List.replicate a '+') ++
    List.replicate factors.length '<' ++ [']'])

/-- Adds each of some numbers to one of the cells to the right of the head. -/
def spread (factors : List Nat) : List Command :=
  factors.flatMap fun a ↦ .moveRight :: List.replicate a .increment

/-- Takes one off the current cell, adds each of some numbers to one of the cells to the right of it
and comes back. -/
def multiplicationPass (factors : List Nat) : List Command :=
  .decrement :: (spread factors ++ List.replicate factors.length .moveLeft)

def multiplicationShape (v : Nat) (factors : List Nat) : Shape :=
  .commands (List.replicate v .increment)
    (.loop (.commands (multiplicationPass factors) .nil) .nil)

theorem multiplication_eq (v : Nat) (factors : List Nat) :
    multiplication v factors =
      String.ofList ((multiplicationShape v factors).symbols.map Symbol.toChar) := by
  simp only [multiplication, multiplicationShape, multiplicationPass, spread,
    Shape.symbols_commands, Shape.symbols, List.map_append, List.map_cons, List.map_nil,
    List.map_flatMap, List.map_replicate, List.append_nil, List.append_assoc, List.cons_append,
    Symbol.toChar]

/-! ## One pass -/

namespace Store

variable {s : Store} {left right : List UInt8} {c : UInt8}

/-- The head ends over the last of the cells that something was added to. -/
theorem Performs.spread (factors : List Nat) (f : Nat → UInt8) :
    Performs (spread factors) (s.withTape (.around left c (factors.map f ++ right)))
      (s.withTape ⟨(left ++ c :: (factors.map (fun a ↦ f a + UInt8.ofNat a) ++ right)).toArray,
        left.length + factors.length⟩) := by
  induction factors generalizing left c with
  | nil => exact .nil
  | cons a factors ih =>
    have hmove : Performs [.moveRight]
        (s.withTape (.around left c ((a :: factors).map f ++ right)))
        (s.withTape (.around (left ++ [c]) (f a) (factors.map f ++ right))) := .moveRight _
    have hadd := hmove.append (.increments a)
    have hall := hadd.append ih
    have hhead : (left ++ [c]).length + factors.length = left.length + (a :: factors).length := by
      rw [List.length_append, List.length_singleton, List.length_cons]
      omega
    rw [hhead] at hall
    simpa [Brainfuck.spread] using hall

/-- The way there of a pass. -/
theorem Performs.decrement_spread (factors : List Nat) (f : Nat → UInt8) :
    Performs (.decrement :: Brainfuck.spread factors)
      (s.withTape (.around [] c (factors.map f ++ right)))
      (s.withTape ⟨((c - 1) :: (factors.map (fun a ↦ f a + UInt8.ofNat a) ++ right)).toArray,
        factors.length⟩) := by
  have hall : Performs (.decrement :: Brainfuck.spread factors)
      (s.withTape (.around [] c (factors.map f ++ right))) _ :=
    Performs.decrement.append (.spread factors f)
  rwa [List.length_nil, Nat.zero_add] at hall

theorem Performs.multiplicationPass (factors : List Nat) (f : Nat → UInt8) :
    Performs (multiplicationPass factors) (s.withTape (.around [] c (factors.map f ++ right)))
      (s.withTape (.around [] (c - 1)
        (factors.map (fun a ↦ f a + UInt8.ofNat a) ++ right))) := by
  have hback (cells : Array UInt8) : Performs (List.replicate factors.length .moveLeft)
      (s.withTape ⟨cells, factors.length⟩) (s.withTape ⟨cells, 0⟩) := by
    have h := movesLeft (s := s) cells 0 factors.length
    rwa [Nat.zero_add] at h
  exact (decrement_spread factors f).append (hback _)

end Store

/-! ## All passes -/

/-- The tape when its first cell has been counted down from `x` to `y`. -/
def Tape.multiplying (factors : List Nat) (right : List UInt8) (x y : UInt8) : Tape :=
  .around [] y (factors.map (fun a ↦ (x - y) * UInt8.ofNat a) ++ right)

/-- At the end of the loop the cells hold the products. -/
theorem Tape.map_toNat_multiplying (factors : List Nat) (n v : Nat) :
    (multiplying factors (List.replicate n 0) (UInt8.ofNat v) 0).cells.toList.map UInt8.toNat =
      0 :: factors.map (fun a ↦ v * a % 256) ++ List.replicate n 0 := by
  have hproduct (a : Nat) : ((UInt8.ofNat v - 0) * UInt8.ofNat a).toNat = v * a % 256 := by
    rw [UInt8.sub_zero, ← UInt8.ofNat_mul]
    exact UInt8.toNat_ofNat'
  simp only [multiplying, around, List.nil_append, List.map_cons, List.map_append, List.map_map,
    List.map_replicate, Function.comp_def, hproduct, UInt8.toNat_zero, List.cons_append]

namespace Shape

/-- The invariant of the loop: what the first cell has lost, the others have gained as many times as
their factors say. -/
theorem finishes_multiplicationPass (s : Store) (factors : List Nat) (right : List UInt8)
    (x y : UInt8) :
    (commands (multiplicationPass factors) nil).Finishes
      (s.withTape (.multiplying factors right x y)) (multiplicationPass factors).length
      (s.withTape (.multiplying factors right x (y - 1))) := by
  have hadd (a : Nat) :
      (x - y) * UInt8.ofNat a + UInt8.ofNat a = (x - (y - 1)) * UInt8.ofNat a := by
    grind
  have hpass : Store.Performs (multiplicationPass factors)
      (s.withTape (.multiplying factors right x y)) _ :=
    .multiplicationPass factors fun a ↦ (x - y) * UInt8.ofNat a
  simp only [hadd] at hpass
  exact .commands hpass (finishes_nil _)

/-- A new tape with a cell for every factor, when its first cell has been counted up. -/
theorem withTape_multiplying_self {factors : List Nat} {cells : CellCount}
    (h : factors.length < cells.value) (s : Store) (x : UInt8) :
    s.withTape (.around [] x (List.replicate (cells.value - 1) 0)) =
      s.withTape (.multiplying factors
        (List.replicate (cells.value - (factors.length + 1)) 0) x x) := by
  have hcells : cells.value - 1 = factors.length + (cells.value - (factors.length + 1)) := by
    omega
  rw [Tape.multiplying, hcells, List.replicate_add]
  simp

theorem finishes_multiplication {factors : List Nat} {cells : CellCount}
    (h : factors.length < cells.value) (v : Nat) (input : String) :
    (multiplicationShape v factors).Finishes (.fresh cells.value input)
      (v + (((multiplicationPass factors).length + 1) * (v % 256) + 1))
      ((Store.fresh cells.value input).withTape (.multiplying factors
        (List.replicate (cells.value - (factors.length + 1)) 0) (UInt8.ofNat v) 0)) := by
  have hcount : (UInt8.ofNat v).toNat = v % 256 := UInt8.toNat_ofNat'
  have performs := Store.Performs.increments_fresh cells input v
  rw [withTape_multiplying_self h] at performs
  have hloop := finishes_countdown (fun _ ↦ Tape.current_around)
    (fun y _ ↦ finishes_multiplicationPass (.fresh cells.value input) factors
      (List.replicate (cells.value - (factors.length + 1)) 0) (UInt8.ofNat v) y) (UInt8.ofNat v)
  have hall := Finishes.commands performs hloop
  rwa [List.length_replicate, hcount] at hall

/-! ## A tape that is too short -/

theorem exists_multiplicationPass_eq {factors : List Nat} {n : Nat} (h : n < factors.length) :
    ∃ others, multiplicationPass factors =
      (.decrement :: spread (factors.take n)) ++ .moveRight :: others := by
  let others := List.replicate factors[n] .increment ++ spread (factors.drop (n + 1))
  have hspread : spread factors = spread (factors.take n) ++ .moveRight :: others := by
    calc
      spread factors = spread (factors.take n ++ factors[n] :: factors.drop (n + 1)) := by
        rw [← List.drop_eq_getElem_cons h, List.take_append_drop]
      _ = spread (factors.take n) ++ .moveRight :: others := by
        rw [spread, List.flatMap_append, List.flatMap_cons]
        rfl
  refine ⟨others ++ List.replicate factors.length .moveLeft, ?_⟩
  rw [multiplicationPass, hspread, List.append_assoc]
  rfl

/-- A pass that wants to go on from the last cell is stopped there. -/
theorem stops_multiplicationPass (s : Store) (x : UInt8) (front : List Nat)
    (others : List Command) :
    (commands ((.decrement :: spread front) ++ .moveRight :: others) nil).Stops
      (s.withTape (.around [] x (List.replicate front.length 0)))
      (Command.decrement :: spread front).length (.pointerTooHigh (front.length + 1))
      (s.withTape ⟨((x - 1) :: front.map UInt8.ofNat).toArray, front.length⟩) := by
  have performs : Store.Performs (.decrement :: spread front)
      (s.withTape (.around [] x (front.map (fun _ ↦ 0) ++ []))) _ :=
    .decrement_spread front fun _ ↦ 0
  simp only [List.map_const', List.append_nil, UInt8.zero_add] at performs
  have hsize : ((x - 1) :: front.map UInt8.ofNat).toArray.size = front.length + 1 := by
    simp
  rw [commands, List.foldr_append]
  exact .commands performs (stops_command (Store.fault?_moveRight_last hsize) _)

theorem map_toNat_stopped {v : Nat} (hv : ¬ 256 ∣ v) (front : List Nat) :
    ((UInt8.ofNat v - 1) :: front.map UInt8.ofNat).map UInt8.toNat =
      (v % 256 - 1) :: front.map (· % 256) := by
  have hnonzero : UInt8.ofNat v ≠ 0 := fun hzero ↦ hv (ofNat_eq_zero_iff.mp hzero)
  have hfirst : (UInt8.ofNat v - 1).toNat = v % 256 - 1 := by
    rw [toNat_sub_one hnonzero, UInt8.toNat_ofNat']
  have hothers : UInt8.toNat ∘ UInt8.ofNat = (· % 256) := funext fun _ ↦ UInt8.toNat_ofNat'
  rw [List.map_cons, List.map_map, hfirst, hothers]

/-- With fewer cells than factors the first pass comes as far as the last cell. -/
theorem stops_multiplication {factors : List Nat} {cells : CellCount}
    (h : cells.value ≤ factors.length) {v : Nat} (hv : ¬ 256 ∣ v) (input : String) :
    ∃ n, (multiplicationShape v factors).Stops (.fresh cells.value input) n
      (.pointerTooHigh cells.value)
      ((Store.fresh cells.value input).withTape
        ⟨((UInt8.ofNat v - 1) :: (factors.take (cells.value - 1)).map UInt8.ofNat).toArray,
          cells.value - 1⟩) := by
  have hcells : cells.value - 1 + 1 = cells.value := Nat.sub_add_cancel cells.positive
  have hshort : cells.value - 1 < factors.length := by
    rwa [← Nat.succ_le_iff, Nat.succ_eq_add_one, hcells]
  have hfront : (factors.take (cells.value - 1)).length = cells.value - 1 :=
    List.length_take_of_le (Nat.le_of_lt hshort)
  have hnonzero : UInt8.ofNat v ≠ 0 := fun hzero ↦ hv (ofNat_eq_zero_iff.mp hzero)
  obtain ⟨others, hpass⟩ := exists_multiplicationPass_eq hshort
  have hstops := stops_multiplicationPass (.fresh cells.value input) (UInt8.ofNat v)
    (factors.take (cells.value - 1)) others
  rw [← hpass, hfront, hcells] at hstops
  have hcell : ((Store.fresh cells.value input).withTape
      (.around [] (UInt8.ofNat v) (List.replicate (cells.value - 1) 0))).tape.current ≠ 0 := by
    rwa [Store.tape_withTape, Tape.current_around]
  exact ⟨_, .commands (.increments_fresh cells input v) (.enter hcell hstops nil)⟩

end Shape

namespace Machine

/-- On a tape with a cell for every factor the program ends with the products in these cells. On a
shorter tape it ends with a fault at the right end of the tape, unless the cell to be multiplied is
zero again. -/
theorem multiplication_run {program : Program} {v : Nat} {factors : List Nat}
    (written : program.render = multiplication v factors) (cells : CellCount) (input : String)
    (j : Journal) :
    (factors.length < cells.value → ∃ report,
      reportWithin? program cells input j none = some report ∧
      report.result = .ok "" ∧ report.machine.output = "" ∧ report.machine.tape.head = 0 ∧
      report.machine.tape.cells.toList.map UInt8.toNat =
        0 :: factors.map (fun a ↦ v * a % 256) ++
          List.replicate (cells.value - (factors.length + 1)) 0) ∧
    (cells.value ≤ factors.length → v % 256 ≠ 0 → ∃ report i,
      reportWithin? program cells input j none = some report ∧
      report.result = .error (.pointerTooHigh cells.value i) ∧
      report.machine.tape.cells.toList.map UInt8.toNat =
        (v % 256 - 1) :: (factors.take (cells.value - 1)).map (· % 256)) ∧
    (cells.value ≤ factors.length → v % 256 = 0 → ∃ report,
      reportWithin? program cells input j none = some report ∧
      report.result = .ok "" ∧ report.machine.tape = .blank cells.value) := by
  rw [multiplication_eq] at written
  have hsymbols := Program.symbols_eq_of_render_eq written
  refine ⟨fun hlong ↦ ?_, fun hshort hv ↦ ?_, fun hshort hv ↦ ?_⟩
  · obtain ⟨report, hreport, hresult, hstore, -⟩ :=
      exists_report_of_finishes hsymbols (Shape.finishes_multiplication hlong v input) j
    have houtput : report.machine.output = "" := congrArg Store.output hstore
    have hhead : report.machine.tape.head = 0 := congrArg (fun s : Store ↦ s.tape.head) hstore
    have hcells : report.machine.tape.cells =
        (Tape.multiplying factors (List.replicate (cells.value - (factors.length + 1)) 0)
          (UInt8.ofNat v) 0).cells :=
      congrArg (fun s : Store ↦ s.tape.cells) hstore
    refine ⟨report, hreport, hresult, houtput, hhead, ?_⟩
    rw [hcells]
    exact Tape.map_toNat_multiplying factors _ v
  · have hdvd : ¬ 256 ∣ v := fun hdvd ↦ hv (Nat.mod_eq_zero_of_dvd hdvd)
    obtain ⟨n, hstops⟩ := Shape.stops_multiplication hshort hdvd input
    obtain ⟨report, i, hreport, hresult, hstore, -⟩ := exists_report_of_stops hsymbols hstops j
    have htape : report.machine.tape.cells.toList =
        (UInt8.ofNat v - 1) :: (factors.take (cells.value - 1)).map UInt8.ofNat :=
      congrArg (fun s : Store ↦ s.tape.cells.toList) hstore
    refine ⟨report, i, hreport, hresult, ?_⟩
    rw [htape]
    exact Shape.map_toNat_stopped hdvd _
  · have hskip := Shape.finishes_skipped (Nat.dvd_of_mod_eq_zero hv)
      (.commands (multiplicationPass factors) .nil) cells input
    obtain ⟨report, hreport, hresult, hstore, -⟩ := exists_report_of_finishes hsymbols hskip j
    exact ⟨report, hreport, hresult, congrArg Store.tape hstore⟩

/-- Three times two where there is a cell for the product and where there is none, and the program
that has nothing to multiply. -/
theorem multiplication_run_three :
    (Program.ofString "+++[->++<]").render = multiplication 3 [2] ∧
    (Program.ofString "[->++<]").render = multiplication 0 [2] ∧
    (1 < 3 ∧ ∃ report,
      reportWithin? (.ofString "+++[->++<]") ⟨3, by decide⟩ "" {} none = some report ∧
      report.result = .ok "" ∧
      report.machine.tape.cells.toList.map UInt8.toNat = [0, 6, 0]) ∧
    (1 ≤ 1 ∧ 3 % 256 ≠ 0 ∧ ∃ report i,
      reportWithin? (.ofString "+++[->++<]") ⟨1, by decide⟩ "" {} none = some report ∧
      report.result = .error (.pointerTooHigh 1 i) ∧
      report.machine.tape.cells.toList.map UInt8.toNat = [2]) ∧
    (0 % 256 = 0 ∧ ∃ report,
      reportWithin? (.ofString "[->++<]") ⟨1, by decide⟩ "" {} none = some report ∧
      report.result = .ok "" ∧ report.machine.tape = .blank 1) := by
  have written : (Program.ofString "+++[->++<]").render = multiplication 3 [2] := rfl
  have written_zero : (Program.ofString "[->++<]").render = multiplication 0 [2] := rfl
  obtain ⟨report, hreport, hresult, -, -, htape⟩ :=
    (multiplication_run written ⟨3, by decide⟩ "" {}).1 (by decide)
  have hfault := (multiplication_run written ⟨1, by decide⟩ "" {}).2.1 (by decide) (by decide)
  have hskip := (multiplication_run written_zero ⟨1, by decide⟩ "" {}).2.2 (by decide) (by decide)
  exact ⟨written, written_zero, ⟨by decide, report, hreport, hresult, htape⟩,
    ⟨by decide, by decide, hfault⟩, by decide, hskip⟩

end Machine

end Brainfuck
