import Brainfuck.Proofs.Block.Commands
import Brainfuck.Proofs.Block.Realisation
import Brainfuck.Proofs.Bracket.OnePass
import Brainfuck.Proofs.Machine.StepLimit
import Brainfuck.Proofs.Program.Places

/-!
# Shapes

A shape is a program as a tree in which only the symbols count and not the places they were read
from. A program with the symbols of a shape is written by a block of that shape, and blocks of one
shape do the same, but for the instruction that a fault names. So the run of a program can be found
from its symbols: there is a rule for commands in a row and one for each way through a loop, and a
loop whose body counts the current cell down by one takes as many passes as the cell says.
-/

namespace Brainfuck

/-- A program as a tree without places. -/
inductive Shape where
  | nil
  | command (command : Command) (rest : Shape)
  | loop (body rest : Shape)

namespace Shape

def symbols : Shape → List Symbol
  | nil => []
  | command c rest => .command c :: rest.symbols
  | loop body rest => .bracket .opening :: (body.symbols ++ .bracket .closing :: rest.symbols)

def commands (cs : List Command) (rest : Shape) : Shape :=
  cs.foldr command rest

theorem symbols_commands (cs : List Command) (rest : Shape) :
    (commands cs rest).symbols = cs.map .command ++ rest.symbols := by
  induction cs with
  | nil => rfl
  | cons c cs ih =>
    rw [List.map_cons, List.cons_append, ← ih]
    rfl

end Shape

namespace Block

def shape : Block → Shape
  | nil => .nil
  | command c _ rest => .command c rest.shape
  | loop _ body _ rest => .loop body.shape rest.shape

/-- Instructions with the symbols of a shape are written by a block of that shape. -/
theorem exists_of_symbols_eq {shape : Shape} {is : List Instruction}
    (h : is.map Instruction.symbol = shape.symbols) :
    ∃ b : Block, b.instructions = is ∧ b.shape = shape := by
  induction shape generalizing is with
  | nil =>
    rw [List.map_eq_nil_iff.mp h]
    exact ⟨nil, rfl, rfl⟩
  | command c rest ih =>
    obtain ⟨i, is, rfl, hi, hrest⟩ := List.map_eq_cons_iff.mp h
    obtain ⟨b, rfl, rfl⟩ := ih hrest
    obtain ⟨place, symbol⟩ := i
    subst hi
    exact ⟨command c place b, rfl, rfl⟩
  | loop body rest body_ih rest_ih =>
    obtain ⟨first, is, rfl, hfirst, htail⟩ := List.map_eq_cons_iff.mp h
    obtain ⟨inner, is, rfl, hinner, htail⟩ := List.map_eq_append_iff.mp htail
    obtain ⟨last, is, rfl, hlast, hrest⟩ := List.map_eq_cons_iff.mp htail
    obtain ⟨b, rfl, rfl⟩ := body_ih hinner
    obtain ⟨b', rfl, rfl⟩ := rest_ih hrest
    obtain ⟨firstPlace, symbol⟩ := first
    subst hfirst
    obtain ⟨lastPlace, symbol⟩ := last
    subst hlast
    exact ⟨loop firstPlace b lastPlace b', rfl, rfl⟩

theorem exists_of_shape_command {b : Block} {c : Command} {rest : Shape}
    (h : b.shape = .command c rest) :
    ∃ place b', b = command c place b' ∧ b'.shape = rest := by
  cases b with
  | nil => cases h
  | command c' place b' =>
    cases h
    exact ⟨place, b', rfl, rfl⟩
  | loop => cases h

theorem exists_of_shape_loop {b : Block} {body rest : Shape} (h : b.shape = .loop body rest) :
    ∃ first inner last b', b = loop first inner last b' ∧ inner.shape = body ∧ b'.shape = rest := by
  cases b with
  | nil => cases h
  | command => cases h
  | loop first inner last b' =>
    cases h
    exact ⟨first, inner, last, b', rfl, rfl, rfl⟩

/-- A block that begins with commands in a row performs them first. -/
theorem exists_of_shape_commands {b : Block} {cs : List Command} {rest : Shape} {s t : Store}
    (h : b.shape = .commands cs rest) (performs : Store.Performs cs s t) :
    ∃ b' : Block, b'.shape = rest ∧
      ∀ n o, b'.meaning t n o → b.meaning s (cs.length + n) o := by
  induction performs generalizing b with
  | nil => exact ⟨b, h, fun n o hb ↦ by rwa [List.length_nil, Nat.zero_add]⟩
  | @cons c cs s t allowed _ ih =>
    obtain ⟨place, next, rfl, hnext⟩ := exists_of_shape_command h
    obtain ⟨b', hb', hrest⟩ := ih hnext
    refine ⟨b', hb', fun n o hb ↦ ?_⟩
    have once : Meaning.Once c place s 1 (.finished (s.perform c)) := .finished (allowed _)
    have hseq := Meaning.Seq.finished once (hrest n o hb)
    rwa [← Nat.add_assoc, Nat.add_comm 1] at hseq

end Block

namespace Shape

/-- Every block of the shape leads from one store to another in the given number of steps. -/
def Finishes (shape : Shape) (s : Store) (n : Nat) (t : Store) : Prop :=
  ∀ b : Block, b.shape = shape → b.meaning s n (.finished t)

/-- Every block of the shape is stopped by the given fault of one of its instructions, after the
given number of steps and with the given store. -/
def Stops (shape : Shape) (s : Store) (n : Nat) (fault : Instruction → Fault) (t : Store) : Prop :=
  ∀ b : Block, b.shape = shape → ∃ i, b.meaning s n (.stopped (fault i) t)

/-- Passes through every block of the shape lead from one store to another. -/
def FinishesPasses (body : Shape) (s : Store) (n : Nat) (t : Store) : Prop :=
  ∀ b : Block, b.shape = body → Meaning.Passes b.meaning s n (.finished t)

variable {body rest : Shape} {s mid t : Store} {m n : Nat} {fault : Instruction → Fault}

/-! ## Commands in a row -/

theorem finishes_nil (s : Store) : Finishes nil s 0 s := by
  intro b hb
  cases b with
  | nil => exact .finished
  | command => cases hb
  | loop => cases hb

theorem Finishes.commands {cs : List Command} (performs : Store.Performs cs s mid)
    (h : Finishes rest mid n t) : Finishes (commands cs rest) s (cs.length + n) t := by
  intro b hb
  obtain ⟨b', hb', hrest⟩ := Block.exists_of_shape_commands hb performs
  exact hrest n _ (h b' hb')

theorem Stops.commands {cs : List Command} (performs : Store.Performs cs s mid)
    (h : Stops rest mid n fault t) : Stops (commands cs rest) s (cs.length + n) fault t := by
  intro b hb
  obtain ⟨b', hb', hrest⟩ := Block.exists_of_shape_commands hb performs
  obtain ⟨i, hi⟩ := h b' hb'
  exact ⟨i, hrest n _ hi⟩

/-- A command that fails whatever its place stops every block that begins with it. -/
theorem stops_command {c : Command} (refused : ∀ i, s.fault? c i = some (fault i)) (rest : Shape) :
    Stops (command c rest) s 0 fault s := by
  intro b hb
  obtain ⟨place, b', rfl, -⟩ := Block.exists_of_shape_command hb
  exact ⟨_, .stopped (.stopped (refused _))⟩

/-! ## Ways through a loop -/

theorem Finishes.skip (zero : s.tape.current = 0) (h : Finishes rest s n t) (body : Shape) :
    Finishes (loop body rest) s (1 + n) t := by
  intro b hb
  obtain ⟨first, inner, last, b', rfl, -, hb'⟩ := Block.exists_of_shape_loop hb
  exact .finished (.skipped zero) (h b' hb')

theorem Finishes.enter (nonzero : s.tape.current ≠ 0) (passes : FinishesPasses body s m mid)
    (h : Finishes rest mid n t) : Finishes (loop body rest) s (m + 1 + n) t := by
  intro b hb
  obtain ⟨first, inner, last, b', rfl, hinner, hb'⟩ := Block.exists_of_shape_loop hb
  exact .finished (.entered nonzero (passes inner hinner)) (h b' hb')

theorem FinishesPasses.last (pass : Finishes body s n t) (zero : t.tape.current = 0) :
    FinishesPasses body s (n + 1) t :=
  fun b hb ↦ .finished (pass b hb) zero

theorem FinishesPasses.again (pass : Finishes body s m mid) (nonzero : mid.tape.current ≠ 0)
    (others : FinishesPasses body mid n t) : FinishesPasses body s (m + 1 + n) t :=
  fun b hb ↦ .again (pass b hb) nonzero (others b hb)

/-- The closing bracket takes a step as the opening one does. So after a pass the others are what
they would be if the loop were come to there. -/
theorem FinishesPasses.of_finishes_loop (pass : Finishes body s m mid)
    (h : Finishes (loop body nil) mid n t) : FinishesPasses body s (m + n) t := by
  intro b hb
  have hshape : (Block.loop ⟨1, 1, 0⟩ b ⟨1, 1, 0⟩ .nil).shape = loop body nil := by
    rw [Block.shape, hb, Block.shape]
  cases h _ hshape with
  | finished first second =>
    cases second
    cases first with
    | skipped zero => exact .finished (pass b hb) zero
    | entered nonzero passes =>
      have hagain := Meaning.Passes.again (pass b hb) nonzero passes
      rwa [Nat.add_assoc, Nat.add_comm 1] at hagain

/-- A fault in the first pass through a loop. -/
theorem Stops.enter (nonzero : s.tape.current ≠ 0) (pass : Stops body s n fault t) (rest : Shape) :
    Stops (loop body rest) s (n + 1) fault t := by
  intro b hb
  obtain ⟨first, inner, last, b', rfl, hinner, -⟩ := Block.exists_of_shape_loop hb
  obtain ⟨i, hi⟩ := pass inner hinner
  exact ⟨i, .stopped (.entered nonzero (.stopped hi))⟩

/-! ## Counting down -/

theorem toNat_sub_one {x : UInt8} (hx : x ≠ 0) : (x - 1).toNat = x.toNat - 1 := by
  have hne : x.toNat ≠ 0 := fun h ↦ hx (UInt8.toNat_inj.mp h)
  have hlt := x.toNat_lt
  rw [UInt8.toNat_sub, UInt8.toNat_one]
  omega

/-- Where every pass takes as many steps and counts the current cell down by one, there are as many
passes as the cell says. The stores on the way are told by the value that the cell has reached. -/
theorem finishesPasses_countdown {state : UInt8 → Store}
    (current_eq : ∀ x, (state x).tape.current = x)
    (pass : ∀ x, x ≠ 0 → Finishes body (state x) n (state (x - 1))) {x : UInt8} (hx : x ≠ 0) :
    FinishesPasses body (state x) ((n + 1) * x.toNat) (state 0) := by
  induction hcount : x.toNat generalizing x with
  | zero => exact absurd (UInt8.toNat_inj.mp hcount) hx
  | succ k ih =>
    have hk : (x - 1).toNat = k := by
      rw [toNat_sub_one hx, hcount, Nat.add_sub_cancel]
    rw [Nat.mul_succ, Nat.add_comm]
    by_cases hlast : x - 1 = 0
    · have hpass := pass x hx
      rw [hlast] at hpass hk
      rw [← hk, UInt8.toNat_zero, Nat.mul_zero, Nat.add_zero]
      exact .last hpass (current_eq 0)
    · have hcell : (state (x - 1)).tape.current ≠ 0 := by rwa [current_eq]
      exact .again (pass x hx) hcell (ih hlast hk)

theorem finishes_countdown {state : UInt8 → Store} (current_eq : ∀ x, (state x).tape.current = x)
    (pass : ∀ x, x ≠ 0 → Finishes body (state x) n (state (x - 1))) (x : UInt8) :
    Finishes (loop body nil) (state x) ((n + 1) * x.toNat + 1) (state 0) := by
  by_cases hx : x = 0
  · subst hx
    exact .skip (current_eq 0) (finishes_nil _) body
  · have hcell : (state x).tape.current ≠ 0 := by rwa [current_eq]
    exact .enter hcell (finishesPasses_countdown current_eq pass hx) (finishes_nil _)

/-! ## Counting up -/

theorem ofNat_eq_zero_iff {n : Nat} : UInt8.ofNat n = 0 ↔ 256 ∣ n := by
  rw [← UInt8.toNat_inj, UInt8.toNat_ofNat', Nat.dvd_iff_mod_eq_zero]
  rfl

/-- A first cell that is counted up to zero again leaves a loop out, and with it everything as it
was at the beginning. -/
theorem finishes_skipped {v : Nat} (hv : 256 ∣ v) (body : Shape) (cells : CellCount)
    (input : String) :
    (commands (List.replicate v .increment) (loop body nil)).Finishes
      (.fresh cells.value input) (v + 1) (.fresh cells.value input) := by
  have performs := Store.Performs.increments_fresh cells input v
  rw [ofNat_eq_zero_iff.mpr hv, Store.withTape_around_fresh] at performs
  have hcell : (Store.fresh cells.value input).tape.current = 0 := by
    rw [← Store.withTape_around_fresh, Store.tape_withTape, Tape.current_around]
  have hall := Finishes.commands performs (.skip hcell (finishes_nil _) body)
  rwa [List.length_replicate] at hall

end Shape

/-! ## Programs -/

/-- A text of symbols determines the symbols. -/
theorem Program.symbols_eq_of_render_eq {program : Program} {symbols : List Symbol}
    (h : program.render = String.ofList (symbols.map Symbol.toChar)) :
    program.symbols = symbols :=
  List.map_injective_iff.mpr (fun _ _ ↦ Symbol.toChar_injective) (String.ofList_injective h)

/-- Every text of symbols is what the program it writes is rendered to. -/
theorem Program.render_ofString_of_symbols (symbols : List Symbol) :
    (ofString (String.ofList (symbols.map Symbol.toChar))).render =
      String.ofList (symbols.map Symbol.toChar) := by
  have hread : (symbols.map Symbol.toChar).filterMap Symbol.ofChar? = symbols := by
    simp only [List.filterMap_map, Function.comp_def, Symbol.ofChar?_toChar, List.filterMap_some]
  rw [render, ofString, String.toList_ofList, symbols_ofChars, hread]

namespace Machine

variable {program : Program} {shape : Shape} {cells : CellCount} {input : String} {n : Nat}
  {t : Store}

/-- A program with the symbols of a shape realises whatever its blocks mean. -/
theorem exists_block_of_symbols_eq (written : program.symbols = shape.symbols) :
    ∃ (table : JumpTable) (b : Block), JumpTable.ofInstructions program.toList = .ok table ∧
      b.shape = shape ∧ b.instructions = program.toList := by
  obtain ⟨b, hb, hshape⟩ := Block.exists_of_symbols_eq written
  have balanced : Balanced program.toList := hb ▸ b.balanced_instructions
  obtain ⟨table, accepted⟩ := JumpTable.exists_ofInstructions_of_balanced balanced
  exact ⟨table, b, accepted, hshape, hb⟩

theorem exists_report_of_finishes (written : program.symbols = shape.symbols)
    (h : shape.Finishes (.fresh cells.value input) n t) (j : Journal) :
    ∃ report, reportWithin? program cells input j none = some report ∧
      report.result = .ok t.output ∧ report.machine.store = t ∧ report.machine.processed = n := by
  obtain ⟨table, b, accepted, hshape, hb⟩ := exists_block_of_symbols_eq written
  have hrealises : Realises _ cells _ _ _ := realises_program accepted hb
  obtain ⟨actions, last, hends, hstore, hprocessed⟩ :=
    hrealises.ends_ok_iff.mpr ⟨h b hshape, rfl⟩
  exact ⟨_, (reportWithin?_of_accepted accepted).mpr ⟨actions, hends⟩, rfl, hstore, hprocessed⟩

theorem exists_report_of_stops {fault : Instruction → Fault}
    (written : program.symbols = shape.symbols)
    (h : shape.Stops (.fresh cells.value input) n fault t) (j : Journal) :
    ∃ report i, reportWithin? program cells input j none = some report ∧
      report.result = .error (fault i) ∧ report.machine.store = t ∧
      report.machine.processed = n := by
  obtain ⟨table, b, accepted, hshape, hb⟩ := exists_block_of_symbols_eq written
  have hrealises : Realises _ cells _ _ _ := realises_program accepted hb
  obtain ⟨i, hi⟩ := h b hshape
  obtain ⟨actions, last, hends, hstore, hprocessed⟩ := hrealises.ends_error_iff.mpr hi
  exact ⟨_, i, (reportWithin?_of_accepted accepted).mpr ⟨actions, hends⟩, rfl, hstore, hprocessed⟩

end Machine

end Brainfuck
