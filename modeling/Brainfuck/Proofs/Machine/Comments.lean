import Brainfuck.Proofs.Machine.Lockstep
import Brainfuck.Proofs.Program.Rendering

/-!
# Comments and layout

A machine never looks at the line or the column of an instruction. It pairs brackets by position,
executes symbols and looks jumps up by index; lines and columns are only passed on to reports. So a
program and its rendering run alike: the machines are the same at every turn, and a fault of the one
is a fault of the other but for the place it names. Hence texts that differ in comments and layout
alone cannot be told apart by what they do.
-/

namespace Brainfuck

/-! ## Reports of a rendering -/

def UnmatchedBracket.rendered (u : UnmatchedBracket) : UnmatchedBracket :=
  { u with instruction := u.instruction.rendered }

/-- A fault as it is reported for the rendering of its program: of the same kind, with the same
position, limit or bracket, and at an instruction with the same symbol and index. -/
def Fault.rendered : Fault → Fault
  | pointerTooHigh position i => pointerTooHigh position i.rendered
  | pointerTooLow i => pointerTooLow i.rendered
  | unmatchedBracket u => unmatchedBracket u.rendered
  | stepLimitExceeded limit => stepLimitExceeded limit

def Action.rendered (a : Action) : Action :=
  { a with instruction := a.instruction.rendered }

/-- A report as it is made for the rendering of its program: the same machine and the same output,
or the same fault but for the place it names. -/
def Report.rendered (report : Report) : Report :=
  { report with result := report.result.mapError Fault.rendered }

theorem Store.fault?_rendered (s : Store) (c : Command) (i : Instruction) :
    s.fault? c i.rendered = (s.fault? c i).map Fault.rendered := by
  cases c with
  | moveRight =>
    simp only [fault?]
    split <;> rfl
  | moveLeft =>
    simp only [fault?]
    split <;> rfl
  | increment => rfl
  | decrement => rfl
  | output => rfl
  | input => rfl

/-! ## The brackets of a rendering -/

namespace Pairing

def rendered (p : Pairing) : Pairing :=
  { p with waiting := p.waiting.map fun (position, i) ↦ (position, i.rendered) }

theorem visit_rendered (p : Pairing) (i : Instruction) :
    p.rendered.visit i.rendered =
      ((p.visit i).map Pairing.rendered).mapError UnmatchedBracket.rendered := by
  obtain ⟨position, waiting, partners⟩ := p
  match hs : i.symbol with
  | .command c => simp only [visit, Instruction.symbol_rendered, hs]; rfl
  | .bracket .opening => simp only [visit, Instruction.symbol_rendered, hs]; rfl
  | .bracket .closing =>
    simp only [visit, Instruction.symbol_rendered, hs]
    cases waiting <;> rfl

theorem visitAll_rendered (p : Pairing) (is : List Instruction) :
    p.rendered.visitAll (is.map Instruction.rendered) =
      ((p.visitAll is).map Pairing.rendered).mapError UnmatchedBracket.rendered := by
  induction is generalizing p with
  | nil => rfl
  | cons i is ih =>
    rw [List.map_cons, visitAll_cons, visitAll_cons, visit_rendered]
    cases p.visit i with
    | error u => rfl
    | ok next => exact ih next

theorem finish_rendered (p : Pairing) :
    p.rendered.finish = p.finish.mapError UnmatchedBracket.rendered := by
  obtain ⟨position, waiting, partners⟩ := p
  cases waiting <;> rfl

end Pairing

/-- A program and its rendering have the same table, or lack a partner for the same bracket. -/
theorem JumpTable.ofInstructions_rendered (is : List Instruction) :
    ofInstructions (is.map Instruction.rendered) =
      (ofInstructions is).mapError UnmatchedBracket.rendered := by
  have hvisit := (Pairing.blank is.length).visitAll_rendered is
  -- Nothing is waiting at first, so there is nothing to render in the blank table.
  change (Pairing.blank is.length).visitAll _ = _ at hvisit
  rw [ofInstructions, ofInstructions, List.length_map, hvisit]
  cases (Pairing.blank is.length).visitAll is with
  | error u => rfl
  | ok last => exact last.finish_rendered

namespace Machine

/-! ## Runs of a rendering -/

theorem Executes.rendered {m next : Machine} {program : Program} {table : JumpTable}
    {action : Action} (h : m.Executes (.indexed program table) action next) :
    m.Executes (.indexed program.rendered table) action.rendered next := by
  cases h with
  | command fetched running isCommand allowed =>
    refine .command (Program.fetched_rendered fetched) running isCommand ?_
    rw [Store.fault?_rendered, allowed, Option.map_none]
  | pass fetched running isBracket stays =>
    exact .pass (Program.fetched_rendered fetched) running isBracket stays
  | jump fetched running isBracket jumps partner =>
    exact .jump (Program.fetched_rendered fetched) running isBracket jumps partner

theorem Fails.rendered {m : Machine} {program : Program} {table : JumpTable} {fault : Fault}
    (h : m.Fails (.indexed program table) fault) :
    m.Fails (.indexed program.rendered table) fault.rendered := by
  cases h with
  | limit fetched exhausted => exact .limit (Program.fetched_rendered fetched) exhausted
  | command fetched running isCommand refused =>
    refine .command (Program.fetched_rendered fetched) running isCommand ?_
    rw [Store.fault?_rendered, refused, Option.map_some]
  | jump fetched running isBracket jumps unpaired =>
    exact .jump (Program.fetched_rendered fetched) running isBracket jumps unpaired

theorem lockstep_rendered (program : Program) (table : JumpTable) :
    Lockstep (.indexed program table) (.indexed program.rendered table) Action.rendered Eq
      Report.rendered id where
  executes := by
    rintro m _ next action rfl first
    exact ⟨next, first.rendered, rfl⟩
  fails := by
    rintro m _ fault rfl hfails
    exact ⟨fault.rendered, hfails.rendered, rfl⟩
  finishes := by
    rintro m _ rfl hnone
    have hmap := congrArg (Option.map Instruction.rendered) hnone
    exact ⟨(program.getElem?_rendered m.position).trans hmap, rfl⟩

theorem report?_rendered (m : Machine) (program : Program) (input : String) (j j' : Journal) :
    m.report? program.rendered input j' = (m.report? program input j).map Report.rendered := by
  have hbrackets := JumpTable.ofInstructions_rendered program.toList
  rw [← Program.toList_rendered] at hbrackets
  cases htable : JumpTable.ofInstructions program.toList with
  | error u =>
    rw [htable] at hbrackets
    rw [report?_of_rejected htable, report?_of_rejected hbrackets]
    rfl
  | ok table =>
    rw [htable] at hbrackets
    have hreports : (m.report? program input j).map Report.rendered =
        (m.report? program.rendered input j').map id :=
      (lockstep_rendered program table).report?_map htable hbrackets rfl j j'
    rw [hreports, Option.map_id, id_eq]

def textReport? (m : Machine) (text input : String) (j : Journal) : Option Report :=
  (m.executeText text input j).map Prod.fst

/-- Only the symbols of a text matter. Texts with the same rendering give, on the same machine and
input, the same report but for the lines and columns in a fault: the same output or the same fault
at an instruction with the same symbol and index, and the same machine after it; or both runs never
end. A text is such a text to its own rendering, and the report of the rendering is the report of
the text with the places of the rendering. -/
theorem only_symbols_matter (m : Machine) (input : String) (j j' : Journal) :
    (∀ text text', (Program.ofString text).render = (Program.ofString text').render →
      (m.textReport? text input j).map Report.rendered =
        (m.textReport? text' input j').map Report.rendered) ∧
    ∀ text, (Program.ofString (Program.ofString text).render).render =
        (Program.ofString text).render ∧
      m.textReport? (Program.ofString text).render input j' =
        (m.textReport? text input j).map Report.rendered := by
  have hreport (text : String) (j : Journal) : m.textReport? text input j =
      m.report? (.ofString text) input (j.note (.loaded (Program.ofString text).size)) := rfl
  constructor
  · intro text text' h
    rw [hreport, hreport, ← report?_rendered m _ input _ j, ← report?_rendered m _ input _ j,
      Program.rendered_eq_of_render_eq h]
  · intro text
    refine ⟨?_, ?_⟩
    · rw [Program.ofString_render, Program.render_rendered]
    · rw [hreport, hreport, Program.ofString_render]
      exact report?_rendered m _ input _ _

/-- On one cell both texts fail at the move to the right, which stands on the second line of one of
them. -/
theorem only_symbols_matter_two_lines :
    (Program.ofString "+>").render = (Program.ofString "plus +\nright >").render ∧
    (new ⟨⟨1, by decide⟩, none⟩).textReport? "plus +\nright >" "" {} =
      some ⟨.error (.pointerTooHigh 1 ⟨⟨2, 7, 1⟩, .command .moveRight⟩),
        ⟨⟨⟨1, by decide⟩, none⟩, ⟨⟨#[1], 0⟩, #[], 0, ""⟩, 1, 1⟩⟩ ∧
    ((new ⟨⟨1, by decide⟩, none⟩).textReport? "+>" "" {}).map Report.rendered =
      ((new ⟨⟨1, by decide⟩, none⟩).textReport? "plus +\nright >" "" {}).map
        Report.rendered := by
  have hrender : (Program.ofString "+>").render = (Program.ofString "plus +\nright >").render :=
    rfl
  exact ⟨hrender, rfl, (only_symbols_matter _ "" {} {}).1 _ _ hrender⟩

end Machine

end Brainfuck
