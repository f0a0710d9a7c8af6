import Brainfuck.Proofs.Machine.Invariant

/-!
# Machines used again

A machine outlives its runs. It is asked for one run after another, and every answer leaves it in
some state: at the end of a program, stopped in the middle of one, or rewound without having run at
all. The next run begins by rewinding the machine, so all it can see of the past is the
configuration, and no run changes that. Hence a machine that answers several calls gives the answers
that as many new machines would give.
-/

namespace Brainfuck.Machine

/-- What a machine can be asked for: the run of a program that is loaded already, or of a text,
which is loaded first. -/
inductive Call where
  | program (program : Program) (input : String)
  | text (text input : String)

def answer (m : Machine) (call : Call) (j : Journal) : Option (Report × Journal) :=
  match call with
  | .program program input => m.interpret program input j
  | .text text input => m.executeText text input j

/-- Answers calls one after the other, each on the machine that the one before has left. -/
def answerAll : Machine → List Call → Journal → Option (List Report × Journal)
  | _, [], j => some ([], j)
  | m, call :: calls, j => do
    let (report, j) ← m.answer call j
    let (reports, j) ← report.machine.answerAll calls j
    return (report :: reports, j)

/-- Answers calls one after the other, each on a new machine. -/
def answerApart (config : Config) : List Call → Journal → Option (List Report × Journal)
  | [], j => some ([], j)
  | call :: calls, j => do
    let (report, j) ← (new config).answer call j
    let (reports, j) ← answerApart config calls j
    return (report :: reports, j)

/-! ## What a run can see of the machine -/

theorem interpret_eq_interpret_new (m : Machine) (program : Program) (input : String)
    (j : Journal) : m.interpret program input j = (new m.config).interpret program input j := by
  rw [interpret, interpret, rewind_eq_rewind_new]

theorem answer_eq_answer_new (m : Machine) (call : Call) (j : Journal) :
    m.answer call j = (new m.config).answer call j := by
  cases call with
  | program program input => exact interpret_eq_interpret_new m program input j
  | text text input => exact interpret_eq_interpret_new m (.ofString text) input _

/-! ## Machines with a past -/

/-- Answering a call adds a run to the history of a machine. -/
theorem History.answered {config : Config} {m : Machine} {call : Call} {j j' : Journal}
    {report : Report} (history : History config m)
    (answered : m.answer call j = some (report, j')) : History config report.machine := by
  cases call with
  | program program input => exact history.interpreted answered
  | text text input =>
    have run : m.interpret (.ofString text) input (j.note (.loaded (Program.ofString text).size)) =
      some (report, j') := answered
    exact history.interpreted run

theorem History.answer_eq {config : Config} {m : Machine} (history : History config m)
    (call : Call) (j : Journal) : m.answer call j = (Machine.new config).answer call j := by
  rw [answer_eq_answer_new, history.sound.config_eq]

theorem History.answerAll_eq {config : Config} {m : Machine} (history : History config m)
    (calls : List Call) (j : Journal) : m.answerAll calls j = answerApart config calls j := by
  induction calls generalizing m j with
  | nil => rfl
  | cons call calls ih =>
    rw [answerAll, answerApart, ← history.answer_eq call j]
    cases answered : m.answer call j with
    | none => rfl
    | some answer =>
      obtain ⟨report, j'⟩ := answer
      simp only [Option.bind_eq_bind, Option.bind_some, ih (history.answered answered)]

theorem History.of_mem_answerAll {config : Config} {m : Machine} {calls : List Call}
    {j j' : Journal} {reports : List Report} (history : History config m)
    (answered : m.answerAll calls j = some (reports, j')) :
    ∀ report ∈ reports, History config report.machine := by
  induction calls generalizing m j reports with
  | nil =>
    cases answered
    intro report h
    cases h
  | cons call calls ih =>
    simp only [answerAll, Option.bind_eq_bind, Option.bind_eq_some_iff] at answered
    obtain ⟨⟨report, j₁⟩, hreport, ⟨others, j₂⟩, hothers, heq⟩ := answered
    cases heq
    have hnext := history.answered hreport
    intro report' hmem
    rcases List.mem_cons.mp hmem with rfl | hmem
    · exact hnext
    · exact ih hnext hothers report' hmem

/-- A machine with any history answers the next call as a new machine with its configuration does:
with the same result, in the same state afterwards and with the same notes in the journal, or not
at all. So it does with any number of calls, and what it becomes by answering them has a history
again. -/
theorem answers_forget_history {config : Config} {m : Machine} (history : History config m) :
    (∀ call j, m.answer call j = (new config).answer call j) ∧
    (∀ calls j, m.answerAll calls j = answerApart config calls j) ∧
    ∀ calls j reports j', m.answerAll calls j = some (reports, j') →
      ∀ report ∈ reports, History config report.machine :=
  ⟨history.answer_eq, history.answerAll_eq, fun _ _ _ _ ↦ history.of_mem_answerAll⟩

/-- A machine with one cell is stopped at its end with a one in the cell. Asked to echo a character
after that, it does so as if nothing had happened. -/
theorem answers_forget_history_echo :
    ∃ report j, (new ⟨⟨1, by decide⟩, none⟩).answer (.text "+>" "abc") {} = some (report, j) ∧
      report.result = .error (.pointerTooHigh 1 ⟨⟨1, 2, 1⟩, .command .moveRight⟩) ∧
      report.machine.tape = ⟨#[1], 0⟩ ∧
      (report.machine.answer (.text ",." "q") {}).map Prod.fst =
        some ⟨.ok "q", ⟨⟨⟨1, by decide⟩, none⟩, ⟨⟨#[113], 0⟩, #['q'], 1, "q"⟩, 2, 2⟩⟩ := by
  refine ⟨_, _, rfl, rfl, rfl, ?_⟩
  have answered : (new ⟨⟨1, by decide⟩, none⟩).answer (.text "+>" "abc") {} = some (_, _) := rfl
  rw [(answers_forget_history (History.new.answered answered)).1]
  rfl

end Brainfuck.Machine
