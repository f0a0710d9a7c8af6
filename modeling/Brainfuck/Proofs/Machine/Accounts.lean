import Brainfuck.Proofs.Machine.InputBytes
import Brainfuck.Proofs.Machine.Trace
import Brainfuck.Proofs.Utf8.Ascii

/-!
# What has been read and written

At every point of a run the cursor and the output can be told from the instructions executed so far.
The cursor counts the reads until the input is used up. Each read has put the byte of its own
character into the current cell, the first read that of the first character and so on, or zero when
there was none, and has changed no other cell. Each output command has added one character, the
value of the cell that it found, and nothing else has added any or taken one away. This is so at the
end of a run as well, whether it is a good one or a fault, and also in a run that never ends.
-/

namespace Brainfuck

def writes (actions : List Action) : Nat :=
  actions.countP (·.instruction.symbol = .command .output)

namespace Machine

/-- A run of a program that begins with the machine `first` has executed the given instructions and
is at a machine. A rejected program executes nothing. -/
inductive Visits (program : Program) (first : Machine) : List Action → Machine → Prop where
  | beginning : Visits program first [] first
  | after {table : JumpTable} {actions : List Action} {mid : Machine}
      (accepted : JumpTable.ofInstructions program.toList = .ok table)
      (steps : Steps (.indexed program table) actions first mid) :
      Visits program first actions mid

/-- A byte has been put into the current cell, and nothing else has happened to the tape. -/
structure Stores (byte : UInt8) (found left : Tape) : Prop where
  current_eq : left.current = byte
  head_eq : left.head = found.head
  others_eq : ∀ n, n ≠ found.head → left.cells[n]? = found.cells[n]?

/-! ## One instruction -/

theorem stores_write {t : Tape} (h : t.head < t.size) (byte : UInt8) :
    Stores byte t (t.write byte) where
  current_eq := Tape.current_write h byte
  head_eq := t.head_write byte
  others_eq n hn := by
    unfold Tape.write
    rw [Array.getElem?_setIfInBounds_ne hn.symm]

/-- A read puts the next byte of the input into the current cell. -/
theorem Executes.stores {m next : Machine} {code : Code} {action : Action} {config : Config}
    (h : m.Executes code action next) (sound : m.Sound config)
    (hsymbol : action.instruction.symbol = .command .input) :
    Stores m.store.nextByte m.tape next.tape := by
  cases h with
  | command _ _ isCommand =>
    cases isCommand.symm.trans hsymbol
    exact stores_write sound.head_lt _
  | pass _ _ isBracket => cases isBracket.symm.trans hsymbol
  | jump _ _ isBracket => cases isBracket.symm.trans hsymbol

theorem printed?_of_output {a : Action} (m : Machine)
    (h : a.instruction.symbol = .command .output) : a.printed? m = some m.tape.current := by
  rw [printed?_of_command m h, if_pos rfl]

/-- Each output command adds one character. -/
theorem Executes.length_output {m next : Machine} {code : Code} {action : Action}
    (h : m.Executes code action next) :
    next.output.toList.length = m.output.toList.length + writes [action] := by
  rw [h.output_eq, List.length_append]
  unfold Action.printed? writes outputChars
  by_cases hsymbol : action.instruction.symbol = .command .output
  · simp [hsymbol]
  · simp [hsymbol]

/-! ## Several instructions -/

theorem writes_append (as bs : List Action) : writes (as ++ bs) = writes as + writes bs :=
  List.countP_append

theorem writes_cons (action : Action) (actions : List Action) :
    writes (action :: actions) = writes [action] + writes actions :=
  writes_append [action] actions

namespace Steps

/-- The instructions of a run can be cut anywhere. -/
theorem exists_split {code : Code} {before after : List Action} {m last : Machine}
    (h : Steps code (before ++ after) m last) :
    ∃ mid, Steps code before m mid ∧ Steps code after mid last := by
  have hle : before.length ≤ (before ++ after).length := by
    rw [List.length_append]
    exact Nat.le_add_right _ _
  obtain ⟨mid, hbefore, hafter⟩ := h.exists_at hle
  rw [List.take_left] at hbefore
  rw [List.drop_left] at hafter
  exact ⟨mid, hbefore, hafter⟩

/-- The input stays what it is, and the cursor has moved once for each read as long as there were
characters. -/
theorem exists_reading {code : Code} {actions : List Action} {m last : Machine} {input : String}
    {count : Nat} (h : Steps code actions (m.reading input count) last) :
    ∃ x : Machine, last = x.reading input (count + reads actions) := by
  generalize hfirst : m.reading input count = first at h
  induction h generalizing m count with
  | refl => exact ⟨m, hfirst.symm⟩
  | @cons action actions _ _ _ first _ ih =>
    subst hfirst
    obtain ⟨x, hx, -⟩ := (turn_eq_executed_iff.mp first).reading fun _ ↦ rfl
    obtain ⟨y, hy⟩ := ih hx.symm
    rw [reads_cons action actions, ← Nat.add_assoc]
    exact ⟨y, hy⟩

theorem length_output {code : Code} {actions : List Action} {m last : Machine}
    (h : Steps code actions m last) :
    last.output.toList.length = m.output.toList.length + writes actions := by
  induction h with
  | refl => rfl
  | @cons action actions m next last first _ ih =>
    rw [ih, (turn_eq_executed_iff.mp first).length_output, writes_cons action actions, Nat.add_assoc]

end Steps

/-! ## Points of a run -/

section Points

variable {m : Machine} {program : Program} {input : String}

theorem Visits.exists_reading {actions : List Action} {mid : Machine}
    (h : Visits program (m.rewind input) actions mid) :
    ∃ x : Machine, mid = x.reading input (reads actions) := by
  have hfirst : m.rewind input = (m.rewind input).reading input 0 :=
    (reading_fresh m.config input input).symm
  cases h with
  | beginning => exact ⟨_, hfirst⟩
  | after _ steps =>
    rw [hfirst] at steps
    obtain ⟨x, hx⟩ := steps.exists_reading
    rw [Nat.zero_add] at hx
    exact ⟨x, hx⟩

theorem Visits.cursor_eq {actions : List Action} {mid : Machine}
    (h : Visits program (m.rewind input) actions mid) :
    mid.store.cursor = min (reads actions) input.length := by
  obtain ⟨x, rfl⟩ := h.exists_reading
  rw [← String.length_toList]
  rfl

theorem Visits.nextByte_eq {actions : List Action} {mid : Machine}
    (h : Visits program (m.rewind input) actions mid) :
    mid.store.nextByte = inputByte input (reads actions) := by
  obtain ⟨x, rfl⟩ := h.exists_reading
  exact nextByte_reading x input _

theorem Visits.length_output {actions : List Action} {mid : Machine}
    (h : Visits program (m.rewind input) actions mid) :
    mid.output.toList.length = writes actions := by
  cases h with
  | beginning => rfl
  | after _ steps => exact steps.length_output.trans (Nat.zero_add _)

/-- An instruction that a run has executed, with the machine that it found and the machine that it
left. -/
theorem Visits.exists_executes {before after : List Action} {action : Action} {mid : Machine}
    (h : Visits program (m.rewind input) (before ++ action :: after) mid) :
    ∃ code found left, Visits program (m.rewind input) before found ∧
      Visits program (m.rewind input) (before ++ [action]) left ∧ found.Sound m.config ∧
        found.Executes code action left ∧ Steps code after left mid := by
  generalize hactions : before ++ action :: after = actions at h
  cases h with
  | beginning => simp at hactions
  | after accepted steps =>
    subst hactions
    obtain ⟨found, hbefore, others⟩ := steps.exists_split
    cases others with
    | @cons _ _ _ left _ first hafter =>
      exact ⟨_, found, left, .after accepted hbefore,
        .after accepted (hbefore.trans (.cons first .refl)),
        hbefore.sound (sound_rewind m input), turn_eq_executed_iff.mp first, hafter⟩

end Points

/-- What the instruction `action` has read and written when the run of a program on some input is at
the machine `mid` and has executed the instructions `before` earlier. A read stores the byte of the
character after those of the earlier reads. What is written comes after the characters of the
earlier output commands and has the value of the current cell as its code point. Nothing is ever
taken away from the output. -/
structure Accounted (program : Program) (input : String) (first mid : Machine)
    (before : List Action) (action : Action) (found left : Machine) : Prop where
  found_at : Visits program first before found
  left_at : Visits program first (before ++ [action]) left
  read : action.instruction.symbol = .command .input →
    Stores (inputByte input (reads before)) found.tape left.tape
  wrote : action.instruction.symbol = .command .output →
    ∃ c, mid.output.toList[writes before]? = some c ∧ c.toNat = found.tape.current.toNat
  extends_found : found.output.toList <+: left.output.toList
  extends_left : left.output.toList <+: mid.output.toList

/-- The character of an output command stands behind those of the earlier ones. -/
theorem getElem?_output {found left mid : Machine} {code : Code} {action : Action}
    (h : found.Executes code action left) (hsymbol : action.instruction.symbol = .command .output)
    (hafter : left.output.toList <+: mid.output.toList) :
    mid.output.toList[found.output.toList.length]? =
      some (Char.ofNat found.tape.current.toNat) := by
  obtain ⟨rest, hrest⟩ := hafter
  have hleft := h.output_eq
  rw [printed?_of_output found hsymbol] at hleft
  rw [← hrest, hleft, List.append_assoc, List.getElem?_append_right (Nat.le_refl _), Nat.sub_self]
  rfl

theorem Visits.accounted {m mid : Machine} {program : Program} {input : String}
    {before after : List Action} {action : Action}
    (h : Visits program (m.rewind input) (before ++ action :: after) mid) :
    ∃ found left, Accounted program input (m.rewind input) mid before action found left := by
  obtain ⟨code, found, left, hfound, hleft, sound, first, others⟩ := h.exists_executes
  refine ⟨found, left, ?_⟩
  exact {
    found_at := hfound
    left_at := hleft
    read := fun hsymbol ↦ by
      rw [← hfound.nextByte_eq]
      exact first.stores sound hsymbol
    wrote := fun hsymbol ↦ by
      have hchar := getElem?_output first hsymbol others.output_prefix
      rw [hfound.length_output] at hchar
      exact ⟨_, hchar, Utf8.toNat_ofNat_byte _⟩
    extends_found := by
      rw [first.output_eq]
      exact List.prefix_append _ _
    extends_left := others.output_prefix }

/-- Where a run ends is a point of it. -/
theorem exists_visits_of_interpret {m : Machine} {program : Program} {input : String}
    {j j' : Journal} {report : Report} (run : m.interpret program input j = some (report, j')) :
    ∃ actions, Visits program (m.rewind input) actions report.machine ∧
      ∀ out, report.result = .ok out → out = report.machine.output := by
  rcases interpret_cases run with ⟨u, -, rfl⟩ | ⟨table, actions, accepted, hends⟩
  · refine ⟨[], .beginning, fun out hout ↦ ?_⟩
    cases hout
  · exact ⟨actions, .after accepted hends.steps, fun _ ↦ hends.eq_output⟩

/-- At every point of the run of a program, the cursor has passed as many characters as there were
reads, or all of them, and the output has one character for each executed output command. Every
executed instruction is accounted for by what it read and wrote. The machine that a run leaves is
a point of the run, however the run ends; if it ends well, its result is the output of that
machine. -/
theorem input_output_accounted (m : Machine) (program : Program) (input : String) :
    (∀ actions mid, Visits program (m.rewind input) actions mid →
      mid.store.cursor = min (reads actions) input.length ∧
      mid.output.toList.length = writes actions ∧
      ∀ before action after, actions = before ++ action :: after →
        ∃ found left, Accounted program input (m.rewind input) mid before action found left) ∧
    ∀ j report j', m.interpret program input j = some (report, j') →
      ∃ actions, Visits program (m.rewind input) actions report.machine ∧
        ∀ out, report.result = .ok out → out = report.machine.output := by
  refine ⟨fun actions mid h ↦ ⟨h.cursor_eq, h.length_output, ?_⟩,
    fun _ _ _ ↦ exists_visits_of_interpret⟩
  rintro before action after rfl
  exact h.accounted

/-- The second of two reads finds no character left and puts zero into the cell. -/
theorem input_output_accounted_exhausted :
    ∃ actions mid, Visits (.ofString ",.,.") (fresh ⟨⟨1, by decide⟩, none⟩ "š") actions mid ∧
      reads actions = 2 ∧ mid.store.cursor = 1 ∧ mid.output.toList.length = 2 ∧
      ∃ before, ∃ found left : Machine,
        Visits (.ofString ",.,.") (fresh ⟨⟨1, by decide⟩, none⟩ "š") before found ∧
          reads before = 1 ∧ Stores 0 found.tape left.tape := by
  have accepted : JumpTable.ofInstructions (Program.ofString ",.,.").toList =
      .ok ⟨#[none, none, none, none]⟩ := rfl
  have steps : Steps (.indexed (.ofString ",.,.") ⟨#[none, none, none, none]⟩) _
      (fresh ⟨⟨1, by decide⟩, none⟩ "š") _ :=
    .cons rfl (.cons rfl (.cons rfl (.cons rfl .refl)))
  have visits := Visits.after accepted steps
  obtain ⟨hcursor, hlength, haccounted⟩ :=
    (input_output_accounted (new ⟨⟨1, by decide⟩, none⟩) (.ofString ",.,.") "š").1 _ _ visits
  obtain ⟨found, left, account⟩ := haccounted [_, _] _ [_] rfl
  exact ⟨_, _, visits, rfl, hcursor, hlength, _, found, left, account.found_at, rfl,
    account.read rfl⟩

end Machine

end Brainfuck
