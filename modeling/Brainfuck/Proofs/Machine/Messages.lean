import Brainfuck.Proofs.Machine.FaultReport

/-!
# What a message gives away

The message of a fault is put together from fixed words and a few numbers in decimal. A number ends
where its digits do, so it can be read back, and so can everything else that the message shows. The
one thing it does not show is the index of an instruction. Within one program the line and the
column tell the instruction, index and all. So when two runs of a program end in faults with the
same message, they end in the same fault.
-/

namespace Brainfuck

/-! ## Numbers in a text -/

/-- A separator that begins with no digit, so that a number before it ends there. -/
def Separates (sep : String) : Prop :=
  ∃ c ∈ sep.toList.head?, c.isDigit = false

/-- A number can be read back from the digits at the beginning of a text. -/
theorem ofDigitChars_takeWhile {sep : String} (hsep : Separates sep) (n : Nat) (s : String) :
    Nat.ofDigitChars 10 ((toString n ++ (sep ++ s)).toList.takeWhile Char.isDigit) 0 = n := by
  obtain ⟨c, hc, hdigit⟩ := hsep
  obtain ⟨others, hothers⟩ := List.head?_eq_some_iff.mp hc
  have hdigits : ∀ c ∈ Nat.toDigits 10 n, c.isDigit = true := fun _ hc ↦
    Nat.isDigit_of_mem_toDigits (by decide) (by decide) hc
  have hstop : ¬c.isDigit = true := by
    rw [hdigit]
    exact Bool.false_ne_true
  rw [String.toList_append, String.toList_append, hothers, List.cons_append,
    Nat.toString_eq_repr, Nat.toList_repr, List.takeWhile_append_of_pos hdigits,
    List.takeWhile_cons_of_neg hstop, List.append_nil, Nat.ofDigitChars_ten_toDigits]

/-- A number with a separator after it can be cancelled from the beginning of a text. -/
theorem toString_append_inj {sep : String} (hsep : Separates sep) {m n : Nat} {s t : String}
    (h : toString m ++ (sep ++ s) = toString n ++ (sep ++ t)) : m = n ∧ s = t := by
  have hmn : m = n := by
    rw [← ofDigitChars_takeWhile hsep m s, h, ofDigitChars_takeWhile hsep n t]
  subst hmn
  rw [String.append_right_inj, String.append_right_inj] at h
  exact ⟨rfl, h⟩

/-! ## Instructions and brackets -/

/-- The description of a symbol ends with its character in parentheses. -/
theorem Symbol.describe_injective {s t : Symbol} (h : s.describe = t.describe) : s = t := by
  have hlist (s : Symbol) : s.describe.toList = s.name.toList ++ [' ', '(', s.toChar, ')'] := by
    simp [describe]
  have hboth := congrArg String.toList h
  rw [hlist, hlist] at hboth
  obtain ⟨-, hend⟩ := List.append_inj' hboth rfl
  apply toChar_injective
  simpa using hend

/-- The description of an instruction shows its line, its column and its symbol. -/
theorem Instruction.describe_inj {i j : Instruction} (h : i.describe = j.describe) :
    i.line = j.line ∧ i.column = j.column ∧ i.symbol = j.symbol := by
  unfold describe at h
  simp only [String.append_assoc] at h
  obtain ⟨hline, hrest⟩ := toString_append_inj ⟨':', rfl, rfl⟩ h
  obtain ⟨hcolumn, hsymbol⟩ := toString_append_inj ⟨' ', rfl, rfl⟩ hrest
  exact ⟨hline, hcolumn, Symbol.describe_injective hsymbol⟩

/-- A bracket between quotes can be cancelled from the beginning of a text. -/
theorem Bracket.quoted_append_inj {b b' : Bracket} {s t : String}
    (h : b.quoted ++ s = b'.quoted ++ t) : b = b' ∧ s = t := by
  have hlist (b : Bracket) : b.quoted.toList = ['\'', (Symbol.bracket b).toChar, '\''] := by
    cases b <;> rfl
  have hboth := congrArg String.toList h
  rw [String.toList_append, String.toList_append, hlist, hlist] at hboth
  obtain ⟨hquoted, hrest⟩ := List.append_inj hboth rfl
  have hchar : (Symbol.bracket b).toChar = (Symbol.bracket b').toChar := by simpa using hquoted
  exact ⟨Symbol.bracket.inj (Symbol.toChar_injective hchar), String.toList_inj.mp hrest⟩

/-! ## Faults -/

namespace Fault

/-- The character in which the messages of the four kinds of faults differ. -/
def mark : Fault → Char
  | pointerTooHigh _ _ => 'h'
  | pointerTooLow _ => 'l'
  | unmatchedBracket _ => '\''
  | stepLimitExceeded _ => 'x'

theorem getElem?_append_of_eq_some {front : String} {n : Nat} {c : Char}
    (h : front.toList[n]? = some c) (back : String) : (front ++ back).toList[n]? = some c := by
  rw [String.toList_append, List.getElem?_append_left (List.getElem?_eq_some_iff.mp h).1, h]

/-- The mark is the thirteenth character of every message. -/
theorem getElem?_message (fault : Fault) : fault.message.toList[12]? = some fault.mark := by
  unfold message
  cases fault with
  | pointerTooHigh position i =>
    simp only [String.append_assoc]
    exact getElem?_append_of_eq_some rfl _
  | pointerTooLow i => exact getElem?_append_of_eq_some rfl _
  | unmatchedBracket u =>
    have hquoted : ("unmatched " ++ u.bracket.quoted).toList[12]? = some '\'' := by
      cases u.bracket <;> rfl
    unfold UnmatchedBracket.message
    simp only [String.append_assoc] at hquoted ⊢
    exact getElem?_append_of_eq_some hquoted _
  | stepLimitExceeded limit =>
    simp only [String.append_assoc]
    exact getElem?_append_of_eq_some rfl _

theorem mark_eq_of_message_eq {f g : Fault} (h : f.message = g.message) : f.mark = g.mark := by
  have hmark : some f.mark = some g.mark := by
    rw [← getElem?_message, ← getElem?_message, h]
  exact Option.some.inj hmark

/-- A message tells everything about a fault but the instruction, which it describes. -/
theorem eq_of_message_eq {f g : Fault} (h : f.message = g.message)
    (described : ∀ i j, f.instruction? = some i → g.instruction? = some j →
      i.describe = j.describe → i = j) : f = g := by
  -- Two kinds of faults differ in the mark, so only equal kinds are left.
  have hmark := mark_eq_of_message_eq h
  unfold message at h
  cases f with
  | pointerTooHigh position i =>
    cases g with
    | pointerTooHigh position' i' =>
      simp only [String.append_assoc, String.append_right_inj] at h
      obtain ⟨rfl, hi⟩ := toString_append_inj ⟨' ', rfl, rfl⟩ h
      rw [described i i' rfl rfl hi]
    | _ => cases hmark
  | pointerTooLow i =>
    cases g with
    | pointerTooLow i' =>
      simp only [String.append_right_inj] at h
      rw [described i i' rfl rfl h]
    | _ => cases hmark
  | unmatchedBracket u =>
    cases g with
    | unmatchedBracket u' =>
      obtain ⟨b, i⟩ := u
      obtain ⟨b', i'⟩ := u'
      simp only [UnmatchedBracket.message, String.append_assoc, String.append_right_inj] at h
      obtain ⟨rfl, hi⟩ := Bracket.quoted_append_inj h
      rw [String.append_right_inj] at hi
      rw [described i i' rfl rfl hi]
    | _ => cases hmark
  | stepLimitExceeded limit =>
    cases g with
    | stepLimitExceeded limit' =>
      have hlimit : toString limit ++ (")" ++ "") = toString limit' ++ (")" ++ "") := by
        simpa only [String.append_assoc, String.append_right_inj, String.append_empty] using h
      obtain ⟨rfl, -⟩ := toString_append_inj ⟨')', rfl, rfl⟩ hlimit
      rfl
    | _ => cases hmark

end Fault

/-! ## Runs of a program -/

namespace Program

/-- The programs that are loaded from texts and from sources of bytes. -/
inductive Loaded : Program → Prop where
  | ofString (text : String) : Loaded (.ofString text)
  | ofSource {s : ByteSource} {program : Program} (h : Program.ofSource s = .ok program) :
      Loaded program

/-- Some run of a program ends in a fault, on some machine and some input. -/
def Raises (program : Program) (fault : Fault) : Prop :=
  ∃ (m : Machine) (input : String) (j j' : Journal) (report : Report),
    m.interpret program input j = some (report, j') ∧ report.result = .error fault

variable {program : Program} {fault : Fault}

/-- The instructions of a loaded program stand in one text, of which bytes are the writing. -/
theorem Loaded.exists_text (h : Loaded program) : ∃ text, program = ofChars text := by
  cases h with
  | ofString text => exact ⟨text.toList, rfl⟩
  | @ofSource s _ h =>
    cases hfailure : s.failure with
    | none =>
      rw [ofSource_of_readable hfailure, Except.ok.injEq] at h
      exact ⟨Utf8.decode s.chunks.flatten, h.symm⟩
    | some failure =>
      rw [ofSource_of_failure hfailure] at h
      cases h

/-- Two instructions of a loaded program with the same description are one and the same. -/
theorem Loaded.eq_of_describe_eq (h : Loaded program) {i i' : Instruction}
    (hi : i ∈ program.toList) (hi' : i' ∈ program.toList) (same : i.describe = i'.describe) :
    i = i' := by
  obtain ⟨text, rfl⟩ := h.exists_text
  obtain ⟨hline, hcolumn, -⟩ := Instruction.describe_inj same
  exact (mem_toList_ofChars.mp hi).eq_of_line_column (mem_toList_ofChars.mp hi') hline hcolumn

theorem Raises.mem (h : Raises program fault) {i : Instruction}
    (hi : fault.instruction? = some i) : i ∈ program.toList := by
  obtain ⟨m, input, j, j', report, run, hfault⟩ := h
  exact (Machine.tells_of_interpret run hfault).mem hi

/-- Runs of a loaded program that end in faults, on whatever machines and inputs, end with the same
message exactly when they end in the same fault, down to the index of the instruction, which the
message does not show. -/
theorem message_eq_iff_of_raises (loaded : Loaded program) {fault' : Fault}
    (raises : Raises program fault) (raises' : Raises program fault') :
    fault.message = fault'.message ↔ fault = fault' := by
  constructor
  · intro h
    apply Fault.eq_of_message_eq h
    intro i i' hi hi'
    exact loaded.eq_of_describe_eq (raises.mem hi) (raises'.mem hi')
  · intro h
    rw [h]

/-- On one cell the first move of two fails, and on two cells the second one. -/
theorem message_eq_iff_of_raises_two_moves :
    Loaded (.ofString ">\n>") ∧
    Raises (.ofString ">\n>") (.pointerTooHigh 1 ⟨⟨1, 1, 0⟩, .command .moveRight⟩) ∧
    Raises (.ofString ">\n>") (.pointerTooHigh 2 ⟨⟨2, 1, 1⟩, .command .moveRight⟩) ∧
    Fault.message (.pointerTooHigh 1 ⟨⟨1, 1, 0⟩, .command .moveRight⟩) ≠
      Fault.message (.pointerTooHigh 2 ⟨⟨2, 1, 1⟩, .command .moveRight⟩) := by
  have loaded : Loaded (.ofString ">\n>") := .ofString _
  have raises : Raises (.ofString ">\n>")
      (.pointerTooHigh 1 ⟨⟨1, 1, 0⟩, .command .moveRight⟩) :=
    ⟨.new ⟨⟨1, by decide⟩, none⟩, "", {}, _, _, rfl, rfl⟩
  have raises' : Raises (.ofString ">\n>")
      (.pointerTooHigh 2 ⟨⟨2, 1, 1⟩, .command .moveRight⟩) :=
    ⟨.new ⟨⟨2, by decide⟩, none⟩, "", {}, _, _, rfl, rfl⟩
  refine ⟨loaded, raises, raises', fun h ↦ ?_⟩
  exact absurd ((message_eq_iff_of_raises loaded raises raises').mp h) (by decide)

end Program

end Brainfuck
