import Brainfuck.Proofs.Block.Shapes

/-!
# Echoing

The program `,[.,]` writes what it reads. It sees characters as bytes, so it stops at the first
character whose code point is a multiple of 256, as it stops at the end of the input, where a read
gives zero too; and what it writes for the characters before is their low bytes. In every pass the
loop writes the byte that was read last and reads the next one, so the characters still unread tell
all that is to come: how many passes are left and what they write.
-/

namespace Brainfuck

/-- What is written for some characters: those before the first one whose code point is a multiple
of 256, each replaced by the character of its low byte. -/
def echoedChars (unread : List Char) : List Char :=
  (unread.takeWhile fun c ↦ ¬256 ∣ c.toNat).map fun c ↦ Char.ofNat (c.toNat % 256)

def echoed (input : String) : String :=
  String.ofList (echoedChars input.toList)

theorem echoedChars_of_dvd {c : Char} (h : 256 ∣ c.toNat) (unread : List Char) :
    echoedChars (c :: unread) = [] := by
  simp [echoedChars, h]

theorem echoedChars_of_not_dvd {c : Char} (h : ¬256 ∣ c.toNat) (unread : List Char) :
    echoedChars (c :: unread) = Char.ofNat (c.toNat % 256) :: echoedChars unread := by
  simp [echoedChars, h]

/-- Characters that are bytes themselves, other than zero, are written as they are. -/
theorem echoedChars_eq_self {unread : List Char}
    (h : ∀ c ∈ unread, 1 ≤ c.toNat ∧ c.toNat ≤ 255) :
    echoedChars unread = unread := by
  induction unread with
  | nil => rfl
  | cons c others ih =>
    obtain ⟨⟨hlow, hhigh⟩, hothers⟩ := List.forall_mem_cons.mp h
    have hlt : c.toNat < 256 := Nat.lt_succ_of_le hhigh
    have hdvd : ¬256 ∣ c.toNat := Nat.not_dvd_of_pos_of_lt hlow hlt
    rw [echoedChars_of_not_dvd hdvd, Nat.mod_eq_of_lt hlt, Char.ofNat_toNat, ih hothers]

/-! ## Reading the next character -/

namespace Tape

theorem write_write (t : Tape) (first last : UInt8) : (t.write first).write last = t.write last := by
  simp [write]

theorem write_zero_blank (size : Nat) : (blank size).write 0 = blank size := by
  simp [write, blank]

end Tape

namespace Store

def unread (s : Store) : List Char :=
  s.input.toList.drop s.cursor

variable {s : Store}

theorem nextByte_of_unread_nil (h : s.unread = []) : s.nextByte = 0 := by
  have hchar : s.input[s.cursor]? = none := by
    rw [← Array.getElem?_toList, List.getElem?_eq_none_iff]
    exact List.drop_eq_nil_iff.mp h
  rw [nextByte, hchar]

theorem nextByte_of_unread_cons {c : Char} {others : List Char} (h : s.unread = c :: others) :
    s.nextByte = UInt8.ofNat c.toNat := by
  have hchar : s.input[s.cursor]? = some c := by
    rw [← Array.getElem?_toList, ← List.head?_drop, ← unread, h, List.head?_cons]
  rw [nextByte, hchar]

theorem unread_read {c : Char} {others : List Char} (h : s.unread = c :: others) :
    s.read.unread = others := by
  have hlt : s.cursor < s.input.size := by
    apply Nat.lt_of_not_le
    intro hle
    rw [unread, List.drop_eq_nil_of_le hle] at h
    cases h
  calc
    s.read.unread = s.input.toList.drop (s.cursor + 1) := by rw [unread, read, if_pos hlt]
    _ = s.unread.tail := by rw [unread, List.tail_drop]
    _ = others := by rw [h, List.tail_cons]

/-- The store `t` is what has become of the store `s` when the given characters were written and a
zero was read at last. Nothing but the current cell has changed on the tape, and the characters come
after those that were there. -/
structure Echoes (chars : List Char) (s t : Store) : Prop where
  tape_eq : t.tape = s.tape.write 0
  output_eq : t.output = s.output ++ String.ofList chars

theorem echoes_read_of_zero (hzero : s.nextByte = 0) : Echoes [] s s.read where
  tape_eq := by rw [← hzero, read]
  output_eq := by rw [String.ofList_nil, String.append_empty, read]

/-- One more character before the others. -/
theorem Echoes.cons {t : Store} {c : Char} {others chars : List Char}
    (hunread : s.unread = c :: others) (h : s.tape.head < s.tape.size)
    (echoes : Echoes chars s.read.print t) :
    Echoes (Char.ofNat (c.toNat % 256) :: chars) s t where
  tape_eq := by
    calc
      t.tape = (s.tape.write s.nextByte).write 0 := echoes.tape_eq
      _ = s.tape.write 0 := Tape.write_write _ _ _
  output_eq := by
    have hcell : s.read.tape.current = s.nextByte := Tape.current_write h _
    have hprint : s.read.print.output = s.output.push (Char.ofNat (c.toNat % 256)) := by
      rw [print, hcell, nextByte_of_unread_cons hunread, UInt8.toNat_ofNat', read]
    rw [echoes.output_eq, hprint, ← String.toList_inj]
    simp

end Store

namespace Shape

/-- The body of the loop: the current cell is written and the next character is read. -/
def echoPass : Shape :=
  commands [.output, .input] nil

def echoLoop : Shape :=
  loop echoPass nil

def echo : Shape :=
  commands [.input] echoLoop

theorem finishes_echoPass (s : Store) : echoPass.Finishes s 2 s.print.read :=
  .commands (.cons (fun _ ↦ rfl) (.cons (fun _ ↦ rfl) .nil)) (finishes_nil _)

theorem finishes_echoLoop_of_zero {s : Store} (h : s.tape.head < s.tape.size)
    (hzero : s.nextByte = 0) : echoLoop.Finishes s.read 1 s.read := by
  have hcell : s.read.tape.current = s.nextByte := Tape.current_write h _
  exact .skip (hcell.trans hzero) (finishes_nil _) echoPass

/-- From a read on, the loop writes what is to be written for the characters that were unread before
it, in three steps for each. -/
theorem exists_finishes_echoLoop {unread : List Char} {s : Store} (hunread : s.unread = unread)
    (h : s.tape.head < s.tape.size) :
    ∃ t, echoLoop.Finishes s.read (1 + 3 * (echoedChars unread).length) t ∧
      Store.Echoes (echoedChars unread) s t := by
  induction unread generalizing s with
  | nil =>
    have hzero : s.nextByte = 0 := Store.nextByte_of_unread_nil hunread
    exact ⟨s.read, finishes_echoLoop_of_zero h hzero, Store.echoes_read_of_zero hzero⟩
  | cons c others ih =>
    have hbyte := Store.nextByte_of_unread_cons hunread
    by_cases hdvd : 256 ∣ c.toNat
    · have hzero : s.nextByte = 0 := hbyte.trans (ofNat_eq_zero_iff.mpr hdvd)
      rw [echoedChars_of_dvd hdvd]
      exact ⟨s.read, finishes_echoLoop_of_zero h hzero, Store.echoes_read_of_zero hzero⟩
    · have hcell : s.read.tape.current = s.nextByte := Tape.current_write h _
      have hnonzero : s.read.tape.current ≠ 0 := by
        rw [hcell, hbyte]
        exact fun hzero ↦ hdvd (ofNat_eq_zero_iff.mp hzero)
      -- A pass ends with a read, so the induction goes on with the store before that read.
      have hnext : s.read.print.unread = others := Store.unread_read hunread
      have hsize : s.read.print.tape.head < s.read.print.tape.size := by
        change (s.tape.write s.nextByte).head < (s.tape.write s.nextByte).size
        rwa [Tape.head_write, Tape.size_write]
      obtain ⟨t, hloop, hechoes⟩ := ih hnext hsize
      refine ⟨t, ?_, ?_⟩
      · have hpasses := FinishesPasses.of_finishes_loop (finishes_echoPass s.read) hloop
        have hall := Finishes.enter hnonzero hpasses (finishes_nil t)
        have hsteps : 2 + (1 + 3 * (echoedChars others).length) + 1 + 0 =
            1 + 3 * (echoedChars (c :: others)).length := by
          rw [echoedChars_of_not_dvd hdvd, List.length_cons]
          omega
        rwa [hsteps] at hall
      · rw [echoedChars_of_not_dvd hdvd]
        exact hechoes.cons hunread h

theorem exists_finishes_echo (cells : CellCount) (input : String) :
    ∃ t, echo.Finishes (.fresh cells.value input) (2 + 3 * (echoed input).length) t ∧
      t.tape = .blank cells.value ∧ t.output = echoed input := by
  have hhead : (Tape.blank cells.value).head < (Tape.blank cells.value).size := by
    rw [Tape.head_blank, Tape.size_blank]
    exact cells.positive
  have hunread : (Store.fresh cells.value input).unread = input.toList := rfl
  obtain ⟨t, hloop, htape, houtput⟩ := exists_finishes_echoLoop hunread hhead
  refine ⟨t, ?_, ?_, ?_⟩
  · have hfirst : Store.Performs [.input] (.fresh cells.value input)
        (Store.fresh cells.value input).read := .cons (fun _ ↦ rfl) .nil
    have hall := Finishes.commands hfirst hloop
    have hsteps : [Command.input].length + (1 + 3 * (echoedChars input.toList).length) =
        2 + 3 * (echoed input).length := by
      rw [echoed, String.length_ofList, List.length_singleton]
      omega
    rwa [hsteps] at hall
  · exact htape.trans (Tape.write_zero_blank _)
  · exact houtput.trans (String.empty_append)

end Shape

namespace Machine

/-- On any tape the echo comes to the end of its program. What it writes for its input is the
output, the tape is left as it was at the beginning, and there are three steps for each character
and two more. An input of bytes other than zero comes back as it is. -/
theorem echo_run {program : Program} (written : program.render = ",[.,]") (cells : CellCount)
    (input : String) (j : Journal) :
    ∃ report, reportWithin? program cells input j none = some report ∧
      report.result = .ok (echoed input) ∧ report.machine.output = echoed input ∧
      report.machine.tape = .blank cells.value ∧
      report.machine.processed = 2 + 3 * (echoed input).length ∧
      ((∀ c ∈ input.toList, 1 ≤ c.toNat ∧ c.toNat ≤ 255) → report.result = .ok input) := by
  have hsymbols : program.symbols = Shape.echo.symbols := Program.symbols_eq_of_render_eq written
  obtain ⟨t, hfinishes, htape, houtput⟩ := Shape.exists_finishes_echo cells input
  obtain ⟨report, hreport, hresult, hstore, hprocessed⟩ :=
    exists_report_of_finishes hsymbols hfinishes j
  subst hstore
  rw [houtput] at hresult
  refine ⟨report, hreport, hresult, houtput, htape, hprocessed, fun hbytes ↦ ?_⟩
  rw [hresult, echoed, echoedChars_eq_self hbytes, String.ofList_toList]

/-- The third character ends the first echo, since its low byte is zero, and nothing ends the
second. -/
theorem echo_run_two_inputs :
    (Program.ofString ",[.,]").render = ",[.,]" ∧
    (∃ report, reportWithin? (.ofString ",[.,]") ⟨2, by decide⟩ "aš\u0200z" {} none = some report ∧
      report.result = .ok "aa" ∧ report.machine.tape = .blank 2 ∧
      report.machine.processed = 8) ∧
    (∀ c ∈ "é\u0001".toList, 1 ≤ c.toNat ∧ c.toNat ≤ 255) ∧
    ∃ report, reportWithin? (.ofString ",[.,]") ⟨1, by decide⟩ "é\u0001" {} none = some report ∧
      report.result = .ok "é\u0001" := by
  have written : (Program.ofString ",[.,]").render = ",[.,]" := rfl
  have hbytes : ∀ c ∈ "é\u0001".toList, 1 ≤ c.toNat ∧ c.toNat ≤ 255 := by simp
  have hechoed : echoed "aš\u0200z" = "aa" := by decide
  obtain ⟨first, hfirst, hresult, -, htape, hprocessed, -⟩ :=
    echo_run written ⟨2, by decide⟩ "aš\u0200z" {}
  obtain ⟨second, hsecond, -, -, -, -, hexact⟩ := echo_run written ⟨1, by decide⟩ "é\u0001" {}
  rw [hechoed] at hresult hprocessed
  exact ⟨written, ⟨first, hfirst, hresult, htape, hprocessed⟩, hbytes, second, hsecond,
    hexact hbytes⟩

end Machine

end Brainfuck
