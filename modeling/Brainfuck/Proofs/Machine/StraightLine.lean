import Brainfuck.Proofs.Bracket.OnePass
import Brainfuck.Proofs.Bracket.Partners
import Brainfuck.Proofs.Machine.Accounts
import Brainfuck.Proofs.Machine.StepLimit
import Mathlib.Order.Bounds.Defs

/-!
# Programs without brackets

A program without brackets executes its instructions once each, in the order of the text, so its run
can be told by counting. The head has moved as many cells from the first one as there were moves to
the right less those to the left. This tells which cell an instruction is about, and the value of a
cell is what the increments and decrements about it have made of the byte that was last read into
it. The run breaks off at the first instruction that would move the head off the tape, and it does
not fail in any other way.
-/

namespace Brainfuck

/-- No instruction of a program is a bracket. -/
def Program.StraightLine (p : Program) : Prop :=
  ∀ b, Symbol.bracket b ∉ p.symbols

def occurrences (c : Command) (is : List Instruction) : Nat :=
  is.countP (·.symbol = .command c)

/-- How many cells the head stands to the right of the first one after some instructions. -/
def displacement (is : List Instruction) : Int :=
  occurrences .moveRight is - occurrences .moveLeft is

/-- There is a cell that stands so far to the right of the first one. -/
def OnTape (cells : CellCount) (d : Int) : Prop :=
  0 ≤ d ∧ d < cells.value

instance (cells : CellCount) (d : Int) : Decidable (OnTape cells d) :=
  inferInstanceAs (Decidable (_ ∧ _))

/-- Neither the instructions of a program nor any first few of them lead off the tape. -/
def StaysOnTape (is : List Instruction) (cells : CellCount) : Prop :=
  ∀ n ≤ is.length, OnTape cells (displacement (is.take n))

instance (is : List Instruction) (cells : CellCount) : Decidable (StaysOnTape is cells) :=
  inferInstanceAs (Decidable (∀ n ≤ is.length, OnTape cells (displacement (is.take n))))

/-- The instruction at the position `k` carries a command, and the head is displaced by `d` when it
is reached. -/
def PerformedAt (is : List Instruction) (d : Int) (c : Command) (k : Nat) : Prop :=
  Bracket.symbolAt? is k = some (.command c) ∧ displacement (is.take k) = d

instance (is : List Instruction) (d : Int) (c : Command) (k : Nat) :
    Decidable (PerformedAt is d c k) :=
  inferInstanceAs (Decidable (_ ∧ _))

/-- How often a command is performed at a displacement from the position `start` on. -/
def timesFrom (start : Nat) (is : List Instruction) (d : Int) (c : Command) : Nat :=
  (List.range is.length).countP fun k ↦ start ≤ k ∧ PerformedAt is d c k

def lastRead? (is : List Instruction) (d : Int) : Option Nat :=
  ((List.range is.length).filter fun k ↦ PerformedAt is d .input k).getLast?

/-- The position after the last read at a displacement, or the beginning if there was none. -/
def countStart (is : List Instruction) (d : Int) : Nat :=
  (lastRead? is d).elim 0 (· + 1)

/-- The byte of the last read at a displacement, or zero if there was none. -/
def countBase (is : List Instruction) (input : String) (d : Int) : UInt8 :=
  (lastRead? is d).elim 0 fun k ↦ inputByte input (occurrences .input (is.take k))

/-- The value of the cell at a displacement after some instructions. -/
def cellValue (is : List Instruction) (input : String) (d : Int) : Int :=
  ((countBase is input d).toNat + timesFrom (countStart is d) is d .increment -
    timesFrom (countStart is d) is d .decrement) % 256

/-- How far a command moves the head to the right. -/
def Command.shift : Command → Int
  | moveRight => 1
  | moveLeft => -1
  | increment | decrement | output | input => 0

/-- What a command adds to the current cell, if it does not replace the value. -/
def Command.change : Command → Int
  | increment => 1
  | decrement => -1
  | moveRight | moveLeft | output | input => 0

theorem Program.StraightLine.exists_command {p : Program} (h : p.StraightLine) {i : Instruction}
    (hi : i ∈ p.toList) : ∃ c, i.symbol = .command c := by
  cases hsymbol : i.symbol with
  | command c => exact ⟨c, rfl⟩
  | bracket b => exact absurd (hsymbol ▸ List.mem_map_of_mem hi) (h b)

theorem balanced_of_commands {is : List Instruction} (h : ∀ i ∈ is, ∃ c, i.symbol = .command c) :
    Balanced is := by
  induction is with
  | nil => exact .nil
  | cons i is ih =>
    obtain ⟨hfirst, hrest⟩ := List.forall_mem_cons.mp h
    obtain ⟨c, hc⟩ := hfirst
    exact .command hc (ih hrest)

/-! ## One more instruction -/

section Append

variable {front : List Instruction} {i : Instruction} {c : Command}

theorem range_length_append (front : List Instruction) (i : Instruction) :
    List.range (front ++ [i]).length = List.range front.length ++ [front.length] := by
  rw [List.length_append, List.length_singleton, List.range_succ]

theorem occurrences_append (hi : i.symbol = .command c) (c' : Command) :
    occurrences c' (front ++ [i]) = occurrences c' front + if c = c' then 1 else 0 := by
  simp [occurrences, List.countP_append, List.countP_singleton, hi]

theorem displacement_append (hi : i.symbol = .command c) :
    displacement (front ++ [i]) = displacement front + c.shift := by
  unfold displacement
  rw [occurrences_append hi, occurrences_append hi]
  cases c <;> simp [Command.shift] <;> omega

theorem performedAt_append_of_lt {k : Nat} (hk : k < front.length) (d : Int) (c' : Command) :
    PerformedAt (front ++ [i]) d c' k ↔ PerformedAt front d c' k := by
  unfold PerformedAt
  rw [Bracket.symbolAt?_append_left hk, List.take_append_of_le_length (Nat.le_of_lt hk)]

theorem performedAt_append_length (hi : i.symbol = .command c) (d : Int) (c' : Command) :
    PerformedAt (front ++ [i]) d c' front.length ↔ displacement front = d ∧ c = c' := by
  unfold PerformedAt
  rw [Bracket.symbolAt?_first, List.take_left, hi, Option.some.injEq, Symbol.command.injEq,
    and_comm]

theorem timesFrom_append (hi : i.symbol = .command c) {start : Nat} (h : start ≤ front.length)
    (d : Int) (c' : Command) :
    timesFrom start (front ++ [i]) d c' =
      timesFrom start front d c' + if displacement front = d ∧ c = c' then 1 else 0 := by
  unfold timesFrom
  rw [range_length_append, List.countP_append, List.countP_singleton]
  congr 1
  · apply List.countP_congr
    intro k hk
    simp only [performedAt_append_of_lt (List.mem_range.mp hk)]
  · simp only [performedAt_append_length hi, h, true_and, decide_eq_true_eq]

theorem timesFrom_of_length_le {start : Nat} {is : List Instruction} (h : is.length ≤ start)
    (d : Int) (c : Command) : timesFrom start is d c = 0 := by
  unfold timesFrom
  rw [List.countP_eq_zero]
  intro k hk
  have hlt := List.mem_range.mp hk
  simp only [decide_eq_true_eq, not_and]
  omega

theorem lastRead?_lt {is : List Instruction} {d : Int} {k : Nat} (h : lastRead? is d = some k) :
    k < is.length :=
  List.mem_range.mp (List.mem_of_mem_filter (List.mem_of_getLast? h))

theorem countStart_le (is : List Instruction) (d : Int) : countStart is d ≤ is.length := by
  unfold countStart
  cases h : lastRead? is d with
  | none => exact Nat.zero_le _
  | some k => exact lastRead?_lt h

theorem lastRead?_append (hi : i.symbol = .command c) (d : Int) :
    lastRead? (front ++ [i]) d =
      if displacement front = d ∧ c = .input then some front.length else lastRead? front d := by
  have hfront : (List.range front.length).filter (fun k ↦ PerformedAt (front ++ [i]) d .input k) =
      (List.range front.length).filter fun k ↦ PerformedAt front d .input k := by
    apply List.filter_congr
    intro k hk
    simp only [performedAt_append_of_lt (List.mem_range.mp hk)]
  unfold lastRead?
  rw [range_length_append, List.filter_append, hfront]
  simp only [List.filter_cons, List.filter_nil, performedAt_append_length hi, decide_eq_true_eq]
  split
  · rw [List.getLast?_concat]
  · rw [List.append_nil]

/-- A read puts its byte in the place of what was there. -/
theorem cellValue_append_input (hi : i.symbol = .command .input) (input : String) :
    cellValue (front ++ [i]) input (displacement front) =
      (inputByte input (occurrences .input front)).toNat := by
  have hlast : lastRead? (front ++ [i]) (displacement front) = some front.length := by
    rw [lastRead?_append hi, if_pos ⟨rfl, rfl⟩]
  have hstart : (front ++ [i]).length ≤ countStart (front ++ [i]) (displacement front) := by
    rw [countStart, hlast, List.length_append]
    exact Nat.le_refl _
  have hbase : countBase (front ++ [i]) input (displacement front) =
      inputByte input (occurrences .input front) := by
    rw [countBase, hlast, Option.elim_some, List.take_left]
  rw [cellValue, hbase, timesFrom_of_length_le hstart, timesFrom_of_length_le hstart]
  have hlt := (inputByte input (occurrences .input front)).toNat_lt
  omega

/-- Any other command, and a read at another displacement, only adds. -/
theorem cellValue_append (hi : i.symbol = .command c) (input : String) {d : Int}
    (h : ¬(displacement front = d ∧ c = .input)) :
    cellValue (front ++ [i]) input d =
      (cellValue front input d + if displacement front = d then c.change else 0) % 256 := by
  have hlast : lastRead? (front ++ [i]) d = lastRead? front d := by
    rw [lastRead?_append hi, if_neg h]
  have hstart : countStart (front ++ [i]) d = countStart front d := by
    rw [countStart, countStart, hlast]
  have hbase : countBase (front ++ [i]) input d = countBase front input d := by
    unfold countBase
    rw [hlast]
    cases hk : lastRead? front d with
    | none => rfl
    | some k =>
      rw [Option.elim_some, Option.elim_some,
        List.take_append_of_le_length (Nat.le_of_lt (lastRead?_lt hk))]
  have htimes := timesFrom_append hi (countStart_le front d) d
  rw [cellValue, cellValue, hbase, hstart, htimes, htimes]
  by_cases hd : displacement front = d
  · simp only [hd, true_and, if_true]
    cases c <;> simp [Command.change] <;> omega
  · simp only [hd, false_and, if_false]
    omega

theorem StaysOnTape.displacement {is : List Instruction} {cells : CellCount}
    (h : StaysOnTape is cells) : OnTape cells (displacement is) := by
  have hall := h is.length (Nat.le_refl _)
  rwa [List.take_length] at hall

theorem staysOnTape_append {cells : CellCount} :
    StaysOnTape (front ++ [i]) cells ↔
      StaysOnTape front cells ∧ OnTape cells (displacement (front ++ [i])) := by
  have hlength : (front ++ [i]).length = front.length + 1 := List.length_append
  constructor
  · intro h
    refine ⟨fun n hn ↦ ?_, ?_⟩
    · have hprefix := h n (hlength ▸ Nat.le_succ_of_le hn)
      rwa [List.take_append_of_le_length hn] at hprefix
    · exact h.displacement
  · rintro ⟨hfront, hall⟩ n hn
    rcases Nat.lt_or_ge front.length n with hlt | hge
    · rwa [List.take_of_length_le (hlength ▸ hlt)]
    · rw [List.take_append_of_le_length hge]
      exact hfront n hge

theorem staysOnTape_nil (cells : CellCount) : StaysOnTape [] cells := by
  intro n _
  rw [List.take_nil]
  exact ⟨Int.le_refl _, Int.natCast_pos.mpr cells.positive⟩

/-- Instructions that lead off the tape have a first one that does. -/
theorem exists_first_off {is : List Instruction} {cells : CellCount} (h : ¬StaysOnTape is cells) :
    ∃ front i back, is = front ++ i :: back ∧ StaysOnTape front cells ∧
      ¬OnTape cells (displacement (front ++ [i])) := by
  induction is using List.reverseRecOn with
  | nil => exact absurd (staysOnTape_nil cells) h
  | append_singleton is i ih =>
    by_cases hbefore : StaysOnTape is cells
    · exact ⟨is, i, [], rfl, hbefore, fun hon ↦ h (staysOnTape_append.mpr ⟨hbefore, hon⟩)⟩
    · obtain ⟨front, j, back, rfl, hfront, hoff⟩ := ih hbefore
      exact ⟨front, j, back ++ [i], List.append_assoc _ _ _, hfront, hoff⟩

theorem isLeast_off {is back : List Instruction} {cells : CellCount}
    (split : is = front ++ i :: back) (stays : StaysOnTape front cells)
    (off : ¬OnTape cells (displacement (front ++ [i]))) :
    IsLeast {n | n ≤ is.length ∧ ¬OnTape cells (displacement (is.take n))} (front.length + 1) := by
  subst split
  refine ⟨⟨?_, ?_⟩, ?_⟩
  · rw [List.length_append, List.length_cons]
    omega
  · rwa [List.take_length_add_append]
  · rintro n ⟨-, hn⟩
    by_contra hlt
    have hle : n ≤ front.length := by omega
    rw [List.take_append_of_le_length hle] at hn
    exact hn (stays n hle)

end Append

/-! ## One more command -/

theorem Tape.getD_write (t : Tape) (value : UInt8) {p : Nat} (hp : p < t.size) :
    (t.write value).cells.getD p 0 = if t.head = p then value else t.cells.getD p 0 := by
  have hp : p < t.cells.size := hp
  simp only [write, Array.getD_eq_getD_getElem?, Array.getElem?_setIfInBounds]
  by_cases h : t.head = p
  · rw [if_pos h, if_pos (h ▸ hp), if_pos h, Option.getD_some]
  · rw [if_neg h, if_neg h]

/-- A read puts the next byte into the current cell. -/
theorem Store.getD_perform_input (s : Store) {p : Nat} (hp : p < s.tape.size) :
    (s.perform .input).tape.cells.getD p 0 =
      if s.tape.head = p then s.nextByte else s.tape.cells.getD p 0 :=
  s.tape.getD_write s.nextByte hp

/-- Any other command, and a read into another cell, only adds. -/
theorem Store.getD_perform (s : Store) {c : Command} {p : Nat} (hp : p < s.tape.size)
    (h : ¬(s.tape.head = p ∧ c = .input)) :
    (((s.perform c).tape.cells.getD p 0).toNat : Int) =
      ((s.tape.cells.getD p 0).toNat + if s.tape.head = p then c.change else 0) % 256 := by
  have hlt := (s.tape.cells.getD p 0).toNat_lt
  have hkeep : ((s.tape.cells.getD p 0).toNat : Int) =
      ((s.tape.cells.getD p 0).toNat + if s.tape.head = p then 0 else 0) % 256 := by
    rw [ite_self]
    omega
  cases c with
  | input =>
    have hne : s.tape.head ≠ p := fun hp ↦ h ⟨hp, rfl⟩
    rw [getD_perform_input s hp, if_neg hne]
    exact hkeep
  | moveRight => exact hkeep
  | moveLeft => exact hkeep
  | output => exact hkeep
  | increment =>
    rw [perform, Tape.getD_write _ _ hp]
    by_cases hcell : s.tape.head = p
    · rw [if_pos hcell, if_pos hcell, Tape.current, hcell, UInt8.toNat_add]
      rfl
    · rw [if_neg hcell, if_neg hcell]
      omega
  | decrement =>
    rw [perform, Tape.getD_write _ _ hp]
    by_cases hcell : s.tape.head = p
    · rw [if_pos hcell, if_pos hcell, Tape.current, hcell, UInt8.toNat_sub, UInt8.toNat_one,
        Command.change]
      omega
    · rw [if_neg hcell, if_neg hcell]
      omega

/-- A command that does not fail moves the head by its shift. -/
theorem Store.head_perform {s : Store} {c : Command} {i : Instruction}
    (allowed : s.fault? c i = none) :
    ((s.perform c).tape.head : Int) = s.tape.head + c.shift := by
  cases c with
  | moveRight => rfl
  | moveLeft =>
    have hne := (fault?_eq_none_iff.mp allowed).2 rfl
    simp only [perform, Tape.head_moveLeft, Command.shift]
    omega
  | increment => exact (Int.add_zero _).symm
  | decrement => exact (Int.add_zero _).symm
  | output => exact (Int.add_zero _).symm
  | input => exact (Int.add_zero _).symm

/-- A command fails if it would move the head off the tape, and only then. -/
theorem Store.fault?_eq_none_iff_onTape {s : Store} {cells : CellCount}
    (hsize : s.tape.size = cells.value) (hhead : s.tape.head < s.tape.size) (c : Command)
    (i : Instruction) : s.fault? c i = none ↔ OnTape cells (s.tape.head + c.shift) := by
  rw [fault?_eq_none_iff]
  unfold OnTape
  cases c <;>
    simp only [Command.shift, reduceCtorEq, forall_const, false_implies, and_true, true_and,
      true_iff] <;> omega

/-- A command that fails would lead to one cell before the first or to one behind the last. -/
theorem Store.fault?_off {s : Store} {c : Command} {cells : CellCount} {i : Instruction}
    {fault : Fault} (hsize : s.tape.size = cells.value) (hhead : s.tape.head < s.tape.size)
    (refused : s.fault? c i = some fault) :
    (s.tape.head + c.shift = -1 ∧ fault = .pointerTooLow i) ∨
      (s.tape.head + c.shift = cells.value ∧ fault = .pointerTooHigh cells.value i) := by
  rcases fault?_eq_some_iff.mp refused with ⟨rfl, hend, rfl⟩ | ⟨rfl, hzero, rfl⟩
  · have hlast : s.tape.head + 1 = cells.value := by omega
    exact .inr ⟨congrArg Nat.cast hlast, by rw [hlast]⟩
  · rw [hzero]
    exact .inl ⟨rfl, rfl⟩

/-! ## What counting tells -/

namespace Machine

/-- What counting tells of a machine that has executed some instructions without brackets, each of
them once: the head has been moved by all of them, and every cell has the value that they have
made. -/
structure Counted (front : List Instruction) (cells : CellCount) (input : String) (m : Machine) :
    Prop where
  config_eq : m.config = ⟨cells, none⟩
  processed_eq : m.processed = front.length
  position_eq : m.position = front.length
  head_eq : (m.tape.head : Int) = displacement front
  size_eq : m.tape.size = cells.value
  cell_eq : ∀ p < cells.value,
    ((m.tape.cells.getD p 0).toNat : Int) = cellValue front input p

def plainActions (is : List Instruction) : List Action :=
  is.map (⟨·, none⟩)

theorem reads_plainActions (is : List Instruction) :
    reads (plainActions is) = occurrences .input is :=
  List.countP_map

theorem counted_fresh (cells : CellCount) (input : String) :
    Counted [] cells input (fresh ⟨cells, none⟩ input) where
  config_eq := rfl
  processed_eq := rfl
  position_eq := rfl
  head_eq := rfl
  size_eq := Tape.size_blank _
  cell_eq p hp := by
    have hblank : (fresh ⟨cells, none⟩ input).tape.cells.getD p 0 = 0 := by
      simp [fresh, tape, Store.fresh, Tape.blank, hp]
    rw [hblank]
    rfl

variable {front back : List Instruction} {cells : CellCount} {input : String} {m : Machine}
  {i : Instruction} {c : Command}

/-- One more command is counted as well. -/
theorem Counted.perform (h : Counted front cells input m)
    (hbyte : m.store.nextByte = inputByte input (occurrences .input front))
    (hi : i.symbol = .command c) (allowed : m.store.fault? c i = none) :
    Counted (front ++ [i]) cells input (m.perform c) where
  config_eq := h.config_eq
  processed_eq := by
    rw [List.length_append, ← h.processed_eq]
    rfl
  position_eq := by
    rw [List.length_append, ← h.position_eq]
    rfl
  head_eq := by
    rw [displacement_append hi, ← h.head_eq]
    exact Store.head_perform allowed
  size_eq := (m.store.size_perform c).trans h.size_eq
  cell_eq p hp := by
    have hsize : p < m.store.tape.size := h.size_eq ▸ hp
    have hhead : m.store.tape.head = p ↔ displacement front = p := by
      rw [← h.head_eq]
      exact Int.ofNat_inj.symm
    by_cases hread : displacement front = p ∧ c = .input
    · obtain ⟨hd, rfl⟩ := hread
      have hcell : (m.perform .input).tape.cells.getD p 0 = m.store.nextByte :=
        (m.store.getD_perform_input hsize).trans (if_pos (hhead.mpr hd))
      rw [hcell, hbyte, ← hd, cellValue_append_input hi]
    · have hcell := m.store.getD_perform hsize (c := c) (by rwa [hhead])
      rw [cellValue_append hi input hread, ← h.cell_eq p hp]
      simp only [hhead] at hcell
      exact hcell

theorem Counted.running (h : Counted front cells input m) : m.exhausted? = none :=
  exhausted?_of_unlimited (congrArg Config.stepLimit h.config_eq)

theorem Counted.fetched {program : Program} (h : Counted front cells input m)
    (split : program.toList = front ++ i :: back) :
    program.instructions[m.position]? = some i := by
  rw [h.position_eq]
  exact Program.fetched_of_split split

theorem Counted.head_lt (h : Counted front cells input m) (stays : StaysOnTape front cells) :
    m.tape.head < m.tape.size := by
  have hon := stays.displacement
  rw [← h.head_eq] at hon
  rw [h.size_eq]
  exact Int.ofNat_lt.mp hon.2

/-- Whether the next command fails can be told from the displacement it would lead to. -/
theorem Counted.fault?_eq_none_iff (h : Counted front cells input m)
    (stays : StaysOnTape front cells) (hi : i.symbol = .command c) :
    m.store.fault? c i = none ↔ OnTape cells (displacement (front ++ [i])) := by
  rw [displacement_append hi, ← h.head_eq]
  exact Store.fault?_eq_none_iff_onTape h.size_eq (h.head_lt stays) c i

/-! ## Runs -/

section Run

variable {program : Program} {table : JumpTable}

/-- As long as the head stays on the tape, the instructions are executed and counted. -/
theorem exists_counted (input : String)
    (accepted : JumpTable.ofInstructions program.toList = .ok table)
    (split : program.toList = front ++ back)
    (commands : ∀ i ∈ front, ∃ c, i.symbol = .command c)
    (stays : StaysOnTape front cells) :
    ∃ mid, Steps (.indexed program table) (plainActions front) (fresh ⟨cells, none⟩ input) mid ∧
      Counted front cells input mid := by
  -- The induction is on the last instruction, since counting looks back to the beginning.
  induction front using List.reverseRecOn generalizing back with
  | nil => exact ⟨_, .refl, counted_fresh cells input⟩
  | append_singleton front i ih =>
    obtain ⟨hbefore, hon⟩ := staysOnTape_append.mp stays
    rw [List.append_assoc] at split
    obtain ⟨mid, steps, counted⟩ :=
      ih split (fun i hi ↦ commands i (List.mem_append_left _ hi)) hbefore
    obtain ⟨c, hi⟩ := commands i (List.mem_append_right _ (List.mem_singleton.mpr rfl))
    have visits : Visits program ((new ⟨cells, none⟩).rewind input) (plainActions front) mid :=
      .after accepted steps
    have hbyte := visits.nextByte_eq
    rw [reads_plainActions] at hbyte
    have allowed := (counted.fault?_eq_none_iff hbefore hi).mpr hon
    have first : mid.Executes (.indexed program table) ⟨i, none⟩ (mid.perform c) :=
      .command (counted.fetched split) counted.running hi allowed
    have hactions : plainActions (front ++ [i]) = plainActions front ++ [⟨i, none⟩] :=
      List.map_append
    rw [hactions]
    exact ⟨_, steps.trans (.cons first.turn_eq .refl), counted.perform hbyte hi allowed⟩

/-- Instructions that keep the head on the tape are a good run. -/
theorem exists_ends_of_staysOnTape (input : String)
    (accepted : JumpTable.ofInstructions program.toList = .ok table)
    (commands : ∀ i ∈ program.toList, ∃ c, i.symbol = .command c)
    (stays : StaysOnTape program.toList cells) :
    ∃ mid, Ends (.indexed program table) (plainActions program.toList)
        (fresh ⟨cells, none⟩ input) ⟨.ok mid.output, mid⟩ ∧
      Counted program.toList cells input mid := by
  obtain ⟨mid, steps, counted⟩ :=
    exists_counted input accepted (List.append_nil _).symm commands stays
  have hend : program.instructions[mid.position]? = none := by
    rw [counted.position_eq, Program.length_toList]
    exact Array.getElem?_eq_none (Nat.le_refl _)
  exact ⟨mid, steps.ends_ok hend, counted⟩

/-- The first instruction that leads off the tape is not executed and ends the run. -/
theorem exists_ends_of_off (input : String)
    (accepted : JumpTable.ofInstructions program.toList = .ok table)
    (split : program.toList = front ++ i :: back)
    (commands : ∀ i ∈ program.toList, ∃ c, i.symbol = .command c)
    (stays : StaysOnTape front cells) (off : ¬OnTape cells (displacement (front ++ [i]))) :
    ∃ mid fault, Ends (.indexed program table) (plainActions front)
        (fresh ⟨cells, none⟩ input) ⟨.error fault, mid⟩ ∧
      Counted front cells input mid ∧
      ((displacement (front ++ [i]) = -1 ∧ fault = .pointerTooLow i) ∨
        (displacement (front ++ [i]) = cells.value ∧
          fault = .pointerTooHigh cells.value i)) := by
  rw [split] at commands
  obtain ⟨mid, steps, counted⟩ :=
    exists_counted input accepted split (fun i hi ↦ commands i (List.mem_append_left _ hi)) stays
  obtain ⟨c, hi⟩ := commands i (List.mem_append_right _ List.mem_cons_self)
  obtain ⟨fault, refused⟩ := Option.ne_none_iff_exists'.mp fun hnone ↦
    off ((counted.fault?_eq_none_iff stays hi).mp hnone)
  have fails : mid.Fails (.indexed program table) fault :=
    .command (counted.fetched split) counted.running hi refused
  rw [displacement_append hi, ← counted.head_eq]
  exact ⟨mid, fault, steps.ends_error fails, counted,
    Store.fault?_off counted.size_eq (counted.head_lt stays) refused⟩

end Run

/-- A program without brackets that keeps its head on the tape runs to its end, and otherwise it
breaks off at the first instruction that leads off the tape. In both cases the machine is what
counting tells. -/
theorem straightLine_run {program : Program} (straight : program.StraightLine) (cells : CellCount)
    (input : String) (j : Journal) :
    (StaysOnTape program.toList cells →
      ∃ report, reportWithin? program cells input j none = some report ∧
        report.result = .ok report.machine.output ∧
        Counted program.toList cells input report.machine) ∧
    (¬StaysOnTape program.toList cells →
      ∃ n i report,
        IsLeast {n | n ≤ program.toList.length ∧
          ¬OnTape cells (displacement (program.toList.take n))} (n + 1) ∧
        program.toList[n]? = some i ∧
        reportWithin? program cells input j none = some report ∧
        report.machine.processed = n ∧
        Counted (program.toList.take n) cells input report.machine ∧
        ((displacement (program.toList.take (n + 1)) = -1 ∧
            report.result = .error (.pointerTooLow i)) ∨
          (displacement (program.toList.take (n + 1)) = cells.value ∧
            report.result = .error (.pointerTooHigh cells.value i)))) := by
  have commands : ∀ i ∈ program.toList, ∃ c, i.symbol = .command c :=
    fun _ ↦ straight.exists_command
  obtain ⟨table, accepted⟩ :=
    JumpTable.exists_ofInstructions_of_balanced (balanced_of_commands commands)
  constructor
  · intro stays
    obtain ⟨mid, hends, counted⟩ := exists_ends_of_staysOnTape input accepted commands stays
    exact ⟨_, (reportWithin?_of_accepted accepted).mpr ⟨_, hends⟩, rfl, counted⟩
  · intro leaves
    obtain ⟨front, i, back, split, stays, off⟩ := exists_first_off leaves
    obtain ⟨mid, fault, hends, counted, hfault⟩ :=
      exists_ends_of_off input accepted split commands stays off
    have hfront : program.toList.take front.length = front := by
      rw [split, List.take_left]
    have hnext : program.toList.take (front.length + 1) = front ++ [i] := by
      rw [split, List.take_length_add_append]
      rfl
    have hget : program.toList[front.length]? = some i :=
      (Array.getElem?_toList ..).trans (Program.fetched_of_split split)
    refine ⟨front.length, i, _, isLeast_off split stays off, hget,
      (reportWithin?_of_accepted accepted).mpr ⟨_, hends⟩, counted.processed_eq,
      hfront.symm ▸ counted, ?_⟩
    rw [hnext]
    rcases hfault with ⟨hlow, rfl⟩ | ⟨hhigh, rfl⟩
    · exact .inl ⟨hlow, rfl⟩
    · exact .inr ⟨hhigh, rfl⟩

/-- On two cells, a read replaces what was counted before it and the other cell wraps around; on one
cell the run of the same program breaks off at the first move. -/
theorem straightLine_run_wraps_or_breaks :
    (Program.ofString "+>+,+<--").StraightLine ∧
    StaysOnTape (Program.ofString "+>+,+<--").toList ⟨2, by decide⟩ ∧
    ¬StaysOnTape (Program.ofString "+>+,+<--").toList ⟨1, by decide⟩ ∧
    (∃ report, reportWithin? (.ofString "+>+,+<--") ⟨2, by decide⟩ "a" {} none = some report ∧
      report.machine.processed = 8 ∧ (report.machine.tape.head : Int) = 0 ∧
      ((report.machine.tape.cells.getD 0 0).toNat : Int) = 255 ∧
      ((report.machine.tape.cells.getD 1 0).toNat : Int) = 98) ∧
    ∃ report, reportWithin? (.ofString "+>+,+<--") ⟨1, by decide⟩ "a" {} none = some report ∧
      report.machine.processed = 1 ∧
      report.result = .error (.pointerTooHigh 1 ⟨⟨1, 2, 1⟩, .command .moveRight⟩) := by
  have straight : (Program.ofString "+>+,+<--").StraightLine := by
    rintro (_ | _)
    · decide
    · decide
  have stays : StaysOnTape (Program.ofString "+>+,+<--").toList ⟨2, by decide⟩ := by
    decide
  have leaves : ¬StaysOnTape (Program.ofString "+>+,+<--").toList ⟨1, by decide⟩ := by
    decide
  refine ⟨straight, stays, leaves, ?_, ?_⟩
  · obtain ⟨report, hreport, -, counted⟩ :=
      (straightLine_run straight ⟨2, by decide⟩ "a" {}).1 stays
    refine ⟨report, hreport, counted.processed_eq, counted.head_eq.trans ?_,
      (counted.cell_eq 0 (by decide)).trans ?_, (counted.cell_eq 1 (by decide)).trans ?_⟩
    · decide
    · decide
    · decide
  · obtain ⟨n, i, report, least, fetched, hreport, hprocessed, -, hfault⟩ :=
      (straightLine_run straight ⟨1, by decide⟩ "a" {}).2 leaves
    have hle : n + 1 ≤ 2 := least.2 (by decide)
    have hne : n ≠ 0 := by
      rintro rfl
      exact absurd least.1 (by decide)
    obtain rfl : n = 1 := by omega
    cases fetched
    rcases hfault with ⟨hlow, -⟩ | ⟨-, hhigh⟩
    · exact absurd hlow (by decide)
    · exact ⟨report, hreport, hprocessed, hhigh⟩

end Machine

end Brainfuck
