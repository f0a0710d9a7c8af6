import Brainfuck.Proofs.Machine.Lockstep

/-!
# What a run learns of its input

A run sees its input through the bytes it reads, and sees no more of it than that. Beyond the last
character every read gives zero, so an input is as good as an endless sequence of bytes, and what
counts is how often a run has read, not where its cursor is: two machines that have read equally
often may have different cursors, one at the end of its input and one not. As long as the bytes read
are the same on two inputs, so are the runs, and they end with the same result, tape and output.
-/

namespace Brainfuck

/-- The byte that a read takes from a position of an input: the low byte of the character there, or
zero if there is none. -/
def inputByte (input : String) (n : Nat) : UInt8 :=
  (input.toList[n]?.map fun c ↦ c.toNat.toUInt8).getD 0

def reads (actions : List Action) : Nat :=
  actions.countP (·.instruction.symbol = .command .input)

theorem reads_append (as bs : List Action) : reads (as ++ bs) = reads as + reads bs :=
  List.countP_append

theorem reads_cons (action : Action) (actions : List Action) :
    reads (action :: actions) = reads [action] + reads actions :=
  reads_append [action] actions

/-- What a run shows when it is over. The output is there also after a fault. -/
structure View where
  result : Except Fault String
  tape : Tape
  output : String
  processed : Nat

def Report.view (report : Report) : View where
  result := report.result
  tape := report.machine.tape
  output := report.machine.output
  processed := report.machine.processed

namespace Machine

/-- A machine on another input, of which it has tried to read the given number of characters. -/
def reading (m : Machine) (input : String) (count : Nat) : Machine :=
  { m with
    store := {
      m.store with
      input := input.toList.toArray
      cursor := min count input.toList.length } }

def accept (m : Machine) (byte : UInt8) : Machine :=
  { m with
    store := { m.store with tape := m.store.tape.write byte }
    position := m.position + 1
    processed := m.processed + 1 }

theorem reading_fresh (config : Config) (a b : String) :
    (fresh config a).reading b 0 = fresh config b := by
  simp only [reading, fresh, Store.fresh, Nat.zero_min]

/-- The next byte depends on the number of reads alone. -/
theorem nextByte_reading (m : Machine) (input : String) (count : Nat) :
    (m.reading input count).store.nextByte = inputByte input count := by
  have hchar : input.toList.toArray[min count input.toList.length]? = input.toList[count]? := by
    rw [List.getElem?_toArray]
    rcases Nat.lt_or_ge count input.toList.length with hlt | hge
    · rw [Nat.min_eq_left (Nat.le_of_lt hlt)]
    · rw [Nat.min_eq_right hge, List.getElem?_eq_none hge, List.getElem?_eq_none (Nat.le_refl _)]
  simp only [reading, Store.nextByte, inputByte, hchar]
  cases input.toList[count]? <;> rfl

theorem perform_input_reading (m : Machine) (input : String) (count : Nat) :
    (m.reading input count).perform .input =
      (m.accept (inputByte input count)).reading input (count + 1) := by
  have hcursor : (if min count input.toList.length < input.toList.length then
      min count input.toList.length + 1 else min count input.toList.length) =
        min (count + 1) input.toList.length := by
    split <;> omega
  rw [← nextByte_reading m]
  simp only [perform, Store.perform, Store.read]
  simp only [reading, accept, List.size_toArray, hcursor]

theorem perform_reading {c : Command} (hc : c ≠ .input) (m : Machine) (input : String)
    (count : Nat) : (m.reading input count).perform c = (m.perform c).reading input count := by
  cases c with
  | input => exact absurd rfl hc
  | moveRight => rfl
  | moveLeft => rfl
  | increment => rfl
  | decrement => rfl
  | output => rfl

theorem fault?_reading (m : Machine) (input : String) (count : Nat) (c : Command)
    (i : Instruction) : (m.reading input count).store.fault? c i = m.store.fault? c i := by
  cases c <;> rfl

/-! ## The same instructions on another input -/

theorem Executes.reading {m next : Machine} {code : Code} {action : Action} {a b : String}
    {count : Nat} (h : (m.reading a count).Executes code action next)
    (agree : 0 < reads [action] → inputByte a count = inputByte b count) :
    ∃ last : Machine, next = last.reading a (count + reads [action]) ∧
      (m.reading b count).Executes code action (last.reading b (count + reads [action])) := by
  cases h with
  | @command i c fetched running isCommand allowed =>
    rw [fault?_reading] at allowed
    have hexecutes : (m.reading b count).Executes code ⟨i, none⟩ ((m.reading b count).perform c) :=
      .command fetched running isCommand ((fault?_reading ..).trans allowed)
    -- Only a read looks at the input, and it is the only command to move the cursor.
    by_cases hc : c = .input
    · subst hc
      have hreads : reads [⟨i, none⟩] = 1 := by simp [reads, isCommand]
      have hbyte := agree (hreads ▸ Nat.zero_lt_one)
      rw [perform_input_reading, ← hbyte] at hexecutes
      rw [perform_input_reading, hreads]
      exact ⟨_, rfl, hexecutes⟩
    · have hreads : reads [⟨i, none⟩] = 0 := by simp [reads, isCommand, hc]
      rw [perform_reading hc] at hexecutes
      rw [perform_reading hc, hreads]
      exact ⟨_, rfl, hexecutes⟩
  | @pass i b' fetched running isBracket stays =>
    have hreads : reads [⟨i, none⟩] = 0 := by simp [reads, isBracket]
    rw [hreads]
    exact ⟨m.completeAt m.position, rfl, .pass fetched running isBracket stays⟩
  | @jump i b' target fetched running isBracket jumps partner =>
    have hreads : reads [⟨i, some target⟩] = 0 := by simp [reads, isBracket]
    rw [hreads]
    exact ⟨m.completeAt target, rfl, .jump fetched running isBracket jumps partner⟩

theorem Fails.reading {m : Machine} {code : Code} {fault : Fault} {a : String} {count : Nat}
    (h : (m.reading a count).Fails code fault) (b : String) :
    (m.reading b count).Fails code fault := by
  cases h with
  | limit fetched exhausted => exact .limit fetched exhausted
  | command fetched running isCommand refused =>
    rw [fault?_reading] at refused
    exact .command fetched running isCommand ((fault?_reading ..).trans refused)
  | jump fetched running isBracket jumps unpaired =>
    exact .jump fetched running isBracket jumps unpaired

/-- A machine that has read `count` times reads the same bytes on two inputs from now on. -/
def SameBytes (code : Code) (a b : String) (count : Nat) (m : Machine) : Prop :=
  ∀ actions last, Steps code actions m last →
    ∀ n < reads actions, inputByte a (count + n) = inputByte b (count + n)

/-- The first of the bytes is the one that the next instruction reads, if it reads. -/
theorem SameBytes.first {code : Code} {a b : String} {count : Nat} {m next : Machine}
    {action : Action} (h : SameBytes code a b count m) (first : m.Executes code action next)
    (hreads : 0 < reads [action]) : inputByte a count = inputByte b count :=
  h [action] next (.cons first.turn_eq .refl) 0 hreads

theorem SameBytes.next {code : Code} {a b : String} {count : Nat} {m next : Machine}
    {action : Action} (h : SameBytes code a b count m) (first : m.Executes code action next) :
    SameBytes code a b (count + reads [action]) next := by
  intro actions last steps n hn
  have hlt : reads [action] + n < reads (action :: actions) := by
    rw [reads_cons action actions]
    exact Nat.add_lt_add_left hn _
  rw [Nat.add_assoc]
  exact h (action :: actions) last (.cons first.turn_eq steps) _ hlt

/-- Two machines that differ in their inputs alone have read equally often, and will read the same
bytes. -/
def Alike (code : Code) (a b : String) (m m' : Machine) : Prop :=
  ∃ (x : Machine) (count : Nat), m = x.reading a count ∧ m' = x.reading b count ∧
    SameBytes code a b count m

theorem follows_alike (code : Code) (a b : String) :
    Follows code code id (Alike code a b) where
  executes := by
    rintro _ _ next action ⟨x, count, rfl, rfl, same⟩ first
    obtain ⟨last, hlast, first'⟩ := first.reading (same.first first)
    exact ⟨_, first', last, count + reads [action], hlast, rfl, same.next first⟩

theorem lockstep_alike (code : Code) (a b : String) :
    Lockstep code code id (Alike code a b) Report.view Report.view where
  toFollows := follows_alike code a b
  fails := by
    rintro _ _ fault ⟨x, count, rfl, rfl, -⟩ hfails
    exact ⟨fault, hfails.reading b, rfl⟩
  finishes := by
    rintro _ _ ⟨x, count, rfl, rfl, -⟩ hnone
    exact ⟨hnone, rfl⟩

/-! ## Inputs that a program cannot tell apart -/

/-- Runs of a program on two inputs show the same, or both never end. -/
def Indistinguishable (config : Config) (program : Program) (a b : String) : Prop :=
  ∀ j j', ((new config).report? program a j).map Report.view =
    ((new config).report? program b j').map Report.view

/-- A run reads no more than `k` times, however long it is. -/
def ReadsWithin (config : Config) (program : Program) (input : String) (k : Nat) : Prop :=
  ∀ table, JumpTable.ofInstructions program.toList = .ok table →
    ∀ actions last, Steps (.indexed program table) actions (fresh config input) last →
      reads actions ≤ k

/-- A run that has ended reads no more than it has read. -/
theorem ReadsWithin.of_ends {config : Config} {program : Program} {input : String}
    {table : JumpTable} {actions : List Action} {report : Report}
    (accepted : JumpTable.ofInstructions program.toList = .ok table)
    (hends : Ends (.indexed program table) actions (fresh config input) report) :
    ReadsWithin config program input (reads actions) := by
  intro table' accepted' before last steps
  cases accepted.symm.trans accepted'
  obtain ⟨others, rfl, -⟩ := hends.exists_of_steps steps
  rw [reads_append]
  exact Nat.le_add_right _ _

section Inputs

variable {config : Config} {program : Program} {a b : String}

theorem indistinguishable_of_sameBytes
    (same : ∀ table, JumpTable.ofInstructions program.toList = .ok table →
      SameBytes (.indexed program table) a b 0 (fresh config a)) :
    Indistinguishable config program a b := by
  intro j j'
  cases htable : JumpTable.ofInstructions program.toList with
  | error u =>
    rw [report?_of_rejected htable, report?_of_rejected htable]
    rfl
  | ok table =>
    have halike : Alike (.indexed program table) a b ((new config).rewind a)
        ((new config).rewind b) :=
      ⟨fresh config a, 0, (reading_fresh config a a).symm, (reading_fresh config a b).symm,
        same table htable⟩
    exact (lockstep_alike _ a b).report?_map htable htable halike j j'

theorem indistinguishable_of_readsWithin {k : Nat} (hreads : ReadsWithin config program a k)
    (agree : ∀ n < k, inputByte a n = inputByte b n) : Indistinguishable config program a b := by
  apply indistinguishable_of_sameBytes
  intro table accepted actions last steps n hn
  rw [Nat.zero_add]
  exact agree n (Nat.lt_of_lt_of_le hn (hreads table accepted actions last steps))

theorem indistinguishable_of_inputByte_eq (agree : ∀ n, inputByte a n = inputByte b n) :
    Indistinguishable config program a b :=
  indistinguishable_of_sameBytes fun _ _ _ _ _ n _ ↦ agree (0 + n)

end Inputs

theorem toUInt8_eq_of_mod_eq {n n' : Nat} (h : n % 256 = n' % 256) : n.toUInt8 = n'.toUInt8 :=
  UInt8.toNat_inj.mp h

/-- A byte is read off the remainder of a code point modulo 256. -/
theorem inputByte_eq_of_map_eq {a b : String}
    (h : (a.toList.map fun c ↦ c.toNat % 256) = b.toList.map fun c ↦ c.toNat % 256) (n : Nat) :
    inputByte a n = inputByte b n := by
  have hn := congrArg (·[n]?) h
  simp only [List.getElem?_map] at hn
  unfold inputByte
  cases ha : a.toList[n]? with
  | none =>
    rw [ha, Option.map_none, eq_comm, Option.map_eq_none_iff] at hn
    rw [hn]
  | some c =>
    rw [ha, Option.map_some, eq_comm, Option.map_eq_some_iff] at hn
    obtain ⟨c', hb, hc⟩ := hn
    rw [hb, Option.map_some, Option.map_some, Option.getD_some, Option.getD_some]
    exact toUInt8_eq_of_mod_eq hc.symm

theorem inputByte_append_of_lt {input : String} {n : Nat} (hn : n < input.toList.length)
    (suffix : String) : inputByte (input ++ suffix) n = inputByte input n := by
  rw [inputByte, inputByte, String.toList_append, List.getElem?_append_left hn]

/-- A character that reads as zero is as good as none. -/
theorem inputByte_push {c : Char} (hc : c.toNat % 256 = 0) (input : String) (n : Nat) :
    inputByte (input.push c) n = inputByte input n := by
  rw [inputByte, inputByte, String.toList_push]
  rcases Nat.lt_trichotomy n input.toList.length with hlt | rfl | hgt
  · rw [List.getElem?_append_left hlt]
  · rw [List.getElem?_concat_length, List.getElem?_eq_none (Nat.le_refl _)]
    exact toUInt8_eq_of_mod_eq hc
  · rw [List.getElem?_eq_none (Nat.le_of_lt hgt), List.getElem?_eq_none]
    rwa [List.length_append, List.length_singleton]

/-- A run depends on its input through the bytes it reads. Two inputs with the same bytes up to the
number of reads of a run are not told apart by it. So it makes no difference to exchange characters
for others with the same low byte, to add text that is not read, or to add a character whose low
byte is zero. -/
theorem depends_on_bytes_read (config : Config) (program : Program) (a b : String) :
    (∀ k, ReadsWithin config program a k → (∀ n < k, inputByte a n = inputByte b n) →
      Indistinguishable config program a b) ∧
    ((a.toList.map fun c ↦ c.toNat % 256) = (b.toList.map fun c ↦ c.toNat % 256) →
      Indistinguishable config program a b) ∧
    (∀ suffix, ReadsWithin config program a a.toList.length →
      Indistinguishable config program a (a ++ suffix)) ∧
    ∀ c : Char, c.toNat % 256 = 0 → Indistinguishable config program a (a.push c) := by
  refine ⟨fun k ↦ indistinguishable_of_readsWithin, ?_, ?_, ?_⟩
  · intro hmod
    exact indistinguishable_of_inputByte_eq (inputByte_eq_of_map_eq hmod)
  · intro suffix hreads
    exact indistinguishable_of_readsWithin hreads
      fun n hn ↦ (inputByte_append_of_lt hn suffix).symm
  · intro c hc
    exact indistinguishable_of_inputByte_eq fun n ↦ (inputByte_push hc a n).symm

/-- A program that reads once sees of the letter š the byte of the letter a, and of the text after
it nothing. -/
theorem depends_on_bytes_read_once :
    ReadsWithin ⟨⟨1, by decide⟩, none⟩ (.ofString ",.") "a" 1 ∧
    (∀ n < 1, inputByte "a" n = inputByte "šb" n) ∧
    Indistinguishable ⟨⟨1, by decide⟩, none⟩ (.ofString ",.") "a" "šb" := by
  have accepted : JumpTable.ofInstructions (Program.ofString ",.").toList =
      .ok ⟨#[none, none]⟩ := by decide
  have hends : Ends (.indexed (.ofString ",.") ⟨#[none, none]⟩) _
      (fresh ⟨⟨1, by decide⟩, none⟩ "a") _ :=
        Steps.ends_ok (.cons rfl (.cons rfl .refl)) rfl
  have hreads := ReadsWithin.of_ends accepted hends
  have agree : ∀ n < 1, inputByte "a" n = inputByte "šb" n := by decide
  exact ⟨hreads, agree, (depends_on_bytes_read _ _ "a" "šb").1 1 hreads agree⟩

end Machine

end Brainfuck
