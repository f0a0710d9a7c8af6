import Brainfuck.Block
import Brainfuck.Proofs.Machine.Recurrence

/-!
# Machines realise the meaning of blocks

A machine without a step limit realises a meaning between two positions of its code when both of
the following hold. Whatever the meaning relates, the machine does: it gets from the first position
to the second in as many instructions, or runs into the fault after as many. And a run that ends
does so in the way of the meaning: it either passes through the second position at the end of
something that the meaning relates, or ends in a fault that the meaning names.

Realisation is put together as meanings are. So the code of a program realises the meaning of its
block from the first instruction to behind the last, and interpreting a program comes to what its
block means: the jumps of the one are the loops of the other, step for step.
-/

namespace Brainfuck

namespace Machine

def unlimited (cells : CellCount) (store : Store) (position processed : Nat) : Machine :=
  ⟨⟨cells, none⟩, store, position, processed⟩

theorem exhausted?_unlimited (cells : CellCount) (store : Store) (position processed : Nat) :
    (unlimited cells store position processed).exhausted? = none :=
  exhausted?_of_unlimited rfl

end Machine

open Machine

variable {code : Code} {cells : CellCount}

/-- A machine brings an outcome about in the given number of instructions: it gets to the last
position, or it runs into a fault on the way. -/
inductive Reaches (code : Code) (cells : CellCount) (last : Nat) (m : Machine) (n : Nat) :
    Outcome → Prop where
  | finished {actions : List Action} {t : Store} {processed : Nat} (length : actions.length = n)
      (steps : Steps code actions m (unlimited cells t last processed)) :
      Reaches code cells last m n (.finished t)
  | stopped {actions : List Action} {t : Store} {position processed : Nat} {fault : Fault}
      (length : actions.length = n)
      (steps : Steps code actions m (unlimited cells t position processed))
      (fails : (unlimited cells t position processed).Fails code fault) :
      Reaches code cells last m n (.stopped fault t)

/-- A run of the given length that ends with a report complies with a meaning as far as it goes:
either the meaning finishes and the run goes on from the last position, or the meaning stops with a
fault and the run ends with it. -/
inductive Complies (code : Code) (cells : CellCount) (meaning : Meaning) (last : Nat) (s : Store)
    (report : Report) (length : Nat) : Prop where
  | through {n : Nat} {t : Store} {others : List Action} {processed : Nat}
      (total : n + others.length = length) (first : meaning s n (.finished t))
      (rest : Ends code others (unlimited cells t last processed) report) :
      Complies code cells meaning last s report length
  | within {fault : Fault} (stops : meaning s length (.stopped fault report.machine.store))
      (result : report.result = .error fault) : Complies code cells meaning last s report length

/-- The machine does between two positions what a meaning says, and a run that ends complies with
the meaning. -/
structure Realises (code : Code) (cells : CellCount) (meaning : Meaning) (first last : Nat) :
    Prop where
  reaches : ∀ {s : Store} {n : Nat} {o : Outcome} (processed : Nat), meaning s n o →
    Reaches code cells last (unlimited cells s first processed) n o
  complies : ∀ {s : Store} {processed : Nat} {actions : List Action} {report : Report},
    Ends code actions (unlimited cells s first processed) report →
      Complies code cells meaning last s report actions.length

theorem Reaches.prepend {last n : Nat} {m next : Machine} {o : Outcome} {actions : List Action}
    (steps : Steps code actions m next) (h : Reaches code cells last next n o) :
    Reaches code cells last m (actions.length + n) o := by
  cases h with
  | finished length others =>
    apply Reaches.finished _ (steps.trans others)
    rw [List.length_append, length]
  | stopped length others fails =>
    apply Reaches.stopped _ (steps.trans others) fails
    rw [List.length_append, length]

theorem Reaches.cons {last n : Nat} {m next : Machine} {o : Outcome} {action : Action}
    (first : m.Executes code action next) (h : Reaches code cells last next n o) :
    Reaches code cells last m (n + 1) o := by
  have hprepend := h.prepend (.cons first.turn_eq .refl)
  rwa [List.length_singleton, Nat.add_comm] at hprepend

/-! ## The parts of a block -/

theorem realises_idle (position : Nat) : Realises code cells .Idle position position where
  reaches processed h := by
    cases h
    exact .finished rfl .refl
  complies h := .through (Nat.zero_add _) .finished h

theorem realises_once {c : Command} {place : Place} {position : Nat}
    (fetched : code.instructions[position]? = some { place with symbol := .command c }) :
    Realises code cells (.Once c place) position (position + 1) where
  reaches {s n o} processed h := by
    have running := exhausted?_unlimited cells s position processed
    cases h with
    | finished allowed =>
      have first := Executes.command fetched running rfl allowed
      exact .cons first (.finished rfl .refl)
    | stopped refused => exact .stopped rfl .refl (.command fetched running rfl refused)
  complies {s processed actions report} h := by
    have running := exhausted?_unlimited cells s position processed
    cases hc : s.fault? c { place with symbol := .command c } with
    | none =>
      have first := Executes.command fetched running rfl hc
      obtain ⟨others, rfl, hothers⟩ := h.exists_of_executes first
      exact .through (Nat.add_comm _ _) (.finished hc) hothers
    | some fault =>
      have fails := Fails.command fetched running rfl hc
      obtain ⟨rfl, rfl⟩ := h.eq_nil_of_turn fails.report?_eq
      exact .within (.stopped hc) rfl

/-- One after the other. -/
theorem Realises.seq {a b : Meaning} {first mid last : Nat} (ha : Realises code cells a first mid)
    (hb : Realises code cells b mid last) : Realises code cells (a.Seq b) first last where
  reaches processed h := by
    cases h with
    | finished hfirst hsecond =>
      cases ha.reaches processed hfirst with
      | finished length steps =>
        have hprepend := (hb.reaches _ hsecond).prepend steps
        rwa [length] at hprepend
    | stopped hfirst =>
      cases ha.reaches processed hfirst with
      | stopped length steps fails => exact .stopped length steps fails
  complies h := by
    cases ha.complies h with
    | through total hfirst hrest =>
      cases hb.complies hrest with
      | through total' hsecond hrest =>
        refine .through ?_ (.finished hfirst hsecond) hrest
        rw [Nat.add_assoc, total', total]
      | within hstops hresult =>
        rw [← total]
        exact .within (.finished hfirst hstops) hresult
    | within hstops hresult => exact .within (.stopped hstops) hresult

/-- Passes through the body of a loop: the closing bracket sends the machine back to the beginning
of the body as long as the current cell is not zero. -/
theorem Realises.passes {body : Meaning} {opening last : Nat} {i : Instruction}
    (hbody : Realises code cells body (opening + 1) last)
    (fetched : code.instructions[last]? = some i) (closes : i.symbol = .bracket .closing)
    (partner : code.partner? last i = some opening) :
    Realises code cells (.Passes body) (opening + 1) (last + 1) where
  reaches {s n o} processed h := by
    induction h generalizing processed with
    | @finished s t n hpass zero =>
      cases hbody.reaches processed hpass with
      | @finished actions _ processed length steps =>
        have running := exhausted?_unlimited cells t last processed
        have hstays : Bracket.closing.jumps t.tape.current = false := by
          simp [Bracket.jumps, zero]
        have hclose := Executes.pass fetched running closes hstays
        have hend : Steps code [_] _ _ := .cons hclose.turn_eq .refl
        apply Reaches.finished _ (steps.trans hend)
        rw [List.length_append, length, List.length_singleton]
    | @again s t k n o hpass nonzero _ ih =>
      cases hbody.reaches processed hpass with
      | @finished actions _ processed length steps =>
        have running := exhausted?_unlimited cells t last processed
        have hjumps : Bracket.closing.jumps t.tape.current = true := by
          simp [Bracket.jumps, nonzero]
        have hclose := Executes.jump fetched running closes hjumps partner
        have hothers := ((ih (processed + 1)).cons hclose).prepend steps
        rw [length] at hothers
        rwa [Nat.add_assoc, Nat.add_comm 1 n]
    | stopped hpass =>
      cases hbody.reaches processed hpass with
      | stopped length steps fails => exact .stopped length steps fails
  complies {s processed actions report} h := by
    -- Each pass takes at least the instruction of the closing bracket.
    induction hlength : actions.length using Nat.strong_induction_on
      generalizing s processed actions with
    | _ length ih =>
      subst hlength
      cases hbody.complies h with
      | @through n t others processed total hpass hrest =>
        have running := exhausted?_unlimited cells t last processed
        cases hjumps : Bracket.closing.jumps t.tape.current with
        | false =>
          have hzero : t.tape.current = 0 := by simpa [Bracket.jumps] using hjumps
          have hclose := Executes.pass fetched running closes hjumps
          obtain ⟨others, rfl, hothers⟩ := hrest.exists_of_executes hclose
          refine .through ?_ (.finished hpass hzero) hothers
          rw [← total, List.length_cons]
          omega
        | true =>
          have hnonzero : t.tape.current ≠ 0 := by simpa [Bracket.jumps] using hjumps
          have hclose := Executes.jump fetched running closes hjumps partner
          obtain ⟨others, rfl, hothers⟩ := hrest.exists_of_executes hclose
          rw [List.length_cons] at total
          cases ih others.length (by omega) hothers rfl with
          | through total' hfirst hrest =>
            refine .through ?_ (.again hpass hnonzero hfirst) hrest
            omega
          | within hstops hresult =>
            have hagain := Meaning.Passes.again hpass hnonzero hstops
            rw [Nat.add_assoc, Nat.add_comm 1, total] at hagain
            exact .within hagain hresult
      | within hstops hresult => exact .within (.stopped hstops) hresult

/-- A loop: the opening bracket sends the machine behind the loop when the current cell is zero. -/
theorem Realises.loop {body : Meaning} {first last : Nat} {i : Instruction}
    (hpasses : Realises code cells (.Passes body) (first + 1) (last + 1))
    (fetched : code.instructions[first]? = some i) (opens : i.symbol = .bracket .opening)
    (partner : code.partner? first i = some last) :
    Realises code cells (.Loop body) first (last + 1) where
  reaches {s n o} processed h := by
    have running := exhausted?_unlimited cells s first processed
    cases h with
    | skipped zero =>
      have hjumps : Bracket.opening.jumps s.tape.current = true := by simp [Bracket.jumps, zero]
      have hopen := Executes.jump fetched running opens hjumps partner
      exact .cons hopen (.finished rfl .refl)
    | entered nonzero passes =>
      have hstays : Bracket.opening.jumps s.tape.current = false := by
        simp [Bracket.jumps, nonzero]
      have hopen := Executes.pass fetched running opens hstays
      exact .cons hopen (hpasses.reaches _ passes)
  complies {s processed actions report} h := by
    have running := exhausted?_unlimited cells s first processed
    cases hjumps : Bracket.opening.jumps s.tape.current with
    | true =>
      have hzero : s.tape.current = 0 := by simpa [Bracket.jumps] using hjumps
      have hopen := Executes.jump fetched running opens hjumps partner
      obtain ⟨others, rfl, hothers⟩ := h.exists_of_executes hopen
      exact .through (Nat.add_comm _ _) (.skipped hzero) hothers
    | false =>
      have hnonzero : s.tape.current ≠ 0 := by simpa [Bracket.jumps] using hjumps
      have hopen := Executes.pass fetched running opens hjumps
      obtain ⟨others, rfl, hothers⟩ := h.exists_of_executes hopen
      cases hpasses.complies hothers with
      | through total hfirst hrest =>
        refine .through ?_ (.entered hnonzero hfirst) hrest
        rw [List.length_cons, ← total]
        omega
      | within hstops hresult => exact .within (.entered hnonzero hstops) hresult

/-! ## Whole blocks -/

/-- The instructions of a block within an accepted program realise its meaning. -/
theorem realises_block {program : Program} {table : JumpTable}
    (accepted : JumpTable.ofInstructions program.toList = .ok table) (b : Block)
    {before after : List Instruction} (split : program.toList = before ++ (b.instructions ++ after)) :
    Realises (.indexed program table) cells b.meaning before.length
      (before.length + b.instructions.length) := by
  induction b generalizing before after with
  | nil => exact realises_idle _
  | command c place rest ih =>
    let i : Instruction := { place with symbol := .command c }
    have fetched := Program.fetched_of_split split
    have hrest : program.toList = (before ++ [i]) ++ (rest.instructions ++ after) := by
      rw [split, List.append_assoc]
      rfl
    have hlength : (before ++ [i]).length = before.length + 1 := List.length_append
    have hseq := (realises_once fetched).seq (hlength ▸ ih hrest)
    rwa [Nat.add_assoc, Nat.add_comm 1] at hseq
  | loop firstPlace body lastPlace rest body_ih rest_ih =>
    let first : Instruction := { firstPlace with symbol := .bracket .opening }
    let last : Instruction := { lastPlace with symbol := .bracket .closing }
    have hsplit : program.toList =
        before ++ first :: (body.instructions ++ last :: (rest.instructions ++ after)) := by
      rw [split, Block.instructions, List.cons_append, List.append_assoc, List.cons_append]
    have hbody : program.toList =
        (before ++ [first]) ++ (body.instructions ++ last :: (rest.instructions ++ after)) := by
      rw [hsplit, List.append_assoc, List.singleton_append]
    have hclosing : program.toList =
        (before ++ first :: body.instructions) ++ last :: (rest.instructions ++ after) := by
      rw [hsplit, List.append_assoc, List.cons_append]
    have hrest : program.toList =
        (before ++ first :: (body.instructions ++ [last])) ++ (rest.instructions ++ after) := by
      rw [hsplit]
      simp only [List.append_assoc, List.cons_append, List.nil_append]
    have hbodyLength : (before ++ [first]).length = before.length + 1 := List.length_append
    have hclosingLength : (before ++ first :: body.instructions).length =
        before.length + 1 + body.instructions.length := by
      rw [List.length_append, List.length_cons]
      omega
    have hrestLength : (before ++ first :: (body.instructions ++ [last])).length =
        before.length + 1 + body.instructions.length + 1 := by
      simp only [List.length_append, List.length_cons, List.length_nil]
      omega
    have hpair : Bracket.Encloses program.toList before.length
        (before.length + 1 + body.instructions.length) :=
      .intro hsplit rfl body.balanced_instructions rfl rfl rfl
    have hfirst := Program.fetched_of_split hsplit
    have hlast := Program.fetched_of_split hclosing
    rw [hclosingLength] at hlast
    have hfirstPartner := (Code.partner?_indexed accepted hfirst).trans hpair.partner?_first
    have hlastPartner := (Code.partner?_indexed accepted hlast).trans hpair.partner?_last
    have hrealises : Realises (.indexed program table) cells body.meaning (before.length + 1)
        (before.length + 1 + body.instructions.length) := hbodyLength ▸ body_ih hbody
    have hloop := (hrealises.passes hlast rfl hlastPartner).loop hfirst rfl hfirstPartner
    have hseq := hloop.seq (hrestLength ▸ rest_ih hrest)
    have htotal : before.length + 1 + body.instructions.length + 1 + rest.instructions.length =
        before.length + (Block.loop firstPlace body lastPlace rest).instructions.length := by
      simp only [Block.instructions, List.length_append, List.length_cons]
      omega
    rwa [htotal] at hseq

namespace Block

/-- A sequence of instructions is written by one block at most. -/
theorem instructions_injective {a b : Block} (h : a.instructions = b.instructions) : a = b := by
  induction a generalizing b with
  | nil =>
    cases b with
    | nil => rfl
    | command => cases h
    | loop => cases h
  | command c place rest ih =>
    cases b with
    | nil => cases h
    | command c' place' rest' =>
      obtain ⟨hhead, htail⟩ := List.cons.inj h
      cases hhead
      rw [ih htail]
    | loop =>
      obtain ⟨hhead, -⟩ := List.cons.inj h
      cases hhead
  | loop first body last rest body_ih rest_ih =>
    cases b with
    | nil => cases h
    | command =>
      obtain ⟨hhead, -⟩ := List.cons.inj h
      cases hhead
    | loop first' body' last' rest' =>
      obtain ⟨hhead, htail⟩ := List.cons.inj h
      cases hhead
      -- The two bodies are equally long, since a walk from the opening bracket stops behind both.
      have hwalk (body : Block) (last : Place) (rest : List Instruction) :
          Bracket.walk .opening 0 0 (body.instructions ++
            ({ last with symbol := .bracket .closing } : Instruction) :: rest) =
              some body.instructions.length :=
        Bracket.walk_zero_eq_some_iff.mpr
          ⟨_, _, _, rfl, body.balanced_instructions, rfl, rfl⟩
      have hlength := hwalk body last rest.instructions
      rw [htail, hwalk body' last' rest'.instructions] at hlength
      obtain ⟨hbody, hlast⟩ := List.append_inj htail (Option.some.inj hlength).symm
      obtain ⟨hlast, hrest⟩ := List.cons.inj hlast
      cases hlast
      rw [body_ih hbody, rest_ih hrest]

end Block

/-! ## Programs -/

theorem Realises.ends_ok_iff {meaning : Meaning} {s t : Store} {n : Nat} {out : String}
    (h : Realises code cells meaning 0 code.instructions.size) :
    (∃ actions last, Ends code actions (unlimited cells s 0 0) ⟨.ok out, last⟩ ∧
      last.store = t ∧ last.processed = n) ↔ meaning s n (.finished t) ∧ t.output = out := by
  have hnone : code.instructions[code.instructions.size]? = none :=
    Array.getElem?_eq_none (Nat.le_refl _)
  constructor
  · rintro ⟨actions, last, hends, rfl, rfl⟩
    have hcount : last.processed = actions.length :=
      hends.steps.processed_eq_length rfl
    cases h.complies hends with
    | through total hfirst hrest =>
      obtain ⟨rfl, hreport⟩ := hrest.eq_nil_of_turn (report?_of_none hnone)
      cases hreport
      rw [hcount, ← total]
      exact ⟨hfirst, rfl⟩
    | within _ hresult => cases hresult
  · rintro ⟨hmeaning, rfl⟩
    cases h.reaches 0 hmeaning with
    | finished length steps =>
      have hprocessed := (steps.processed_eq_length rfl).trans length
      exact ⟨_, _, steps.ends_ok hnone, rfl, hprocessed⟩

theorem Realises.ends_error_iff {meaning : Meaning} {s t : Store} {n : Nat} {fault : Fault}
    (h : Realises code cells meaning 0 code.instructions.size) :
    (∃ actions last, Ends code actions (unlimited cells s 0 0) ⟨.error fault, last⟩ ∧
      last.store = t ∧ last.processed = n) ↔ meaning s n (.stopped fault t) := by
  have hnone : code.instructions[code.instructions.size]? = none :=
    Array.getElem?_eq_none (Nat.le_refl _)
  constructor
  · rintro ⟨actions, last, hends, rfl, rfl⟩
    have hcount : last.processed = actions.length :=
      hends.steps.processed_eq_length rfl
    cases h.complies hends with
    | through _ _ hrest =>
      obtain ⟨-, hreport⟩ := hrest.eq_nil_of_turn (report?_of_none hnone)
      cases hreport
    | within hstops hresult =>
      cases hresult
      rw [hcount]
      exact hstops
  · intro hmeaning
    cases h.reaches 0 hmeaning with
    | stopped length steps fails =>
      have hprocessed := (steps.processed_eq_length rfl).trans length
      exact ⟨_, _, steps.ends_error fails, rfl, hprocessed⟩

/-- The code of an accepted program realises the meaning of its block from beginning to end. -/
theorem realises_program {program : Program} {table : JumpTable} {b : Block}
    (accepted : JumpTable.ofInstructions program.toList = .ok table)
    (hb : b.instructions = program.toList) :
    Realises (.indexed program table) cells b.meaning 0
      (Code.indexed program table).instructions.size := by
  have hsplit : program.toList = [] ++ (b.instructions ++ []) := by
    rw [hb, List.append_nil, List.nil_append]
  have hrealises : Realises (.indexed program table) cells _ _ _ :=
    realises_block accepted b hsplit
  rw [List.length_nil, Nat.zero_add, hb, Program.length_toList] at hrealises
  exact hrealises

/-- An accepted program is written by exactly one block. Without a step limit, interpreting the
program comes to the end of the program exactly when its block finishes, with the same output, tape,
head, cursor and number of instructions, and it ends in a fault exactly when its block stops with
that fault, at the same instruction and in the same state. -/
theorem interpret_iff_meaning {program : Program} {table : JumpTable}
    (accepted : JumpTable.ofInstructions program.toList = .ok table) {m : Machine}
    (hlimit : m.config.stepLimit = none) (input : String) (j : Journal) :
    ∃ b : Block, b.instructions = program.toList ∧
      (∀ b' : Block, b'.instructions = program.toList → b' = b) ∧
      (∀ out t n,
        (∃ last j', m.interpret program input j = some (⟨.ok out, last⟩, j') ∧
          last.store = t ∧ last.processed = n) ↔
        b.meaning (.fresh m.config.cellCount.value input) n (.finished t) ∧ t.output = out) ∧
      ∀ fault t n,
        (∃ last j', m.interpret program input j = some (⟨.error fault, last⟩, j') ∧
          last.store = t ∧ last.processed = n) ↔
        b.meaning (.fresh m.config.cellCount.value input) n (.stopped fault t) := by
  obtain ⟨b, hb⟩ := Block.exists_instructions_eq (JumpTable.balanced_of_ofInstructions accepted).1
  have hrealises : Realises _ m.config.cellCount _ _ _ := realises_program accepted hb
  have hrewind : m.rewind input =
      unlimited m.config.cellCount (.fresh m.config.cellCount.value input) 0 0 := by
    unfold unlimited rewind fresh
    rw [← hlimit]
  have hreport (result : Except Fault String) (t : Store) (n : Nat) :
      (∃ last j', m.interpret program input j = some (⟨result, last⟩, j') ∧
        last.store = t ∧ last.processed = n) ↔
      ∃ actions last, Ends (.indexed program table) actions
        (unlimited m.config.cellCount (.fresh m.config.cellCount.value input) 0 0)
        ⟨result, last⟩ ∧ last.store = t ∧ last.processed = n := by
    rw [← hrewind]
    constructor
    · rintro ⟨last, j', h, hlast⟩
      obtain ⟨actions, hends⟩ := (report?_of_accepted accepted).mp (report?_eq_some_iff.mpr ⟨j', h⟩)
      exact ⟨actions, last, hends, hlast⟩
    · rintro ⟨actions, last, hends, hlast⟩
      obtain ⟨j', h⟩ := report?_eq_some_iff.mp ((report?_of_accepted accepted).mpr ⟨actions, hends⟩)
      exact ⟨last, j', h, hlast⟩
  refine ⟨b, hb, fun b' hb' ↦ Block.instructions_injective (hb'.trans hb.symm), ?_, ?_⟩
  · intro out t n
    rw [hreport]
    exact hrealises.ends_ok_iff
  · intro fault t n
    rw [hreport]
    exact hrealises.ends_error_iff

/-- Clearing a cell that holds one takes four steps. -/
theorem interpret_iff_meaning_clear :
    JumpTable.ofInstructions (Program.ofString "+[-]").toList =
      .ok ⟨#[none, some 3, none, some 1]⟩ ∧
    ∃ b : Block, b.instructions = (Program.ofString "+[-]").toList ∧
      b.meaning (.fresh 1 "") 4 (.finished (.fresh 1 "")) := by
  have accepted : JumpTable.ofInstructions (Program.ofString "+[-]").toList =
      .ok ⟨#[none, some 3, none, some 1]⟩ := by decide
  obtain ⟨b, hb, -, hok, -⟩ :=
    interpret_iff_meaning accepted (m := new ⟨⟨1, by decide⟩, none⟩) rfl "" {}
  exact ⟨accepted, b, hb, ((hok "" _ 4).mp ⟨_, _, rfl, rfl, rfl⟩).1⟩

end Brainfuck
