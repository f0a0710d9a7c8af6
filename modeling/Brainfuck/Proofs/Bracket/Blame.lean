import Brainfuck.Program.Basic
import Brainfuck.Proofs.Bracket.Partners
import Mathlib.Order.Bounds.Defs

/-!
# The bracket that is reported

A rejected sequence may hold many brackets without a partner, and one of them is reported. A closing
bracket goes before all opening ones: the first closing bracket without a partner is reported, and
this is where the closing brackets outnumber the opening ones for the first time. If every closing
bracket has a partner, the last opening bracket without one is reported.

A bracket that has no partner in a sequence has none in a part of it either. So a balanced part
holds no bracket without a partner, whatever stands before or after it; the parts that stand before
a surplus closing bracket or after the innermost waiting bracket are balanced, and nothing in them
can be reported instead.
-/

namespace Brainfuck.Bracket

def count (b : Bracket) (is : List Instruction) : Nat :=
  is.countP fun i ↦ i.symbol = .bracket b

/-- A position holds a bracket of the given kind, and the scan finds no partner for it. -/
structure Unpaired (is : List Instruction) (b : Bracket) (p : Nat) : Prop where
  holds : symbolAt? is p = some (.bracket b)
  partner_eq : partner? is p = none

/-- The instructions up to a position, that one included, hold more closing brackets than opening
ones. -/
structure Surplus (is : List Instruction) (p : Nat) : Prop where
  lt : p < is.length
  exceeds : count opening (is.take (p + 1)) < count closing (is.take (p + 1))

/-! ## Counting brackets -/

@[simp] theorem count_nil (b : Bracket) : count b [] = 0 := rfl

theorem count_append (b : Bracket) (as bs : List Instruction) :
    count b (as ++ bs) = count b as + count b bs :=
  List.countP_append

theorem count_command {i : Instruction} {c : Command} (h : i.symbol = .command c) (b : Bracket)
    (is : List Instruction) : count b (i :: is) = count b is := by
  simp [count, h]

theorem count_bracket {i : Instruction} {met : Bracket} (h : i.symbol = .bracket met) (b : Bracket)
    (is : List Instruction) :
    count b (i :: is) = count b is + if met = b then 1 else 0 := by
  simp [count, List.countP_cons, h]

theorem count_opening {i : Instruction} (h : i.symbol = .bracket .opening)
    (is : List Instruction) :
    count opening (i :: is) = count opening is + 1 ∧ count closing (i :: is) = count closing is :=
  ⟨count_bracket h .opening is, count_bracket h .closing is⟩

theorem count_closing {i : Instruction} (h : i.symbol = .bracket .closing)
    (is : List Instruction) :
    count opening (i :: is) = count opening is ∧ count closing (i :: is) = count closing is + 1 :=
  ⟨count_bracket h .opening is, count_bracket h .closing is⟩

/-- A balanced sequence holds as many brackets of one kind as of the other. -/
theorem count_eq_of_balanced {is : List Instruction} (h : Balanced is) :
    count closing is = count opening is := by
  induction h with
  | nil => rfl
  | command isCommand _ ih => rw [count_command isCommand, count_command isCommand, ih]
  | @loop first last body rest opens _ closes _ inner_ih ih =>
    have hfirst := count_opening opens (body ++ last :: rest)
    have hlast := count_closing closes rest
    rw [hfirst.1, hfirst.2, count_append, count_append, hlast.1, hlast.2]
    omega

/-- A balanced sequence never has a surplus on the way. -/
theorem count_take_le_of_balanced {is : List Instruction} (h : Balanced is) (n : Nat) :
    count closing (is.take n) ≤ count opening (is.take n) := by
  induction h generalizing n with
  | nil => simp
  | @command i c rest isCommand _ ih =>
    cases n with
    | zero => exact Nat.le_refl _
    | succ n =>
      rw [List.take_succ_cons, count_command isCommand, count_command isCommand]
      exact ih n
  | @loop first last body rest opens inner closes _ inner_ih ih =>
    cases n with
    | zero => exact Nat.le_refl _
    | succ n =>
      have hfirst := count_opening opens ((body ++ last :: rest).take n)
      rw [List.take_succ_cons, hfirst.1, hfirst.2, List.take_append, count_append, count_append]
      cases hn : n - body.length with
      | zero =>
        have hbody := inner_ih n
        rw [List.take_zero, count_nil, count_nil]
        omega
      | succ k =>
        -- The prefix ends after the loop, so the loop counts as a whole.
        have hbody := count_eq_of_balanced inner
        have hrest := ih k
        have hlast := count_closing closes (rest.take k)
        rw [List.take_of_length_le (by omega), List.take_succ_cons, hlast.1, hlast.2]
        omega

/-! ## Brackets without a partner in parts of a sequence -/

namespace Unpaired

variable {front back : List Instruction} {b : Bracket} {p : Nat}

theorem left (h : Unpaired (front ++ back) b p) (hp : p < front.length) : Unpaired front b p where
  holds := by rw [← symbolAt?_append_left hp back, h.holds]
  partner_eq := by
    rw [Option.eq_none_iff_forall_ne_some]
    intro q hq
    have hpartner := partner?_append hq back
    rw [h.partner_eq] at hpartner
    cases hpartner

theorem right (h : Unpaired (front ++ back) b (front.length + p)) : Unpaired back b p where
  holds := by rw [← symbolAt?_append_right front back, h.holds]
  partner_eq := by
    rw [Option.eq_none_iff_forall_ne_some]
    intro q hq
    have hpartner := partner?_prepend hq front
    rw [h.partner_eq] at hpartner
    cases hpartner

/-- The bracket is before the split instruction, or it is that instruction, or it comes after. -/
theorem split_cases {before after : List Instruction} {i : Instruction}
    (h : Unpaired (before ++ i :: after) b p) :
    (p < before.length ∧ Unpaired before b p) ∨ (p = before.length ∧ i.symbol = .bracket b) ∨
      ∃ k, p = before.length + (k + 1) ∧ Unpaired after b k := by
  rcases Nat.lt_trichotomy p before.length with hlt | rfl | hgt
  · exact .inl ⟨hlt, h.left hlt⟩
  · have hsymbol := h.holds
    rw [symbolAt?_first, Option.some.injEq] at hsymbol
    exact .inr (.inl ⟨rfl, hsymbol⟩)
  · obtain ⟨k, rfl⟩ := Nat.exists_eq_add_of_lt hgt
    have hlength : before.length + k + 1 = (before ++ [i]).length + k := by
      rw [List.length_append, List.length_singleton]
      omega
    rw [hlength, ← List.singleton_append, ← List.append_assoc] at h
    exact .inr (.inr ⟨k, Nat.add_assoc .., h.right⟩)

end Unpaired

theorem not_unpaired_of_balanced {is : List Instruction} (h : Balanced is) (b : Bracket) (p : Nat) :
    ¬Unpaired is b p := by
  intro unpaired
  obtain ⟨q, hq⟩ := exists_partner_of_balanced h unpaired.holds
  rw [unpaired.partner_eq] at hq
  cases hq

/-- Closing brackets wait for nothing: where only opening brackets are left over, every closing one
has its partner. -/
theorem not_unpaired_closing_of_waits {is : List Instruction} {waiting : List (Nat × Instruction)}
    (h : Waits is waiting) (p : Nat) : ¬Unpaired is .closing p := by
  induction h generalizing p with
  | done balanced => exact not_unpaired_of_balanced balanced .closing p
  | more _ opens inner ih =>
    intro unpaired
    rcases unpaired.split_cases with ⟨-, hbefore⟩ | ⟨-, hi⟩ | ⟨k, -, hbody⟩
    · exact ih p hbefore
    · rw [opens] at hi
      cases hi
    · exact not_unpaired_of_balanced inner .closing k hbody

/-! ## The bracket at the split -/

variable {before : List Instruction} {i : Instruction}

/-- A closing bracket after a balanced part is the first one without a partner. -/
theorem isLeast_unpaired (balanced : Balanced before) (closes : i.symbol = .bracket .closing)
    (after : List Instruction) :
    IsLeast {p | Unpaired (before ++ i :: after) .closing p} before.length := by
  constructor
  · exact ⟨by rw [symbolAt?_first, closes], partner?_of_closing_eq_none closes balanced after⟩
  · intro p hp
    refine Nat.le_of_not_lt fun hlt ↦ ?_
    exact not_unpaired_of_balanced balanced .closing p (hp.left hlt)

/-- It is also where the closing brackets are in the majority for the first time. -/
theorem isLeast_surplus (balanced : Balanced before) (closes : i.symbol = .bracket .closing)
    (after : List Instruction) : IsLeast {p | Surplus (before ++ i :: after) p} before.length := by
  constructor
  · have htake : (before ++ i :: after).take (before.length + 1) = before ++ [i] := by
      rw [List.take_length_add_append, List.take_succ_cons, List.take_zero]
    have hcount := count_eq_of_balanced balanced
    have hi := count_closing closes []
    refine ⟨by simp, ?_⟩
    rw [htake, count_append, count_append, hi.1, hi.2, hcount]
    exact Nat.lt_succ_self _
  · rintro p ⟨-, hexceeds⟩
    refine Nat.le_of_not_lt fun hlt ↦ ?_
    rw [List.take_append_of_le_length hlt] at hexceeds
    exact Nat.not_lt.mpr (count_take_le_of_balanced balanced (p + 1)) hexceeds

/-- An opening bracket before a balanced part that goes on to the end is the last one without a
partner. -/
theorem isGreatest_unpaired (before : List Instruction) (opens : i.symbol = .bracket .opening)
    {after : List Instruction} (balanced : Balanced after) :
    IsGreatest {p | Unpaired (before ++ i :: after) .opening p} before.length := by
  constructor
  · exact ⟨by rw [symbolAt?_first, opens], partner?_of_opening_eq_none opens before balanced⟩
  · intro p hp
    rcases Unpaired.split_cases hp with ⟨hlt, -⟩ | ⟨rfl, -⟩ | ⟨k, -, hafter⟩
    · exact Nat.le_of_lt hlt
    · exact Nat.le_refl _
    · exact absurd hafter (not_unpaired_of_balanced balanced .opening k)

end Brainfuck.Bracket

namespace Brainfuck.JumpTable

/-- A rejected sequence is reported by an instruction of its own, unchanged, and the kind of the
report is the kind of its bracket. If a closing bracket has no partner, the first such bracket is
reported; it stands where the closing brackets are in the majority for the first time. Otherwise the
last opening bracket without a partner is reported. -/
theorem ofInstructions_blames {is : List Instruction} {u : UnmatchedBracket}
    (rejected : ofInstructions is = .error u) :
    u.instruction.symbol = .bracket u.bracket ∧
    ((∃ p, Bracket.Unpaired is .closing p) →
      u.bracket = .closing ∧ ∃ p, is[p]? = some u.instruction ∧
        IsLeast {p | Bracket.Unpaired is .closing p} p ∧ IsLeast {p | Bracket.Surplus is p} p) ∧
    ((¬∃ p, Bracket.Unpaired is .closing p) →
      u.bracket = .opening ∧ ∃ p, is[p]? = some u.instruction ∧
        IsGreatest {p | Bracket.Unpaired is .opening p} p) := by
  cases blames_of_ofInstructions rejected with
  | @surplus before after i split balanced closes =>
    subst split
    have hleast := Bracket.isLeast_unpaired balanced closes after
    have hsurplus := Bracket.isLeast_surplus balanced closes after
    have hat : (before ++ i :: after)[before.length]? = some i := by simp
    exact ⟨closes, fun _ ↦ ⟨rfl, before.length, hat, hleast, hsurplus⟩,
      fun hnone ↦ absurd ⟨before.length, hleast.1⟩ hnone⟩
  | @unclosed before body waiting i split outer opens inner =>
    subst split
    have hgreatest := Bracket.isGreatest_unpaired before opens inner
    have hat : (before ++ i :: body)[before.length]? = some i := by simp
    have hnone : ¬∃ p, Bracket.Unpaired (before ++ i :: body) .closing p :=
      fun ⟨p, hp⟩ ↦ Bracket.not_unpaired_closing_of_waits (.more outer opens inner) p hp
    exact ⟨opens, fun hsome ↦ absurd hsome hnone, fun _ ↦ ⟨rfl, before.length, hat, hgreatest⟩⟩

/-- A surplus closing bracket is reported and not the opening one after it. Of two opening brackets
that are left over the second is reported, and not the one in a loop between them. -/
theorem ofInstructions_blames_two :
    (ofInstructions (Program.ofString "[+]\n][").toList =
        .error ⟨.closing, ⟨⟨2, 1, 3⟩, .bracket .closing⟩⟩ ∧
      IsLeast {p | Bracket.Unpaired (Program.ofString "[+]\n][").toList .closing p} 3 ∧
      IsLeast {p | Bracket.Surplus (Program.ofString "[+]\n][").toList p} 3) ∧
    ofInstructions (Program.ofString "[[-]\n [.").toList =
        .error ⟨.opening, ⟨⟨2, 2, 4⟩, .bracket .opening⟩⟩ ∧
      IsGreatest {p | Bracket.Unpaired (Program.ofString "[[-]\n [.").toList .opening p} 4 := by
  have hsurplus : ofInstructions (Program.ofString "[+]\n][").toList =
      .error ⟨.closing, ⟨⟨2, 1, 3⟩, .bracket .closing⟩⟩ := rfl
  have hunclosed : ofInstructions (Program.ofString "[[-]\n [.").toList =
      .error ⟨.opening, ⟨⟨2, 2, 4⟩, .bracket .opening⟩⟩ := rfl
  have hpaired : ¬∃ p, Bracket.Unpaired (Program.ofString "[[-]\n [.").toList .closing p := by
    have hall : ∀ p < (Program.ofString "[[-]\n [.").toList.length,
        Bracket.symbolAt? (Program.ofString "[[-]\n [.").toList p = some (.bracket .closing) →
          Bracket.partner? (Program.ofString "[[-]\n [.").toList p ≠ none := by decide
    rintro ⟨p, holds, partner_eq⟩
    obtain ⟨i, hi, -⟩ := Option.map_eq_some_iff.mp holds
    exact hall p (List.getElem?_eq_some_iff.mp hi).1 holds partner_eq
  obtain ⟨-, hclosing, -⟩ := ofInstructions_blames hsurplus
  obtain ⟨-, p, hp, hleast, hfirst⟩ := hclosing ⟨3, by decide, by decide⟩
  obtain rfl : 3 = p := Program.index_eq_of_getElem? hp
  obtain ⟨-, -, hopening⟩ := ofInstructions_blames hunclosed
  obtain ⟨-, q, hq, hgreatest⟩ := hopening hpaired
  obtain rfl : 4 = q := Program.index_eq_of_getElem? hq
  exact ⟨⟨hsurplus, hleast, hfirst⟩, hunclosed, hgreatest⟩

end Brainfuck.JumpTable
