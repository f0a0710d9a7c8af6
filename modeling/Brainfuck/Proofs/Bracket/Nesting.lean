import Brainfuck.Program.Basic
import Brainfuck.Proofs.Bracket.Partners

/-!
# Loops within loops

Two loops of a program lie one after the other or one inside the other; they never overlap. This
holds of the pairs in every sequence, since the body of a pair is balanced: an opening bracket in
the body has its partner in the body too, and a bracket has one partner only. In a sequence that is
balanced as a whole the pairs leave no bracket out. So a jump table is a perfect matching of the
brackets of its program, and no two of its pairs cross.
-/

namespace Brainfuck.Bracket

/-- The partners of a perfect matching of the brackets of a sequence in which no two pairs cross.
The first of two partners begins a loop and the last one ends it. A loop that begins later than
another one begins after its end or ends before it. -/
structure Nested (is : List Instruction) (partnerOf? : Nat → Option Nat) : Prop where
  isSome_iff : ∀ p, (partnerOf? p).isSome ↔ ∃ b, symbolAt? is p = some (.bracket b)
  lt_length : ∀ p q, partnerOf? p = some q → q < is.length
  ne : ∀ p q, partnerOf? p = some q → q ≠ p
  symm : ∀ p q, partnerOf? p = some q → partnerOf? q = some p
  opens : ∀ p q, partnerOf? p = some q → symbolAt? is (min p q) = some (.bracket opening)
  closes : ∀ p q, partnerOf? p = some q → symbolAt? is (max p q) = some (.bracket closing)
  apart_or_inside : ∀ p q p' q', partnerOf? p = some q → p < q → partnerOf? p' = some q' →
    p' < q' → p < p' → q < p' ∨ q' < q

/-! ## Pairs of any sequence -/

/-- An opening bracket between two partners has its own partner between them. -/
theorem Encloses.apart_or_inside {is : List Instruction} {p q p' q' : Nat} (h : Encloses is p q)
    (h' : Encloses is p' q') (hlt : p < p') : q < p' ∨ q' < q := by
  have hcloses := h.aroundBalanced.closes
  have hopens := h'.aroundBalanced.opens
  have hpartner := h'.partner?_first
  obtain @⟨before, first, body, last, after, rfl, -, inner, -, rfl, rfl⟩ := h
  rcases Nat.lt_trichotomy p' (before.length + 1 + body.length) with hbody | rfl | hafter
  · right
    obtain ⟨k, rfl⟩ := Nat.exists_eq_add_of_le (Nat.succ_le_of_lt hlt)
    have hk : k < body.length := by omega
    have hfront : (before ++ [first]).length = before.length + 1 := by
      rw [List.length_append, List.length_singleton]
    have hsplit : before ++ first :: (body ++ last :: after) =
        (before ++ [first]) ++ (body ++ last :: after) := by
      rw [List.append_assoc, List.singleton_append]
    rw [hsplit, Nat.succ_eq_add_one, ← hfront] at hopens hpartner
    rw [symbolAt?_append_right, symbolAt?_append_left hk] at hopens
    obtain ⟨r, hr⟩ := exists_partner_of_balanced inner hopens
    rw [partner?_extend hr, Option.some.injEq] at hpartner
    have hrlt := lt_length_of_partner? hr
    omega
  · rw [hcloses] at hopens
    cases hopens
  · exact .inl hafter

/-- The earlier of two partners encloses a balanced sequence together with the later one. -/
theorem encloses_min_max {is : List Instruction} {p q : Nat} (h : partner? is p = some q) :
    Encloses is (min p q) (max p q) := by
  rcases partner?_eq_some_iff.mp h with h | h
  · rwa [Nat.min_eq_left (Nat.le_of_lt h.lt.1), Nat.max_eq_right (Nat.le_of_lt h.lt.1)]
  · rwa [Nat.min_eq_right (Nat.le_of_lt h.lt.1), Nat.max_eq_left (Nat.le_of_lt h.lt.1)]

theorem encloses_of_lt {is : List Instruction} {p q : Nat} (h : partner? is p = some q)
    (hlt : p < q) : Encloses is p q := by
  have hpair := encloses_min_max h
  rwa [Nat.min_eq_left (Nat.le_of_lt hlt), Nat.max_eq_right (Nat.le_of_lt hlt)] at hpair

/-- Only brackets have a partner. -/
theorem exists_bracket_of_partner? {is : List Instruction} {p q : Nat}
    (h : partner? is p = some q) : ∃ b, symbolAt? is p = some (.bracket b) := by
  rcases partner?_eq_some_iff.mp h with h | h
  · exact ⟨opening, h.aroundBalanced.opens⟩
  · exact ⟨closing, h.aroundBalanced.closes⟩

theorem ne_of_partner? {is : List Instruction} {p q : Nat} (h : partner? is p = some q) :
    q ≠ p := by
  rcases partner?_eq_some_iff.mp h with h | h
  · exact Nat.ne_of_gt h.lt.1
  · exact Nat.ne_of_lt h.lt.1

/-! ## Pairs of balanced sequences -/

theorem nested_of_balanced {is : List Instruction} (balanced : Balanced is) :
    Nested is (partner? is) where
  isSome_iff p := by
    rw [Option.isSome_iff_exists]
    constructor
    · rintro ⟨q, hq⟩
      exact exists_bracket_of_partner? hq
    · rintro ⟨b, hb⟩
      exact exists_partner_of_balanced balanced hb
  lt_length _ _ := lt_length_of_partner?
  ne _ _ := ne_of_partner?
  symm _ _ := partner?_symm
  opens _ _ h := (encloses_min_max h).aroundBalanced.opens
  closes _ _ h := (encloses_min_max h).aroundBalanced.closes
  apart_or_inside _ _ _ _ h hlt h' hlt' :=
    (encloses_of_lt h hlt).apart_or_inside (encloses_of_lt h' hlt')

end Brainfuck.Bracket

namespace Brainfuck.JumpTable

/-- The jump table of a sequence is a perfect matching of its brackets without crossings. -/
theorem nested_of_ofInstructions {is : List Instruction} {table : JumpTable}
    (accepted : ofInstructions is = .ok table) : Bracket.Nested is table.partner? := by
  obtain ⟨balanced, agrees⟩ := balanced_of_ofInstructions accepted
  rw [funext agrees]
  exact Bracket.nested_of_balanced balanced

/-- Of the three loops here, the second and the third lie one after the other inside the first. -/
theorem nested_of_ofInstructions_two_inside :
    ∃ table, ofInstructions (Program.ofString "[[-]>[<]]").toList = .ok table ∧
      Bracket.Nested (Program.ofString "[[-]>[<]]").toList table.partner? ∧
      table.partner? 0 = some 8 ∧ table.partner? 1 = some 3 ∧ table.partner? 7 = some 5 := by
  have accepted : ofInstructions (Program.ofString "[[-]>[<]]").toList =
      .ok ⟨#[some 8, some 3, none, some 1, none, some 7, none, some 5, some 0]⟩ := rfl
  exact ⟨_, accepted, nested_of_ofInstructions accepted, rfl, rfl, rfl⟩

end Brainfuck.JumpTable
