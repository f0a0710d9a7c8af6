import Brainfuck.Program.Basic
import Brainfuck.Proofs.Bracket.Partners

/-!
# Scanning in a slice

A slice of a sequence holds some of its pairs of brackets entirely, and a pair that it holds
entirely is a pair of the slice, since what stands between the two brackets is in the slice as well.
The slice has no other pairs. So a scan within the slice finds the partner that a scan of the whole
sequence finds, moved by the beginning of the slice, unless that partner lies outside; then it finds
none. Positions count within the slice, and the indices that the instructions carry have no part in
this.
-/

namespace Brainfuck.Bracket

variable {is : List Instruction} {first last p q : Nat}

/-! ## Positions of a slice -/

theorem symbolAt?_extract (hp : p < last - first) :
    symbolAt? (is.extract first last) p = symbolAt? is (first + p) := by
  unfold symbolAt?
  rw [List.getElem?_take_of_lt hp, List.getElem?_drop]

theorem between_extract (hq : q ≤ last - first) :
    between (is.extract first last) p q = between is (first + p) (first + q) := by
  calc
    between (is.extract first last) p q = ((is.drop first).take q).drop (p + 1) := by
      rw [between, List.take_take, Nat.min_eq_left hq]
    _ = ((is.take (first + q)).drop first).drop (p + 1) := by
      rw [List.take_drop]
    _ = between is (first + p) (first + q) := by
      rw [List.drop_drop, ← Nat.add_assoc, between]

theorem lt_of_partner?_extract (h : partner? (is.extract first last) p = some q) :
    q < last - first :=
  Nat.lt_of_lt_of_le (lt_length_of_partner? h) (List.length_take_le _ _)

/-! ## Pairs of a slice -/

/-- The pairs of a slice are those pairs of the whole sequence that lie in it. -/
theorem aroundBalanced_extract_iff (hq : q < last - first) :
    AroundBalanced (is.extract first last) p q ↔ AroundBalanced is (first + p) (first + q) := by
  have hbetween : between (is.extract first last) p q = between is (first + p) (first + q) :=
    between_extract (Nat.le_of_lt hq)
  constructor
  · intro h
    have hp : p < last - first := Nat.lt_trans h.lt hq
    exact {
      opens := by rw [← symbolAt?_extract hp, h.opens]
      closes := by rw [← symbolAt?_extract hq, h.closes]
      lt := Nat.add_lt_add_left h.lt first
      inner := by rw [← hbetween]; exact h.inner }
  · intro h
    have hlt : p < q := Nat.lt_of_add_lt_add_left h.lt
    have hp : p < last - first := Nat.lt_trans hlt hq
    exact {
      opens := by rw [symbolAt?_extract hp, h.opens]
      closes := by rw [symbolAt?_extract hq, h.closes]
      lt := hlt
      inner := by rw [hbetween]; exact h.inner }

theorem partner?_extract_eq_some_iff (hp : p < last - first) :
    partner? (is.extract first last) p = some q ↔
      q < last - first ∧ partner? is (first + p) = some (first + q) := by
  have hpairs (hq : q < last - first) :
      partner? (is.extract first last) p = some q ↔ partner? is (first + p) = some (first + q) := by
    simp only [partner?_eq_some_iff, ← aroundBalanced_iff_encloses,
      aroundBalanced_extract_iff hp, aroundBalanced_extract_iff hq]
  constructor
  · intro h
    have hq := lt_of_partner?_extract h
    exact ⟨hq, (hpairs hq).mp h⟩
  · intro h
    exact (hpairs h.1).mpr h.2

/-- A scan within a slice finds the partner of the whole sequence if that lies in the slice, and
none otherwise. So the table of an accepted slice holds the partners of the whole sequence, whether
the whole sequence is balanced or not. -/
theorem partner?_extract (is : List Instruction) (first last : Nat) :
    (∀ p < last - first, partner? (is.extract first last) p =
      ((partner? is (first + p)).filter fun q ↦ first ≤ q ∧ q < last).map (· - first)) ∧
    ∀ table, JumpTable.ofInstructions (is.extract first last) = .ok table →
      ∀ p b, symbolAt? (is.extract first last) p = some (.bracket b) →
        ∃ q, partner? is (first + p) = some q ∧ first ≤ q ∧ q < last ∧
          table.partner? p = some (q - first) := by
  constructor
  · intro p hp
    ext r
    rw [partner?_extract_eq_some_iff hp, Option.map_eq_some_iff]
    simp only [Option.filter_eq_some_iff, decide_eq_true_eq]
    constructor
    · intro ⟨hr, hpartner⟩
      exact ⟨first + r, ⟨hpartner, Nat.le_add_right _ _, by omega⟩, Nat.add_sub_cancel_left _ _⟩
    · intro ⟨q, ⟨hpartner, hfirst, hlast⟩, hr⟩
      subst hr
      rw [Nat.add_sub_cancel' hfirst]
      exact ⟨by omega, hpartner⟩
  · intro table accepted p b hb
    obtain ⟨balanced, agrees⟩ := JumpTable.balanced_of_ofInstructions accepted
    obtain ⟨r, hr⟩ := exists_partner_of_balanced balanced hb
    have hp := lt_of_partner?_extract (partner?_symm hr)
    obtain ⟨hlt, hpartner⟩ := (partner?_extract_eq_some_iff hp).mp hr
    refine ⟨first + r, hpartner, Nat.le_add_right _ _, by omega, ?_⟩
    rw [agrees, hr, Nat.add_sub_cancel_left]

/-- A slice of an unbalanced sequence that holds the inner one of two loops, and another one that
ends before the closing bracket of the outer one. -/
theorem partner?_extract_inner_loop :
    0 < 4 - 1 ∧ partner? ((Program.ofString "[[-]]]").toList.extract 1 4) 0 = some 2 ∧
    0 < 4 - 0 ∧ partner? ((Program.ofString "[[-]]]").toList.extract 0 4) 0 = none ∧
    ∃ table, JumpTable.ofInstructions ((Program.ofString "[[-]]]").toList.extract 1 4) = .ok table ∧
      symbolAt? ((Program.ofString "[[-]]]").toList.extract 1 4) 2 = some (.bracket .closing) ∧
      ∃ q, partner? (Program.ofString "[[-]]]").toList (1 + 2) = some q ∧ 1 ≤ q ∧ q < 4 ∧
        table.partner? 2 = some (q - 1) := by
  have accepted : JumpTable.ofInstructions ((Program.ofString "[[-]]]").toList.extract 1 4) =
      .ok ⟨#[some 2, none, some 0]⟩ := rfl
  refine ⟨by decide, ?_, by decide, ?_, _, accepted, rfl, ?_⟩
  · rw [(partner?_extract _ 1 4).1 0 (by decide)]
    rfl
  · rw [(partner?_extract _ 0 4).1 0 (by decide)]
    rfl
  · exact (partner?_extract _ 1 4).2 _ accepted 2 .closing rfl

end Brainfuck.Bracket
