import Brainfuck.Proofs.Bracket.OnePass

/-!
# Partners by position

Two positions of a sequence are partners when one of them holds an opening bracket, the other holds
a closing one, the opening one comes first and what stands strictly between them is balanced. This
says in terms of positions what an enclosure says in terms of a split of the sequence, and the scan
finds exactly these partners. So the relation is symmetric, and positions without a bracket have no
part in it, whatever the rest of the sequence looks like.
-/

namespace Brainfuck.Bracket

/-- The symbol at a position; `none` past the end. -/
def symbolAt? (is : List Instruction) (p : Nat) : Option Symbol :=
  is[p]?.map Instruction.symbol

def between (is : List Instruction) (p q : Nat) : List Instruction :=
  (is.take q).drop (p + 1)

/-- The position `p` holds an opening bracket, the later position `q` holds a closing one, and what
stands between them is balanced. -/
structure AroundBalanced (is : List Instruction) (p q : Nat) : Prop where
  opens : symbolAt? is p = some (.bracket opening)
  closes : symbolAt? is q = some (.bracket closing)
  lt : p < q
  inner : Balanced (between is p q)

/-! ## Positions of a split sequence -/

theorem between_split (before : List Instruction) (first : Instruction) (body : List Instruction)
    (last : Instruction) (after : List Instruction) :
    between (before ++ first :: (body ++ last :: after)) before.length
      (before.length + 1 + body.length) = body := by
  have hlength : before.length + 1 + body.length = (before ++ first :: body).length := by
    rw [List.length_append, List.length_cons]
    omega
  have hsplit : before ++ first :: (body ++ last :: after) =
      (before ++ first :: body) ++ last :: after := by
    rw [List.append_assoc, List.cons_append]
  have hfront : before ++ first :: body = (before ++ [first]) ++ body := by
    rw [List.append_assoc, List.singleton_append]
  calc
    between (before ++ first :: (body ++ last :: after)) before.length
          (before.length + 1 + body.length) =
        (before ++ first :: body).drop (before.length + 1) := by
      rw [between, hlength, hsplit, List.take_left]
    _ = body := by
      rw [hfront]
      apply List.drop_left'
      rw [List.length_append, List.length_singleton]

theorem symbolAt?_append_left {front : List Instruction} {p : Nat} (hp : p < front.length)
    (back : List Instruction) : symbolAt? (front ++ back) p = symbolAt? front p := by
  unfold symbolAt?
  rw [List.getElem?_append_left hp]

theorem symbolAt?_append_right (front back : List Instruction) (p : Nat) :
    symbolAt? (front ++ back) (front.length + p) = symbolAt? back p := by
  unfold symbolAt?
  rw [List.getElem?_append_right (Nat.le_add_right _ _), Nat.add_sub_cancel_left]

theorem symbolAt?_first (before : List Instruction) (first : Instruction)
    (rest : List Instruction) :
    symbolAt? (before ++ first :: rest) before.length = some first.symbol :=
  symbolAt?_append_right before (first :: rest) 0

theorem symbolAt?_last (before : List Instruction) (first : Instruction)
    (body : List Instruction) (last : Instruction) (after : List Instruction) :
    symbolAt? (before ++ first :: (body ++ last :: after)) (before.length + 1 + body.length) =
      some last.symbol := by
  have hlast := symbolAt?_first (before ++ first :: body) last after
  rw [List.append_assoc, List.cons_append, List.length_append, List.length_cons,
    ← Nat.add_assoc, Nat.add_right_comm] at hlast
  exact hlast

theorem exists_split_of_symbolAt? {is : List Instruction} {p : Nat} {s : Symbol}
    (h : symbolAt? is p = some s) :
    ∃ before i after, is = before ++ i :: after ∧ p = before.length ∧ i.symbol = s := by
  obtain ⟨i, hi, hsymbol⟩ := Option.map_eq_some_iff.mp h
  obtain ⟨before, after, hsplit, hlength⟩ := exists_split_of_getElem? hi
  exact ⟨before, i, after, hsplit, hlength, hsymbol⟩

/-! ## Enclosures in terms of positions -/

theorem Encloses.aroundBalanced {is : List Instruction} {p q : Nat} (h : Encloses is p q) :
    AroundBalanced is p q := by
  have hlt := h.lt.1
  obtain ⟨rfl, opens, inner, closes, rfl, rfl⟩ := h
  exact {
    opens := by rw [symbolAt?_first, opens]
    closes := by rw [symbolAt?_last, closes]
    lt := hlt
    inner := by rwa [between_split] }

/-- The sequence is split at the later position first, and the part before that at the earlier
one. -/
theorem AroundBalanced.encloses {is : List Instruction} {p q : Nat} (h : AroundBalanced is p q) :
    Encloses is p q := by
  obtain ⟨opens, closes, hlt, inner⟩ := h
  obtain ⟨front, last, after, rfl, rfl, hlast⟩ := exists_split_of_symbolAt? closes
  rw [symbolAt?_append_left hlt] at opens
  obtain ⟨before, first, body, rfl, rfl, hfirst⟩ := exists_split_of_symbolAt? opens
  have hsplit : (before ++ first :: body) ++ last :: after =
      before ++ first :: (body ++ last :: after) := by
    rw [List.append_assoc, List.cons_append]
  have hlength : (before ++ first :: body).length = before.length + 1 + body.length := by
    rw [List.length_append, List.length_cons]
    omega
  rw [hsplit, hlength, between_split] at inner
  exact .intro hsplit hfirst inner hlast rfl hlength

theorem aroundBalanced_iff_encloses {is : List Instruction} {p q : Nat} :
    AroundBalanced is p q ↔ Encloses is p q :=
  ⟨AroundBalanced.encloses, Encloses.aroundBalanced⟩

/-! ## Positions without a partner -/

theorem partner?_eq_none_of_command {is : List Instruction} {p : Nat} {c : Command}
    (h : symbolAt? is p = some (.command c)) : partner? is p = none := by
  obtain ⟨before, i, after, rfl, rfl, hi⟩ := exists_split_of_symbolAt? h
  exact partner?_of_command hi before after

/-- In every sequence, balanced or not, the partner of a position is the position of the bracket
that encloses a balanced part together with it. Commands and positions past the end have no partner,
and partners are partners of each other. -/
theorem partner?_eq_some_iff_aroundBalanced (is : List Instruction) :
    (∀ p q, partner? is p = some q ↔ AroundBalanced is p q ∨ AroundBalanced is q p) ∧
    (∀ p c, symbolAt? is p = some (.command c) → partner? is p = none) ∧
    (∀ p, is.length ≤ p → partner? is p = none) ∧
    ∀ p q, partner? is p = some q → partner? is q = some p := by
  refine ⟨fun p q ↦ ?_, fun p c ↦ partner?_eq_none_of_command, fun p ↦ partner?_of_length_le,
    fun p q ↦ partner?_symm⟩
  calc
    partner? is p = some q ↔ Encloses is p q ∨ Encloses is q p := partner?_eq_some_iff
    _ ↔ AroundBalanced is p q ∨ AroundBalanced is q p := by
      rw [aroundBalanced_iff_encloses, aroundBalanced_iff_encloses]

end Brainfuck.Bracket
