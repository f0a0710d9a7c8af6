import Brainfuck.Bracket

/-!
# Enclosures

Two brackets enclose each other when an opening one comes first, a closing one comes later and what
stands between them is balanced. The scan finds exactly the enclosing bracket: a walk passes over a
balanced sequence without changing its depth, and what a walk has passed when it stops at depth zero
is balanced. So the partner of a bracket is a matter of the grammar alone, whatever stands before or
after the pair and whether the rest of the sequence is balanced or not.
-/

namespace Brainfuck

/-! ## Balanced sequences in a row -/

theorem Balanced.append {as bs : List Instruction} (ha : Balanced as) (hb : Balanced bs) :
    Balanced (as ++ bs) := by
  induction ha with
  | nil => exact hb
  | command isCommand _ ih => exact .command isCommand ih
  | loop opens inner closes _ _ ih =>
    rw [List.cons_append, List.append_assoc, List.cons_append]
    exact .loop opens inner closes ih

theorem Balanced.singleton {i : Instruction} {c : Command} (h : i.symbol = .command c) :
    Balanced [i] :=
  .command h .nil

/-- A loop by itself. -/
theorem Balanced.enclosed {first last : Instruction} {body : List Instruction}
    (opens : first.symbol = .bracket .opening) (inner : Balanced body)
    (closes : last.symbol = .bracket .closing) : Balanced (first :: (body ++ [last])) :=
  .loop opens inner closes .nil

namespace Bracket

def other : Bracket → Bracket
  | opening => closing
  | closing => opening

theorem ne_iff_eq_other {met b : Bracket} : met ≠ b ↔ met = b.other := by
  cases met <;> cases b <;> decide

/-- Instructions in the order in which a walk away from a bracket passes them, put back in the order
of the text. -/
def inTextOrder : Bracket → List Instruction → List Instruction
  | opening, passed => passed
  | closing, passed => passed.reverse

/-! ## One step of a walk -/

theorem walk_command {b : Bracket} {i : Instruction} {c : Command} (h : i.symbol = .command c)
    (depth passed : Nat) (rest : List Instruction) :
    walk b depth passed (i :: rest) = walk b depth (passed + 1) rest := by
  simp [walk, h]

theorem walk_same {b : Bracket} {i : Instruction} (h : i.symbol = .bracket b)
    (depth passed : Nat) (rest : List Instruction) :
    walk b depth passed (i :: rest) = walk b (depth + 1) (passed + 1) rest := by
  simp [walk, h]

theorem walk_other_succ {b : Bracket} {i : Instruction} (h : i.symbol = .bracket b.other)
    (depth passed : Nat) (rest : List Instruction) :
    walk b (depth + 1) passed (i :: rest) = walk b depth (passed + 1) rest := by
  have hne : b.other ≠ b := ne_iff_eq_other.mpr rfl
  simp [walk, h, hne]

theorem walk_other_zero {b : Bracket} {i : Instruction} (h : i.symbol = .bracket b.other)
    (passed : Nat) (rest : List Instruction) : walk b 0 passed (i :: rest) = some passed := by
  have hne : b.other ≠ b := ne_iff_eq_other.mpr rfl
  simp [walk, h, hne]

/-! ## Walking over a balanced sequence -/

theorem walk_opening_append {body : List Instruction} (h : Balanced body) (depth passed : Nat)
    (rest : List Instruction) :
    walk opening depth passed (body ++ rest) =
      walk opening depth (passed + body.length) rest := by
  induction h generalizing depth passed rest with
  | nil => rfl
  | command isCommand _ ih =>
    rw [List.cons_append, walk_command isCommand, ih, List.length_cons]
    congr 1
    omega
  | @loop first last body tail opens _ closes _ inner_ih ih =>
    have hsplit : first :: (body ++ last :: tail) ++ rest =
        first :: (body ++ last :: (tail ++ rest)) := by
      rw [List.cons_append, List.append_assoc, List.cons_append]
    have hlength : (first :: (body ++ last :: tail)).length = body.length + tail.length + 2 := by
      simp only [List.length_cons, List.length_append]
      omega
    calc
      walk opening depth passed (first :: (body ++ last :: tail) ++ rest) =
          walk opening (depth + 1) (passed + 1) (body ++ last :: (tail ++ rest)) := by
        rw [hsplit, walk_same opens]
      _ = walk opening (depth + 1) (passed + 1 + body.length) (last :: (tail ++ rest)) :=
        inner_ih ..
      _ = walk opening depth (passed + 1 + body.length + 1) (tail ++ rest) :=
        walk_other_succ closes ..
      _ = walk opening depth (passed + 1 + body.length + 1 + tail.length) rest := ih ..
      _ = walk opening depth (passed + (first :: (body ++ last :: tail)).length) rest := by
        rw [hlength]
        congr 1
        omega

theorem walk_closing_append {body : List Instruction} (h : Balanced body) (depth passed : Nat)
    (rest : List Instruction) :
    walk closing depth passed (body.reverse ++ rest) =
      walk closing depth (passed + body.length) rest := by
  induction h generalizing depth passed rest with
  | nil => rfl
  | command isCommand _ ih =>
    rw [List.reverse_cons, List.append_assoc, ih, List.singleton_append, walk_command isCommand]
    rfl
  | @loop first last body tail opens _ closes _ inner_ih ih =>
    have hsplit : (first :: (body ++ last :: tail)).reverse ++ rest =
        tail.reverse ++ last :: (body.reverse ++ first :: rest) := by
      simp only [List.reverse_cons, List.reverse_append, List.append_assoc, List.cons_append,
        List.nil_append]
    have hlength : (first :: (body ++ last :: tail)).length = body.length + tail.length + 2 := by
      simp only [List.length_cons, List.length_append]
      omega
    calc
      walk closing depth passed ((first :: (body ++ last :: tail)).reverse ++ rest) =
          walk closing depth (passed + tail.length)
            (last :: (body.reverse ++ first :: rest)) := by
        rw [hsplit, ih]
      _ = walk closing (depth + 1) (passed + tail.length + 1) (body.reverse ++ first :: rest) :=
        walk_same closes ..
      _ = walk closing (depth + 1) (passed + tail.length + 1 + body.length) (first :: rest) :=
        inner_ih ..
      _ = walk closing depth (passed + tail.length + 1 + body.length + 1) rest :=
        walk_other_succ opens ..
      _ = walk closing depth (passed + (first :: (body ++ last :: tail)).length) rest := by
        rw [hlength]
        congr 1
        omega

/-- A walk passes over a balanced sequence and comes out at the depth at which it went in. -/
theorem walk_append {b : Bracket} {passage : List Instruction}
    (h : Balanced (b.inTextOrder passage)) (depth passed : Nat) (rest : List Instruction) :
    walk b depth passed (passage ++ rest) = walk b depth (passed + passage.length) rest := by
  cases b with
  | opening => exact walk_opening_append h depth passed rest
  | closing =>
    have hwalk := walk_closing_append h depth passed rest
    rw [inTextOrder, List.reverse_reverse, List.length_reverse] at hwalk
    exact hwalk

theorem walk_eq_none {b : Bracket} {passage : List Instruction}
    (h : Balanced (b.inTextOrder passage)) (depth passed : Nat) :
    walk b depth passed passage = none := by
  have hwalk := walk_append h depth passed []
  rw [List.append_nil] at hwalk
  rw [hwalk, walk]

/-! ## What a walk has passed when it stops -/

/-- A passage that leaves the given number of loops at their far ends and, apart from that, is
balanced. -/
inductive Leaves (b : Bracket) : Nat → List Instruction → Prop where
  | stay {passage : List Instruction} (balanced : Balanced (b.inTextOrder passage)) :
      Leaves b 0 passage
  | leave {depth : Nat} {passage rest : List Instruction} {i : Instruction}
      (balanced : Balanced (b.inTextOrder passage)) (far : i.symbol = .bracket b.other)
      (others : Leaves b depth rest) : Leaves b (depth + 1) (passage ++ i :: rest)

theorem inTextOrder_balanced_append {b : Bracket} {as bs : List Instruction}
    (ha : Balanced (b.inTextOrder as)) (hb : Balanced (b.inTextOrder bs)) :
    Balanced (b.inTextOrder (as ++ bs)) := by
  cases b with
  | opening => exact ha.append hb
  | closing =>
    rw [inTextOrder, List.reverse_append]
    exact hb.append ha

theorem inTextOrder_balanced_loop {b : Bracket} {near far : Instruction}
    {passage : List Instruction} (hnear : near.symbol = .bracket b)
    (h : Balanced (b.inTextOrder passage)) (hfar : far.symbol = .bracket b.other) :
    Balanced (b.inTextOrder (near :: (passage ++ [far]))) := by
  cases b with
  | opening => exact .enclosed hnear h hfar
  | closing =>
    have hloop := Balanced.enclosed hfar h hnear
    simpa only [inTextOrder, List.reverse_cons, List.reverse_append, List.reverse_nil,
      List.nil_append, List.cons_append] using hloop

theorem Leaves.prepend {b : Bracket} {depth : Nat} {as rest : List Instruction}
    (ha : Balanced (b.inTextOrder as)) (h : Leaves b depth rest) : Leaves b depth (as ++ rest) := by
  cases h with
  | stay balanced => exact .stay (inTextOrder_balanced_append ha balanced)
  | leave balanced far others =>
    rw [← List.append_assoc]
    exact .leave (inTextOrder_balanced_append ha balanced) far others

theorem exists_of_walk_eq_some {b : Bracket} {depth passed found : Nat} {is : List Instruction}
    (h : walk b depth passed is = some found) :
    ∃ passage i rest, is = passage ++ i :: rest ∧ Leaves b depth passage ∧
      i.symbol = .bracket b.other ∧ found = passed + passage.length := by
  induction is generalizing depth passed with
  | nil => cases h
  | cons i is ih =>
    cases hs : i.symbol with
    | command c =>
      rw [walk_command hs] at h
      obtain ⟨passage, far, rest, rfl, hleaves, hfar, rfl⟩ := ih h
      have hbalanced : Balanced (b.inTextOrder [i]) := by
        cases b <;> exact .singleton hs
      refine ⟨i :: passage, far, rest, rfl, hleaves.prepend hbalanced, hfar, ?_⟩
      rw [List.length_cons]
      omega
    | bracket met =>
      by_cases hmet : met = b
      · subst hmet
        rw [walk_same hs] at h
        obtain ⟨passage, far, rest, rfl, hleaves, hfar, rfl⟩ := ih h
        -- The first loop that the passage leaves is the one entered here.
        cases hleaves with
        | @leave _ body outside last balanced closes others =>
          refine ⟨i :: (body ++ last :: outside), far, rest, rfl, ?_, hfar, ?_⟩
          · have hloop := inTextOrder_balanced_loop hs balanced closes
            have hprepend := others.prepend hloop
            rwa [List.cons_append, List.append_assoc, List.singleton_append] at hprepend
          · rw [List.length_cons]
            omega
      · have hother : i.symbol = .bracket b.other := by rw [hs, ne_iff_eq_other.mp hmet]
        cases depth with
        | zero =>
          rw [walk_other_zero hother, Option.some.injEq] at h
          refine ⟨[], i, is, rfl, .stay ?_, hother, h.symm⟩
          cases b <;> exact .nil
        | succ depth =>
          rw [walk_other_succ hother] at h
          obtain ⟨passage, far, rest, rfl, hleaves, hfar, rfl⟩ := ih h
          have hempty : Balanced (b.inTextOrder []) := by cases b <;> exact .nil
          refine ⟨i :: passage, far, rest, rfl, .leave hempty hother hleaves, hfar, ?_⟩
          rw [List.length_cons]
          omega

/-- A walk stops at the first bracket of the other kind after a balanced passage. -/
theorem walk_zero_eq_some_iff {b : Bracket} {found : Nat} {is : List Instruction} :
    walk b 0 0 is = some found ↔
      ∃ passage i rest, is = passage ++ i :: rest ∧ Balanced (b.inTextOrder passage) ∧
        i.symbol = .bracket b.other ∧ found = passage.length := by
  constructor
  · intro h
    obtain ⟨passage, i, rest, hsplit, hleaves, hother, hfound⟩ := exists_of_walk_eq_some h
    cases hleaves with
    | stay balanced => exact ⟨passage, i, rest, hsplit, balanced, hother, by omega⟩
  · rintro ⟨passage, i, rest, rfl, balanced, hother, rfl⟩
    rw [walk_append balanced, walk_other_zero hother, Nat.zero_add]

/-! ## Partners -/

theorem exists_split_of_getElem? {is : List Instruction} {p : Nat} {i : Instruction}
    (h : is[p]? = some i) : ∃ before after, is = before ++ i :: after ∧ p = before.length := by
  obtain ⟨hlt, hi⟩ := List.getElem?_eq_some_iff.mp h
  refine ⟨is.take p, is.drop (p + 1), ?_, ?_⟩
  · rw [← hi, ← List.drop_eq_getElem_cons hlt, List.take_append_drop]
  · rw [List.length_take, Nat.min_eq_left (Nat.le_of_lt hlt)]

theorem partner?_of_opening {first : Instruction} (h : first.symbol = .bracket .opening)
    (before after : List Instruction) :
    partner? (before ++ first :: after) before.length =
      (walk opening 0 0 after).map (before.length + 1 + ·) := by
  simp [partner?, h]

theorem partner?_of_closing {last : Instruction} (h : last.symbol = .bracket .closing)
    (before after : List Instruction) :
    partner? (before ++ last :: after) before.length =
      (walk closing 0 0 before.reverse).map (before.length - 1 - ·) := by
  simp [partner?, h]

theorem partner?_of_command {i : Instruction} {c : Command} (h : i.symbol = .command c)
    (before after : List Instruction) : partner? (before ++ i :: after) before.length = none := by
  simp [partner?, h]

theorem partner?_of_closing_eq_none {last : Instruction} (h : last.symbol = .bracket .closing)
    {before : List Instruction} (balanced : Balanced before) (after : List Instruction) :
    partner? (before ++ last :: after) before.length = none := by
  have hwalk : Balanced (closing.inTextOrder before.reverse) := by
    rwa [inTextOrder, List.reverse_reverse]
  rw [partner?_of_closing h, walk_eq_none hwalk, Option.map_none]

theorem partner?_of_opening_eq_none {first : Instruction} (h : first.symbol = .bracket .opening)
    (before : List Instruction) {after : List Instruction} (balanced : Balanced after) :
    partner? (before ++ first :: after) before.length = none := by
  rw [partner?_of_opening h, walk_eq_none (b := .opening) balanced, Option.map_none]

theorem partner?_of_length_le {is : List Instruction} {p : Nat} (h : is.length ≤ p) :
    partner? is p = none := by
  simp [partner?, List.getElem?_eq_none h]

/-- The brackets at two positions enclose a balanced sequence. -/
inductive Encloses (is : List Instruction) (p q : Nat) : Prop where
  | intro {before : List Instruction} {first : Instruction} {body : List Instruction}
      {last : Instruction} {after : List Instruction}
      (split : is = before ++ first :: (body ++ last :: after))
      (opens : first.symbol = .bracket .opening) (inner : Balanced body)
      (closes : last.symbol = .bracket .closing)
      (first_at : p = before.length) (last_at : q = before.length + 1 + body.length)

namespace Encloses

theorem partner?_first {is : List Instruction} {p q : Nat} (h : Encloses is p q) :
    partner? is p = some q := by
  obtain ⟨rfl, opens, inner, closes, rfl, rfl⟩ := h
  rw [partner?_of_opening opens, Option.map_eq_some_iff]
  exact ⟨_, walk_zero_eq_some_iff.mpr ⟨_, _, _, rfl, inner, closes, rfl⟩, rfl⟩

theorem partner?_last {is : List Instruction} {p q : Nat} (h : Encloses is p q) :
    partner? is q = some p := by
  obtain @⟨before, first, body, last, after, rfl, opens, inner, closes, rfl, rfl⟩ := h
  have hsplit : before ++ first :: (body ++ last :: after) =
      (before ++ first :: body) ++ last :: after := by
    rw [List.append_assoc, List.cons_append]
  have hlength : before.length + 1 + body.length = (before ++ first :: body).length := by
    rw [List.length_append, List.length_cons]
    omega
  have hreverse : (before ++ first :: body).reverse =
      body.reverse ++ first :: before.reverse := by
    rw [List.reverse_append, List.reverse_cons, List.append_assoc, List.singleton_append]
  have hinner : Balanced (closing.inTextOrder body.reverse) := by
    rwa [inTextOrder, List.reverse_reverse]
  have hwalk : walk closing 0 0 (before ++ first :: body).reverse = some body.length := by
    rw [hreverse, walk_zero_eq_some_iff]
    exact ⟨_, _, _, rfl, hinner, opens, List.length_reverse.symm⟩
  calc
    partner? (before ++ first :: (body ++ last :: after)) (before.length + 1 + body.length) =
        partner? ((before ++ first :: body) ++ last :: after)
          (before ++ first :: body).length := by
      rw [hsplit, hlength]
    _ = some ((before ++ first :: body).length - 1 - body.length) := by
      rw [partner?_of_closing closes, hwalk, Option.map_some]
    _ = some before.length := by
      rw [← hlength]
      congr 1
      omega

/-- Whatever is put around a sequence, its pairs stay pairs. -/
theorem extend {is : List Instruction} {p q : Nat} (h : Encloses is p q)
    (front back : List Instruction) :
    Encloses (front ++ (is ++ back)) (front.length + p) (front.length + q) := by
  obtain @⟨before, first, body, last, after, rfl, opens, inner, closes, rfl, rfl⟩ := h
  have hsplit : front ++ (before ++ first :: (body ++ last :: after) ++ back) =
      (front ++ before) ++ first :: (body ++ last :: (after ++ back)) := by
    simp only [List.append_assoc, List.cons_append]
  have hlength : (front ++ before).length = front.length + before.length := List.length_append
  exact ⟨hsplit, opens, inner, closes, hlength.symm, by omega⟩

theorem lt {is : List Instruction} {p q : Nat} (h : Encloses is p q) :
    p < q ∧ q < is.length := by
  obtain ⟨rfl, _, _, _, rfl, rfl⟩ := h
  simp only [List.length_append, List.length_cons]
  omega

end Encloses

/-- The scan finds the bracket that encloses, on either side. -/
theorem partner?_eq_some_iff {is : List Instruction} {p q : Nat} :
    partner? is p = some q ↔ Encloses is p q ∨ Encloses is q p := by
  constructor
  · intro h
    cases hp : is[p]? with
    | none => rw [partner?_of_length_le (List.getElem?_eq_none_iff.mp hp)] at h; cases h
    | some i =>
      obtain ⟨before, after, rfl, rfl⟩ := exists_split_of_getElem? hp
      match hs : i.symbol with
      | .command c => rw [partner?_of_command hs] at h; cases h
      | .bracket .opening =>
        rw [partner?_of_opening hs, Option.map_eq_some_iff] at h
        obtain ⟨found, hwalk, rfl⟩ := h
        obtain ⟨body, last, after, rfl, inner, closes, rfl⟩ := walk_zero_eq_some_iff.mp hwalk
        exact .inl ⟨rfl, hs, inner, closes, rfl, rfl⟩
      | .bracket .closing =>
        rw [partner?_of_closing hs, Option.map_eq_some_iff] at h
        obtain ⟨found, hwalk, rfl⟩ := h
        obtain ⟨body, first, front, hreverse, inner, opens, rfl⟩ := walk_zero_eq_some_iff.mp hwalk
        obtain rfl : before = front.reverse ++ first :: body.reverse := by
          rw [← List.reverse_reverse before, hreverse, List.reverse_append, List.reverse_cons,
            List.append_assoc, List.singleton_append]
        have hsplit : (front.reverse ++ first :: body.reverse) ++ i :: after =
            front.reverse ++ first :: (body.reverse ++ i :: after) := by
          rw [List.append_assoc, List.cons_append]
        refine .inr ⟨hsplit, opens, inner, hs, ?_, ?_⟩ <;>
          simp only [List.length_append, List.length_cons, List.length_reverse] <;> omega
  · rintro (h | h)
    · exact h.partner?_first
    · exact h.partner?_last

/-- A partner is a position of the sequence. -/
theorem lt_length_of_partner? {is : List Instruction} {p q : Nat} (h : partner? is p = some q) :
    q < is.length := by
  rcases partner?_eq_some_iff.mp h with h | h
  · exact h.lt.2
  · exact Nat.lt_trans h.lt.1 h.lt.2

theorem partner?_extend {is : List Instruction} {p q : Nat} (h : partner? is p = some q)
    (front back : List Instruction) :
    partner? (front ++ (is ++ back)) (front.length + p) = some (front.length + q) := by
  rcases partner?_eq_some_iff.mp h with h | h
  · exact (h.extend front back).partner?_first
  · exact (h.extend front back).partner?_last

theorem partner?_prepend {is : List Instruction} {p q : Nat} (h : partner? is p = some q)
    (front : List Instruction) : partner? (front ++ is) (front.length + p) =
      some (front.length + q) := by
  have hextend := partner?_extend h front []
  rwa [List.append_nil] at hextend

/-- Every bracket of a balanced sequence has a partner. -/
theorem exists_partner_of_balanced {is : List Instruction} (h : Balanced is) {p : Nat}
    {b : Bracket} (hp : is[p]?.map Instruction.symbol = some (.bracket b)) :
    ∃ q, partner? is p = some q := by
  induction h generalizing p with
  | nil => cases hp
  | @command i c rest isCommand _ ih =>
    cases p with
    | zero => simp [isCommand] at hp
    | succ p =>
      obtain ⟨q, hq⟩ := ih hp
      have hprepend := partner?_prepend hq [i]
      rw [List.singleton_append, List.length_singleton, Nat.add_comm] at hprepend
      exact ⟨_, hprepend⟩
  | @loop first last body rest opens inner closes _ inner_ih ih =>
    have hpair : Encloses (first :: (body ++ last :: rest)) 0 (0 + 1 + body.length) :=
      .intro (List.nil_append _).symm opens inner closes rfl rfl
    cases p with
    | zero => exact ⟨_, hpair.partner?_first⟩
    | succ p =>
      rw [List.getElem?_cons_succ] at hp
      rcases Nat.lt_trichotomy p body.length with hlt | rfl | hgt
      · rw [List.getElem?_append_left hlt] at hp
        obtain ⟨q, hq⟩ := inner_ih hp
        have hextend := partner?_extend hq [first] (last :: rest)
        rw [List.singleton_append, List.length_singleton, Nat.add_comm] at hextend
        exact ⟨_, hextend⟩
      · rw [Nat.zero_add, Nat.add_comm] at hpair
        exact ⟨_, hpair.partner?_last⟩
      · obtain ⟨k, rfl⟩ := Nat.exists_eq_add_of_le hgt
        rw [List.getElem?_append_right (by omega), Nat.succ_eq_add_one, Nat.add_right_comm,
          Nat.add_assoc, Nat.add_sub_cancel_left, List.getElem?_cons_succ] at hp
        obtain ⟨q, hq⟩ := ih hp
        have hprepend := partner?_prepend hq (first :: (body ++ [last]))
        have hlength : (first :: (body ++ [last])).length + k = body.length.succ + k + 1 := by
          simp only [List.length_cons, List.length_append, List.length_nil]
          omega
        rw [List.cons_append, List.append_assoc, List.singleton_append, hlength] at hprepend
        exact ⟨_, hprepend⟩

end Bracket

end Brainfuck
