import Brainfuck.Program.Basic
import Brainfuck.Proofs.Bracket.Enclosure

/-!
# Pairing in one pass

The pass that builds a jump table keeps the opening brackets that are still waiting. At every moment
the instructions visited so far are a balanced sequence, a waiting bracket, a balanced sequence, and
so on up to the innermost waiting bracket and a last balanced sequence; and the entries made so far
are the partners that the scan finds within the instructions visited. So the table of a whole
sequence agrees with the scan everywhere, and a bracket is rejected exactly when the scan finds no
partner for it.

So the pass decides a context-free grammar. What it accepts is balanced, since nothing is waiting at
its end; and it rejects no balanced sequence, since the bracket that it reports has no partner,
while every bracket of a balanced sequence has one.
-/

namespace Brainfuck

/-- A sequence falls into balanced parts between the given waiting brackets, the innermost first. -/
inductive Waits : List Instruction → List (Nat × Instruction) → Prop where
  | done {is : List Instruction} (balanced : Balanced is) : Waits is []
  | more {before body : List Instruction} {i : Instruction} {waiting : List (Nat × Instruction)}
      (outer : Waits before waiting) (opens : i.symbol = .bracket .opening)
      (inner : Balanced body) : Waits (before ++ i :: body) ((before.length, i) :: waiting)

namespace Waits

theorem append_balanced {is body : List Instruction} {waiting : List (Nat × Instruction)}
    (h : Waits is waiting) (hbody : Balanced body) : Waits (is ++ body) waiting := by
  cases h with
  | done balanced => exact .done (balanced.append hbody)
  | more outer opens inner =>
    rw [List.append_assoc, List.cons_append]
    exact .more outer opens (inner.append hbody)

theorem append_opening {is : List Instruction} {waiting : List (Nat × Instruction)}
    {i : Instruction} (h : Waits is waiting) (opens : i.symbol = .bracket .opening) :
    Waits (is ++ [i]) ((is.length, i) :: waiting) :=
  .more h opens .nil

end Waits

namespace Bracket

/-! ## The partners after one more instruction -/

theorem partner?_append {is : List Instruction} {p q : Nat} (h : partner? is p = some q)
    (back : List Instruction) : partner? (is ++ back) p = some q := by
  have hextend := partner?_extend h [] back
  rwa [List.nil_append, List.length_nil, Nat.zero_add, Nat.zero_add] at hextend

theorem partner?_symm {is : List Instruction} {p q : Nat} (h : partner? is p = some q) :
    partner? is q = some p :=
  partner?_eq_some_iff.mpr (partner?_eq_some_iff.mp h).symm

/-- A pair whose second bracket is not the last instruction does not need the last instruction. -/
theorem Encloses.of_append_singleton {is : List Instruction} {i : Instruction} {p q : Nat}
    (h : Encloses (is ++ [i]) p q) :
    Encloses is p q ∨ (i.symbol = .bracket .closing ∧ q = is.length) := by
  obtain @⟨before, first, body, last, after, split, opens, inner, closes, rfl, rfl⟩ := h
  rcases List.eq_nil_or_concat after with rfl | ⟨after, j, rfl⟩
  · have hsplit : is ++ [i] = (before ++ first :: body) ++ [last] := by
      rw [split, List.append_assoc, List.cons_append]
    obtain ⟨rfl, hi⟩ := List.append_inj' hsplit rfl
    obtain rfl : i = last := List.singleton_inj.mp hi
    refine .inr ⟨closes, ?_⟩
    rw [List.length_append, List.length_cons]
    omega
  · have hsplit : is ++ [i] = (before ++ first :: (body ++ last :: after)) ++ [j] := by
      simp only [split, List.concat_eq_append, List.append_assoc, List.cons_append]
    obtain ⟨rfl, -⟩ := List.append_inj' hsplit rfl
    exact .inl ⟨rfl, opens, inner, closes, rfl, rfl⟩

/-- An instruction that closes nothing changes no partner. -/
theorem partner?_append_of_not_closing {is : List Instruction} {i : Instruction}
    (h : i.symbol ≠ .bracket .closing) (n : Nat) : partner? (is ++ [i]) n = partner? is n := by
  ext q
  constructor
  · intro hq
    rcases partner?_eq_some_iff.mp hq with hq | hq
    · rcases hq.of_append_singleton with hq | ⟨hi, -⟩
      · exact hq.partner?_first
      · exact absurd hi h
    · rcases hq.of_append_singleton with hq | ⟨hi, -⟩
      · exact hq.partner?_last
      · exact absurd hi h
  · intro hq
    exact partner?_append hq [i]

/-- A closing bracket becomes the partner of the innermost waiting one, and no other partner
changes. -/
theorem partner?_append_closing {before body : List Instruction} {first last : Instruction}
    (opens : first.symbol = .bracket .opening) (inner : Balanced body)
    (closes : last.symbol = .bracket .closing) (n : Nat) :
    partner? (before ++ first :: body ++ [last]) n =
      if n = (before ++ first :: body).length then some before.length
      else if n = before.length then some (before ++ first :: body).length
      else partner? (before ++ first :: body) n := by
  have hlength : (before ++ first :: body).length = before.length + 1 + body.length := by
    rw [List.length_append, List.length_cons]
    omega
  have hpair : Encloses (before ++ first :: body ++ [last]) before.length
      (before ++ first :: body).length :=
    ⟨by rw [List.append_assoc, List.cons_append], opens, inner, closes, rfl, hlength⟩
  split
  · next hn => rw [hn, hpair.partner?_last]
  · next hlast =>
    split
    · next hn => rw [hn, hpair.partner?_first]
    · next hfirst =>
      ext q
      constructor
      · intro hq
        rcases partner?_eq_some_iff.mp hq with h | h
        · rcases h.of_append_singleton with h | ⟨-, rfl⟩
          · exact h.partner?_first
          · -- The last instruction has one partner only.
            have hsame := h.partner?_last.symm.trans hpair.partner?_last
            exact absurd (Option.some.inj hsame) hfirst
        · rcases h.of_append_singleton with h | ⟨-, hn⟩
          · exact h.partner?_last
          · exact absurd hn hlast
      · intro hq
        exact partner?_append hq [last]

end Bracket

namespace Pairing

/-! ## What the pass keeps -/

/-- A table under construction is right about the instructions visited so far: the waiting brackets
are those that they leave open, and the entries are the partners within them. -/
structure Tracks (p : Pairing) (visited : List Instruction) : Prop where
  position_eq : p.position = visited.length
  waits : Waits visited p.waiting
  partners_eq : ∀ n, p.partners.getD n none = Bracket.partner? visited n

theorem tracks_blank (size : Nat) : (blank size).Tracks [] where
  position_eq := rfl
  waits := .done .nil
  partners_eq n := by
    rw [Bracket.partner?_of_length_le (Nat.zero_le n)]
    simp only [blank, Array.getD_eq_getD_getElem?, Array.getElem?_replicate]
    split <;> rfl

@[simp]
theorem size_blank (size : Nat) : (blank size).partners.size = size :=
  Array.size_replicate

theorem length_le_size_blank (is : List Instruction) :
    ([] : List Instruction).length + is.length ≤ (blank is.length).partners.size := by
  simp

theorem getD_link {partners : Array (Option Nat)} {first last : Nat} (hfirst : first < last)
    (hlast : last < partners.size) (n : Nat) :
    (link partners first last).getD n none =
      if n = last then some first else if n = first then some last else partners.getD n none := by
  simp only [link, Array.getD_eq_getD_getElem?, Array.getElem?_setIfInBounds]
  grind

@[simp]
theorem size_link (partners : Array (Option Nat)) (first last : Nat) :
    (link partners first last).size = partners.size := by
  simp [link]

/-- Visiting an instruction keeps the table right and its size as it is. -/
theorem Tracks.visit {p next : Pairing} {visited : List Instruction} {i : Instruction}
    (h : p.Tracks visited) (hsize : visited.length < p.partners.size)
    (hvisit : p.visit i = .ok next) :
    next.Tracks (visited ++ [i]) ∧ next.partners.size = p.partners.size := by
  have hposition : p.position + 1 = (visited ++ [i]).length := by
    rw [h.position_eq, List.length_append, List.length_singleton]
  match hs : i.symbol with
  | .command c =>
    simp only [Pairing.visit, hs, Except.ok.injEq] at hvisit
    subst hvisit
    refine ⟨⟨hposition, h.waits.append_balanced (.singleton hs), fun n ↦ ?_⟩, rfl⟩
    rw [Bracket.partner?_append_of_not_closing (by simp [hs])]
    exact h.partners_eq n
  | .bracket .opening =>
    simp only [Pairing.visit, hs, Except.ok.injEq] at hvisit
    subst hvisit
    refine ⟨⟨hposition, ?_, fun n ↦ ?_⟩, rfl⟩
    · rw [h.position_eq]
      exact h.waits.append_opening hs
    · rw [Bracket.partner?_append_of_not_closing (by simp [hs])]
      exact h.partners_eq n
  | .bracket .closing =>
    obtain ⟨position, waiting, partners⟩ := p
    obtain ⟨rfl, waits, partners_eq⟩ := h
    cases waits with
    | done balanced => simp [Pairing.visit, hs] at hvisit
    | @more before body first waiting outer opens inner =>
      simp only [Pairing.visit, hs, Except.ok.injEq] at hvisit
      subst hvisit
      refine ⟨⟨hposition, ?_, fun n ↦ ?_⟩, size_link _ _ _⟩
      · have hloop := outer.append_balanced (.enclosed opens inner hs)
        rwa [List.append_assoc, List.cons_append]
      · have hlt : before.length < (before ++ first :: body).length := by
          rw [List.length_append, List.length_cons]
          omega
        rw [Bracket.partner?_append_closing opens inner hs, ← partners_eq n]
        exact getD_link hlt hsize n

/-- An instruction is rejected when it is a closing bracket after a balanced sequence. -/
theorem Tracks.balanced_of_visit {p : Pairing} {visited : List Instruction} {i : Instruction}
    {u : UnmatchedBracket} (h : p.Tracks visited) (hvisit : p.visit i = .error u) :
    i.symbol = .bracket .closing ∧ Balanced visited ∧ u = ⟨.closing, i⟩ := by
  obtain ⟨position, waiting, partners⟩ := p
  obtain ⟨-, waits, -⟩ := h
  match hs : i.symbol with
  | .command c => simp [Pairing.visit, hs] at hvisit
  | .bracket .opening => simp [Pairing.visit, hs] at hvisit
  | .bracket .closing =>
    cases waits with
    | done balanced =>
      simp only [Pairing.visit, hs, Except.error.injEq] at hvisit
      exact ⟨rfl, balanced, hvisit.symm⟩
    | more outer opens inner => simp [Pairing.visit, hs] at hvisit

theorem visitAll_cons (p : Pairing) (i : Instruction) (is : List Instruction) :
    p.visitAll (i :: is) = p.visit i >>= fun next ↦ next.visitAll is := by
  rw [visitAll, List.foldlM_cons]
  rfl

theorem Tracks.visitAll {p last : Pairing} {visited is : List Instruction} (h : p.Tracks visited)
    (hsize : visited.length + is.length ≤ p.partners.size) (hvisit : p.visitAll is = .ok last) :
    last.Tracks (visited ++ is) := by
  induction is generalizing p visited with
  | nil =>
    cases hvisit
    rwa [List.append_nil]
  | cons i is ih =>
    rw [List.length_cons] at hsize
    rw [visitAll_cons] at hvisit
    cases hi : p.visit i with
    | error u => rw [hi] at hvisit; cases hvisit
    | ok next =>
      rw [hi] at hvisit
      obtain ⟨hnext, hnextSize⟩ := h.visit (by omega) hi
      have hlength : (visited ++ [i]).length = visited.length + 1 := List.length_append
      have hlast := ih hnext (by omega) hvisit
      rwa [List.append_assoc, List.singleton_append] at hlast

theorem Tracks.balanced_of_visitAll {p : Pairing} {visited is : List Instruction}
    {u : UnmatchedBracket} (h : p.Tracks visited)
    (hsize : visited.length + is.length ≤ p.partners.size) (hvisit : p.visitAll is = .error u) :
    ∃ before i after, is = before ++ i :: after ∧ i.symbol = .bracket .closing ∧
      Balanced (visited ++ before) ∧ u = ⟨.closing, i⟩ := by
  induction is generalizing p visited with
  | nil => cases hvisit
  | cons i is ih =>
    rw [List.length_cons] at hsize
    rw [visitAll_cons] at hvisit
    cases hi : p.visit i with
    | error v =>
      rw [hi] at hvisit
      cases hvisit
      obtain ⟨closes, balanced, hu⟩ := h.balanced_of_visit hi
      exact ⟨[], i, is, rfl, closes, by rwa [List.append_nil], hu⟩
    | ok next =>
      rw [hi] at hvisit
      obtain ⟨hnext, hnextSize⟩ := h.visit (by omega) hi
      have hlength : (visited ++ [i]).length = visited.length + 1 := List.length_append
      obtain ⟨before, j, after, rfl, closes, balanced, hu⟩ := ih hnext (by omega) hvisit
      refine ⟨i :: before, j, after, rfl, closes, ?_, hu⟩
      rwa [List.append_assoc, List.singleton_append] at balanced

end Pairing

namespace JumpTable

/-! ## Finished tables -/

/-- An accepted sequence is balanced, and its table agrees with the scan. -/
theorem balanced_of_ofInstructions {is : List Instruction} {table : JumpTable}
    (h : ofInstructions is = .ok table) :
    Balanced is ∧ ∀ p, table.partner? p = Bracket.partner? is p := by
  rw [ofInstructions] at h
  cases hvisit : (Pairing.blank is.length).visitAll is with
  | error u => rw [hvisit] at h; cases h
  | ok last =>
    rw [hvisit] at h
    obtain ⟨-, waits, partners_eq⟩ :=
      (Pairing.tracks_blank is.length).visitAll (Pairing.length_le_size_blank is) hvisit
    obtain ⟨position, waiting, partners⟩ := last
    cases waits with
    | done balanced =>
      cases h
      exact ⟨balanced, partners_eq⟩
    | more outer opens inner => cases h

/-- Why a bracket of a sequence is reported: a closing one comes while none is waiting, or an
opening one is the innermost of those that are waiting at the end. -/
inductive Blames (is : List Instruction) : UnmatchedBracket → Prop where
  | surplus {before after : List Instruction} {i : Instruction} (split : is = before ++ i :: after)
      (balanced : Balanced before) (closes : i.symbol = .bracket .closing) : Blames is ⟨.closing, i⟩
  | unclosed {before body : List Instruction} {waiting : List (Nat × Instruction)} {i : Instruction}
      (split : is = before ++ i :: body) (outer : Waits before waiting)
      (opens : i.symbol = .bracket .opening) (inner : Balanced body) : Blames is ⟨.opening, i⟩

/-- There is no other reason to reject a sequence. -/
theorem blames_of_ofInstructions {is : List Instruction} {u : UnmatchedBracket}
    (h : ofInstructions is = .error u) : Blames is u := by
  rw [ofInstructions] at h
  have hsize := Pairing.length_le_size_blank is
  cases hvisit : (Pairing.blank is.length).visitAll is with
  | error v =>
    rw [hvisit] at h
    cases h
    obtain ⟨before, i, after, split, closes, balanced, rfl⟩ :=
      (Pairing.tracks_blank _).balanced_of_visitAll hsize hvisit
    exact .surplus split balanced closes
  | ok last =>
    rw [hvisit] at h
    obtain ⟨-, waits, -⟩ := (Pairing.tracks_blank is.length).visitAll hsize hvisit
    obtain ⟨position, waiting, partners⟩ := last
    rw [List.nil_append] at waits
    cases waits with
    | done balanced => cases h
    | more outer opens inner =>
      cases h
      exact .unclosed rfl outer opens inner

/-- A rejected sequence holds the reported bracket where the scan finds no partner. -/
theorem partner?_eq_none_of_ofInstructions {is : List Instruction} {u : UnmatchedBracket}
    (h : ofInstructions is = .error u) :
    ∃ before after, is = before ++ u.instruction :: after ∧
      u.instruction.symbol = .bracket u.bracket ∧
      Bracket.partner? is before.length = none := by
  cases blames_of_ofInstructions h with
  | surplus split balanced closes =>
    subst split
    exact ⟨_, _, rfl, closes, Bracket.partner?_of_closing_eq_none closes balanced _⟩
  | unclosed split outer opens inner =>
    subst split
    exact ⟨_, _, rfl, opens, Bracket.partner?_of_opening_eq_none opens _ inner⟩

theorem exists_bracket_of_ofInstructions {is : List Instruction} {u : UnmatchedBracket}
    (h : ofInstructions is = .error u) :
    ∃ p b, is[p]?.map Instruction.symbol = some (.bracket b) ∧ Bracket.partner? is p = none := by
  obtain ⟨before, after, rfl, hsymbol, hnone⟩ := partner?_eq_none_of_ofInstructions h
  exact ⟨before.length, u.bracket, by simp [hsymbol], hnone⟩

/-- A sequence is accepted exactly when the scan finds a partner for each of its brackets, and then
its table agrees with the scan at every position, inside the sequence and past its end. -/
theorem ofInstructions_agrees_with_scan (is : List Instruction) :
    ((∃ table, ofInstructions is = .ok table) ↔
      ∀ p b, is[p]?.map Instruction.symbol = some (.bracket b) →
        (Bracket.partner? is p).isSome) ∧
    ∀ table, ofInstructions is = .ok table → ∀ p, table.partner? p = Bracket.partner? is p := by
  refine ⟨⟨?_, ?_⟩, fun table h ↦ (balanced_of_ofInstructions h).2⟩
  · rintro ⟨table, h⟩ p b hp
    rw [Option.isSome_iff_exists]
    exact Bracket.exists_partner_of_balanced (balanced_of_ofInstructions h).1 hp
  · intro hscan
    cases h : ofInstructions is with
    | ok table => exact ⟨table, rfl⟩
    | error u =>
      obtain ⟨p, b, hbracket, hnone⟩ := exists_bracket_of_ofInstructions h
      have hsome := hscan p b hbracket
      rw [hnone] at hsome
      cases hsome

/-! ## Accepted sequences -/

/-- A rejected sequence is not balanced, whichever of its brackets is reported. -/
theorem not_balanced_of_ofInstructions {is : List Instruction} {u : UnmatchedBracket}
    (h : ofInstructions is = .error u) : ¬Balanced is := by
  intro balanced
  obtain ⟨p, b, hbracket, hnone⟩ := exists_bracket_of_ofInstructions h
  obtain ⟨partner, hpartner⟩ := Bracket.exists_partner_of_balanced balanced hbracket
  rw [hnone] at hpartner
  cases hpartner

theorem exists_ofInstructions_of_balanced {is : List Instruction} (balanced : Balanced is) :
    ∃ table, ofInstructions is = .ok table := by
  cases h : ofInstructions is with
  | ok table => exact ⟨table, rfl⟩
  | error u => exact absurd balanced (not_balanced_of_ofInstructions h)

/-- The sequences that have a jump table are those that the grammar of balanced sequences
generates. -/
theorem accepted_iff_balanced (is : List Instruction) :
    (∃ table, ofInstructions is = .ok table) ↔ Balanced is :=
  ⟨fun ⟨_, accepted⟩ ↦ (balanced_of_ofInstructions accepted).1, exists_ofInstructions_of_balanced⟩

end JumpTable

/-- Pairing the brackets of a sequence decides whether it is balanced. -/
instance decidableBalanced (is : List Instruction) : Decidable (Balanced is) :=
  match h : JumpTable.ofInstructions is with
  | .ok _ => isTrue (JumpTable.balanced_of_ofInstructions h).1
  | .error _ => isFalse (JumpTable.not_balanced_of_ofInstructions h)

/-- Two loops in a row, one of them with a loop inside, and two brackets the wrong way round. -/
example : Balanced (Program.ofString "[[]][.]").toList ∧ ¬Balanced (Program.ofString "][").toList := by
  decide

end Brainfuck
