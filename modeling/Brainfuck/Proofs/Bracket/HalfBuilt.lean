import Brainfuck.Proofs.Bracket.Blame
import Brainfuck.Proofs.Bracket.Skeleton

/-!
# Tables under construction

A table that is still under construction is right about the instructions visited so far. It knows
nothing of those to come: a bracket that has no partner yet may find one later, and then an earlier
entry is written as well. What waits in the meantime are the opening brackets that the scan leaves
alone when it sees the visited instructions only. The outer ones wait below the inner ones, so
positions increase towards the top. The next instruction is rejected when it is a closing bracket
and nothing is waiting, which is when the scan finds no partner for it among the instructions up to
there.
-/

namespace Brainfuck

/-! ## Partners before a balanced part -/

/-- A balanced part at the end has its partners in itself and changes no others. -/
theorem Bracket.partner?_append_balanced {is body : List Instruction} (h : Balanced body) {n : Nat}
    (hn : n < is.length) : partner? (is ++ body) n = partner? is n := by
  induction h generalizing is with
  | nil => rw [List.append_nil]
  | @command i c rest isCommand _ ih =>
    have hlength : n < (is ++ [i]).length := by
      rw [List.length_append]
      omega
    calc
      partner? (is ++ i :: rest) n = partner? (is ++ [i] ++ rest) n := by
        rw [List.append_assoc, List.singleton_append]
      _ = partner? (is ++ [i]) n := ih hlength
      _ = partner? is n := partner?_append_of_not_closing (by simp [isCommand]) n
  | @loop first last body rest opens inner closes _ inner_ih rest_ih =>
    -- From the end backwards: the rest, the closing bracket, the body, the opening bracket.
    have hfirst : n < (is ++ [first]).length := by
      rw [List.length_append]
      omega
    have hbody : n < (is ++ first :: body).length := by
      rw [List.length_append]
      omega
    have hloop : n < (is ++ first :: body ++ [last]).length := by
      rw [List.length_append]
      omega
    calc
      partner? (is ++ first :: (body ++ last :: rest)) n =
          partner? (is ++ first :: body ++ [last] ++ rest) n := by
        simp only [List.append_assoc, List.cons_append, List.nil_append]
      _ = partner? (is ++ first :: body ++ [last]) n := rest_ih hloop
      _ = partner? (is ++ first :: body) n := by
        rw [partner?_append_closing opens inner closes, if_neg (Nat.ne_of_lt hbody),
          if_neg (Nat.ne_of_lt hn)]
      _ = partner? (is ++ [first] ++ body) n := by
        rw [List.append_assoc, List.singleton_append]
      _ = partner? (is ++ [first]) n := inner_ih hfirst
      _ = partner? is n := partner?_append_of_not_closing (by simp [opens]) n

/-- Brackets that stay open leave those before them without a partner. -/
theorem Bracket.Unpaired.append_opening {before body : List Instruction} {i : Instruction}
    {n : Nat} (h : Unpaired before .opening n) (opens : i.symbol = .bracket .opening)
    (inner : Balanced body) : Unpaired (before ++ i :: body) .opening n := by
  have hn : n < before.length := by
    obtain ⟨j, hj, -⟩ := Option.map_eq_some_iff.mp h.holds
    exact (List.getElem?_eq_some_iff.mp hj).1
  have hlength : n < (before ++ [i]).length := by
    rw [List.length_append]
    omega
  constructor
  · rw [symbolAt?_append_left hn, h.holds]
  · calc
      partner? (before ++ i :: body) n = partner? (before ++ [i] ++ body) n := by
        rw [List.append_assoc, List.singleton_append]
      _ = partner? (before ++ [i]) n := partner?_append_balanced inner hlength
      _ = partner? before n := partner?_append_of_not_closing (by simp [opens]) n
      _ = none := h.partner_eq

/-! ## The beginning of a sequence -/

theorem Bracket.symbolAt?_take_eq_some_iff {is : List Instruction} {count n : Nat} {s : Symbol} :
    symbolAt? (is.take count) n = some s ↔ n < count ∧ symbolAt? is n = some s := by
  unfold symbolAt?
  rw [List.getElem?_take]
  split
  · next hn => rw [and_iff_right hn]
  · next hn => simp [hn]

/-- A bracket that has no partner among the first instructions of a sequence, told of the
sequence. -/
theorem Bracket.unpaired_take_iff {is : List Instruction} {count n : Nat} {b : Bracket} :
    Unpaired (is.take count) b n ↔
      n < count ∧ symbolAt? is n = some (.bracket b) ∧ partner? (is.take count) n = none := by
  rw [← and_assoc, ← symbolAt?_take_eq_some_iff]
  exact ⟨fun h ↦ ⟨h.holds, h.partner_eq⟩, fun h ↦ ⟨h.1, h.2⟩⟩

/-! ## Waiting brackets -/

namespace Waits

variable {is : List Instruction} {waiting : List (Nat × Instruction)}

theorem getElem?_eq (h : Waits is waiting) {n : Nat} {i : Instruction} (hmem : (n, i) ∈ waiting) :
    is[n]? = some i := by
  induction h with
  | done => cases hmem
  | @more before body first waiting _ _ _ ih =>
    rcases List.mem_cons.mp hmem with hfirst | hothers
    · cases hfirst
      rw [List.getElem?_append_right (Nat.le_refl _), Nat.sub_self, List.getElem?_cons_zero]
    · have hn := ih hothers
      rw [List.getElem?_append_left (List.getElem?_eq_some_iff.mp hn).1, hn]

/-- The inner ones of the waiting brackets stand after the outer ones. -/
theorem pairwise (h : Waits is waiting) :
    waiting.Pairwise fun inner outer ↦ outer.1 < inner.1 := by
  induction h with
  | done => exact .nil
  | more outer _ _ ih =>
    refine .cons (fun entry hentry ↦ ?_) ih
    exact (List.getElem?_eq_some_iff.mp (outer.getElem?_eq hentry)).1

/-- The waiting brackets are the opening ones without a partner. -/
theorem mem_iff_unpaired (h : Waits is waiting) (n : Nat) :
    n ∈ waiting.map Prod.fst ↔ Bracket.Unpaired is .opening n := by
  induction h with
  | done balanced =>
    rw [List.map_nil, iff_false_left List.not_mem_nil]
    exact Bracket.not_unpaired_of_balanced balanced .opening n
  | @more before body first waiting _ opens inner ih =>
    rw [List.map_cons, List.mem_cons, ih]
    constructor
    · rintro (rfl | hbefore)
      · exact ⟨by rw [Bracket.symbolAt?_first, opens],
          Bracket.partner?_of_opening_eq_none opens before inner⟩
      · exact hbefore.append_opening opens inner
    · intro unpaired
      rcases unpaired.split_cases with ⟨-, hbefore⟩ | ⟨hfirst, -⟩ | ⟨k, -, hbody⟩
      · exact .inr hbefore
      · exact .inl hfirst
      · exact absurd hbody (Bracket.not_unpaired_of_balanced inner .opening k)

end Waits

namespace Pairing

/-! ## The construction after some instructions -/

/-- The construction when the first `count` instructions of a sequence have been visited, unless one
of them was rejected. -/
def after (is : List Instruction) (count : Nat) : Except UnmatchedBracket Pairing :=
  (blank is.length).visitAll (is.take count)

/-- The table is what is made of the construction after all the instructions. -/
theorem ofInstructions_eq_after (is : List Instruction) :
    JumpTable.ofInstructions is = after is is.length >>= finish := by
  rw [JumpTable.ofInstructions, after, List.take_length]

/-- One more instruction is visited after the others. -/
theorem after_succ {is : List Instruction} {count : Nat} {i : Instruction}
    (hi : is[count]? = some i) :
    after is (count + 1) = after is count >>= fun p ↦ p.visit i := by
  have hone (p : Pairing) : [i].foldlM visit p = p.visit i := by
    rw [List.foldlM_cons]
    exact bind_pure _
  rw [after, after, visitAll, visitAll, List.take_add_one, hi, Option.toList_some,
    List.foldlM_append]
  simp only [hone]

theorem tracks_after {is : List Instruction} {count : Nat} {p : Pairing}
    (reached : after is count = .ok p) : p.Tracks (is.take count) := by
  have hsize : ([] : List Instruction).length + (is.take count).length ≤
      (blank is.length).partners.size := by
    rw [List.length_nil, Nat.zero_add, size_blank]
    exact List.length_take_le' count is
  exact (tracks_blank is.length).visitAll hsize reached

/-- What a table under construction and its waiting brackets are when the first `count` instructions
of a sequence have been visited. The positions that wait increase from the outermost to the
innermost; they are those of the opening brackets without a partner so far, each with the
instruction that stands there. The entries of the visited instructions are their partners so far,
and the others are empty. -/
structure HalfBuilt (is : List Instruction) (count : Nat) (p : Pairing) : Prop where
  increasing : (p.waiting.map Prod.fst).reverse.Pairwise (· < ·)
  waiting_iff : ∀ n, n ∈ p.waiting.map Prod.fst ↔
    n < count ∧ Bracket.symbolAt? is n = some (.bracket .opening) ∧
      Bracket.partner? (is.take count) n = none
  instruction_eq : ∀ n i, (n, i) ∈ p.waiting → is[n]? = some i
  size_eq : p.partners.size = is.length
  entry_eq : ∀ n, p.partners.getD n none =
    if n < count then Bracket.partner? (is.take count) n else none

theorem Tracks.halfBuilt {is : List Instruction} {count : Nat} {p : Pairing}
    (h : p.Tracks (is.take count)) (hsize : p.partners.size = is.length) :
    HalfBuilt is count p where
  increasing := by
    rw [List.pairwise_reverse, List.pairwise_map]
    exact h.waits.pairwise
  waiting_iff n := by
    rw [h.waits.mem_iff_unpaired, Bracket.unpaired_take_iff]
  instruction_eq n i hmem := by
    have hat := h.waits.getElem?_eq hmem
    rw [List.getElem?_take, Option.ite_none_right_eq_some] at hat
    exact hat.2
  size_eq := hsize
  entry_eq n := by
    rw [h.partners_eq]
    split
    · rfl
    · next hn =>
      apply Bracket.partner?_of_length_le
      exact Nat.le_trans (List.length_take_le _ _) (Nat.le_of_not_lt hn)

/-- An instruction is rejected when it is a closing bracket that has no partner among the
instructions visited and itself. -/
theorem Tracks.rejects_iff {p : Pairing} {visited : List Instruction} {i : Instruction}
    (h : p.Tracks visited) (hsize : visited.length < p.partners.size) :
    (∃ u, p.visit i = .error u) ↔ i.symbol = .bracket .closing ∧
      Bracket.partner? (visited ++ [i]) visited.length = none := by
  constructor
  · rintro ⟨u, hu⟩
    obtain ⟨closes, balanced, -⟩ := h.balanced_of_visit hu
    exact ⟨closes, Bracket.partner?_of_closing_eq_none closes balanced []⟩
  · rintro ⟨closes, hnone⟩
    cases hvisit : p.visit i with
    | error u => exact ⟨u, rfl⟩
    | ok next =>
      have hwaits := (h.visit hsize hvisit).1.waits
      have hsymbol : Bracket.symbolAt? (visited ++ [i]) visited.length =
          some (.bracket .closing) := by
        rw [Bracket.symbolAt?_first, closes]
      exact absurd ⟨hsymbol, hnone⟩ (Bracket.not_unpaired_closing_of_waits hwaits _)

/-- When some instructions of a sequence have been visited and none was rejected, the positions that
wait increase towards the innermost and are those of the opening brackets without a partner so far,
and the entries are the partners so far. The next instruction is rejected exactly when it is a
closing bracket for which the scan of the instructions up to there finds no partner. -/
theorem halfBuilt_of_after {is : List Instruction} {count : Nat} {p : Pairing}
    (reached : after is count = .ok p) :
    HalfBuilt is count p ∧
      ∀ i, is[count]? = some i → after is (count + 1) = p.visit i ∧
        ((∃ u, p.visit i = .error u) ↔ i.symbol = .bracket .closing ∧
          Bracket.partner? (is.take (count + 1)) count = none) := by
  have htracks := tracks_after reached
  have hsize : p.partners.size = is.length := by
    rw [size_visitAll reached, size_blank]
  refine ⟨htracks.halfBuilt hsize, fun i hi ↦ ⟨?_, ?_⟩⟩
  · rw [after_succ hi, reached]
    rfl
  · have hcount : count < is.length := (List.getElem?_eq_some_iff.mp hi).1
    have hlength : (is.take count).length = count := List.length_take_of_le (Nat.le_of_lt hcount)
    have hrejects : (∃ u, p.visit i = .error u) ↔ i.symbol = .bracket .closing ∧
        Bracket.partner? (is.take count ++ [i]) (is.take count).length = none := by
      apply htracks.rejects_iff
      rwa [hlength, hsize]
    rwa [hlength, ← Option.toList_some, ← hi, ← List.take_add_one] at hrejects

/-- After two instructions two brackets wait. After four of them none does, and the fifth is
rejected. -/
theorem halfBuilt_of_after_surplus :
    (∃ p, after (Program.ofString "[[]]]").toList 2 = .ok p ∧
      p.waiting.map Prod.fst = [1, 0] ∧ HalfBuilt (Program.ofString "[[]]]").toList 2 p) ∧
    ∃ p, after (Program.ofString "[[]]]").toList 4 = .ok p ∧
      p.partners = #[some 3, some 2, some 1, some 0, none] ∧
      HalfBuilt (Program.ofString "[[]]]").toList 4 p ∧
      (Program.ofString "[[]]]").toList[4]? = some ⟨⟨1, 5, 4⟩, .bracket .closing⟩ ∧
      ∃ u, after (Program.ofString "[[]]]").toList 5 = .error u := by
  have hopen : after (Program.ofString "[[]]]").toList 2 = .ok _ := rfl
  have hclosed : after (Program.ofString "[[]]]").toList 4 = .ok _ := rfl
  have hlast : (Program.ofString "[[]]]").toList[4]? = some ⟨⟨1, 5, 4⟩, .bracket .closing⟩ := rfl
  obtain ⟨hhalf, hnext⟩ := halfBuilt_of_after hclosed
  obtain ⟨hvisit, hrejects⟩ := hnext _ hlast
  obtain ⟨u, hu⟩ := hrejects.mpr ⟨rfl, rfl⟩
  exact ⟨⟨_, hopen, rfl, (halfBuilt_of_after hopen).1⟩, _, hclosed, rfl, hhalf, hlast, u,
    hvisit.trans hu⟩

end Pairing

end Brainfuck
