import Brainfuck.Program.Basic
import Brainfuck.Proofs.Bracket.OnePass
import Brainfuck.Proofs.Bracket.Nesting

/-!
# Skeletons

What is left of a sequence when its commands are made unrecognisable is its skeleton: how long it
is, and which positions hold which brackets. Whether a sequence is balanced is a matter of its
skeleton alone, and so is the partner of every bracket. The other way round, a jump table gives the
skeleton away. It says which positions hold a bracket, and of two partners the earlier one begins
the loop. So two sequences have the same jump table exactly when they have the same skeleton.
-/

namespace Brainfuck

def Instruction.bracket? (i : Instruction) : Option Bracket :=
  match i.symbol with
  | .command _ => none
  | .bracket b => some b

theorem Instruction.bracket?_eq_none_iff {i : Instruction} :
    i.bracket? = none ↔ ∃ c, i.symbol = .command c := by
  unfold bracket?
  cases i.symbol <;> simp

theorem Instruction.bracket?_eq_some_iff {i : Instruction} {b : Bracket} :
    i.bracket? = some b ↔ i.symbol = .bracket b := by
  unfold bracket?
  cases i.symbol <;> simp

namespace Bracket

/-- The brackets of a sequence by position, with nothing in the place of a command. -/
def skeleton (is : List Instruction) : List (Option Bracket) :=
  is.map Instruction.bracket?

/-- Two sequences are equally long and hold the same brackets at the same positions. -/
structure SameSkeleton (as bs : List Instruction) : Prop where
  length_eq : as.length = bs.length
  bracket_iff : ∀ p b, symbolAt? as p = some (.bracket b) ↔ symbolAt? bs p = some (.bracket b)

theorem symbolAt?_eq_bracket_iff {is : List Instruction} {p : Nat} {b : Bracket} :
    symbolAt? is p = some (.bracket b) ↔ (skeleton is)[p]? = some (some b) := by
  simp only [symbolAt?, skeleton, List.getElem?_map, Option.map_eq_some_iff,
    Instruction.bracket?_eq_some_iff]

theorem sameSkeleton_iff {as bs : List Instruction} :
    SameSkeleton as bs ↔ skeleton as = skeleton bs := by
  have hlength (is : List Instruction) : (skeleton is).length = is.length := List.length_map _
  constructor
  · intro h
    apply List.ext_getElem
    · rw [hlength, hlength, h.length_eq]
    · intro p ha hb
      ext b
      have hiff := h.bracket_iff p b
      rwa [symbolAt?_eq_bracket_iff, symbolAt?_eq_bracket_iff, List.getElem?_eq_getElem ha,
        List.getElem?_eq_getElem hb, Option.some.injEq, Option.some.injEq] at hiff
  · intro h
    constructor
    · rw [← hlength, h, hlength]
    · intro p b
      rw [symbolAt?_eq_bracket_iff, symbolAt?_eq_bracket_iff, h]

/-! ## What depends on the skeleton alone -/

theorem balanced_of_skeleton_eq {as bs : List Instruction} (h : Balanced as)
    (same : skeleton as = skeleton bs) : Balanced bs := by
  induction h generalizing bs with
  | nil =>
    rw [List.map_eq_nil_iff.mp same.symm]
    exact .nil
  | @command i c rest isCommand _ ih =>
    obtain ⟨j, bs, rfl, hj, hrest⟩ := List.map_eq_cons_iff.mp same.symm
    have hi : i.bracket? = none := Instruction.bracket?_eq_none_iff.mpr ⟨c, isCommand⟩
    obtain ⟨c', hc'⟩ := Instruction.bracket?_eq_none_iff.mp (hj.trans hi)
    exact .command hc' (ih hrest.symm)
  | @loop first last body rest opens _ closes _ inner_ih ih =>
    obtain ⟨first', tail, rfl, hfirst, htail⟩ := List.map_eq_cons_iff.mp same.symm
    rw [List.map_append] at htail
    obtain ⟨body', tail, rfl, hbody, htail⟩ := List.map_eq_append_iff.mp htail
    obtain ⟨last', rest', rfl, hlast, hrest⟩ := List.map_eq_cons_iff.mp htail
    have hopens : first.bracket? = some .opening := Instruction.bracket?_eq_some_iff.mpr opens
    have hcloses : last.bracket? = some .closing := Instruction.bracket?_eq_some_iff.mpr closes
    exact .loop (Instruction.bracket?_eq_some_iff.mp (hfirst.trans hopens)) (inner_ih hbody.symm)
      (Instruction.bracket?_eq_some_iff.mp (hlast.trans hcloses)) (ih hrest.symm)

theorem skeleton_between (is : List Instruction) (p q : Nat) :
    skeleton (between is p q) = ((skeleton is).take q).drop (p + 1) := by
  rw [skeleton, between, List.map_drop, List.map_take]
  rfl

namespace SameSkeleton

variable {as bs : List Instruction}

theorem symm (h : SameSkeleton as bs) : SameSkeleton bs as where
  length_eq := h.length_eq.symm
  bracket_iff p b := (h.bracket_iff p b).symm

theorem aroundBalanced {p q : Nat} (h : SameSkeleton as bs) (hpair : AroundBalanced as p q) :
    AroundBalanced bs p q where
  opens := (h.bracket_iff p opening).mp hpair.opens
  closes := (h.bracket_iff q closing).mp hpair.closes
  lt := hpair.lt
  inner := by
    apply balanced_of_skeleton_eq hpair.inner
    rw [skeleton_between, skeleton_between, sameSkeleton_iff.mp h]

theorem partner?_of_eq_some {p q : Nat} (h : SameSkeleton as bs) (hp : partner? as p = some q) :
    partner? bs p = some q := by
  rcases partner?_eq_some_iff.mp hp with hpair | hpair
  · exact (h.aroundBalanced hpair.aroundBalanced).encloses.partner?_first
  · exact (h.aroundBalanced hpair.aroundBalanced).encloses.partner?_last

/-- Sequences with the same skeleton have the same partners. -/
theorem partner?_eq (h : SameSkeleton as bs) : partner? as = partner? bs := by
  funext p
  ext q
  exact ⟨h.partner?_of_eq_some, h.symm.partner?_of_eq_some⟩

theorem balanced (h : SameSkeleton as bs) (balanced : Balanced as) : Balanced bs :=
  balanced_of_skeleton_eq balanced (sameSkeleton_iff.mp h)

end SameSkeleton

/-! ## What the partners give away -/

/-- Of two partners the earlier one begins the loop. -/
theorem Nested.symbolAt?_eq {is : List Instruction} {partnerOf? : Nat → Option Nat}
    (h : Nested is partnerOf?) {p q : Nat} (hp : partnerOf? p = some q) :
    symbolAt? is p = some (.bracket (if p < q then opening else closing)) := by
  rcases Nat.lt_or_gt_of_ne (h.ne p q hp) with hbefore | hafter
  · have hcloses := h.closes p q hp
    rw [Nat.max_eq_left (Nat.le_of_lt hbefore)] at hcloses
    rw [hcloses, if_neg (Nat.lt_asymm hbefore)]
  · have hopens := h.opens p q hp
    rw [Nat.min_eq_left (Nat.le_of_lt hafter)] at hopens
    rw [hopens, if_pos hafter]

/-- A bracket of one sequence is a bracket of every sequence with the same partners. -/
theorem Nested.symbolAt?_eq_bracket {as bs : List Instruction} {partnerOf? : Nat → Option Nat}
    (ha : Nested as partnerOf?) (hb : Nested bs partnerOf?) {p : Nat} {b : Bracket}
    (hp : symbolAt? as p = some (.bracket b)) : symbolAt? bs p = some (.bracket b) := by
  obtain ⟨q, hq⟩ := Option.isSome_iff_exists.mp ((ha.isSome_iff p).mpr ⟨b, hp⟩)
  calc
    symbolAt? bs p = some (.bracket (if p < q then opening else closing)) := hb.symbolAt?_eq hq
    _ = symbolAt? as p := (ha.symbolAt?_eq hq).symm
    _ = some (.bracket b) := hp

theorem sameSkeleton_of_nested {as bs : List Instruction} {partnerOf? : Nat → Option Nat}
    (length_eq : as.length = bs.length) (ha : Nested as partnerOf?) (hb : Nested bs partnerOf?) :
    SameSkeleton as bs where
  length_eq := length_eq
  bracket_iff _ _ := ⟨ha.symbolAt?_eq_bracket hb, hb.symbolAt?_eq_bracket ha⟩

end Bracket

/-! ## Jump tables -/

theorem Pairing.size_visit {p next : Pairing} {i : Instruction} (h : p.visit i = .ok next) :
    next.partners.size = p.partners.size := by
  unfold visit at h
  split at h
  · cases h
    rfl
  · cases h
    rfl
  · split at h
    · cases h
    · cases h
      exact size_link _ _ _

theorem Pairing.size_visitAll {p last : Pairing} {is : List Instruction}
    (h : p.visitAll is = .ok last) : last.partners.size = p.partners.size := by
  induction is generalizing p with
  | nil =>
    cases h
    rfl
  | cons i is ih =>
    rw [visitAll_cons] at h
    cases hi : p.visit i with
    | error u =>
      rw [hi] at h
      cases h
    | ok next =>
      rw [hi] at h
      exact (ih h).trans (size_visit hi)

namespace JumpTable

/-- A jump table has an entry for every instruction. -/
theorem size_of_ofInstructions {is : List Instruction} {table : JumpTable}
    (accepted : ofInstructions is = .ok table) : table.partners.size = is.length := by
  rw [ofInstructions] at accepted
  cases hvisit : (Pairing.blank is.length).visitAll is with
  | error u =>
    rw [hvisit] at accepted
    cases accepted
  | ok last =>
    rw [hvisit] at accepted
    obtain ⟨position, waiting, partners⟩ := last
    cases waiting with
    | cons => cases accepted
    | nil =>
      cases accepted
      exact (Pairing.size_visitAll hvisit).trans (Pairing.size_blank _)

theorem eq_of_partner?_eq {s t : JumpTable} (hsize : s.partners.size = t.partners.size)
    (h : s.partner? = t.partner?) : s = t := by
  obtain ⟨xs⟩ := s
  obtain ⟨ys⟩ := t
  congr 1
  apply Array.ext hsize
  intro p hx hy
  have hp := congrFun h p
  simpa [partner?, hx, hy] using hp

/-- An accepted sequence has its table in common with those that have its skeleton and with no
others: whatever commands are put in the place of others, the sequence stays accepted and keeps its
table, and no bracket can be moved or turned round without changing it. -/
theorem tables_eq_iff_sameSkeleton {as : List Instruction} {s : JumpTable}
    (accepted : ofInstructions as = .ok s) (bs : List Instruction) :
    (∀ t, ofInstructions bs = .ok t → (s = t ↔ Bracket.SameSkeleton as bs)) ∧
      (Bracket.SameSkeleton as bs → ofInstructions bs = .ok s) := by
  obtain ⟨balanced, agrees⟩ := balanced_of_ofInstructions accepted
  have hs : s.partner? = Bracket.partner? as := funext agrees
  have hsize := size_of_ofInstructions accepted
  have hsame {t : JumpTable} (other : ofInstructions bs = .ok t)
      (same : Bracket.SameSkeleton as bs) : s = t := by
    have ht : t.partner? = Bracket.partner? bs := funext (balanced_of_ofInstructions other).2
    apply eq_of_partner?_eq
    · rw [hsize, size_of_ofInstructions other, same.length_eq]
    · rw [hs, ht, same.partner?_eq]
  constructor
  · intro t other
    refine ⟨fun heq ↦ ?_, hsame other⟩
    subst heq
    obtain ⟨balanced', agrees'⟩ := balanced_of_ofInstructions other
    have hpartners : Bracket.partner? bs = Bracket.partner? as := by
      rw [← hs, funext agrees']
    apply Bracket.sameSkeleton_of_nested
    · rw [← hsize, size_of_ofInstructions other]
    · exact Bracket.nested_of_balanced balanced
    · rw [← hpartners]
      exact Bracket.nested_of_balanced balanced'
  · intro same
    obtain ⟨t, other⟩ := exists_ofInstructions_of_balanced (same.balanced balanced)
    rw [other, hsame other same]

/-- Other commands leave the table as it is, and a bracket moved by one position changes it. -/
theorem tables_eq_iff_sameSkeleton_moved_bracket :
    ∃ s t, ofInstructions (Program.ofString "+[-[>]]").toList = .ok s ∧
      ofInstructions (Program.ofString ",[.[<]]").toList = .ok s ∧
      ofInstructions (Program.ofString "+[-[]>]").toList = .ok t ∧
      Bracket.SameSkeleton (Program.ofString "+[-[>]]").toList
        (Program.ofString ",[.[<]]").toList ∧
      ¬Bracket.SameSkeleton (Program.ofString "+[-[>]]").toList
        (Program.ofString "+[-[]>]").toList := by
  have accepted : ofInstructions (Program.ofString "+[-[>]]").toList =
      .ok ⟨#[none, some 6, none, some 5, none, some 3, some 1]⟩ := rfl
  have other : ofInstructions (Program.ofString ",[.[<]]").toList =
      .ok ⟨#[none, some 6, none, some 5, none, some 3, some 1]⟩ := rfl
  have moved : ofInstructions (Program.ofString "+[-[]>]").toList =
      .ok ⟨#[none, some 6, none, some 4, some 3, none, some 1]⟩ := rfl
  refine ⟨_, _, accepted, other, moved, ?_, fun same ↦ ?_⟩
  · exact ((tables_eq_iff_sameSkeleton accepted _).1 _ other).mp rfl
  · have heq := ((tables_eq_iff_sameSkeleton accepted _).1 _ moved).mpr same
    exact absurd heq (by decide)

end JumpTable

end Brainfuck
