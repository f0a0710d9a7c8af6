import Brainfuck.Proofs.Program.Places
import Brainfuck.Proofs.Program.Rendering

/-!
# Loading a rendering again

A program that is rendered and loaded again keeps its symbols and their indices. It keeps their
places as well exactly when they are the places of a rendering already: every instruction is on the
first line and its column is one more than its index. That is a matter of what stands before each
symbol: only symbols. So the texts whose programs come back unchanged are those that begin with
their symbols, all of them, and go on with comments.
-/

namespace Brainfuck

/-! ## Texts that begin with their symbols -/

/-- A text in which no symbol comes after a character of a comment. -/
inductive SymbolsFirst (text : List Char) : Prop where
  | intro {front back : List Char} (split : text = front ++ back)
      (symbols : ∀ c ∈ front, (Symbol.ofChar? c).isSome)
      (comment : ∀ c ∈ back, Symbol.ofChar? c = none)

theorem SymbolsFirst.isSome_of_mem {before after : List Char} {s : Symbol}
    (h : SymbolsFirst (before ++ s.toChar :: after)) :
    ∀ c ∈ before, (Symbol.ofChar? c).isSome := by
  obtain @⟨front, back, split, symbols, comment⟩ := h
  intro c hc
  rcases List.append_eq_append_iff.mp split with ⟨others, rfl, -⟩ | ⟨others, -, rfl⟩
  · exact symbols c (List.mem_append_left others hc)
  · -- The symbol would be part of the comment.
    have hnone := comment s.toChar (List.mem_append_right others List.mem_cons_self)
    rw [Symbol.ofChar?_toChar] at hnone
    cases hnone

/-- It is enough to look at what stands before each symbol. -/
theorem symbolsFirst_of_splits {text : List Char}
    (h : ∀ before (s : Symbol) after, text = before ++ s.toChar :: after →
      ∀ c ∈ before, (Symbol.ofChar? c).isSome) : SymbolsFirst text := by
  induction text with
  | nil =>
    exact ⟨(List.append_nil []).symm, fun c hc ↦ absurd hc List.not_mem_nil,
      fun c hc ↦ absurd hc List.not_mem_nil⟩
  | cons first text ih =>
    cases hfirst : Symbol.ofChar? first with
    | none =>
      refine ⟨(List.nil_append _).symm, fun c hc ↦ absurd hc List.not_mem_nil, ?_⟩
      intro c hc
      rcases List.mem_cons.mp hc with rfl | hc
      · exact hfirst
      rw [Option.eq_none_iff_forall_ne_some]
      intro s hs
      obtain rfl := Symbol.eq_toChar_of_ofChar? hs
      obtain ⟨before, after, rfl⟩ := List.append_of_mem hc
      have hsome := h (first :: before) s after rfl first List.mem_cons_self
      rw [hfirst] at hsome
      cases hsome
    | some s =>
      have hrest : SymbolsFirst text := by
        apply ih
        rintro before s after rfl c hc
        exact h (first :: before) s after rfl c (List.mem_cons_of_mem first hc)
      obtain @⟨front, back, rfl, symbols, comment⟩ := hrest
      have hsome : (Symbol.ofChar? first).isSome := by rw [hfirst]; rfl
      exact ⟨(List.cons_append ..).symm, List.forall_mem_cons.mpr ⟨hsome, symbols⟩, comment⟩

/-! ## The places of a rendering -/

/-- Whether a place is one that a rendering has: on the first line, with symbols alone before it. -/
structure Place.IsRendered (p : Place) : Prop where
  line_eq : p.line = 1
  column_eq : p.column = p.index + 1

theorem Place.isRendered_after_iff {text : List Char} :
    (after text).IsRendered ↔ ∀ c ∈ text, (Symbol.ofChar? c).isSome := by
  rw [← List.filterMap_length_eq_length]
  constructor
  · rintro ⟨line_eq, column_eq⟩
    have hline : '\n' ∉ text := List.count_eq_zero.mp (Nat.succ.inj line_eq)
    rw [(column_after_line hline []).1] at column_eq
    exact (Nat.succ.inj column_eq).symm
  · intro hlength
    have hline : '\n' ∉ text := by
      intro hmem
      have hsome := List.filterMap_length_eq_length.mp hlength '\n' hmem
      cases hsome
    refine ⟨?_, ?_⟩
    · rw [after, List.count_eq_zero.mpr hline]
    · rw [(column_after_line hline []).1, ← hlength]
      rfl

theorem Instruction.rendered_eq_self_iff {i : Instruction} :
    i.rendered = i ↔ i.toPlace.IsRendered := by
  constructor
  · intro h
    exact ⟨congrArg (·.line) h.symm, congrArg (·.column) h.symm⟩
  · rintro ⟨line_eq, column_eq⟩
    rw [rendered, ← column_eq, ← line_eq]

namespace Program

theorem rendered_eq_self_iff {p : Program} :
    p.rendered = p ↔ ∀ i ∈ p.toList, i.toPlace.IsRendered := by
  have hmap : p.rendered = p ↔ p.toList.map Instruction.rendered = p.toList.map id := by
    rw [List.map_id, ← toList_rendered]
    exact ⟨congrArg toList, ext⟩
  rw [hmap, List.map_inj_left]
  simp only [id, Instruction.rendered_eq_self_iff]

theorem rendered_ofChars_eq_self_iff {text : List Char} :
    (ofChars text).rendered = ofChars text ↔ SymbolsFirst text := by
  rw [rendered_eq_self_iff]
  constructor
  · intro h
    apply symbolsFirst_of_splits
    rintro before s after rfl
    have hstands : Instruction.StandsIn { toPlace := .after before, symbol := s }
        (before ++ s.toChar :: after) := ⟨rfl, rfl⟩
    exact Place.isRendered_after_iff.mp (h _ (mem_toList_ofChars.mpr hstands))
  · intro h i hi
    obtain ⟨rfl, place_eq⟩ := mem_toList_ofChars.mp hi
    rw [place_eq, Place.isRendered_after_iff]
    exact h.isSome_of_mem

/-! ## Loading again -/

def reloaded (p : Program) : Program :=
  ofString p.render

theorem reloaded_eq_rendered (p : Program) : p.reloaded = p.rendered :=
  ofString_render p

theorem getElem?_toList_reloaded (p : Program) (n : Nat) :
    p.reloaded.toList[n]? = p.toList[n]?.map fun i ↦ { i with line := 1, column := n + 1 } := by
  rw [reloaded_eq_rendered, toList_rendered, List.getElem?_map]
  cases hi : p.toList[n]? with
  | none => rfl
  | some i => rw [Option.map_some, Option.map_some, Instruction.rendered, index_eq_of_getElem? hi]

/-- A program that is rendered and loaded again has the same size and the same rendering, and at
each position the same symbol with the same index, on line one and in the column after that
position. It is the same program, places included, exactly when its text begins with its symbols and
has only comments after them. -/
theorem reloaded_ofString (text : String) :
    (ofString text).reloaded.size = (ofString text).size ∧
    (ofString text).reloaded.render = (ofString text).render ∧
    (∀ n : Nat, (ofString text).reloaded.toList[n]? =
      (ofString text).toList[n]?.map fun i ↦ { i with line := 1, column := n + 1 }) ∧
    ((ofString text).reloaded = ofString text ↔ SymbolsFirst text.toList) := by
  refine ⟨?_, ?_, getElem?_toList_reloaded _, ?_⟩
  · rw [reloaded_eq_rendered]
    exact Array.size_map
  · rw [reloaded_eq_rendered, render_rendered]
  · rw [reloaded_eq_rendered]
    exact rendered_ofChars_eq_self_iff

/-- A comment after the symbols does no harm; a blank before them moves them. -/
example : (ofString "+[-] clear\n").reloaded = ofString "+[-] clear\n" ∧
    (ofString " +").reloaded ≠ ofString " +" := by
  decide

end Program

end Brainfuck
