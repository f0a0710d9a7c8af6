import Brainfuck.Program.Basic

/-!
# Loading a rendering

The rendering of a program has its symbols on one line and nothing else. Loading it gives the same
symbols with the same indices, and places that depend on the index alone. So programs with the same
rendering differ at most in the lines and columns of their instructions.
-/

namespace Brainfuck

/-- An instruction at the place it has in the rendering of its program. -/
def Instruction.rendered (i : Instruction) : Instruction :=
  { i with line := 1, column := i.index + 1 }

@[simp] theorem Instruction.symbol_rendered (i : Instruction) : i.rendered.symbol = i.symbol := rfl

@[simp] theorem Instruction.index_rendered (i : Instruction) : i.rendered.index = i.index := rfl

/-- Rendering an instruction forgets its line and its column, and nothing else. -/
theorem Instruction.rendered_eq_iff {i i' : Instruction} :
    i.rendered = i'.rendered ↔ i.symbol = i'.symbol ∧ i.index = i'.index := by
  constructor
  · intro h
    have hsymbol : i.rendered.symbol = i'.rendered.symbol := by rw [h]
    have hindex : i.rendered.index = i'.rendered.index := by rw [h]
    exact ⟨hsymbol, hindex⟩
  · rintro ⟨hsymbol, hindex⟩
    rw [rendered, rendered, hsymbol, hindex]

namespace Program

/-- A program with its instructions at the places they have in its rendering. -/
def rendered (p : Program) : Program where
  instructions := p.instructions.map Instruction.rendered
  index_eq n h := by
    rw [Array.size_map] at h
    rw [Array.getElem_map, Instruction.index_rendered, p.index_eq n h]

theorem toList_rendered (p : Program) : p.rendered.toList = p.toList.map Instruction.rendered :=
  Array.toList_map

theorem getElem?_rendered (p : Program) (n : Nat) :
    p.rendered.instructions[n]? = p.instructions[n]?.map Instruction.rendered :=
  Array.getElem?_map

theorem fetched_rendered {p : Program} {n : Nat} {i : Instruction}
    (fetched : p.instructions[n]? = some i) :
    p.rendered.instructions[n]? = some i.rendered := by
  rw [getElem?_rendered, fetched, Option.map_some]

/-- The instructions of some symbols that stand on the first line, from the given index on. -/
def onFirstLine (symbols : List Symbol) (first : Nat) : List Instruction :=
  (symbols.zipIdx first).map fun (symbol, n) ↦ { line := 1, column := n + 1, index := n, symbol }

theorem toList_rendered_eq_onFirstLine (p : Program) :
    p.rendered.toList = onFirstLine p.symbols 0 := by
  apply List.ext_getElem?
  intro n
  rw [toList_rendered, onFirstLine, symbols, List.getElem?_map, List.getElem?_map,
    List.getElem?_zipIdx, List.getElem?_map]
  cases hi : p.toList[n]? with
  | none => rfl
  | some i =>
    rw [toList, Array.getElem?_toList] at hi
    obtain ⟨hlt, rfl⟩ := Array.getElem?_eq_some_iff.mp hi
    simp only [Option.map_some, Instruction.rendered, p.index_eq n hlt, Nat.zero_add]

/-! ## The loader on a rendering -/

theorem toList_foldl_read (symbols : List Symbol) {l : Loader} (hline : l.line = 1)
    (hcolumn : l.column = l.program.size + 1) :
    ((symbols.map Symbol.toChar).foldl Loader.read l).program.toList =
      l.program.toList ++ onFirstLine symbols l.program.size := by
  induction symbols generalizing l with
  | nil => exact (List.append_nil _).symm
  | cons s symbols ih =>
    have hsize : (l.program.push s l.line l.column).size = l.program.size + 1 := Array.size_push _
    have hnext := congrArg (· + 1) (hcolumn.trans hsize.symm)
    rw [List.map_cons, List.foldl_cons, Loader.read_toChar]
    calc
      _ = (l.program.push s l.line l.column).toList ++
          onFirstLine symbols (l.program.push s l.line l.column).size :=
        ih (l := ⟨l.line, l.column + 1, l.program.push s l.line l.column⟩) hline hnext
      _ = l.program.toList ++ onFirstLine (s :: symbols) l.program.size := by
        rw [toList_push, hsize, List.append_assoc, hline, hcolumn]
        rfl

/-- Loading the rendering of a program gives the program back, at the places of the rendering. -/
theorem ofString_render (p : Program) : ofString p.render = p.rendered := by
  apply ext
  rw [toList_rendered_eq_onFirstLine, ofString, ofChars, render, String.toList_ofList]
  exact toList_foldl_read p.symbols rfl rfl

theorem rendered_eq_of_render_eq {p q : Program} (h : p.render = q.render) :
    p.rendered = q.rendered := by
  rw [← ofString_render, h, ofString_render]

theorem render_rendered (p : Program) : p.rendered.render = p.render := by
  have hsymbols : p.rendered.symbols = p.symbols := by
    rw [symbols, symbols, toList_rendered, List.map_map]
    rfl
  rw [render, render, hsymbols]

end Program

end Brainfuck
