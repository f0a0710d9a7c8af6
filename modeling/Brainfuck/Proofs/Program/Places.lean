import Brainfuck.Program.Basic

/-!
# Where instructions stand

The loader counts lines, columns and instructions as it goes, but the place of an instruction does
not depend on how it was found. It can be read off the text before the symbol: the number of line
feeds, the number of characters since the last of them and the number of symbols. An instruction
belongs to the program of a text exactly when it stands in the text in this sense, and its symbol is
then the character at its line and column. So a report that names an instruction names a place in
the text where that instruction can be seen.
-/

namespace Brainfuck

/-- The place behind a text. -/
def Place.after (text : List Char) : Place where
  line := text.count '\n' + 1
  column := (text.reverse.takeWhile (· ≠ '\n')).length + 1
  index := (text.filterMap Symbol.ofChar?).length

/-- The instruction that a character writes at a place; `none` for a character of a comment. -/
def Instruction.written? (place : Place) (c : Char) : Option Instruction :=
  (Symbol.ofChar? c).map fun symbol ↦ { toPlace := place, symbol }

/-- An instruction stands in a text if its symbol is written there behind a part that accounts for
its place. -/
inductive Instruction.StandsIn (i : Instruction) (text : List Char) : Prop where
  | intro {before after : List Char} (split : text = before ++ i.symbol.toChar :: after)
      (place_eq : i.toPlace = .after before)

/-- The character at a line and a column of a text, both from one. Line feeds separate the lines. -/
def charAt? (text : List Char) : (line column : Nat) → Option Char
  | line + 1, column + 1 => do
    let characters ← (text.splitOn '\n')[line]?
    characters[column]?
  | _, _ => none

/-! ## Texts that go on -/

namespace Place

theorem after_append_newline (text : List Char) :
    after (text ++ ['\n']) = { after text with line := (after text).line + 1, column := 1 } := by
  simp [after, Symbol.ofChar?]

theorem after_append_comment {c : Char} (hc : c ≠ '\n') (hnone : Symbol.ofChar? c = none)
    (text : List Char) :
    after (text ++ [c]) = { after text with column := (after text).column + 1 } := by
  simp [after, hc, hnone]

theorem after_append_symbol (s : Symbol) (text : List Char) :
    after (text ++ [s.toChar]) =
      { after text with column := (after text).column + 1, index := (after text).index + 1 } := by
  simp [after, s.toChar_ne_newline]

theorem line_append (text more : List Char) :
    (after (text ++ more)).line = (after text).line + more.count '\n' := by
  rw [after, after, List.count_append, Nat.add_right_comm]

theorem column_append {more : List Char} (hmore : '\n' ∉ more) (text : List Char) :
    (after (text ++ more)).column = (after text).column + more.length := by
  have hall : ∀ c ∈ more.reverse, decide (c ≠ '\n') = true := by
    intro c hc
    rw [List.mem_reverse] at hc
    exact decide_eq_true fun h ↦ hmore (h ▸ hc)
  unfold after
  dsimp only
  rw [List.reverse_append, List.takeWhile_append_of_pos hall, List.length_append,
    List.length_reverse]
  omega

end Place

theorem Instruction.mem_toList_written? {i : Instruction} {place : Place} {c : Char} :
    i ∈ (written? place c).toList ↔ c = i.symbol.toChar ∧ i.toPlace = place := by
  rw [Option.mem_toList, written?, Option.map_eq_some_iff]
  constructor
  · rintro ⟨s, hs, rfl⟩
    exact ⟨Symbol.eq_toChar_of_ofChar? hs, rfl⟩
  · rintro ⟨rfl, rfl⟩
    exact ⟨i.symbol, Symbol.ofChar?_toChar i.symbol, rfl⟩

namespace Instruction.StandsIn

theorem not_nil {i : Instruction} : ¬i.StandsIn [] := by
  rintro ⟨split, -⟩
  simp at split

/-- Either an instruction stands in a text already or it is written by the next character. -/
theorem append_singleton_iff {i : Instruction} {text : List Char} {c : Char} :
    i.StandsIn (text ++ [c]) ↔
      i.StandsIn text ∨ c = i.symbol.toChar ∧ i.toPlace = .after text := by
  constructor
  · rintro @⟨before, after, split, place_eq⟩
    rcases List.eq_nil_or_concat after with rfl | ⟨after, last, rfl⟩
    · obtain ⟨rfl, hc⟩ := List.append_inj' split rfl
      exact .inr ⟨List.singleton_inj.mp hc, place_eq⟩
    · rw [List.concat_eq_append, ← List.cons_append, ← List.append_assoc] at split
      obtain ⟨rfl, -⟩ := List.append_inj' split rfl
      exact .inl ⟨rfl, place_eq⟩
  · rintro (⟨rfl, place_eq⟩ | ⟨rfl, place_eq⟩)
    · exact ⟨by rw [List.append_assoc, List.cons_append], place_eq⟩
    · exact ⟨rfl, place_eq⟩

end Instruction.StandsIn

/-! ## The loader on its way -/

def Loader.place (l : Loader) : Place where
  line := l.line
  column := l.column
  index := l.program.size

namespace Loader

/-- The place of the next character stays the place behind the text. -/
theorem place_read {l : Loader} {text : List Char} (h : l.place = .after text) (c : Char) :
    (l.read c).place = .after (text ++ [c]) := by
  by_cases hline : c = '\n'
  · subst hline
    rw [Place.after_append_newline, ← h]
    rfl
  cases hs : Symbol.ofChar? c with
  | none =>
    rw [Place.after_append_comment hline hs, ← h, Loader.read_comment hline hs]
    rfl
  | some s =>
    obtain rfl := Symbol.eq_toChar_of_ofChar? hs
    rw [Place.after_append_symbol, ← h, Loader.read_toChar, place, Program.size, Program.push,
      Array.size_push]
    rfl

/-- Reading a character adds what it writes at the place of the loader. -/
theorem toList_read (l : Loader) (c : Char) :
    (l.read c).program.toList = l.program.toList ++ (Instruction.written? l.place c).toList := by
  by_cases hline : c = '\n'
  · subst hline
    exact (List.append_nil _).symm
  cases hs : Symbol.ofChar? c with
  | none =>
    rw [Loader.read_comment hline hs, Instruction.written?, hs]
    exact (List.append_nil _).symm
  | some s =>
    obtain rfl := Symbol.eq_toChar_of_ofChar? hs
    rw [Loader.read_toChar, Program.toList_push, Instruction.written?, hs]
    rfl

/-- A loader that has gone past a text is at the place behind it and has found what stands in it,
all the symbols in their order. -/
structure Past (l : Loader) (text : List Char) : Prop where
  place_eq : l.place = .after text
  symbols_eq : l.program.symbols = text.filterMap Symbol.ofChar?
  mem_iff : ∀ i, i ∈ l.program.toList ↔ i.StandsIn text

theorem past_nil : Past {} [] where
  place_eq := rfl
  symbols_eq := rfl
  mem_iff i := by
    rw [iff_false_right Instruction.StandsIn.not_nil]
    exact List.not_mem_nil

/-- Going past one more character keeps the account right. -/
theorem Past.read {l : Loader} {text : List Char} (h : l.Past text) (c : Char) :
    (l.read c).Past (text ++ [c]) where
  place_eq := place_read h.place_eq c
  symbols_eq := by
    rw [Program.symbols, toList_read, List.map_append, List.filterMap_append, ← h.symbols_eq,
      Program.symbols, Instruction.written?]
    cases hs : Symbol.ofChar? c <;> simp [hs]
  mem_iff i := by
    rw [toList_read, List.mem_append, Instruction.StandsIn.append_singleton_iff, h.mem_iff,
      Instruction.mem_toList_written?, h.place_eq]

theorem Past.foldl_read {l : Loader} {text : List Char} (h : l.Past text) (more : List Char) :
    (more.foldl Loader.read l).Past (text ++ more) := by
  induction more generalizing l text with
  | nil => rwa [List.append_nil]
  | cons c more ih =>
    have hrest := ih (h.read c)
    rwa [List.append_assoc, List.singleton_append] at hrest

end Loader

/-! ## Loaded programs -/

namespace Program

theorem past_ofChars (text : List Char) : (text.foldl Loader.read {}).Past text :=
  Loader.past_nil.foldl_read text

/-- A text and its program have the same symbols in the same order. -/
theorem symbols_ofChars (text : List Char) :
    (ofChars text).symbols = text.filterMap Symbol.ofChar? :=
  (past_ofChars text).symbols_eq

/-- The instructions of a program are those that stand in its text. -/
theorem mem_toList_ofChars {text : List Char} {i : Instruction} :
    i ∈ (ofChars text).toList ↔ i.StandsIn text :=
  (past_ofChars text).mem_iff i

end Program

/-! ## Characters by line and column -/

theorem length_splitOn_newline (text : List Char) :
    (text.splitOn '\n').length = text.count '\n' + 1 := by
  induction text with
  | nil => rfl
  | cons c text ih =>
    rw [List.splitOn_cons_eq_if_modifyHead, List.count_cons]
    split
    · rw [List.length_cons, ih]
    · rw [List.length_modifyHead, ih]

/-- The column behind a text depends on its last line alone. -/
theorem Place.column_after_line {line : List Char} (hline : '\n' ∉ line) (front : List Char) :
    (after line).column = line.length + 1 ∧
      (after (front ++ '\n' :: line)).column = line.length + 1 := by
  constructor
  · calc
      (after line).column = (after []).column + line.length := column_append hline []
      _ = line.length + 1 := Nat.add_comm _ _
  · calc
      (after (front ++ '\n' :: line)).column = (after (front ++ ['\n'] ++ line)).column := by
        rw [List.append_assoc, List.singleton_append]
      _ = (after (front ++ ['\n'])).column + line.length := column_append hline _
      _ = line.length + 1 := by rw [after_append_newline, Nat.add_comm]

/-- Behind a line feed lines are counted on. -/
theorem charAt?_append_newline (front text : List Char) (line column : Nat) :
    charAt? (front ++ '\n' :: text) (front.count '\n' + 1 + line + 1) (column + 1) =
      charAt? text (line + 1) (column + 1) := by
  rw [charAt?, charAt?, List.splitOn_append_cons_self, ← length_splitOn_newline,
    List.getElem?_append_right (Nat.le_add_right _ _), Nat.add_sub_cancel_left]

theorem charAt?_first_line {line : List Char} (hline : '\n' ∉ line) {c : Char} (hc : c ≠ '\n')
    (after : List Char) : charAt? (line ++ c :: after) 1 (line.length + 1) = some c := by
  induction line with
  | nil =>
    obtain ⟨first, others, hsplit⟩ := List.exists_cons_of_ne_nil (List.splitOn_ne_nil '\n' after)
    simp [charAt?, List.splitOn_cons_eq_if_modifyHead, hc, hsplit]
  | cons b line ih =>
    obtain ⟨hb, hline⟩ := not_or.mp (mt List.mem_cons.mpr hline)
    obtain ⟨first, others, hsplit⟩ :=
      List.exists_cons_of_ne_nil (List.splitOn_ne_nil '\n' (line ++ c :: after))
    have hrest : first[line.length]? = some c := by
      simpa [charAt?, hsplit] using ih hline
    simpa [charAt?, List.splitOn_cons_eq_if_modifyHead, Ne.symm hb, hsplit] using hrest

/-- The character behind a text is at the line and the column of the place behind it. -/
theorem charAt?_after {c : Char} (hc : c ≠ '\n') (before after : List Char) :
    charAt? (before ++ c :: after) (Place.after before).line (Place.after before).column =
      some c := by
  by_cases hmem : '\n' ∈ before.reverse
  · obtain ⟨line, front, hreverse, hline⟩ := List.eq_append_cons_of_mem hmem
    obtain rfl : before = front.reverse ++ '\n' :: line.reverse := by
      simpa using congrArg List.reverse hreverse
    have hline : '\n' ∉ line.reverse := mt List.mem_reverse.mp hline
    have hnumber : (Place.after (front.reverse ++ '\n' :: line.reverse)).line =
        front.reverse.count '\n' + 1 + 0 + 1 := by
      rw [Place.after, List.count_append, List.count_cons_self, List.count_eq_zero.mpr hline]
    rw [hnumber, (Place.column_after_line hline front.reverse).2, List.append_assoc,
      List.cons_append]
    calc
      _ = charAt? (line.reverse ++ c :: after) 1 (line.reverse.length + 1) :=
        charAt?_append_newline _ _ 0 _
      _ = some c := charAt?_first_line hline hc after
  · have hline : '\n' ∉ before := mt List.mem_reverse.mpr hmem
    have hnumber : (Place.after before).line = 1 := by
      rw [Place.after, List.count_eq_zero.mpr hline]
    rw [hnumber, (Place.column_after_line hline []).1]
    exact charAt?_first_line hline hc after

/-- Where an instruction stands, its symbol is at its line and its column. -/
theorem Instruction.StandsIn.charAt?_eq {i : Instruction} {text : List Char} (h : i.StandsIn text) :
    charAt? text i.line i.column = some i.symbol.toChar := by
  obtain @⟨before, after, rfl, place_eq⟩ := h
  rw [place_eq]
  exact charAt?_after i.symbol.toChar_ne_newline before after

/-! ## One instruction for a line and a column -/

namespace Place

/-- A text that goes on leaves its line or its column. -/
theorem eq_nil_of_line_column {text more : List Char}
    (hline : (after (text ++ more)).line = (after text).line)
    (hcolumn : (after (text ++ more)).column = (after text).column) : more = [] := by
  have hmore : '\n' ∉ more := by
    rw [line_append] at hline
    exact List.count_eq_zero.mp (Nat.add_eq_left.mp hline)
  rw [column_append hmore] at hcolumn
  exact List.length_eq_zero_iff.mp (Nat.add_eq_left.mp hcolumn)

/-- Of all beginnings of a text no two end at the same line and column. -/
theorem eq_of_line_column {text front front' : List Char} (h : front <+: text)
    (h' : front' <+: text) (hline : (after front).line = (after front').line)
    (hcolumn : (after front).column = (after front').column) : front = front' := by
  rcases List.prefix_or_prefix_of_prefix h h' with ⟨more, rfl⟩ | ⟨more, rfl⟩
  · rw [eq_nil_of_line_column hline.symm hcolumn.symm, List.append_nil]
  · rw [eq_nil_of_line_column hline hcolumn, List.append_nil]

end Place

/-- The line and the column of an instruction tell which one of its text it is. -/
theorem Instruction.StandsIn.eq_of_line_column {i i' : Instruction} {text : List Char}
    (h : i.StandsIn text) (h' : i'.StandsIn text) (hline : i.line = i'.line)
    (hcolumn : i.column = i'.column) : i = i' := by
  obtain @⟨front, back, split, place_eq⟩ := h
  obtain @⟨front', back', split', place_eq'⟩ := h'
  have hprefix : front <+: text := split ▸ List.prefix_append _ _
  have hprefix' : front' <+: text := split' ▸ List.prefix_append _ _
  obtain rfl : front = front' := by
    apply Place.eq_of_line_column hprefix hprefix'
    · rw [← place_eq, ← place_eq', hline]
    · rw [← place_eq, ← place_eq', hcolumn]
  have hchars := List.append_cancel_left (split.symm.trans split')
  have hsymbol : i.symbol = i'.symbol := Symbol.toChar_injective (List.cons.inj hchars).1
  have hplace : i.toPlace = i'.toPlace := place_eq.trans place_eq'.symm
  obtain ⟨place, symbol⟩ := i
  obtain ⟨place', symbol'⟩ := i'
  subst hsymbol hplace
  rfl

end Brainfuck
