import Brainfuck.Proofs.Program.Lines
import Brainfuck.Proofs.Program.Places
import Mathlib.Data.List.Basic
import Mathlib.Data.List.Induction

/-!
# Programs as lists

The program of a text lists its symbols. What the character at an offset writes, if anything, can be
said without the loader: its symbol, at the place behind the characters before it. The program is
the list of what the offsets write, in their order. So every comment character may be replaced by a
blank, a carriage return before a line feed may be left out, and a text that goes on adds
instructions at the end and changes none of those before.
-/

namespace Brainfuck

/-- The instruction that the character at an offset of a text writes; `none` where a comment is. -/
def Instruction.writtenAt? (text : List Char) (offset : Nat) : Option Instruction :=
  text[offset]?.bind (written? (.after (text.take offset)))

namespace Instruction

theorem writtenAt?_append_of_lt {text : List Char} {offset : Nat} (h : offset < text.length)
    (more : List Char) : writtenAt? (text ++ more) offset = writtenAt? text offset := by
  rw [writtenAt?, writtenAt?, List.getElem?_append_left h,
    List.take_append_of_le_length (Nat.le_of_lt h)]

theorem writtenAt?_append_singleton (text : List Char) (c : Char) :
    writtenAt? (text ++ [c]) text.length = written? (.after text) c := by
  rw [writtenAt?, List.getElem?_concat_length, Option.bind_some, List.take_left]

end Instruction

namespace Program

/-! ## A text that goes on -/

/-- One more character adds what it writes at the place behind the others. -/
theorem toList_ofChars_append_singleton (text : List Char) (c : Char) :
    (ofChars (text ++ [c])).toList =
      (ofChars text).toList ++ (Instruction.written? (.after text) c).toList := by
  rw [ofChars, List.foldl_append, List.foldl_cons, List.foldl_nil, Loader.toList_read,
    (past_ofChars text).place_eq, ofChars]

theorem ofChars_append_comment (text : List Char) {comment : List Char}
    (h : ∀ c ∈ comment, Symbol.ofChar? c = none) : ofChars (text ++ comment) = ofChars text := by
  induction comment generalizing text with
  | nil => rw [List.append_nil]
  | cons c comment ih =>
    obtain ⟨hc, hcomment⟩ := List.forall_mem_cons.mp h
    have hfirst : ofChars (text ++ [c]) = ofChars text := by
      apply ext
      rw [toList_ofChars_append_singleton, Instruction.written?, hc]
      exact List.append_nil _
    rw [← List.singleton_append, ← List.append_assoc, ih _ hcomment, hfirst]

/-- The instructions found in a text are the first ones of every text that goes on from it. -/
theorem toList_prefix_ofChars_append (text more : List Char) :
    (ofChars text).toList <+: (ofChars (text ++ more)).toList := by
  induction more generalizing text with
  | nil => simp
  | cons c more ih =>
    have hfirst : (ofChars text).toList <+: (ofChars (text ++ [c])).toList := by
      rw [toList_ofChars_append_singleton]
      exact List.prefix_append _ _
    have hrest := ih (text ++ [c])
    rw [List.append_assoc, List.singleton_append] at hrest
    exact hfirst.trans hrest

/-! ## The whole text -/

theorem toList_ofChars_eq_filterMap (text : List Char) :
    (ofChars text).toList =
      (List.range text.length).filterMap (Instruction.writtenAt? text) := by
  induction text using List.reverseRecOn with
  | nil => rfl
  | append_singleton front c ih =>
    have hfront : (List.range front.length).filterMap (Instruction.writtenAt? front) =
        (List.range front.length).filterMap (Instruction.writtenAt? (front ++ [c])) := by
      apply List.filterMap_congr
      intro offset hoffset
      exact (Instruction.writtenAt?_append_of_lt (List.mem_range.mp hoffset) [c]).symm
    have hlast : [front.length].filterMap (Instruction.writtenAt? (front ++ [c])) =
        (Instruction.written? (.after front) c).toList := by
      rw [← Instruction.writtenAt?_append_singleton]
      cases h : Instruction.writtenAt? (front ++ [c]) front.length <;> simp [h]
    rw [toList_ofChars_append_singleton, ih, hfront, ← hlast, List.length_append,
      List.length_singleton, List.range_succ, List.filterMap_append]

/-- A comment character counts as a blank, whichever it is; a line feed is the only exception. -/
theorem ofChars_comment_eq_blank {c : Char} (hc : c ≠ '\n') (hnone : Symbol.ofChar? c = none)
    (before after : List Char) :
    ofChars (before ++ c :: after) = ofChars (before ++ ' ' :: after) := by
  rw [ofChars, ofChars, List.foldl_append, List.foldl_append, List.foldl_cons, List.foldl_cons,
    Loader.read_comment hc hnone, Loader.read_comment (by decide) rfl]

/-- A line feed starts its line in the first column, so a carriage return before it is as good as
none. -/
theorem ofChars_return_newline (before after : List Char) :
    ofChars (before ++ '\r' :: '\n' :: after) = ofChars (before ++ '\n' :: after) := by
  have hreturn (l : Loader) : (l.read '\r').read '\n' = l.read '\n' := rfl
  rw [ofChars, ofChars, List.foldl_append, List.foldl_append, List.foldl_cons, List.foldl_cons,
    List.foldl_cons, hreturn]

/-- The program of a text is the list of what its characters write, in their order: a symbol writes
an instruction that holds it, whose line is one more than the number of line feeds before it, whose
column is one more than the number of characters since the last of them, and whose index is the
number of symbols before it; any other character writes nothing. Reading the text line by line finds
the same. A comment character other than a line feed can be replaced by a blank, so it ends no line;
and a carriage return before a line feed can be left out. -/
theorem ofString_lists_symbols :
    (∀ text, (ofString text).toList =
      (List.range text.length).filterMap (Instruction.writtenAt? text.toList)) ∧
    (∀ text, ofLines (lines text.toList) = ofString text) ∧
    (∀ c, c ≠ '\n' → Symbol.ofChar? c = none → ∀ before after : String,
      ofString (before ++ c.toString ++ after) = ofString (before ++ " " ++ after)) ∧
    ∀ before after : String,
      ofString (before ++ "\r\n" ++ after) = ofString (before ++ "\n" ++ after) := by
  refine ⟨fun text ↦ ?_, fun text ↦ ofLines_lines text.toList, fun c hc hnone before after ↦ ?_,
    fun before after ↦ ?_⟩
  · rw [ofString, toList_ofChars_eq_filterMap, String.length_toList]
  · have hblank := ofChars_comment_eq_blank hc hnone before.toList after.toList
    simpa [ofString] using hblank
  · have hreturn := ofChars_return_newline before.toList after.toList
    simpa [ofString] using hreturn

/-- Separators that other programs end lines with: a line separator, a next line, a vertical tab and
a lone carriage return take a column each, as a byte order mark does. -/
theorem ofString_lists_symbols_separators :
    '\u2028' ≠ '\n' ∧ Symbol.ofChar? '\u2028' = none ∧
    ofString ("+" ++ '\u2028'.toString ++ "-") = ofString ("+" ++ " " ++ "-") ∧
    (ofString "\uFEFF+\u0085-\r.\r\n,\u000B[\n\n]").toList =
      [⟨⟨1, 2, 0⟩, .command .increment⟩, ⟨⟨1, 4, 1⟩, .command .decrement⟩,
        ⟨⟨1, 6, 2⟩, .command .output⟩, ⟨⟨2, 1, 3⟩, .command .input⟩,
        ⟨⟨2, 3, 4⟩, .bracket .opening⟩, ⟨⟨4, 1, 5⟩, .bracket .closing⟩] := by
  obtain ⟨hlist, -, hblank, -⟩ := ofString_lists_symbols
  have hline : '\u2028' ≠ '\n' := by decide
  refine ⟨hline, rfl, hblank '\u2028' hline rfl "+" "-", ?_⟩
  rw [hlist]
  rfl

end Program

end Brainfuck
