import Brainfuck.Machine.Run
import Brainfuck.Proofs.Program.Places
import Brainfuck.Proofs.Utf8.Ascii
import Brainfuck.Proofs.Utf8.Encoding

/-!
# Programs in bytes

A program file is a sequence of bytes, and most of it may be anything. The instructions can be read
off the bytes without decoding them: a byte that is the code of a symbol is an instruction, a line
feed ends a line, and all other bytes are comments, whether they make up characters or not. This is
so because symbols and line feeds are in ASCII, and ASCII passes through decoding. How the bytes
were delivered does not matter; a delivery that fails gives no program.

The bytes of a text, in chunks that may end in the middle of a character, give the program of the
text, with the same places: columns count characters and not bytes. So it does not matter to a
machine which way its program came, and not to its journal either.
-/

namespace Brainfuck

/-- The symbol with an ASCII code; `none` for a byte of a comment. -/
def Symbol.ofByte? (b : UInt8) : Option Symbol :=
  match b with
  | 0x3E => some (command .moveRight)
  | 0x3C => some (command .moveLeft)
  | 0x2B => some (command .increment)
  | 0x2D => some (command .decrement)
  | 0x2E => some (command .output)
  | 0x2C => some (command .input)
  | 0x5B => some (bracket .opening)
  | 0x5D => some (bracket .closing)
  | _ => none

namespace Utf8

/-! ## Symbols and line feeds are in ASCII -/

theorem isAscii_toChar (s : Symbol) : isAscii s.toChar = true := by
  rcases s with c | b
  · cases c <;> decide
  · cases b <;> decide

theorem ofChar?_eq_none {c : Char} (h : isAscii c = false) : Symbol.ofChar? c = none := by
  rw [Option.eq_none_iff_forall_ne_some]
  intro s hs
  rw [Symbol.eq_toChar_of_ofChar? hs, isAscii_toChar] at h
  cases h

/-- The symbol of a byte is the symbol of the character with its number. -/
theorem ofChar?_ofNat (b : UInt8) : Symbol.ofChar? (Char.ofNat b.toNat) = Symbol.ofByte? b := by
  have hall : ∀ n : Fin 256, Symbol.ofChar? (Char.ofNat n) = Symbol.ofByte? (UInt8.ofNat n) := by
    decide +kernel
  have hb := hall ⟨b.toNat, b.toNat_lt⟩
  rwa [UInt8.ofNat_toNat] at hb

theorem ofByte?_eq_none {b : UInt8} (h : ¬b < 0x80) : Symbol.ofByte? b = none := by
  rw [← ofChar?_ofNat]
  apply ofChar?_eq_none
  rw [isAscii, toNat_ofNat_byte]
  exact decide_eq_false h

theorem filterMap_ofChar?_asciiChars (bytes : List UInt8) :
    (asciiChars bytes).filterMap Symbol.ofChar? = bytes.filterMap Symbol.ofByte? := by
  have hbyte : ∀ b : UInt8, (if decide (b < 0x80) = true then Symbol.ofChar? (Char.ofNat b.toNat)
      else none) = Symbol.ofByte? b := by
    intro b
    split
    · exact ofChar?_ofNat b
    · next h => exact (ofByte?_eq_none (mt decide_eq_true h)).symm
  rw [asciiChars, List.filterMap_map, List.filterMap_filter]
  simp only [Function.comp_apply, hbyte]

theorem count_newline_asciiChars (bytes : List UInt8) :
    (asciiChars bytes).count '\n' = bytes.count 0x0A := by
  have hbyte : ∀ b : UInt8, (Char.ofNat b.toNat = '\n' ∧ b < 0x80) ↔ b = 0x0A := by
    intro b
    constructor
    · rintro ⟨h, -⟩
      have hnat := congrArg Char.toNat h
      rw [toNat_ofNat_byte] at hnat
      exact UInt8.toNat_inj.mp hnat
    · rintro rfl
      exact ⟨rfl, by decide⟩
  rw [asciiChars, List.count, List.countP_map, List.countP_filter, List.count]
  apply List.countP_congr
  intro b _
  simpa using hbyte b

theorem filterMap_ofChar?_filter (text : List Char) :
    (text.filter isAscii).filterMap Symbol.ofChar? = text.filterMap Symbol.ofChar? := by
  have hchar : ∀ c, (if isAscii c = true then Symbol.ofChar? c else none) = Symbol.ofChar? c := by
    intro c
    split
    · rfl
    · next h => exact (ofChar?_eq_none (Bool.eq_false_iff.mpr h)).symm
  rw [List.filterMap_filter]
  simp only [hchar]

/-! ## From the decoded text back to the bytes -/

theorem filterMap_ofChar?_decode (bytes : List UInt8) :
    (decode bytes).filterMap Symbol.ofChar? = bytes.filterMap Symbol.ofByte? := by
  rw [← filterMap_ofChar?_filter, filter_isAscii_decode, filterMap_ofChar?_asciiChars]

/-- Where a decoded text has an ASCII character, the bytes have the byte of that character, and the
parts before the two have the same ASCII characters. -/
theorem exists_split_of_decode {bytes : List UInt8} {before after : List Char} {c : Char}
    (h : decode bytes = before ++ c :: after) (hc : isAscii c = true) :
    ∃ front b back, bytes = front ++ b :: back ∧ Char.ofNat b.toNat = c ∧
      before.filter isAscii = asciiChars front := by
  have hascii := filter_isAscii_decode bytes
  rw [h, List.filter_append, List.filter_cons_of_pos hc] at hascii
  obtain ⟨front, others, hbytes, hfront, hothers⟩ := List.map_eq_append_iff.mp hascii.symm
  obtain ⟨b, back, rfl, hb, -⟩ := List.map_eq_cons_iff.mp hothers
  obtain ⟨front, others, rfl, rfl, hothers⟩ := List.filter_eq_append_iff.mp hbytes
  obtain ⟨skipped, back, rfl, hskipped, -, -⟩ := List.filter_eq_cons_iff.mp hothers
  refine ⟨front ++ skipped, b, back, (List.append_assoc ..).symm, hb, ?_⟩
  rw [asciiChars, List.filter_append, List.filter_eq_nil_iff.mpr hskipped, List.append_nil, hfront]

/-- The line and the index of the place behind a part of a text depend on its ASCII characters
alone. -/
theorem place_after_of_ascii {before : List Char} {front : List UInt8}
    (h : before.filter isAscii = asciiChars front) :
    (Place.after before).line = front.count 0x0A + 1 ∧
      (Place.after before).index = (front.filterMap Symbol.ofByte?).length := by
  have hline : isAscii '\n' = true := by decide
  constructor
  · rw [Place.after, ← List.count_filter hline, h, count_newline_asciiChars]
  · rw [Place.after, ← filterMap_ofChar?_filter, h, filterMap_ofChar?_asciiChars]

end Utf8

namespace Program

/-- The symbols of a program in bytes are the bytes that are codes of symbols. -/
theorem symbols_ofBytes (bytes : List UInt8) :
    (ofBytes bytes).symbols = bytes.filterMap Symbol.ofByte? := by
  rw [ofBytes, symbols_ofChars, Utf8.filterMap_ofChar?_decode]

/-- An instruction of a program in bytes has a byte, and its line and its index are counted off the
bytes before that. -/
theorem exists_byte_of_mem_ofBytes {bytes : List UInt8} {i : Instruction}
    (h : i ∈ (ofBytes bytes).toList) :
    ∃ before b after, bytes = before ++ b :: after ∧ Symbol.ofByte? b = some i.symbol ∧
      i.index = (before.filterMap Symbol.ofByte?).length ∧ i.line = before.count 0x0A + 1 := by
  obtain ⟨split, place_eq⟩ := mem_toList_ofChars.mp h
  obtain ⟨front, b, back, rfl, hb, hfront⟩ :=
    Utf8.exists_split_of_decode split (Utf8.isAscii_toChar i.symbol)
  obtain ⟨hline, hindex⟩ := Utf8.place_after_of_ascii hfront
  refine ⟨front, b, back, rfl, ?_, ?_, ?_⟩
  · rw [← Utf8.ofChar?_ofNat, hb, Symbol.ofChar?_toChar]
  · rw [place_eq, hindex]
  · rw [place_eq, hline]

/-- A source that fails gives its failure, whatever it has delivered. Any other source gives a
program, however it cuts the bytes: the symbols of the program are the bytes with the code of a
symbol, in order and with nothing between them; the instruction at a position has this position as
its index, as many codes of symbols are before its byte, and its line is one more than the number of
line feeds before its byte. -/
theorem ofSource_reads_symbol_bytes (s : ByteSource) :
    (∀ failure, s.failure = some failure → ofSource s = .error failure) ∧
    (s.failure = none → ∃ p, ofSource s = .ok p ∧
      p.symbols = s.chunks.flatten.filterMap Symbol.ofByte? ∧
      ∀ n i, p.toList[n]? = some i → i.index = n ∧
        ∃ before b after, s.chunks.flatten = before ++ b :: after ∧
          Symbol.ofByte? b = some i.symbol ∧ (before.filterMap Symbol.ofByte?).length = n ∧
            i.line = before.count 0x0A + 1) := by
  constructor
  · intro failure fails
    exact ofSource_of_failure fails
  · intro readable
    refine ⟨ofBytes s.chunks.flatten, ofSource_of_readable readable, symbols_ofBytes _, ?_⟩
    intro n i hi
    have hindex := index_eq_of_getElem? hi
    obtain ⟨before, b, after, hsplit, hb, hcount, hline⟩ :=
      exists_byte_of_mem_ofBytes (List.mem_of_getElem? hi)
    exact ⟨hindex, before, b, after, hsplit, hb, hcount.symm.trans hindex, hline⟩

/-- Two chunks: a plus and two bytes of a character that the second chunk does not go on with, then
a line feed, a byte that starts no character, and the command to move right. -/
theorem ofSource_reads_symbol_bytes_cut :
    (⟨[[0x2B, 0xE2, 0x82], [0x0A, 0xFF, 0x3E]], none⟩ : ByteSource).failure = none ∧
    ∃ p, ofSource ⟨[[0x2B, 0xE2, 0x82], [0x0A, 0xFF, 0x3E]], none⟩ = .ok p ∧
      p.symbols = [.command .increment, .command .moveRight] := by
  obtain ⟨p, hload, hsymbols, -⟩ :=
    (ofSource_reads_symbol_bytes ⟨[[0x2B, 0xE2, 0x82], [0x0A, 0xFF, 0x3E]], none⟩).2 rfl
  exact ⟨rfl, p, hload, hsymbols⟩

/-! ## Texts delivered in bytes -/

/-- The bytes of a text are loaded as the text. -/
theorem ofBytes_toUTF8 (text : String) : ofBytes text.toUTF8.toList = ofString text := by
  unfold ofBytes ofString
  rw [Utf8.decode_toUTF8]

/-- A source that delivers the bytes of a text gives the program of the text, wherever the bytes are
cut. A machine that interprets this program does what it does when it executes the text, from any
state, on any input and with the same entries in its journal. -/
theorem ofSource_eq_ofString {text : String} {chunks : List (List UInt8)}
    (cut : chunks.flatten = text.toUTF8.toList) :
    ofSource ⟨chunks, none⟩ = .ok (ofString text) ∧
    ∀ (m : Machine) (input : String) (j : Journal), ∃ program j',
      loadSource ⟨chunks, none⟩ j = (.ok program, j') ∧
        m.interpret program input j' = m.executeText text input j := by
  have hsource : ofSource ⟨chunks, none⟩ = .ok (ofString text) := by
    rw [ofSource_of_readable rfl, cut, ofBytes_toUTF8]
  refine ⟨hsource, fun m input j ↦ ⟨ofString text, (load text j).2, ?_, rfl⟩⟩
  unfold loadSource
  rw [hsource]
  rfl

/-- Characters of one to four bytes, with a cut inside each of those that take several. -/
theorem ofSource_eq_ofString_cut :
    [[0x2B, 0xC3], [0xA9, 0x0A, 0xE2, 0x82], [0xAC, 0xF0, 0x9F], [0x98, 0x80, 0x2E]].flatten =
      "+é\n€😀.".toUTF8.toList ∧
    ofSource ⟨[[0x2B, 0xC3], [0xA9, 0x0A, 0xE2, 0x82], [0xAC, 0xF0, 0x9F], [0x98, 0x80, 0x2E]],
      none⟩ = .ok (ofString "+é\n€😀.") ∧
    (ofString "+é\n€😀.").toList =
      [⟨⟨1, 1, 0⟩, .command .increment⟩, ⟨⟨2, 3, 1⟩, .command .output⟩] := by
  have cut : [[0x2B, 0xC3], [0xA9, 0x0A, 0xE2, 0x82], [0xAC, 0xF0, 0x9F],
      [0x98, 0x80, 0x2E]].flatten = "+é\n€😀.".toUTF8.toList := by
    rw [Utf8.toList_toUTF8]
    rfl
  exact ⟨cut, (ofSource_eq_ofString cut).1, rfl⟩

end Program

end Brainfuck
