import Brainfuck.Program.Sample
import Brainfuck.Proofs.Program.Bytes
import Brainfuck.Proofs.Program.Listing

/-!
# Program files that grow

Bytes added at the end of a program file add instructions at the end of its program and change none
of those that were there. The decoded texts need not go on from each other, since the new bytes can
complete a character that was cut off. But a decoder only adds to the text that it holds, and what
it gives out for a character that is cut off is no symbol: so all the instructions of the shorter
file are in the text held when its bytes are used up, and that text is the beginning of what is
decoded in the end.
-/

namespace Brainfuck

namespace Utf8.Decoder

/-! ## A decoder only adds to its text -/

theorem toList_prefix_push (text : Array Char) (c : Char) : text.toList <+: (text.push c).toList := by
  rw [Array.toList_push]
  exact List.prefix_append _ _

theorem text_prefix_start (text : Array Char) (b : UInt8) :
    text.toList <+: (start text b).text.toList := by
  unfold start
  split
  · exact toList_prefix_push text _
  · split
    · exact List.prefix_rfl
    · exact toList_prefix_push text _

theorem text_prefix_extend (text : Array Char) (p : Pending) (b : UInt8) :
    text.toList <+: (extend text p b).text.toList := by
  unfold extend
  split
  · exact toList_prefix_push text _
  · exact List.prefix_rfl

theorem text_prefix_feed (d : Decoder) (b : UInt8) : d.text.toList <+: (d.feed b).text.toList := by
  unfold feed
  split
  · exact text_prefix_start d.text b
  · split
    · exact text_prefix_extend d.text _ b
    · exact (toList_prefix_push d.text replacement).trans (text_prefix_start _ b)

theorem text_prefix_foldl_feed (d : Decoder) (bytes : List UInt8) :
    d.text.toList <+: (bytes.foldl feed d).text.toList := by
  induction bytes generalizing d with
  | nil => exact List.prefix_rfl
  | cons b bytes ih => exact (text_prefix_feed d b).trans (ih (d.feed b))

/-- At the end at most one replacement character is added. -/
theorem exists_comment_finish (d : Decoder) :
    ∃ comment, d.finish.toList = d.text.toList ++ comment ∧
      ∀ c ∈ comment, Symbol.ofChar? c = none := by
  unfold finish
  split
  · exact ⟨[], (List.append_nil _).symm, fun c hc ↦ absurd hc List.not_mem_nil⟩
  · refine ⟨[replacement], Array.toList_push, fun c hc ↦ ?_⟩
    rw [List.mem_singleton.mp hc]
    rfl

end Utf8.Decoder

namespace Program

/-- The instructions of a program file are in the text that the decoder holds at the end. -/
theorem ofBytes_eq_ofChars_text (bytes : List UInt8) :
    ofBytes bytes = ofChars (bytes.foldl Utf8.Decoder.feed {}).text.toList := by
  obtain ⟨comment, hfinish, hcomment⟩ := (bytes.foldl Utf8.Decoder.feed {}).exists_comment_finish
  rw [ofBytes, Utf8.decode, hfinish, ofChars_append_comment _ hcomment]

theorem toList_prefix_ofBytes_append (bytes more : List UInt8) :
    (ofBytes bytes).toList <+: (ofBytes (bytes ++ more)).toList := by
  rw [ofBytes_eq_ofChars_text, ofBytes_eq_ofChars_text, List.foldl_append]
  obtain ⟨rest, hrest⟩ :=
    (bytes.foldl Utf8.Decoder.feed {}).text_prefix_foldl_feed more
  rw [← hrest]
  exact toList_prefix_ofChars_append _ rest

/-- What is added are the symbols among the new bytes. -/
theorem exists_toList_ofBytes_append (bytes more : List UInt8) :
    ∃ rest, (ofBytes (bytes ++ more)).toList = (ofBytes bytes).toList ++ rest ∧
      rest.map Instruction.symbol = more.filterMap Symbol.ofByte? := by
  obtain ⟨rest, hrest⟩ := toList_prefix_ofBytes_append bytes more
  refine ⟨rest, hrest.symm, ?_⟩
  have hsymbols := symbols_ofBytes (bytes ++ more)
  rw [symbols, ← hrest, List.map_append, List.filterMap_append, ← symbols_ofBytes bytes] at hsymbols
  exact List.append_cancel_left hsymbols

theorem ofBytes_append_comment (bytes : List UInt8) {more : List UInt8}
    (h : ∀ b ∈ more, Symbol.ofByte? b = none) : ofBytes (bytes ++ more) = ofBytes bytes := by
  obtain ⟨rest, hrest, hsymbols⟩ := exists_toList_ofBytes_append bytes more
  rw [List.filterMap_eq_nil_iff.mpr h, List.map_eq_nil_iff] at hsymbols
  apply ext
  rw [hrest, hsymbols, List.append_nil]

theorem ofByte?_newline : ∀ b ∈ [(0x0A : UInt8)], Symbol.ofByte? b = none := by
  intro b hb
  rw [List.mem_singleton.mp hb]
  rfl

/-- A source that delivers some bytes and then more gives the program of the first bytes with
instructions added at its end, one for each of the further bytes that is the code of a symbol, in
their order. Without such a byte the program stays the same; so a sample file gives the program of
its content, whatever stands before the line feed at its end. -/
theorem ofSource_append {s t : ByteSource} {more : List UInt8} (hs : s.failure = none)
    (ht : t.failure = none) (appended : t.chunks.flatten = s.chunks.flatten ++ more) :
    (∃ p q rest, ofSource s = .ok p ∧ ofSource t = .ok q ∧ q.toList = p.toList ++ rest ∧
      rest.map Instruction.symbol = more.filterMap Symbol.ofByte?) ∧
    ((∀ b ∈ more, Symbol.ofByte? b = none) → ofSource t = ofSource s) ∧
    ∀ sample : Sample, ofSource sample.source = ofSource (.ofBytes sample.content) := by
  refine ⟨?_, fun hmore ↦ ?_, fun sample ↦ ?_⟩
  · obtain ⟨rest, hrest, hsymbols⟩ := exists_toList_ofBytes_append s.chunks.flatten more
    refine ⟨_, _, rest, ofSource_of_readable hs, ofSource_of_readable ht, ?_, hsymbols⟩
    rw [appended, hrest]
  · rw [ofSource_of_readable ht, ofSource_of_readable hs, appended,
      ofBytes_append_comment _ hmore]
  · have hsource : sample.source.chunks.flatten =
        (ByteSource.ofBytes sample.content).chunks.flatten ++ [0x0A] := by
      simp [Sample.source, ByteSource.ofBytes, Sample.bytes]
    rw [ofSource_of_readable (s := sample.source) rfl,
      ofSource_of_readable (s := .ofBytes sample.content) rfl, hsource,
      ofBytes_append_comment _ ofByte?_newline]

/-- The byte that completes a character of three bytes and a command after it; and a line feed after
a character that is cut off and a carriage return. -/
theorem ofSource_append_cut :
    [[0x2B], [0xE2, 0x82, 0xAC, 0x2D]].flatten =
      [[0x2B, 0xE2], [0x82]].flatten ++ [(0xAC : UInt8), 0x2D] ∧
    (∃ p q rest, ofSource ⟨[[0x2B, 0xE2], [0x82]], none⟩ = .ok p ∧
      ofSource ⟨[[0x2B], [0xE2, 0x82, 0xAC, 0x2D]], none⟩ = .ok q ∧
      q.toList = p.toList ++ rest ∧ rest.map Instruction.symbol = [.command .decrement]) ∧
    ofSource ⟨[[0x2B, 0xE2, 0x82, 0x0D, 0x0A]], none⟩ =
      ofSource ⟨[[0x2B, 0xE2, 0x82, 0x0D]], none⟩ := by
  have appended : [[0x2B], [0xE2, 0x82, 0xAC, 0x2D]].flatten =
      [[0x2B, 0xE2], [0x82]].flatten ++ [(0xAC : UInt8), 0x2D] := rfl
  exact ⟨appended,
    (ofSource_append (s := ⟨[[0x2B, 0xE2], [0x82]], none⟩)
      (t := ⟨[[0x2B], [0xE2, 0x82, 0xAC, 0x2D]], none⟩) rfl rfl appended).1,
    (ofSource_append (s := ⟨[[0x2B, 0xE2, 0x82, 0x0D]], none⟩)
      (t := ⟨[[0x2B, 0xE2, 0x82, 0x0D, 0x0A]], none⟩) rfl rfl rfl).2.1 ofByte?_newline⟩

end Program

end Brainfuck
