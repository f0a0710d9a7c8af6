import Brainfuck.Utf8
import Mathlib.Algebra.Group.Nat.Defs

/-!
# Encoded texts

Decoding undoes encoding. The first byte of an encoded character tells how many bytes follow and
carries the highest bits of the code point; each byte after it carries six more. A decoder that has
read some of these bytes holds the code point without the bits that are still to come, and accepts
the next byte: the narrower ranges after some first bytes leave out overlong forms, surrogates and
numbers past the last code point, and an encoded character is none of these. So every character is
read back as it was, and no replacement character is put in.
-/

namespace Brainfuck.Utf8

/-! ## The bytes of a text -/

theorem toList_loop (bytes : ByteArray) (i : Nat) (acc : List UInt8) :
    ByteArray.toList.loop bytes i acc = acc.reverse ++ bytes.data.toList.drop i := by
  fun_induction ByteArray.toList.loop bytes i acc with
  | case1 i acc hlt ih =>
    have hlength : i < bytes.data.toList.length := hlt
    have hget : bytes.get! i = bytes.data.toList[i] := getElem!_pos bytes.data i hlt
    rw [ih, List.drop_eq_getElem_cons hlength, hget, List.reverse_cons, List.append_assoc,
      List.singleton_append]
  | case2 i acc hge =>
    have hlength : bytes.data.toList.length ≤ i := Nat.le_of_not_lt hge
    rw [List.drop_eq_nil_of_le hlength, List.append_nil]

theorem toList_toByteArray (bytes : List UInt8) : bytes.toByteArray.toList = bytes := by
  rw [ByteArray.toList, toList_loop, List.reverse_nil, List.nil_append, List.drop_zero,
    List.toList_data_toByteArray]

/-- The bytes of a text are those of its characters one after another. -/
theorem toList_toUTF8 (text : String) :
    text.toUTF8.toList = text.toList.flatMap String.utf8EncodeChar := by
  rw [String.toUTF8_eq_toByteArray, ← String.utf8Encode_toList, List.utf8Encode,
    toList_toByteArray]

/-! ## The bytes after the first -/

/-- The byte with the six bits of a code point that `more` further bytes follow. -/
def continuationByte (n more : Nat) : UInt8 :=
  UInt8.ofNat (n / 0x40 ^ more % 0x40 + 0x80)

/-- The last bytes of an encoded code point, `count` of them. -/
def continuation (n : Nat) : (count : Nat) → List UInt8
  | 0 => []
  | more + 1 => continuationByte n more :: continuation n more

def encode (n : Nat) : List UInt8 :=
  if n ≤ 0x7F then [UInt8.ofNat n]
  else if n ≤ 0x7FF then UInt8.ofNat (n / 0x40 % 0x20 + 0xC0) :: continuation n 1
  else if n ≤ 0xFFFF then UInt8.ofNat (n / 0x1000 % 0x10 + 0xE0) :: continuation n 2
  else UInt8.ofNat (n / 0x40000 % 0x8 + 0xF0) :: continuation n 3

theorem utf8EncodeChar_eq (c : Char) : String.utf8EncodeChar c = encode c.toNat := by
  simp only [String.utf8EncodeChar, encode, continuation, continuationByte, Nat.reducePow,
    Nat.div_one]
  rfl

theorem toNat_continuationByte (n more : Nat) :
    (continuationByte n more).toNat = n / 0x40 ^ more % 0x40 + 0x80 := by
  rw [continuationByte, UInt8.toNat_ofNat']
  omega

theorem toNat_continuationByte_sub (n more : Nat) :
    (continuationByte n more - 0x80).toNat = n / 0x40 ^ more % 0x40 := by
  have hle : (0x80 : UInt8) ≤ continuationByte n more := by
    rw [UInt8.le_iff_toNat_le, toNat_continuationByte]
    exact Nat.le_add_left _ _
  rw [UInt8.toNat_sub_of_le _ _ hle, toNat_continuationByte]
  exact Nat.add_sub_cancel _ _

namespace Pending

theorem accepts_iff {p : Pending} {b : UInt8} :
    p.accepts b = true ↔ p.low.toNat ≤ b.toNat ∧ b.toNat ≤ p.high.toNat := by
  rw [accepts, Bool.and_eq_true, decide_eq_true_iff, decide_eq_true_iff, UInt8.le_iff_toNat_le,
    UInt8.le_iff_toNat_le]

/-- A pending character is the code point `n` without its last bits, and the next byte of `n` is one
that may come. -/
structure Awaits (p : Pending) (n : Nat) : Prop where
  value_eq : p.value = n / 0x40 ^ (p.more + 1)
  accepts : p.accepts (continuationByte n p.more) = true

/-- The range of the next byte only has to hold the bits of the code point. -/
theorem awaits_of_bits {n value more : Nat} {low high : UInt8} {low_ge : 0x80 ≤ low}
    (hvalue : value = n / 0x40 ^ (more + 1)) (hlow : low.toNat ≤ n / 0x40 ^ more % 0x40 + 0x80)
    (hhigh : n / 0x40 ^ more % 0x40 + 0x80 ≤ high.toNat) :
    Awaits { value, low, high, more, low_ge } n where
  value_eq := hvalue
  accepts := by
    rw [accepts_iff, toNat_continuationByte]
    exact ⟨hlow, hhigh⟩

/-- Where every byte may come that continues a character, the next one may. -/
theorem awaits_of_value {n value more : Nat} (hvalue : value = n / 0x40 ^ (more + 1)) :
    Awaits { value, low := 0x80, high := 0xBF, more } n := by
  have hbits : n / 0x40 ^ more % 0x40 < 0x40 := Nat.mod_lt _ (by decide)
  apply awaits_of_bits hvalue
  · exact Nat.le_add_left _ _
  · change n / 0x40 ^ more % 0x40 + 0x80 ≤ 0xBF
    omega

/-- The next byte adds its bits. -/
theorem Awaits.value_add {p : Pending} {n : Nat} (h : p.Awaits n) :
    p.value * 0x40 + (continuationByte n p.more - 0x80).toNat = n / 0x40 ^ p.more := by
  calc
    p.value * 0x40 + (continuationByte n p.more - 0x80).toNat =
        n / 0x40 ^ p.more / 0x40 * 0x40 + n / 0x40 ^ p.more % 0x40 := by
      rw [h.value_eq, toNat_continuationByte_sub, Nat.pow_succ, Nat.div_div_eq_div_mul]
    _ = n / 0x40 ^ p.more := Nat.div_add_mod' _ _

end Pending

namespace Decoder

theorem feed_accepted {text : Array Char} {p : Pending} {b : UInt8} (h : p.accepts b = true) :
    feed { text, pending := some p } b = extend text p b := by
  unfold feed
  simp only [h, if_true]

/-- The awaited bytes complete the character. -/
theorem foldl_feed_continuation {p : Pending} {n : Nat} (h : p.Awaits n) (text : Array Char) :
    (continuation n (p.more + 1)).foldl feed { text, pending := some p } =
      { text := text.push (Char.ofNat n) } := by
  induction hmore : p.more generalizing p with
  | zero =>
    have hvalue := h.value_add
    have haccepts := h.accepts
    rw [hmore] at hvalue haccepts
    rw [continuation, List.foldl_cons, feed_accepted haccepts, extend, hmore]
    simp only [hvalue, Nat.pow_zero, Nat.div_one]
    rfl
  | succ more ih =>
    have hvalue := h.value_add
    have haccepts := h.accepts
    rw [hmore] at hvalue haccepts
    rw [continuation, List.foldl_cons, feed_accepted haccepts, extend, hmore]
    simp only [hvalue]
    exact ih (Pending.awaits_of_value rfl) rfl

end Decoder

/-! ## The first byte -/

namespace Pending

/-- The table of first bytes by their numbers. -/
theorem ofLead?_eq (b : UInt8) :
    ofLead? b =
      if b.toNat < 0xC2 then none
      else if b.toNat < 0xE0 then
        some { value := (b - 0xC0).toNat, low := 0x80, high := 0xBF, more := 0 }
      else if b.toNat = 0xE0 then some { value := 0x0, low := 0xA0, high := 0xBF, more := 1 }
      else if b.toNat = 0xED then some { value := 0xD, low := 0x80, high := 0x9F, more := 1 }
      else if b.toNat < 0xF0 then
        some { value := (b - 0xE0).toNat, low := 0x80, high := 0xBF, more := 1 }
      else if b.toNat = 0xF0 then some { value := 0x0, low := 0x90, high := 0xBF, more := 2 }
      else if b.toNat < 0xF4 then
        some { value := (b - 0xF0).toNat, low := 0x80, high := 0xBF, more := 2 }
      else if b.toNat = 0xF4 then some { value := 0x4, low := 0x80, high := 0x8F, more := 2 }
      else none := by
  simp only [ofLead?, UInt8.lt_iff_toNat_lt, ← UInt8.toNat_inj, UInt8.reduceToNat]

theorem toNat_sub_of_toNat {b : UInt8} {n : Nat} (first : UInt8) (h : b.toNat = n + first.toNat) :
    (b - first).toNat = n := by
  have hle : first ≤ b := by
    rw [UInt8.le_iff_toNat_le, h]
    exact Nat.le_add_left _ _
  rw [UInt8.toNat_sub_of_le _ _ hle, h]
  exact Nat.add_sub_cancel _ _

theorem ofLead?_two {n : Nat} (hlow : 0x80 ≤ n) (hhigh : n ≤ 0x7FF) :
    ∃ p, ofLead? (UInt8.ofNat (n / 0x40 % 0x20 + 0xC0)) = some p ∧ p.more = 0 ∧ p.Awaits n := by
  have hbyte : (UInt8.ofNat (n / 0x40 % 0x20 + 0xC0)).toNat = n / 0x40 + 0xC0 := by
    rw [UInt8.toNat_ofNat']
    omega
  rw [ofLead?_eq, toNat_sub_of_toNat 0xC0 hbyte, hbyte, if_neg (by omega), if_pos (by omega)]
  exact ⟨_, rfl, rfl, awaits_of_value (by omega)⟩

theorem ofLead?_three {n : Nat} (hlow : 0x800 ≤ n) (hhigh : n ≤ 0xFFFF) (valid : n.isValidChar) :
    ∃ p, ofLead? (UInt8.ofNat (n / 0x1000 % 0x10 + 0xE0)) = some p ∧ p.more = 1 ∧ p.Awaits n := by
  have hbyte : (UInt8.ofNat (n / 0x1000 % 0x10 + 0xE0)).toNat = n / 0x1000 + 0xE0 := by
    rw [UInt8.toNat_ofNat']
    omega
  unfold Nat.isValidChar at valid
  rw [ofLead?_eq, toNat_sub_of_toNat 0xE0 hbyte, hbyte, if_neg (by omega), if_neg (by omega)]
  -- The two special cases are the code points next to overlong forms and to surrogates.
  split
  · refine ⟨_, rfl, rfl, awaits_of_bits (by omega) ?_ ?_⟩
    all_goals (simp only [UInt8.reduceToNat]; omega)
  split
  · refine ⟨_, rfl, rfl, awaits_of_bits (by omega) ?_ ?_⟩
    all_goals (simp only [UInt8.reduceToNat]; omega)
  · rw [if_pos (by omega)]
    exact ⟨_, rfl, rfl, awaits_of_value (by omega)⟩

theorem ofLead?_four {n : Nat} (hlow : 0x10000 ≤ n) (valid : n.isValidChar) :
    ∃ p, ofLead? (UInt8.ofNat (n / 0x40000 % 0x8 + 0xF0)) = some p ∧ p.more = 2 ∧ p.Awaits n := by
  unfold Nat.isValidChar at valid
  have hbyte : (UInt8.ofNat (n / 0x40000 % 0x8 + 0xF0)).toNat = n / 0x40000 + 0xF0 := by
    rw [UInt8.toNat_ofNat']
    omega
  rw [ofLead?_eq, toNat_sub_of_toNat 0xF0 hbyte, hbyte, if_neg (by omega), if_neg (by omega),
    if_neg (by omega), if_neg (by omega), if_neg (by omega)]
  -- The two special cases are the code points next to overlong forms and the last ones.
  split
  · refine ⟨_, rfl, rfl, awaits_of_bits (by omega) ?_ ?_⟩
    all_goals (simp only [UInt8.reduceToNat]; omega)
  split
  · exact ⟨_, rfl, rfl, awaits_of_value (by omega)⟩
  · rw [if_pos (by omega)]
    refine ⟨_, rfl, rfl, awaits_of_bits (by omega) ?_ ?_⟩
    all_goals (simp only [UInt8.reduceToNat]; omega)

end Pending

/-! ## Whole characters -/

namespace Decoder

theorem start_of_ofLead? {b : UInt8} {p : Pending} (h : Pending.ofLead? b = some p)
    (text : Array Char) : start text b = { text, pending := some p } := by
  have hge : ¬b < 0x80 := by
    intro hlt
    have hlead : b < 0xC2 := UInt8.lt_trans hlt (by decide)
    rw [Pending.ofLead?, if_pos hlead] at h
    cases h
  unfold start
  rw [if_neg hge, h]

/-- A first byte and the bytes that it announces are read as one character. -/
theorem foldl_feed_of_ofLead? {b : UInt8} {n count : Nat}
    (h : ∃ p, Pending.ofLead? b = some p ∧ p.more = count ∧ p.Awaits n) (text : Array Char) :
    (b :: continuation n (count + 1)).foldl feed { text } =
      { text := text.push (Char.ofNat n) } := by
  obtain ⟨p, hlead, rfl, awaits⟩ := h
  calc
    (b :: continuation n (p.more + 1)).foldl feed { text } =
        (continuation n (p.more + 1)).foldl feed (start text b) := rfl
    _ = (continuation n (p.more + 1)).foldl feed { text, pending := some p } := by
      rw [start_of_ofLead? hlead]
    _ = { text := text.push (Char.ofNat n) } := foldl_feed_continuation awaits text

/-- The bytes of a character are read as that character. -/
theorem foldl_feed_utf8EncodeChar (c : Char) (text : Array Char) :
    (String.utf8EncodeChar c).foldl feed { text } = { text := text.push c } := by
  have valid : c.toNat.isValidChar := c.valid
  have hchar : Char.ofNat c.toNat = c := Char.ofNat_toNat c
  rw [utf8EncodeChar_eq]
  generalize c.toNat = n at valid hchar
  subst hchar
  unfold encode
  split
  · next hone =>
    have hbyte : (UInt8.ofNat n).toNat = n := by
      rw [UInt8.toNat_ofNat']
      omega
    have hlt : UInt8.ofNat n < 0x80 := by
      rw [UInt8.lt_iff_toNat_lt, hbyte]
      exact Nat.lt_succ_of_le hone
    rw [List.foldl_cons, List.foldl_nil, feed, start, if_pos hlt, hbyte]
  split
  · next hone htwo =>
    exact foldl_feed_of_ofLead? (Pending.ofLead?_two (Nat.lt_of_not_le hone) htwo) text
  split
  · next htwo hthree =>
    exact foldl_feed_of_ofLead? (Pending.ofLead?_three (Nat.lt_of_not_le htwo) hthree valid) text
  · next hthree =>
    exact foldl_feed_of_ofLead? (Pending.ofLead?_four (Nat.lt_of_not_le hthree) valid) text

/-- The bytes of a text are read as that text, after whatever has been read before. -/
theorem foldl_feed_flatMap (before text : List Char) :
    (text.flatMap String.utf8EncodeChar).foldl feed { text := before.toArray } =
      { text := (before ++ text).toArray } := by
  induction text generalizing before with
  | nil => rw [List.flatMap_nil, List.foldl_nil, List.append_nil]
  | cons c text ih =>
    calc
      ((c :: text).flatMap String.utf8EncodeChar).foldl feed { text := before.toArray } =
          (text.flatMap String.utf8EncodeChar).foldl feed { text := (before ++ [c]).toArray } := by
        rw [List.flatMap_cons, List.foldl_append, foldl_feed_utf8EncodeChar, List.push_toArray]
      _ = { text := (before ++ [c] ++ text).toArray } := ih _
      _ = { text := (before ++ c :: text).toArray } := by
        rw [List.append_assoc, List.singleton_append]

end Decoder

/-- Decoding the bytes of a text gives the text. -/
theorem decode_toUTF8 (text : String) : decode text.toUTF8.toList = text.toList := by
  unfold decode
  rw [toList_toUTF8, Decoder.foldl_feed_flatMap [] text.toList]
  rfl

end Brainfuck.Utf8
