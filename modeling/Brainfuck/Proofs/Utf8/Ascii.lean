import Brainfuck.Utf8

/-!
# ASCII in UTF-8

Decoding neither loses nor invents an ASCII character. An ASCII byte is a character of its own
wherever it comes, since it never continues another character; and a character of several bytes is
outside ASCII, since the code points that a first byte leaves possible are, and every further byte
only leaves fewer of them. So the ASCII characters of a decoded text are the ASCII bytes of the
sequence, whatever stands between them, well-formed or not.
-/

namespace Brainfuck.Utf8

def isAscii (c : Char) : Bool :=
  c.toNat < 0x80

/-- The ASCII bytes of a sequence as characters. -/
def asciiChars (bytes : List UInt8) : List Char :=
  (bytes.filter (· < 0x80)).map fun b ↦ Char.ofNat b.toNat

/-! ## Code points of several bytes -/

/-- The code points of characters that take more than one byte. -/
structure IsMultibyte (n : Nat) : Prop where
  ascii_le : 0x80 ≤ n
  valid : n.isValidChar

theorem toNat_ofNat {n : Nat} (valid : n.isValidChar) : (Char.ofNat n).toNat = n := by
  rw [Char.ofNat, dif_pos valid]
  rfl

/-- Every byte is a code point. -/
theorem toNat_ofNat_byte (b : UInt8) : (Char.ofNat b.toNat).toNat = b.toNat := by
  have hlt := b.toNat_lt
  exact toNat_ofNat (.inl (by omega))

theorem IsMultibyte.isAscii_eq {n : Nat} (h : IsMultibyte n) : isAscii (Char.ofNat n) = false := by
  rw [isAscii, toNat_ofNat h.valid]
  exact decide_eq_false (Nat.not_lt.mpr h.ascii_le)

theorem isAscii_replacement : isAscii replacement = false := by decide

theorem isAscii_ofNat {b : UInt8} (h : b < 0x80) : isAscii (Char.ofNat b.toNat) = true := by
  have hlt : b.toNat < 0x80 := h
  rw [isAscii, toNat_ofNat_byte]
  exact decide_eq_true hlt

namespace Pending

/-- The least code point that a pending character can come to. -/
def least (p : Pending) : Nat :=
  (p.value * 0x40 + (p.low.toNat - 0x80)) * Nat.pow 0x40 p.more

/-- The first number past the code points that a pending character can come to. -/
def bound (p : Pending) : Nat :=
  (p.value * 0x40 + (p.high.toNat - 0x80) + 1) * Nat.pow 0x40 p.more

/-- All that a pending character can come to are code points of several bytes, on one side of the
surrogates. -/
structure Sound (p : Pending) : Prop where
  ascii_le : 0x80 ≤ p.least
  valid : p.bound ≤ 0xD800 ∨ 0xE000 ≤ p.least ∧ p.bound ≤ 0x110000

/-- The next byte can be any that continues a character. -/
theorem sound_of_value {value more : Nat} (power : Nat) (hpower : Nat.pow 0x40 more = power)
    (ascii_le : 0x80 ≤ value * 0x40 * power)
    (valid : (value * 0x40 + 0x40) * power ≤ 0xD800 ∨
      0xE000 ≤ value * 0x40 * power ∧ (value * 0x40 + 0x40) * power ≤ 0x110000) :
    Sound { value, low := 0x80, high := 0xBF, more } := by
  subst hpower
  have hlow : (0x80 : UInt8).toNat - 0x80 = 0 := rfl
  have hhigh : (0xBF : UInt8).toNat - 0x80 = 0x3F := rfl
  refine ⟨?_, ?_⟩ <;> simpa only [least, bound, hlow, hhigh, Nat.add_zero, Nat.add_assoc]

/-- The first byte of a character rules ASCII, surrogates and numbers past the last code point
out. -/
theorem sound_ofLead? {b : UInt8} {p : Pending} (h : ofLead? b = some p) : p.Sound := by
  have hbits (first : UInt8) (hle : first.toNat ≤ b.toNat) :
      (b - first).toNat = b.toNat - first.toNat :=
    UInt8.toNat_sub_of_le _ _ hle
  have hC0 := hbits 0xC0
  have hE0 := hbits 0xE0
  have hF0 := hbits 0xF0
  simp only [ofLead?, UInt8.lt_iff_toNat_lt, ← UInt8.toNat_inj, UInt8.reduceToNat,
    Option.ite_none_left_eq_some, Nat.not_lt] at h hC0 hE0 hF0
  obtain ⟨hlead, h⟩ := h
  -- In the order of the table: two bytes, three bytes with their two special cases, four bytes.
  split at h
  · cases h
    apply sound_of_value 1 rfl <;> omega
  split at h
  · cases h
    exact ⟨by decide, by decide⟩
  split at h
  · cases h
    exact ⟨by decide, by decide⟩
  split at h
  · cases h
    apply sound_of_value 0x40 rfl <;> omega
  split at h
  · cases h
    exact ⟨by decide, by decide⟩
  split at h
  · cases h
    apply sound_of_value 0x1000 rfl <;> omega
  split at h
  · cases h
    exact ⟨by decide, by decide⟩
  · cases h

theorem ascii_le_of_accepts {p : Pending} {b : UInt8} (h : p.accepts b = true) : 0x80 ≤ b := by
  refine UInt8.not_lt.mp fun hlt ↦ ?_
  rw [p.accepts_of_lt hlt] at h
  cases h

/-- The bits that an accepted byte adds. -/
theorem bits_of_accepts {p : Pending} {b : UInt8} (h : p.accepts b = true) :
    p.low.toNat - 0x80 ≤ (b - 0x80).toNat ∧ (b - 0x80).toNat ≤ p.high.toNat - 0x80 := by
  rw [UInt8.toNat_sub_of_le _ _ (ascii_le_of_accepts h)]
  rw [accepts, Bool.and_eq_true, decide_eq_true_iff, decide_eq_true_iff] at h
  exact ⟨Nat.sub_le_sub_right (UInt8.le_iff_toNat_le.mp h.1) _,
    Nat.sub_le_sub_right (UInt8.le_iff_toNat_le.mp h.2) _⟩

/-- One more byte leaves fewer code points possible. -/
theorem Sound.next {p : Pending} {b : UInt8} {more : Nat} (h : p.Sound) (hb : p.accepts b = true)
    (hmore : p.more = more + 1) :
    Sound { value := p.value * 0x40 + (b - 0x80).toNat, low := 0x80, high := 0xBF, more } := by
  obtain ⟨hlow, hhigh⟩ := bits_of_accepts hb
  obtain ⟨ascii_le, valid⟩ := h
  have hpow : Nat.pow 0x40 (more + 1) = 0x40 * Nat.pow 0x40 more := Nat.mul_comm _ _
  rw [least, hmore, hpow, ← Nat.mul_assoc] at ascii_le
  rw [least, bound, hmore, hpow, ← Nat.mul_assoc, ← Nat.mul_assoc] at valid
  have hleast : (p.value * 0x40 + (p.low.toNat - 0x80)) * 0x40 * Nat.pow 0x40 more ≤
      (p.value * 0x40 + (b - 0x80).toNat) * 0x40 * Nat.pow 0x40 more := by
    apply Nat.mul_le_mul_right
    omega
  have hbound : ((p.value * 0x40 + (b - 0x80).toNat) * 0x40 + 0x40) * Nat.pow 0x40 more ≤
      (p.value * 0x40 + (p.high.toNat - 0x80) + 1) * 0x40 * Nat.pow 0x40 more := by
    apply Nat.mul_le_mul_right
    omega
  apply sound_of_value _ rfl <;> omega

/-- The last byte leaves one code point. -/
theorem Sound.isMultibyte {p : Pending} {b : UInt8} (h : p.Sound) (hb : p.accepts b = true)
    (hmore : p.more = 0) : IsMultibyte (p.value * 0x40 + (b - 0x80).toNat) := by
  obtain ⟨hlow, hhigh⟩ := bits_of_accepts hb
  obtain ⟨ascii_le, valid⟩ := h
  have hpow : Nat.pow 0x40 0 = 1 := rfl
  rw [least, bound, hmore, hpow] at valid
  rw [least, hmore, hpow] at ascii_le
  refine ⟨by omega, ?_⟩
  rw [Nat.isValidChar]
  omega

end Pending

/-! ## The decoder on its way -/

theorem asciiChars_append_of_lt {b : UInt8} (h : b < 0x80) (bytes : List UInt8) :
    asciiChars (bytes ++ [b]) = asciiChars bytes ++ [Char.ofNat b.toNat] := by
  simp [asciiChars, h]

theorem asciiChars_append_of_le {b : UInt8} (h : 0x80 ≤ b) (bytes : List UInt8) :
    asciiChars (bytes ++ [b]) = asciiChars bytes := by
  simp [asciiChars, UInt8.not_lt.mpr h]

namespace Decoder

/-- A decoder that has read some bytes holds their ASCII characters, and what it still expects is
outside ASCII. -/
structure Keeps (d : Decoder) (bytes : List UInt8) : Prop where
  ascii_eq : d.text.toList.filter isAscii = asciiChars bytes
  sound : ∀ p, d.pending = some p → p.Sound

theorem keeps_start {text : Array Char} {bytes : List UInt8}
    (h : text.toList.filter isAscii = asciiChars bytes) (b : UInt8) :
    (start text b).Keeps (bytes ++ [b]) := by
  unfold start
  split
  · next hlt =>
    refine ⟨?_, fun p hp ↦ by cases hp⟩
    rw [asciiChars_append_of_lt hlt, ← h]
    simp [isAscii_ofNat hlt]
  · next hlt =>
    have hle := UInt8.not_lt.mp hlt
    split
    · next p hp =>
      refine ⟨?_, fun q hq ↦ ?_⟩
      · rw [asciiChars_append_of_le hle, ← h]
      · cases hq
        exact Pending.sound_ofLead? hp
    · refine ⟨?_, fun p hp ↦ by cases hp⟩
      rw [asciiChars_append_of_le hle, ← h]
      simp [isAscii_replacement]

theorem keeps_extend {text : Array Char} {p : Pending} {b : UInt8} {bytes : List UInt8}
    (h : text.toList.filter isAscii = asciiChars bytes) (sound : p.Sound)
    (hb : p.accepts b = true) : (extend text p b).Keeps (bytes ++ [b]) := by
  have hbytes := asciiChars_append_of_le (Pending.ascii_le_of_accepts hb) bytes
  unfold extend
  split
  · next hmore =>
    refine ⟨?_, fun q hq ↦ by cases hq⟩
    rw [hbytes, ← h]
    simp [(sound.isMultibyte hb hmore).isAscii_eq]
  · next more hmore =>
    refine ⟨?_, fun q hq ↦ ?_⟩
    · rw [hbytes, ← h]
    · cases hq
      exact sound.next hb hmore

/-- Reading a byte keeps the account right, whatever the decoder was in the middle of. -/
theorem Keeps.feed {d : Decoder} {bytes : List UInt8} (h : d.Keeps bytes) (b : UInt8) :
    (d.feed b).Keeps (bytes ++ [b]) := by
  obtain ⟨text, pending⟩ := d
  cases pending with
  | none => exact keeps_start h.ascii_eq b
  | some p =>
    simp only [Decoder.feed]
    split
    · next hb => exact keeps_extend h.ascii_eq (h.sound p rfl) hb
    · apply keeps_start
      simpa [isAscii_replacement] using h.ascii_eq

theorem Keeps.foldl_feed {d : Decoder} {bytes : List UInt8} (h : d.Keeps bytes)
    (more : List UInt8) : (more.foldl Decoder.feed d).Keeps (bytes ++ more) := by
  induction more generalizing d bytes with
  | nil => rwa [List.append_nil]
  | cons b more ih =>
    have hrest := ih (h.feed b)
    rwa [List.append_assoc, List.singleton_append] at hrest

theorem Keeps.finish {d : Decoder} {bytes : List UInt8} (h : d.Keeps bytes) :
    d.finish.toList.filter isAscii = asciiChars bytes := by
  obtain ⟨text, pending⟩ := d
  cases pending with
  | none => exact h.ascii_eq
  | some p =>
    rw [← h.ascii_eq]
    simp [Decoder.finish, isAscii_replacement]

end Decoder

/-- The ASCII characters of a decoded text are the ASCII bytes, in their order. -/
theorem filter_isAscii_decode (bytes : List UInt8) :
    (decode bytes).filter isAscii = asciiChars bytes := by
  have hblank : Decoder.Keeps {} [] := ⟨rfl, fun p hp ↦ by cases hp⟩
  exact (hblank.foldl_feed bytes).finish

end Brainfuck.Utf8
