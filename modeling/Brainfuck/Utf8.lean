/-!
# Decoding UTF-8 without failing

Bytes are decoded one at a time. A decoder holds the characters read so far and, inside a
character, what the next byte has to satisfy. A byte that cannot continue the character closes it:
the bytes collected so far, which are the longest beginning of any well-formed character at that
place, become one replacement character, and the byte is looked at afresh. So every maximal
ill-formed part becomes exactly one replacement character, and no byte is swallowed by an ill-formed
part that it does not belong to.

The admissible ranges are those of the table of well-formed byte sequences: they leave out overlong
forms, surrogates and values past the last code point.
-/

namespace Brainfuck.Utf8

/-- A character whose first bytes have been read: the bits of its code point read so far, the least
and the greatest byte that may come next and the number of bytes after that one. Every byte of a
character that takes several is outside ASCII. -/
structure Pending where
  value : Nat
  low : UInt8
  high : UInt8
  more : Nat
  low_ge : 0x80 ≤ low := by decide

/-- A text being decoded, with the character that is not complete yet, if any. -/
structure Decoder where
  text : Array Char := #[]
  pending : Option Pending := none

def replacement : Char := '\uFFFD'

/-- What has to follow the first byte of a character of two or more bytes. -/
def Pending.ofLead? (b : UInt8) : Option Pending :=
  if b < 0xC2 then none
  else if b < 0xE0 then some { value := (b - 0xC0).toNat, low := 0x80, high := 0xBF, more := 0 }
  else if b = 0xE0 then some { value := 0x0, low := 0xA0, high := 0xBF, more := 1 }
  else if b = 0xED then some { value := 0xD, low := 0x80, high := 0x9F, more := 1 }
  else if b < 0xF0 then some { value := (b - 0xE0).toNat, low := 0x80, high := 0xBF, more := 1 }
  else if b = 0xF0 then some { value := 0x0, low := 0x90, high := 0xBF, more := 2 }
  else if b < 0xF4 then some { value := (b - 0xF0).toNat, low := 0x80, high := 0xBF, more := 2 }
  else if b = 0xF4 then some { value := 0x4, low := 0x80, high := 0x8F, more := 2 }
  else none

def Pending.accepts (p : Pending) (b : UInt8) : Bool :=
  p.low ≤ b && b ≤ p.high

/-- An ASCII byte never continues a character. -/
theorem Pending.accepts_of_lt (p : Pending) {b : UInt8} (h : b < 0x80) : p.accepts b = false := by
  have hlow : b < p.low := UInt8.lt_of_lt_of_le h p.low_ge
  simp [accepts, UInt8.not_le.mpr hlow]

namespace Decoder

/-- Looks at a byte between two characters. -/
def start (text : Array Char) (b : UInt8) : Decoder :=
  if b < 0x80 then { text := text.push (Char.ofNat b.toNat) }
  else match Pending.ofLead? b with
    | some p => { text, pending := some p }
    | none => { text := text.push replacement }

/-- Adds an accepted byte to a pending character. -/
def extend (text : Array Char) (p : Pending) (b : UInt8) : Decoder :=
  let value := p.value * 0x40 + (b - 0x80).toNat
  match p.more with
  | 0 => { text := text.push (Char.ofNat value) }
  | more + 1 => { text, pending := some { value, low := 0x80, high := 0xBF, more } }

def feed (d : Decoder) (b : UInt8) : Decoder :=
  match d.pending with
  | none => start d.text b
  | some p => if p.accepts b then extend d.text p b else start (d.text.push replacement) b

/-- The text when no byte is left: a character that is not complete is ill-formed. -/
def finish (d : Decoder) : Array Char :=
  match d.pending with
  | none => d.text
  | some _ => d.text.push replacement

end Decoder

/-- The characters of a byte sequence, with a replacement character for every ill-formed part. -/
def decode (bytes : List UInt8) : List Char :=
  (bytes.foldl Decoder.feed {}).finish.toList

end Brainfuck.Utf8
