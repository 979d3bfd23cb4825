import CommandLanguage.Text.Basic

/-!
# UTF-8

Decoding never fails: each longest run of bytes that begins a character and cannot be continued,
and each byte that begins none, becomes one U+FFFD. A byte order mark is kept. Encoding writes
U+FFFD for a half of a surrogate pair that stands alone.
-/

set_option autoImplicit false

namespace CommandLanguage.Text

/-- A character whose first bytes were read. -/
structure PartialChar where
  owed : Nat
  /-- The least byte that may come next. -/
  low : UInt8
  /-- The greatest byte that may come next. -/
  high : UInt8
  value : Nat

/-- What a byte between characters gives: code units, or the beginning of a longer character. -/
def firstByte (b : UInt8) : Text × Option PartialChar :=
  if b < 0x80 then ([UInt16.ofNat b.toNat], none)
  else if 0xC2 ≤ b && b ≤ 0xDF then ([], some ⟨1, 0x80, 0xBF, b.toNat - 0xC0⟩)
  else if 0xE0 ≤ b && b ≤ 0xEF then
    ([], some ⟨2, if b == 0xE0 then 0xA0 else 0x80, if b == 0xED then 0x9F else 0xBF,
      b.toNat - 0xE0⟩)
  else if 0xF0 ≤ b && b ≤ 0xF4 then
    ([], some ⟨3, if b == 0xF0 then 0x90 else 0x80, if b == 0xF4 then 0x8F else 0xBF,
      b.toNat - 0xF0⟩)
  else (ofChar replacement, none)

/-- Decodes bytes after a character of which some bytes may already be read. -/
def decodeFrom : Option PartialChar → List UInt8 → Text
  | none, [] => []
  | some _, [] => ofChar replacement
  | none, b :: rest => (firstByte b).1 ++ decodeFrom (firstByte b).2 rest
  | some p, b :: rest =>
    if p.low ≤ b && b ≤ p.high then
      let value := 64 * p.value + (b.toNat - 0x80)
      if p.owed ≤ 1 then ofChar (Char.ofNat value) ++ decodeFrom none rest
      else decodeFrom (some ⟨p.owed - 1, 0x80, 0xBF, value⟩) rest
    else ofChar replacement ++ (firstByte b).1 ++ decodeFrom (firstByte b).2 rest

def ofUtf8 (bytes : List UInt8) : Text := decodeFrom none bytes

def toUtf8 (t : Text) : List UInt8 := t.toChars.flatMap String.utf8EncodeChar

end CommandLanguage.Text
