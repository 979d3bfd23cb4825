/-!
# Text as a list of 16-bit code units

A definition is scanned one code unit at a time, so the scanner may stop between the two halves
of a surrogate pair and an error message may hold half of one. Lengths, column widths and the
order of names count code units as well. `Text` is therefore a list of code units, and the
prefix test and the lexicographic order of lists are the ones the language means.

`Text.ofString` encodes a literal, `Text.toString` decodes and replaces a lone half by U+FFFD.
-/

set_option autoImplicit false

namespace CommandLanguage

abbrev CodeUnit := UInt16

/-- A sequence of code units; not every one decodes to characters. -/
abbrev Text := List CodeUnit

/-- The code unit of an ASCII character. -/
abbrev unit (c : Char) : CodeUnit := UInt16.ofNat c.toNat

namespace Text

/-- What is said of all units of a text is decided along the text, and not for all units there are. -/
instance (priority := 2000) decidableForallMem (t : Text) (p : CodeUnit → Prop) [DecidablePred p] :
    Decidable (∀ u ∈ t, p u) :=
  List.decidableBAll p t

/-- One code unit below U+10000, a surrogate pair from there on. -/
def ofChar (c : Char) : Text :=
  if c.toNat < 0x10000 then [UInt16.ofNat c.toNat]
  else
    let offset := c.toNat - 0x10000
    [UInt16.ofNat (0xD800 + offset / 0x400), UInt16.ofNat (0xDC00 + offset % 0x400)]

/-- The code units of a string, in order. -/
def ofString (s : String) : Text := s.toList.flatMap ofChar

instance : Coe String Text := ⟨ofString⟩

def isHighSurrogate (u : CodeUnit) : Bool := 0xD800 ≤ u && u < 0xDC00

def isLowSurrogate (u : CodeUnit) : Bool := 0xDC00 ≤ u && u < 0xE000

/-- The character that a surrogate pair stands for. -/
def joinSurrogates (high low : CodeUnit) : Char :=
  Char.ofNat (0x10000 + (high.toNat - 0xD800) * 0x400 + (low.toNat - 0xDC00))

/-- What a code unit without its other half is shown as. -/
def replacement : Char := '\uFFFD'

/-- The characters of a text; a half of a pair that stands alone becomes U+FFFD. -/
def toChars : Text → List Char
  | [] => []
  | [u] => [if isHighSurrogate u || isLowSurrogate u then replacement else Char.ofNat u.toNat]
  | u :: v :: rest =>
    if isHighSurrogate u && isLowSurrogate v then joinSurrogates u v :: toChars rest
    else if isHighSurrogate u || isLowSurrogate u then replacement :: toChars (v :: rest)
    else Char.ofNat u.toNat :: toChars (v :: rest)

def toString (t : Text) : String := String.ofList t.toChars

/-- The line feed, which alone ends a line. -/
def lineFeed : CodeUnit := unit '\n'

/-- The pieces between line feeds; always at least one. -/
def lines (t : Text) : List Text := t.splitOn lineFeed

/-- The pieces with a separator between neighbours. -/
def join (separator : Text) (pieces : List Text) : Text := separator.intercalate pieces

/-- Lines put one under the other, with no line feed after the last. -/
def unlines (pieces : List Text) : Text := join [lineFeed] pieces

def spaces (n : Nat) : Text := List.replicate n (unit ' ')

/-- The text between double quotes, as messages show it; nothing is escaped. -/
def inQuotes (t : Text) : Text := "\"" ++ t ++ "\""

/-- The order of code units, from the first place where two texts differ. -/
def precedesOrEquals (a b : Text) : Bool := !decide (b < a)

def isDigit (u : CodeUnit) : Bool := unit '0' ≤ u && u ≤ unit '9'

/-- A letter of the ASCII alphabet, of either case. -/
def isLetter (u : CodeUnit) : Bool :=
  (unit 'A' ≤ u && u ≤ unit 'Z') || (unit 'a' ≤ u && u ≤ unit 'z')

def ofNat (n : Nat) : Text := ofString (ToString.toString n)

/-- The decimal digits of an integer, after a minus sign if it is negative. -/
def ofInt : Int → Text
  | .ofNat n => ofNat n
  | .negSucc n => "-" ++ ofNat (n + 1)

/-- The number that a run of decimal digits denotes. -/
def digitsValue (digits : Text) : Nat :=
  digits.foldl (fun value digit => 10 * value + (digit.toNat - 48)) 0

end Text

end CommandLanguage
