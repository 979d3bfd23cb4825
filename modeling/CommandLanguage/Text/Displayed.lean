import CommandLanguage.Text.Quoted

/-!
# Texts as messages show them

A message that objects to a text shows it between quotes, with escapes for what cannot be
printed. The quotes are ones that the text does not hold, if there are such. A long text is shown
in pieces that end after its line feeds, and only the front of what is shown is kept.
-/

set_option autoImplicit false

namespace CommandLanguage.Text

/-- The quote that is taken first, and last if no other will do. -/
def apostrophe : CodeUnit := 0x27

/-- The quote that is taken third. -/
def graveAccent : CodeUnit := 0x60

/-- Between grave accents a dollar sign and a brace would begin something else. -/
def holdsDollarBrace (t : Text) : Bool := (t.zip t.tail).contains (unit '$', 0x7B)

/-- The quotes between which a text is shown. -/
def displayQuote (t : Text) : CodeUnit :=
  if !t.contains apostrophe then apostrophe
  else if !t.contains (unit '"') then unit '"'
  else if !t.contains graveAccent && !holdsDollarBrace t then graveAccent
  else apostrophe

def upperHexDigit (n : Nat) : CodeUnit :=
  if n < 10 then UInt16.ofNat (48 + n) else UInt16.ofNat (55 + n)

/-- The escape that gives a code unit below U+0100 as two hexadecimal digits. -/
def shortHexEscape (u : CodeUnit) : Text :=
  "\\x" ++ [upperHexDigit (u.toNat / 16), upperHexDigit (u.toNat % 16)]

/-- How a code unit outside surrogate pairs is shown between quotes. -/
def displayUnit (quote u : CodeUnit) : Text :=
  if u == quote || u == unit '\\' then [unit '\\', u]
  else if u == 0x08 then "\\b"
  else if u == 0x09 then "\\t"
  else if u == 0x0A then "\\n"
  else if u == 0x0C then "\\f"
  else if u == 0x0D then "\\r"
  else if u < 0x20 || (0x7F ≤ u && u < 0xA0) then shortHexEscape u
  else if isHighSurrogate u || isLowSurrogate u then hexEscape u
  else [u]

/-- A text or a piece of one between its quotes. -/
def displayPiece (t : Text) : Text :=
  let quote := displayQuote t
  quote :: escapeBy (displayUnit quote) t ++ [quote]

/-- The greatest length of a text that is shown in one piece. -/
def longestPiece : Nat := 124

/-- The pieces in which a text is shown. -/
def displayPieces (t : Text) : List Text :=
  if longestPiece < t.length then t.splitBy fun u _ => u != lineFeed else [t]

/-- The greatest length of what is shown of a text. -/
def longestDisplay : Nat := 128

/-- What a message shows of a text. -/
def displayed (t : Text) : Text :=
  let shown := join " +\n  " ((displayPieces t).map displayPiece)
  if longestDisplay < shown.length then shown.take longestDisplay ++ "..." else shown

end CommandLanguage.Text
