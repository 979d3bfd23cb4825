import CommandLanguage.Text.Blank

/-!
# Multi-line blocks

The text between two triple quotes may be laid out freely: blank lines before and after it and
the indentation of each line belong to the layout, as does a carriage return at a line's end.
`Text.blockBody` recovers the text that was laid out.
-/

set_option autoImplicit false

namespace CommandLanguage.Text

/-- A space or a tab in front of a line. -/
def isIndent (u : CodeUnit) : Bool := u == unit ' ' || u == unit '\t'

/-- The line without the carriage return at its end, if it has one. -/
def dropCarriageReturn (line : Text) : Text :=
  if line.getLast? = some (unit '\r') then line.dropLast else line

/-- The line without its indentation and its carriage return. -/
def unindent (line : Text) : Text := dropCarriageReturn (line.dropWhile isIndent)

/-- The lines from the first to the last that is not blank. -/
def dropBlankEnds (lines : List Text) : List Text :=
  ((lines.dropWhile isAllBlank).reverse.dropWhile isAllBlank).reverse

/-- The text laid out in a block. -/
def blockBody (raw : Text) : Text := unlines ((dropBlankEnds raw.lines).map unindent)

end CommandLanguage.Text
