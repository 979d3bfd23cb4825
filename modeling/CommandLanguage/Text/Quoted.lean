import CommandLanguage.Text.Basic

/-!
# Double-quoted literals

The form in which JSON writes a string: quotes and backslashes are escaped, control characters
below U+0020 are written with a short escape or four hexadecimal digits, and so is a half of a
surrogate pair that stands alone. Everything else stands for itself.
-/

set_option autoImplicit false

namespace CommandLanguage.Text

def hexDigit (n : Nat) : CodeUnit :=
  if n < 10 then UInt16.ofNat (48 + n) else UInt16.ofNat (87 + n)

/-- The escape that gives a code unit as four hexadecimal digits. -/
def hexEscape (u : CodeUnit) : Text :=
  let n := u.toNat
  "\\u" ++ [hexDigit (n / 4096), hexDigit (n / 256 % 16), hexDigit (n / 16 % 16), hexDigit (n % 16)]

/-- How a code unit outside surrogate pairs is written between the quotes. -/
def escapeUnit (u : CodeUnit) : Text :=
  if u == unit '"' then "\\\""
  else if u == unit '\\' then "\\\\"
  else if u == 0x08 then "\\b"
  else if u == 0x09 then "\\t"
  else if u == 0x0A then "\\n"
  else if u == 0x0C then "\\f"
  else if u == 0x0D then "\\r"
  else if u < 0x20 || isHighSurrogate u || isLowSurrogate u then hexEscape u
  else [u]

/-- Escapes a text unit by unit; a whole surrogate pair stands for itself. -/
def escapeBy (escape : CodeUnit → Text) : Text → Text
  | [] => []
  | [u] => escape u
  | u :: v :: rest =>
    if isHighSurrogate u && isLowSurrogate v then u :: v :: escapeBy escape rest
    else escape u ++ escapeBy escape (v :: rest)

def escape (t : Text) : Text := escapeBy escapeUnit t

def quoted (t : Text) : Text := inQuotes (escape t)

end CommandLanguage.Text
