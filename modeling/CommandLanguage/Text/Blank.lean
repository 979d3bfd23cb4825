import CommandLanguage.Text.Basic

/-!
# White space

The code units that separate tokens and that trimming removes: the ASCII controls from tab to
carriage return, the space, the Unicode space separators, the two line and paragraph separators
and the byte order mark. U+0085, U+180E and U+200B are not among them.
-/

set_option autoImplicit false

namespace CommandLanguage.Text

/-- White space between tokens, and what trimming removes. -/
def isBlank (u : CodeUnit) : Bool :=
  (0x0009 ≤ u && u ≤ 0x000D) || u == 0x0020 || u == 0x00A0 || u == 0x1680
    || (0x2000 ≤ u && u ≤ 0x200A) || u == 0x2028 || u == 0x2029 || u == 0x202F
    || u == 0x205F || u == 0x3000 || u == 0xFEFF

/-- A text in which trimming leaves nothing. -/
def isAllBlank (t : Text) : Bool := t.all isBlank

end CommandLanguage.Text
