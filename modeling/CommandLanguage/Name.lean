import CommandLanguage.Text.Uppercase

/-!
# Names in generated code

A command `user/add-key` is known to generated code as `UserAddKey`: each name is split at its
separators and the pieces are capitalised. A name without any piece becomes `X`, and an `X` also
keeps a leading digit from beginning the identifier.
-/

set_option autoImplicit false

namespace CommandLanguage

namespace Text

def isSeparator (u : CodeUnit) : Bool :=
  u == unit '-' || u == unit '_' || u == unit '.' || u == unit ':'

/-- The pieces of a name between separators; empty pieces are left out. -/
def nameParts (name : Text) : List Text := (name.splitOnP isSeparator).filter (· ≠ [])

/-- The name as a part of an identifier. -/
def fieldName (name : Text) : Text :=
  match name.nameParts.flatMap capitalize with
  | [] => "X"
  | u :: rest => if isDigit u then unit 'X' :: u :: rest else u :: rest

/-- The identifier of the command with the given names from the top down. -/
def pathIdentifier (segments : List Text) : Text := segments.flatMap fieldName

def isWordStart (u : CodeUnit) : Bool := isLetter u || u == unit '_'

def isWordPart (u : CodeUnit) : Bool := isWordStart u || isDigit u

/-- The text can be written as an identifier of generated code. -/
def isValidIdentifier : Text → Bool
  | [] => false
  | u :: rest => isWordStart u && rest.all isWordPart

end Text

end CommandLanguage
