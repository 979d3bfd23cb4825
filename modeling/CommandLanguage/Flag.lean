import CommandLanguage.Text.Basic

/-!
# Flags

A flag is given by its name behind two dashes or by its short alias behind one. A flag of kind
`bool` stands alone, a flag of kind `string` is followed by its value.
-/

set_option autoImplicit false

namespace CommandLanguage

inductive FlagKind where
  | bool
  | string
  deriving DecidableEq

def FlagKind.ofWord? (word : Text) : Option FlagKind :=
  if word = "bool" then some .bool
  else if word = "string" then some .string
  else none

/-- A flag whose kind is known. -/
structure Flag where
  name : Text
  short : Option Text
  kind : FlagKind
  description : Text
  deriving DecidableEq

namespace Flag

def help : Flag := ⟨"help", some "h", .bool, "Show help information"⟩

/-- How a name is written on a command line. -/
def longForm (name : Text) : Text := "--" ++ name

/-- How a short alias is written on a command line. -/
def shortForm (short : Text) : Text := "-" ++ short

/-- The token gives the flag. -/
def isGivenBy (flag : Flag) (token : Text) : Bool :=
  token = longForm flag.name || flag.short.any fun short => token = shortForm short

/-- How help texts name the flag. -/
def label (flag : Flag) : Text :=
  longForm flag.name
    ++ (match flag.short with
      | some short => ", " ++ shortForm short
      | none => [])
    ++ (match flag.kind with
      | .bool => []
      | .string => " <value>")

end Flag

/-- The token begins with a dash and is more than that. -/
def isFlagShaped (token : Text) : Bool := 1 < token.length && [unit '-'].isPrefixOf token

end CommandLanguage
