import CommandLanguage.CommandTree.Basic

/-!
# Parameters of a call

What a call hands to the handler of a command: the values of the command's flags, of its
arguments and of the global flags, each under its name.
-/

set_option autoImplicit false

namespace CommandLanguage

universe u

namespace KeyedList

variable {α : Type u}

/-- The one name under which a record holds nothing. -/
def unrecordedName : Text := "__proto__"

/-- Sets a parameter. The name `__proto__` is never recorded. -/
def record (list : KeyedList α) (name : Text) (value : α) : KeyedList α :=
  if name = unrecordedName then list else assign list name value

end KeyedList

/-- The value of a flag: whether it was given, or the text given with it. -/
inductive FlagValue where
  | bool (given : Bool)
  | string (text : Text)
  deriving DecidableEq

/-- The value of a flag that was not given. -/
def FlagKind.zero : FlagKind → FlagValue
  | .bool => .bool false
  | .string => .string []

abbrev FlagValues := KeyedList FlagValue

namespace FlagValues

def zero (flags : List Flag) : FlagValues :=
  flags.foldl (fun values flag => KeyedList.record values flag.name flag.kind.zero) []

def setGiven (values : FlagValues) (flag : Flag) : FlagValues :=
  KeyedList.record values flag.name (.bool true)

def setText (values : FlagValues) (flag : Flag) (text : Text) : FlagValues :=
  KeyedList.record values flag.name (.string text)

def asksForHelp (values : FlagValues) : Bool :=
  KeyedList.get? values Flag.help.name = some (.bool true)

end FlagValues

structure Parameters where
  flags : FlagValues
  args : KeyedList Text
  globals : FlagValues
  deriving DecidableEq

end CommandLanguage
