import CommandLanguage.Invocation.Failure
import CommandLanguage.Invocation.Parameters

/-!
# Global flags of a call

Global flags may stand anywhere in an argument vector. They are taken out first, with their
values; the tokens that are left keep their order.
-/

set_option autoImplicit false

namespace CommandLanguage

/-- Takes the given global flags out of a vector, starting from the values found so far. -/
def takeGlobals (flags : List Flag) (values : FlagValues) :
    List Text → Except Failure (FlagValues × List Text)
  | [] => .ok (values, [])
  | token :: rest =>
    match flags.find? (·.isGivenBy token) with
    | none => do
      let (values, left) ← takeGlobals flags values rest
      .ok (values, token :: left)
    | some flag =>
      match flag.kind, rest with
      | .bool, rest => takeGlobals flags (values.setGiven flag) rest
      | .string, [] => .error (.missingFlagValue flag.name [])
      | .string, value :: rest => takeGlobals flags (values.setText flag value) rest

/-- The values of the global flags in a vector, and the other tokens. -/
def CommandTree.extractGlobals (tree : CommandTree) (argv : List Text) :
    Except Failure (FlagValues × List Text) :=
  takeGlobals tree.globalFlags (FlagValues.zero tree.globalFlags) argv

end CommandLanguage
