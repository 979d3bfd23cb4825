import CommandLanguage.Invocation.Failure
import CommandLanguage.Invocation.Parameters

/-!
# Binding the tokens of a call

Behind the path of a command its flags may stand anywhere; the other tokens are the arguments in
their declared order, neither more nor fewer.
-/

set_option autoImplicit false

namespace CommandLanguage

/-- The values bound so far and the arguments that are still to come. -/
structure Binding where
  flags : FlagValues
  args : KeyedList Text
  pending : List Argument

/-- Binds the tokens of a call one by one. -/
def Command.bindTokens (command : Command) (binding : Binding) :
    List Text → Except Failure Binding
  | [] => .ok binding
  | token :: rest =>
    if isFlagShaped token then
      match command.flags.find? (·.isGivenBy token) with
      | none => .error (.unknownFlag token command.segments)
      | some flag =>
        match flag.kind, rest with
        | .bool, rest =>
          bindTokens command { binding with flags := binding.flags.setGiven flag } rest
        | .string, [] => .error (.missingFlagValue flag.name command.segments)
        | .string, value :: rest =>
          bindTokens command { binding with flags := binding.flags.setText flag value } rest
    else
      match binding.pending with
      | [] => .error (.surplusArgument token command.segments)
      | argument :: pending =>
        let args := KeyedList.record binding.args argument.name token
        bindTokens command { binding with args, pending } rest

/-- The parameters that some tokens give to a command, with the given global values. -/
def Command.bind (command : Command) (tokens : List Text) (globals : FlagValues) :
    Except Failure Parameters := do
  let binding ← command.bindTokens ⟨FlagValues.zero command.flags, [], command.args⟩ tokens
  match binding.pending with
  | [] => .ok ⟨binding.flags, binding.args, globals⟩
  | argument :: _ => .error (.missingArgument argument.name command.segments)

end CommandLanguage
