import CommandLanguage.Invocation.Dispatch

/-!
# Executing a call

A program answers help requests with one handler and calls with a handler per command path.
-/

set_option autoImplicit false

namespace CommandLanguage

universe u

structure Handlers (α : Type u) where
  help : HelpScope → CommandTree → α
  /-- The handlers of commands, by path. -/
  commands : KeyedList (Parameters → α)

inductive ExecutionFailure where
  | refused (failure : Failure)
  | missingHandler (path : List Text)
  deriving DecidableEq

def ExecutionFailure.text : ExecutionFailure → Text
  | .refused failure => failure.text
  | .missingHandler path => "no handler registered for command: " ++ Text.join "/" path

def CommandTree.execute {α : Type u} (tree : CommandTree) (argv : List Text)
    (handlers : Handlers α) : Except ExecutionFailure α :=
  match tree.dispatch argv with
  | .failed failure => .error (.refused failure)
  | .help scope _ => .ok (handlers.help scope tree)
  | .command command parameters =>
    match KeyedList.get? handlers.commands command.path with
    | none => .error (.missingHandler command.segments)
    | some handler => .ok (handler parameters)

end CommandLanguage
