import CommandLanguage.CommandTree.Basic
import CommandLanguage.Invocation.Failure

/-!
# The command that a call names

A call names a command from the top down, one token per level. A token names the sibling of
exactly that name, otherwise every sibling whose name it begins; several are an ambiguity. If the
first token names nothing at the top it may name a command further down, whose ancestors are then
left out of the call.
-/

set_option autoImplicit false

namespace CommandLanguage

/-- Those of some siblings that a token names: one of exactly that name, else all whose name it
begins. The empty token begins no name. -/
def PlacedCommand.matching (siblings : List PlacedCommand) (token : Text) : List PlacedCommand :=
  match siblings.find? (·.name = token) with
  | some exact => [exact]
  | none => if token = [] then [] else siblings.filter fun c => token.isPrefixOf c.name

/-- Where following a path ended. -/
inductive PathOutcome where
  /-- The command reached, if any, and how many tokens led to it. -/
  | reached (command : Option PlacedCommand) (consumed : Nat)
  /-- The command reached before the failure, if any. -/
  | failed (command : Option PlacedCommand) (failure : Failure)
  deriving DecidableEq

/-- The command that was reached, whether or not the path failed there. -/
def PathOutcome.command : PathOutcome → Option PlacedCommand
  | .reached command _ => command
  | .failed command _ => command

namespace CommandTree

/-- The commands below the top that a token names, in the order of their paths. -/
def findOmitted (tree : CommandTree) (token : Text) : List PlacedCommand :=
  sortByPath (·.path)
    (tree.commands.flatMap fun parent => PlacedCommand.matching (tree.below parent) token)

/-- Goes down from a command as far as the tokens name commands. -/
def descend (tree : CommandTree) (command : PlacedCommand) (consumed : Nat) :
    List Text → PathOutcome
  | [] => .reached (some command) consumed
  | token :: rest =>
    match PlacedCommand.matching (tree.below command.toCommand) token with
    | [] => .reached (some command) consumed
    | [child] => descend tree child (consumed + 1) rest
    | several =>
      .failed (some command)
        (.ambiguousCommand token (several.map (·.name)) command.segments)

/-- Goes down from the command that a first token names without its ancestors. -/
def descendOmitted (tree : CommandTree) (token : Text) (rest : List Text) : PathOutcome :=
  if isFlagShaped token then .failed none (.unknownFlag token [])
  else
    match tree.findOmitted token with
    | [] => .failed none (.unknownCommand token [])
    | [command] => tree.descend command 1 rest
    | several => .failed none (.ambiguousCommand token (several.map (·.path)) [])

/-- The command that some tokens name. A tree without commands leaves every token alone. -/
def resolvePath (tree : CommandTree) : List Text → PathOutcome
  | [] => .reached none 0
  | token :: rest =>
    if tree.top.isEmpty then .reached none 0
    else
      match PlacedCommand.matching tree.top token with
      | [] => tree.descendOmitted token rest
      | [command] => tree.descend command 1 rest
      | several => .failed none (.ambiguousCommand token (several.map (·.name)) [])

end CommandTree

end CommandLanguage
