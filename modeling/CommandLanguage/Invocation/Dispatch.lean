import CommandLanguage.Invocation.Binding
import CommandLanguage.Invocation.Globals
import CommandLanguage.Invocation.Path

/-!
# Dispatching a call

An argument vector calls a command, asks for help or fails. Help is asked for by the help flag
anywhere, by the word `help` in front, by an empty call and by a call that stops at a command with
commands below it. Help asked for by flag or word shows what was reached even if the rest of the
call would fail.
-/

set_option autoImplicit false

namespace CommandLanguage

inductive HelpScope where
  | root
  | command (position : Nat)
  | topic (index : Nat)
  deriving DecidableEq

/-- What an argument vector means. -/
inductive Dispatch where
  | command (command : PlacedCommand) (parameters : Parameters)
  | help (scope : HelpScope) (globals : FlagValues)
  | failed (failure : Failure)
  deriving DecidableEq

namespace CommandTree

/-- The topic of exactly the given name, else the only one whose name begins with it. -/
def findTopic (tree : CommandTree) (token : Text) : Option Nat :=
  match tree.topics.findIdx? (·.name = token) with
  | some index => some index
  | none =>
    if token = [] then none
    else
      match tree.topics.zipIdx.filter fun (topic, _) => token.isPrefixOf topic.name with
      | [(_, index)] => some index
      | _ => none

/-- What to show when help is asked for, given the command reached and the other tokens. -/
def helpScope (tree : CommandTree) (reached : Option PlacedCommand) (tokens : List Text) :
    HelpScope :=
  match reached with
  | some command => .command command.position
  | none =>
    match tokens.head?.bind tree.findTopic with
    | some index => .topic index
    | none => .root

def helpWord : Text := "help"

/-- The tokens ask for help by their first word, which no command at the top has as its name. -/
def asksByWord (tree : CommandTree) (tokens : List Text) : Bool :=
  tokens.head? = some helpWord && !tree.top.any (·.name = helpWord)

/-- What a call means once its command is known. -/
def callCommand (command : PlacedCommand) (tokens : List Text) (globals : FlagValues) : Dispatch :=
  if command.isLeaf then
    match command.bind tokens globals with
    | .ok parameters => .command command parameters
    | .error failure => .failed failure
  else
    match tokens with
    | [] => .help (.command command.position) globals
    | token :: _ =>
      if isFlagShaped token then .failed (.unknownFlag token command.segments)
      else .failed (.unknownCommand token command.segments)

/-- What tokens without global flags mean, when they do not ask for help. -/
def dispatchTokens (tree : CommandTree) (tokens : List Text) (globals : FlagValues) : Dispatch :=
  match tree.resolvePath tokens with
  | .failed _ failure => .failed failure
  | .reached none _ =>
    match tokens with
    | [] => .help .root globals
    | token :: _ => .failed (.unknownCommand token [])
  | .reached (some command) consumed => callCommand command (tokens.drop consumed) globals

/-- What an argument vector means. -/
def dispatch (tree : CommandTree) (argv : List Text) : Dispatch :=
  match tree.extractGlobals argv with
  | .error failure => .failed failure
  | .ok (globals, tokens) =>
    let byWord := tree.asksByWord tokens
    let tokens := if byWord then tokens.drop 1 else tokens
    if byWord || globals.asksForHelp then
      .help (tree.helpScope (tree.resolvePath tokens).command tokens) globals
    else tree.dispatchTokens tokens globals

end CommandTree

end CommandLanguage
