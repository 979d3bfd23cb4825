import CommandLanguage.Declaration
import CommandLanguage.Flag
import CommandLanguage.Name

/-!
# Command trees

A command tree is what a consistent set of declarations means: the kinds of its flags are known,
every command knows the names that lead to it, and each attribute name has one kind.

Commands are looked up by their position in the list of all commands. In a tree that was compiled
from a source the number of a command is its position; declarations put together by hand may
number them otherwise.
-/

set_option autoImplicit false

namespace CommandLanguage

structure Command where
  /-- The number that the declaration gives to the command. -/
  id : Nat
  name : Text
  /-- The names from the top down to this command. -/
  segments : List Text
  description : Text
  flags : List Flag
  args : List Argument
  examples : List Text
  attributes : KeyedList AttributeValue
  children : List Nat
  parent : Option Nat
  deriving DecidableEq

namespace Command

/-- The segments with slashes between them. -/
def path (command : Command) : Text := Text.join "/" command.segments

/-- The name of the command in generated code. -/
def identifier (command : Command) : Text := Text.pathIdentifier command.segments

/-- Only a command without commands below it can be called. -/
def isLeaf (command : Command) : Bool := command.children.isEmpty

end Command

structure PlacedCommand extends Command where
  position : Nat
  deriving DecidableEq

/-- An attribute name and the kind of all its values. -/
structure AttributeDefinition where
  name : Text
  kind : AttributeKind
  deriving DecidableEq

/-- The commands, flags, attributes and topics of one program. -/
structure CommandTree where
  app : Option Identity
  /-- The global flags other than the help flag. -/
  declaredFlags : List Flag
  globalAttributes : KeyedList AttributeValue
  commands : List Command
  roots : List Nat
  topics : List Topic
  /-- One entry per attribute name, in the order of names. -/
  attributeTable : List AttributeDefinition
  deriving DecidableEq

namespace CommandTree

/-- The flags that every command accepts; the help flag comes first. -/
def globalFlags (tree : CommandTree) : List Flag := Flag.help :: tree.declaredFlags

def commandsAt (tree : CommandTree) (positions : List Nat) : List PlacedCommand :=
  positions.filterMap fun position => (tree.commands[position]?).map (⟨·, position⟩)

/-- The commands that stand below no other. -/
def top (tree : CommandTree) : List PlacedCommand := tree.commandsAt tree.roots

def below (tree : CommandTree) (command : Command) : List PlacedCommand :=
  tree.commandsAt command.children

/-- Things in the order of their paths; things of one path keep their order. -/
def sortByPath {α : Type} (path : α → Text) (things : List α) : List α :=
  things.mergeSort fun a b => Text.precedesOrEquals (path a) (path b)

/-- The numbers of the commands that can be called, in the order of their paths. -/
def leaves (tree : CommandTree) : List Nat :=
  (sortByPath Command.path (tree.commands.filter (·.isLeaf))).map (·.id)

def leafCommands (tree : CommandTree) : List Command :=
  (tree.commandsAt tree.leaves).map (·.toCommand)

/-- What the program is called in help texts. -/
def programName (tree : CommandTree) : Text :=
  match tree.app with
  | some app => app.name
  | none => "app"

/-- The value set on a command, else the one set globally. -/
def attribute? (tree : CommandTree) (command : Option Nat) (name : Text) :
    Option AttributeValue :=
  let ownValue := do
    let id ← command
    let command ← tree.commands[id]?
    KeyedList.get? command.attributes name
  ownValue <|> KeyedList.get? tree.globalAttributes name

/-- The value of an attribute on a command; an attribute that is not set has the zero value of
its kind. -/
def attributeValue (tree : CommandTree) (command : Option Nat) (definition : AttributeDefinition) :
    AttributeValue :=
  (tree.attribute? command definition.name).getD definition.kind.zero

end CommandTree

end CommandLanguage
