import CommandLanguage.KeyedList

/-!
# Declarations

What a source declares, before anything is checked: flags whose kind is any word, commands in
the order in which they were first named, attributes with the line of their value. Commands
refer to each other by their position in the list of all commands.

Lines count from one; a declaration put together by hand may carry any integer.
-/

set_option autoImplicit false

namespace CommandLanguage

inductive AttributeKind where
  | bool
  | string
  | int
  deriving DecidableEq

def AttributeKind.word : AttributeKind → Text
  | .bool => "bool"
  | .string => "string"
  | .int => "int"

inductive AttributeValue where
  | bool (value : Bool)
  | string (value : Text)
  | int (value : Int)
  deriving DecidableEq

def AttributeValue.kind : AttributeValue → AttributeKind
  | .bool _ => .bool
  | .string _ => .string
  | .int _ => .int

/-- The value of a kind that stands for "not set". -/
def AttributeKind.zero : AttributeKind → AttributeValue
  | .bool => .bool false
  | .string => .string []
  | .int => .int 0

theorem AttributeKind.kind_zero (kind : AttributeKind) : kind.zero.kind = kind := by
  cases kind <;> rfl

/-- An attribute as declared: its value and the line of the value. -/
structure AttributeEntry where
  value : AttributeValue
  line : Int
  deriving DecidableEq

structure FlagDeclaration where
  name : Text
  short : Option Text
  kind : Text
  description : Text
  line : Int
  deriving DecidableEq

/-- A positional argument; its kind informs the reader and is not checked. -/
structure Argument where
  name : Text
  kind : Text
  description : Text
  deriving DecidableEq

/-- A help topic, with its body once one was given. -/
structure Topic where
  name : Text
  description : Text
  body : Option Text
  deriving DecidableEq

/-- What the program is called and what it is for. -/
structure Identity where
  name : Text
  tagline : Text
  deriving DecidableEq

/-- A command as declared; `parent` and `children` are positions in the list of commands. -/
structure CommandDeclaration where
  id : Nat
  name : Text
  description : Text
  flags : List FlagDeclaration
  args : List Argument
  examples : List Text
  attributes : KeyedList AttributeEntry
  children : List Nat
  parent : Option Nat
  line : Int
  deriving DecidableEq

structure DeclarationTree where
  app : Option Identity
  globalFlags : List FlagDeclaration
  globalAttributes : KeyedList AttributeEntry
  commands : List CommandDeclaration
  roots : List Nat
  topics : List Topic
  deriving DecidableEq

namespace DeclarationTree

def empty : DeclarationTree := ⟨none, [], [], [], [], []⟩

/-- The commands that share a parent; without a parent, the commands at the top. -/
def childrenOf (tree : DeclarationTree) : Option Nat → List Nat
  | none => tree.roots
  | some id => (tree.commands[id]?.map (·.children)).getD []

/-- The names from the top down to a command, climbing at most `steps` times. -/
def climb (commands : List CommandDeclaration) : Nat → Nat → List Text
  | 0, _ => []
  | steps + 1, id =>
    match commands[id]? with
    | none => []
    | some command =>
      match command.parent with
      | none => [command.name]
      | some parent => climb commands steps parent ++ [command.name]

/-- The names from the top down to a command. No path is longer than the list of commands. -/
def segments (tree : DeclarationTree) (id : Nat) : List Text :=
  climb tree.commands tree.commands.length id

/-- The given commands, each followed by the commands below it, to at most `depth` levels. -/
def walkFrom (commands : List CommandDeclaration) : Nat → List Nat → List CommandDeclaration
  | 0, _ => []
  | depth + 1, ids =>
    ids.flatMap fun id =>
      match commands[id]? with
      | none => []
      | some command => command :: walkFrom commands depth command.children

/-- All commands that can be reached from the top, each before the commands below it. -/
def walk (tree : DeclarationTree) : List CommandDeclaration :=
  walkFrom tree.commands tree.commands.length tree.roots

end DeclarationTree

end CommandLanguage
