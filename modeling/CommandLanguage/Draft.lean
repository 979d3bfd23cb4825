import CommandLanguage.Statement

/-!
# Drafts

A draft is the declaration tree of the statements read so far, with the command and the topic to
which the next statements attach. A draft decides whether it allows a keyword (`objection`) and
what a statement adds to it (`apply`); the tree of a source is the left fold of its statements.
-/

set_option autoImplicit false

namespace CommandLanguage

namespace DeclarationTree

/-- Changes the command at a position, if there is one. -/
def updateCommand (tree : DeclarationTree) (id : Nat)
    (change : CommandDeclaration → CommandDeclaration) : DeclarationTree :=
  { tree with commands := tree.commands.modify id change }

/-- The first command of a name below a parent. -/
def child? (tree : DeclarationTree) (parent : Option Nat) (name : Text) : Option Nat :=
  (tree.childrenOf parent).find? fun id => (tree.commands[id]?).any (·.name = name)

/-- A command that was named but not described. -/
def bareCommand (id : Nat) (parent : Option Nat) (name : Text) (line : Int) : CommandDeclaration :=
  { id, name, description := [], flags := [], args := [], examples := [], attributes := [],
    children := [], parent, line }

/-- Adds a command as the last one below a parent; its position is the next free one. -/
def addChild (tree : DeclarationTree) (parent : Option Nat) (name : Text) (line : Int) :
    DeclarationTree :=
  let id := tree.commands.length
  let grown := { tree with commands := tree.commands ++ [bareCommand id parent name line] }
  match parent with
  | none => { grown with roots := tree.roots ++ [id] }
  | some above => grown.updateCommand above fun c => { c with children := c.children ++ [id] }

/-- Follows a path from a parent down, adding the commands that are missing, and returns the
position of the last one. -/
def enter (tree : DeclarationTree) (parent : Option Nat) (line : Int) :
    List Text → DeclarationTree × Option Nat
  | [] => (tree, parent)
  | name :: path =>
    match tree.child? parent name with
    | some id => enter tree (some id) line path
    | none => enter (tree.addChild parent name line) (some tree.commands.length) line path

end DeclarationTree

/-- The declarations so far and what the next ones attach to. -/
structure Draft where
  tree : DeclarationTree
  /-- The selected command; without one, flags and attributes are global. -/
  command : Option Nat
  topic : Option Nat
  deriving DecidableEq

namespace Draft

/-- Nothing is declared and nothing is selected. -/
def empty : Draft := ⟨.empty, none, none⟩

/-- Why a keyword may not come next, if it may not. -/
def objection (draft : Draft) : Keyword → Option GrammarFault
  | .arg => if draft.command.isNone then some .argWithoutCommand else none
  | .exampleLine => if draft.command.isNone then some .exampleWithoutCommand else none
  | .name =>
    if draft.command.isSome then some .nameUnderCommand
    else if draft.tree.app.isSome then some .nameRepeated
    else none
  | .text => if draft.topic.isNone then some .textWithoutTopic else none
  | _ => none

/-- Changes the selected command, if one is selected. -/
def updateSelected (draft : Draft) (change : CommandDeclaration → CommandDeclaration) : Draft :=
  match draft.command with
  | none => draft
  | some id => { draft with tree := draft.tree.updateCommand id change }

/-- What a statement adds to the declarations, and what it selects. -/
def apply (draft : Draft) : Statement → Draft
  | .global => { draft with command := none, topic := none }
  | .command path description line =>
    let (tree, selected) := draft.tree.enter none line path
    let entered := { draft with tree, command := selected }
    match description with
    | none => entered
    | some text => entered.updateSelected fun c => { c with description := text }
  | .flag flag =>
    match draft.command with
    | none =>
      { draft with tree := { draft.tree with globalFlags := draft.tree.globalFlags ++ [flag] } }
    | some _ => draft.updateSelected fun c => { c with flags := c.flags ++ [flag] }
  | .argument argument => draft.updateSelected fun c => { c with args := c.args ++ [argument] }
  | .assignment name entry =>
    match draft.command with
    | none =>
      { draft with tree := { draft.tree with
          globalAttributes := KeyedList.assign draft.tree.globalAttributes name entry } }
    | some _ =>
      draft.updateSelected fun c => { c with attributes := KeyedList.assign c.attributes name entry }
  | .identity identity => { draft with tree := { draft.tree with app := some identity } }
  | .exampleLine text => draft.updateSelected fun c => { c with examples := c.examples ++ [text] }
  | .topic name description =>
    { draft with
      tree := { draft.tree with topics := draft.tree.topics ++ [⟨name, description, none⟩] }
      topic := some draft.tree.topics.length }
  | .topicBody text =>
    match draft.topic with
    | none => draft
    | some index =>
      { draft with tree := { draft.tree with
          topics := draft.tree.topics.modify index fun t => { t with body := some text } } }

end Draft

end CommandLanguage
