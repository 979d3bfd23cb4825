import CommandLanguage.CommandTree.Basic
import CommandLanguage.CompileError

/-!
# Resolving declarations

Declarations make a command tree if they do not contradict each other. The checks run in a fixed
order and the first contradiction is reported: the global flags; the flags of each command and
then its identifier, command by command; the kinds of attributes, the global ones first and then
those of the commands from the top down.
-/

set_option autoImplicit false

namespace CommandLanguage

namespace CommandTree

/-- The long and short spellings that are taken in a scope. -/
structure TakenNames where
  names : List Text
  shorts : List Text

/-- The spellings that some flags take. -/
def TakenNames.ofFlags (flags : List Flag) : TakenNames :=
  ⟨flags.map (·.name), flags.filterMap (·.short)⟩

/-- Checks the kinds and the spellings of the flags of a scope, in order. -/
def checkFlags (scope : FlagScope) : TakenNames → List FlagDeclaration →
    Except CompileError (List Flag)
  | _, [] => .ok []
  | taken, flag :: rest =>
    match FlagKind.ofWord? flag.kind with
    | none => .error (.semantic (.unsupportedKind flag.name flag.kind) flag.line)
    | some kind =>
      if flag.name ∈ taken.names then
        .error (.semantic (.duplicateFlag flag.name scope) flag.line)
      else
        match flag.short.filter (· ∈ taken.shorts) with
        | some short => .error (.semantic (.duplicateShort short scope) flag.line)
        | none => do
          let taken := ⟨flag.name :: taken.names, flag.short.toList ++ taken.shorts⟩
          let flags ← checkFlags scope taken rest
          .ok (⟨flag.name, flag.short, kind, flag.description⟩ :: flags)

/-- The command that a declaration makes, given its segments and its checked flags. -/
def commandOf (declaration : CommandDeclaration) (segments : List Text) (flags : List Flag) :
    Command :=
  { id := declaration.id
    name := declaration.name
    segments
    description := declaration.description
    flags
    args := declaration.args
    examples := declaration.examples
    attributes := KeyedList.mapValues (·.value) declaration.attributes
    children := declaration.children
    parent := declaration.parent }

/-- Checks commands in order; `taken` holds the identifiers of earlier commands and their paths. -/
def checkCommands (tree : DeclarationTree) (globalFlags : List Flag) :
    KeyedList Text → List CommandDeclaration → Except CompileError (List Command)
  | _, [] => .ok []
  | taken, declaration :: rest => do
    let segments := tree.segments declaration.id
    let path := Text.join "/" segments
    let flags ←
      checkFlags (.command path) (TakenNames.ofFlags globalFlags) declaration.flags
    let identifier := Text.pathIdentifier segments
    match KeyedList.get? taken identifier with
    | some other =>
      .error (.semantic (.sharedIdentifier other path identifier) declaration.line)
    | none =>
      let commands ←
        checkCommands tree globalFlags (KeyedList.assign taken identifier path) rest
      .ok (commandOf declaration segments flags :: commands)

/-- Notes the kind of each attribute, which must be the kind noted before. -/
def noteKinds : KeyedList AttributeKind → KeyedList AttributeEntry →
    Except CompileError (KeyedList AttributeKind)
  | kinds, [] => .ok kinds
  | kinds, (name, entry) :: rest =>
    match (KeyedList.get? kinds name).filter (· ≠ entry.value.kind) with
    | some other =>
      .error (.semantic (.conflictingKinds name other entry.value.kind) entry.line)
    | none => noteKinds (KeyedList.assign kinds name entry.value.kind) rest

/-- The attributes of a tree, scope by scope: the global ones, then those of each command from
the top down. -/
def attributeScopes (tree : DeclarationTree) : List (KeyedList AttributeEntry) :=
  tree.globalAttributes :: tree.walk.map (·.attributes)

/-- The kind of each attribute name, in the order of names. -/
def collectKinds (tree : DeclarationTree) : Except CompileError (List AttributeDefinition) := do
  let kinds ← (attributeScopes tree).foldlM noteKinds []
  .ok ((kinds.map fun (name, kind) => ⟨name, kind⟩).mergeSort fun a b =>
    Text.precedesOrEquals a.name b.name)

end CommandTree

/-- The command tree of some declarations, or their first contradiction. -/
def resolve (tree : DeclarationTree) : Except CompileError CommandTree := do
  let declaredFlags ←
    CommandTree.checkFlags .global (CommandTree.TakenNames.ofFlags [Flag.help]) tree.globalFlags
  let commands ← CommandTree.checkCommands tree (Flag.help :: declaredFlags) [] tree.commands
  let attributeTable ← CommandTree.collectKinds tree
  .ok
    { app := tree.app
      declaredFlags
      globalAttributes := KeyedList.mapValues (·.value) tree.globalAttributes
      commands
      roots := tree.roots
      topics := tree.topics
      attributeTable }

/-- As `resolve`, for declarations that may be missing altogether. -/
def resolve? : Option DeclarationTree → Except CompileError CommandTree
  | some tree => resolve tree
  | none => .error ⟨.semantic .missingTree, none⟩

end CommandLanguage
