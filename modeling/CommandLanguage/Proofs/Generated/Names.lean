import CommandLanguage.Proofs.Generated.Members
import CommandLanguage.Proofs.Text.Name

/-!
# Names in generated code

The declarations file declares an interface for the parameters of each command that can be called,
under a name made from its path, and two more under fixed names. A path becomes letters and digits
behind a capital letter, so what is put before or behind it makes an identifier; different commands
have different identifiers, and the fixed names end or begin otherwise.
-/

set_option autoImplicit false

namespace CommandLanguage

open Text

namespace Generated

open Piece

/-- What a line begins with that declares an interface in the namespace. -/
def interfaceFront : Text := "  export interface "

/-- The name of the interface that a line declares, if it declares one. -/
def interfaceName? (line : Text) : Option Text :=
  if interfaceFront.isPrefixOf line then
    some ((line.drop interfaceFront.length).takeWhile isWordPart)
  else none

/-- The interface that a piece declares, if it declares one: its name and what stands in its braces. -/
def interface? : Piece → Option (Text × List Piece)
  | .line begun => (interfaceName? begun.write).map (·, [])
  | .block opening body _ => (interfaceName? opening.write).map (·, body)

def interfaces (pieces : List Piece) : List (Text × List Piece) := pieces.filterMap interface?

/-- What stands in the braces of the parameters of a command. -/
def bundle (tree : CommandTree) (command : Command) : List Piece :=
  bundlePieces "    " "    \x7d;" (flagPieces command.flags) (argumentPieces command.args)
    (flagPieces tree.globalFlags)

/-- What stands in the braces of the namespace. -/
def namespacePieces (tree : CommandTree) : List Piece :=
  tree.leafCommands.flatMap (paramsPieces tree) ++
    [.block (.plain "  export interface Attributes \x7b") (attributePieces tree) "  \x7d",
      plain "",
      .block (.plain "  export interface Handlers<R> \x7b") (handlerPieces tree.leafCommands)
        "  \x7d"]

/-- The names are identifiers, and no two are the same. -/
structure Distinguished (names : List Text) : Prop where
  valid : ∀ name ∈ names, name.isValidIdentifier = true
  nodup : names.Nodup

theorem mem_declarationPieces_namespace (tree : CommandTree) (options : Options) :
    .block (.plain ("export namespace " ++ options.scopeName ++ " \x7b")) (namespacePieces tree)
      "\x7d" ∈ declarationPieces tree options :=
  .tail _ (.tail _ (.tail _ List.mem_cons_self))

theorem declarations_of_emit {tree : CommandTree} {options : Options} {files : Files}
    (h : emit tree options = .ok files) :
    files.declarations = Text.unlines (writeAll (declarationPieces tree options)) := by
  rw [emit] at h
  split at h
  · cases h
    rw [writeAll_declarationPieces]
    rfl
  · cases h

section Interfaces
variable {tree : CommandTree} {pieces others : List Piece} {name : Text}

theorem interfaceName?_of_isWordPart {u : CodeUnit} (rest : Text)
    (word : ∀ v ∈ name, isWordPart v = true) (stops : isWordPart u = false) :
    interfaceName? (interfaceFront ++ (name ++ u :: rest)) = some name := by
  have front : interfaceFront.isPrefixOf (interfaceFront ++ (name ++ u :: rest)) = true :=
    List.isPrefixOf_iff_prefix.mpr (List.prefix_append _ _)
  rw [interfaceName?, if_pos front, List.drop_left, List.takeWhile_append_of_pos word,
    List.takeWhile_cons_of_neg (by simp [stops]), List.append_nil]

theorem interfaces_append : interfaces (pieces ++ others) = interfaces pieces ++ interfaces others :=
  List.filterMap_append

/-- The comment above an interface declares none. -/
theorem interfaces_docLine (text : Text) : interfaces ((docLine "  " text).map plain) = [] := by
  rw [docLine]
  split <;> rfl

theorem isWordPart_of_mem_paramsName {command : Command} (named : IsCapitalised command.identifier) :
    ∀ u ∈ paramsName command, isWordPart u = true :=
  List.forall_mem_append.mpr ⟨fun _ hu => isWordPart_of_isLetterOrDigit (named.letters _ hu), by decide⟩

theorem interface?_params {command : Command} (named : IsCapitalised command.identifier)
    (body : List Piece) (closing : Text) :
    interface? (.block (.plain ("  export interface " ++ paramsName command ++ " \x7b")) body closing) =
      some (paramsName command, body) := by
  have opening : (Line.plain ("  export interface " ++ paramsName command ++ " \x7b")).write =
      interfaceFront ++ (paramsName command ++ unit ' ' :: "\x7b") := by
    simp [Line.plain, Line.write]
    rfl
  rw [interface?, opening, interfaceName?_of_isWordPart _ (isWordPart_of_mem_paramsName named)
    (by decide)]
  rfl

theorem interfaces_paramsPieces {command : Command} (named : IsCapitalised command.identifier) :
    interfaces (paramsPieces tree command) = [(paramsName command, bundle tree command)] := by
  rw [paramsPieces, interfaces_append, interfaces_docLine, List.nil_append, interfaces,
    List.filterMap_cons_some (interface?_params named _ _)]
  rfl

theorem interfaces_namespacePieces
    (named : ∀ c ∈ tree.leafCommands, IsCapitalised c.identifier) :
    interfaces (namespacePieces tree) =
      tree.leafCommands.map (fun c => (paramsName c, bundle tree c)) ++
        [(("Attributes" : Text), attributePieces tree),
          (("Handlers" : Text), handlerPieces tree.leafCommands)] := by
  rw [namespacePieces, interfaces_append, interfaces, List.filterMap_flatMap, List.map_eq_flatMap]
  congr 1
  exact List.flatMap_congr fun c hc => interfaces_paramsPieces (named c hc)

end Interfaces

section Distinct
variable {leaves : List Command}

theorem nodup_paramsNames (identifiers : (leaves.map Command.identifier).Nodup) :
    (leaves.map paramsName ++ [("Attributes" : Text), "Handlers"]).Nodup := by
  have ends : ∀ name ∈ leaves.map paramsName, ("Params" : Text) <:+ name :=
    List.forall_mem_map.mpr fun c _ => List.suffix_append _ _
  have same : leaves.map paramsName = (leaves.map Command.identifier).map (· ++ ("Params" : Text)) := by
    rw [List.map_map]
    rfl
  apply List.nodup_append.mpr
  refine ⟨?_, by decide, ?_⟩
  · rw [same]
    exact identifiers.map fun _ _ => List.append_cancel_right
  · intro name hn fixed hf he
    subst he
    have apart : ∀ other ∈ [("Attributes" : Text), "Handlers"], ¬ ("Params" : Text) <:+ other := by
      decide
    exact apart name hf (ends name hn)

theorem distinguished_interfaces (named : ∀ c ∈ leaves, IsCapitalised c.identifier)
    (identifiers : (leaves.map Command.identifier).Nodup) :
    Distinguished (leaves.map paramsName ++ [("Attributes" : Text), "Handlers"]) where
  valid := by
    refine List.forall_mem_append.mpr ⟨List.forall_mem_map.mpr ?_, by decide⟩
    intro c hc
    exact ((named c hc).append (by decide)).isValidIdentifier
  nodup := nodup_paramsNames identifiers

theorem distinguished_handlers (named : ∀ c ∈ leaves, IsCapitalised c.identifier)
    (identifiers : (leaves.map Command.identifier).Nodup) :
    Distinguished ("help" :: leaves.map handlerName) where
  valid := by
    refine List.forall_mem_cons.mpr ⟨by decide, List.forall_mem_map.mpr ?_⟩
    intro c hc
    refine isValidIdentifier_of_isLetter (by decide) ?_
    exact List.forall_mem_append.mpr ⟨by decide, (named c hc).letters⟩
  nodup := nodup_handlerNames identifiers

end Distinct

end Generated

open CommandTree Generated Piece

theorem CommandTree.Consistent.isCapitalised_leaves {tree : CommandTree}
    (consistent : tree.Consistent) : ∀ c ∈ tree.leafCommands, IsCapitalised c.identifier := by
  intro c hc
  obtain ⟨c, held, rfl⟩ := consistent.exists_holds_of_mem_leafCommands hc
  exact isCapitalised_pathIdentifier (consistent.segments_ne_nil held)
    (consistent.isIdentifier_of_mem_segments held)

/-- The identifier of a path is a capital letter with letters and digits behind it, whatever the names
of the path. So the namespace that is emitted for a compiled tree declares one interface for each
command that can be called and two more, all under different identifiers, and the members of the last
are different identifiers. -/
theorem generated_names_distinguished :
    (∀ segments : List Text, segments ≠ [] → (∀ name ∈ segments, IsIdentifier name) →
      IsCapitalised (pathIdentifier segments)) ∧
    ∀ (source : Text) (tree : CommandTree) (options : Options) (files : Files),
      compile source = .ok tree → emit tree options = .ok files →
      files.declarations = Text.unlines (writeAll (declarationPieces tree options)) ∧
      .block (.plain ("export namespace " ++ options.scopeName ++ " \x7b")) (namespacePieces tree)
        "\x7d" ∈ declarationPieces tree options ∧
      tree.leafCommands.Perm (tree.commands.filter (·.isLeaf)) ∧
      interfaces (namespacePieces tree) =
        tree.leafCommands.map (fun c => (paramsName c, bundle tree c)) ++
          [(("Attributes" : Text), attributePieces tree),
            (("Handlers" : Text), handlerPieces tree.leafCommands)] ∧
      Distinguished ((interfaces (namespacePieces tree)).map Prod.fst) ∧
      memberNames (handlerPieces tree.leafCommands) =
        (("help" : Text) :: tree.leafCommands.map handlerName).map some ∧
      Distinguished ("help" :: tree.leafCommands.map handlerName) := by
  refine ⟨fun _ => isCapitalised_pathIdentifier, ?_⟩
  intro source tree options files h emitted
  have consistent := consistent_of_compile h
  have named := consistent.isCapitalised_leaves
  have identifiers := nodup_leafIdentifiers_of_compile h
  have declared := interfaces_namespacePieces named
  have names : (interfaces (namespacePieces tree)).map Prod.fst =
      tree.leafCommands.map paramsName ++ [("Attributes" : Text), "Handlers"] := by
    rw [declared, List.map_append, List.map_map]
    rfl
  refine ⟨declarations_of_emit emitted, mem_declarationPieces_namespace tree options,
    consistent.perm_leafCommands, declared, ?_, (lists_handlerPieces _).names_eq,
    distinguished_handlers named identifiers⟩
  rw [names]
  exact distinguished_interfaces named identifiers

/-- Names of separators only, and a digit behind a separator. -/
theorem names_of_separators_distinguished :
    IsCapitalised (pathIdentifier ["_", "._1", "a-b:"]) ∧
    ∃ tree files, compile "cmd _ ._1 a-b:\ncmd x.1" = .ok tree ∧
      emit tree ⟨"cli", "cli", [], none⟩ = .ok files ∧
      (interfaces (namespacePieces tree)).map Prod.fst =
        [("XX1ABParams" : Text), "X1Params", "Attributes", "Handlers"] ∧
      Distinguished ((interfaces (namespacePieces tree)).map Prod.fst) ∧
      Distinguished [("help" : Text), "runXX1AB", "runX1"] := by
  let tree : CommandTree :=
    ⟨none, [], [], [
      { commandOf (DeclarationTree.bareCommand 0 none "_" 1) ["_"] [] with children := [1] },
      { commandOf (DeclarationTree.bareCommand 1 (some 0) "._1" 1) ["_", "._1"] [] with
        children := [2] },
      commandOf (DeclarationTree.bareCommand 2 (some 1) "a-b:" 1) ["_", "._1", "a-b:"] [],
      commandOf (DeclarationTree.bareCommand 3 none "x.1" 1) ["x.1"] []], [0, 3], [], []⟩
  have h : compile "cmd _ ._1 a-b:\ncmd x.1" = .ok tree := by decide +kernel
  have valid : Text.isValidIdentifier "cli" = true := by decide
  have emitted : emit tree ⟨"cli", "cli", [], none⟩ = .ok _ := emit_eq_ok tree valid
  have leaves : tree.leafCommands = tree.commands.filter (·.isLeaf) := by
    rw [(consistent_of_compile h).leafCommands_eq]
    exact List.mergeSort_of_pairwise (by decide +kernel)
  obtain ⟨capitalised, generated⟩ := generated_names_distinguished
  obtain ⟨_, _, _, declared, interfaces_differ, _, handlers_differ⟩ := generated _ _ _ _ h emitted
  refine ⟨capitalised ["_", "._1", "a-b:"] (by decide) (by decide), tree, _, h, emitted, ?_,
    interfaces_differ, ?_⟩
  · rw [declared, leaves]
    decide +kernel
  · rwa [leaves] at handlers_differ

end CommandLanguage
