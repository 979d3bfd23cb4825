import CommandLanguage.Generated.Files
import CommandLanguage.Proofs.CommandTree.Distinct
import CommandLanguage.Proofs.Generated.Bundle
import CommandLanguage.Proofs.Generated.Pieces

/-!
# Members of generated blocks

Each block of the generated files is fed from one list of the command tree. Flags, attributes,
handlers and commands differ wherever they are members of a block; arguments do so only if the source
gives them different names.
-/

set_option autoImplicit false

namespace CommandLanguage

/-- Two arguments of the command have one name. -/
def Command.RepeatsArgument (command : Command) : Prop := ¬ (command.args.map (·.name)).Nodup

instance (command : Command) : Decidable command.RepeatsArgument :=
  inferInstanceAs (Decidable (¬ (command.args.map (·.name)).Nodup))

namespace Generated

open Piece

/-- Members, each behind the comment that describes it. -/
def documented {α : Type} (indent : Text) (description name type : α → Text) (things : List α) :
    List Piece :=
  things.flatMap fun thing => (docLine indent (description thing)).map plain ++
    [.member indent (key (name thing)) (": " ++ type thing ++ ";")]

def flagPieces (flags : List Flag) : List Piece :=
  documented "      " (·.description) (·.name) (flagType ·.kind) flags

def argumentPieces (args : List Argument) : List Piece :=
  documented "      " (·.description) (·.name) (fun _ => "string") args

def bundlePieces (indent closing : Text) (flags args globals : List Piece) : List Piece :=
  [.block ⟨indent, some "flags", ": \x7b"⟩ flags closing,
    .block ⟨indent, some "args", ": \x7b"⟩ args closing,
    .block ⟨indent, some "globals", ": \x7b"⟩ globals closing]

def paramsPieces (tree : CommandTree) (command : Command) : List Piece :=
  (docLine "  " ("Parameters for '" ++ Text.join " " command.segments ++ "'.")).map plain ++
  [.block (.plain ("  export interface " ++ paramsName command ++ " \x7b"))
      (bundlePieces "    " "    \x7d;" (flagPieces command.flags) (argumentPieces command.args)
        (flagPieces tree.globalFlags))
      "  \x7d",
    plain ""]

def attributePieces (tree : CommandTree) : List Piece :=
  tree.attributeTable.map fun d => .member "    " (key d.name) (": " ++ attributeType d.kind ++ ";")

def handlerPieces (leaves : List Command) : List Piece :=
  .member "    " "help" "(scope: HelpScope): R;" ::
    leaves.map fun c => .member "    " (handlerName c) ("(params: " ++ paramsName c ++ "): R;")

def declarationPieces (tree : CommandTree) (options : Options) : List Piece :=
  [plain (header options),
    plain ("import type \x7b HelpScope \x7d from '" ++ runtimeModule ++ "';"),
    plain "",
    .block (.plain ("export namespace " ++ options.scopeName ++ " \x7b"))
      (tree.leafCommands.flatMap (paramsPieces tree) ++
        [.block (.plain "  export interface Attributes \x7b") (attributePieces tree) "  \x7d",
          plain "",
          .block (.plain "  export interface Handlers<R> \x7b") (handlerPieces tree.leafCommands)
            "  \x7d"])
      "\x7d",
    plain ""]

def fieldPieces {α : Type} (record : Text) (fields : List (Field α)) : List Piece :=
  fields.map fun field => .member "            " (key field.name)
    (": " ++ field.conversion.write (access record field.name) ++ ",")

def rowPiece (tree : CommandTree) (command : Command) : Piece :=
  .block ⟨"  ", some command.path.quoted, ": \x7b"⟩
    (tree.attributeTable.map fun d => .member "    " (key d.name)
      (": " ++ literal (tree.attributeValue (some command.id) d) ++ ","))
    "  \x7d,"

def flagFields (record : Text) (flags : List Flag) : List Piece :=
  fieldPieces record (flags.map flagField)

def argumentFields (args : List Argument) : List Piece :=
  fieldPieces "p.args" (args.map argumentField)

def entryPieces (tree : CommandTree) (command : Command) : List Piece :=
  [.member "      " command.path.quoted ": (p) =>",
    .block (.plain ("        handlers." ++ handlerName command ++ "(\x7b"))
      (bundlePieces "          " "          \x7d," (flagFields "p.flags" command.flags)
        (argumentFields command.args) (flagFields "p.globals" tree.globalFlags))
      "        \x7d),"]

def valuesPiece (tree : CommandTree) (options : Options) : Piece :=
  .block (.plain ("export const attributes: Record<string, " ++ options.scopeName ++
      ".Attributes> = \x7b"))
    (tree.leafCommands.map (rowPiece tree)) "\x7d;"

/-- The object with the handlers that `execute` chooses from. -/
def executePiece (tree : CommandTree) : Piece :=
  .block (.plain "  return execute(tree, argv, \x7b")
    [.member "    " "help" ": (scope) => handlers.help(scope),",
      .block ⟨"    ", some "commands", ": \x7b"⟩ (tree.leafCommands.flatMap (entryPieces tree))
        "    \x7d,"]
    "  \x7d);"

def supportPieces (tree : CommandTree) (options : Options) : List Piece :=
  [plain (header options),
    plain ("import \x7b compile, execute, formatCompileError \x7d from '" ++ runtimeModule ++ "';"),
    plain ("import type \x7b ExecutionOutcome, ResolvedTree \x7d from '" ++ runtimeModule ++ "';"),
    plain ("import type \x7b " ++ options.scopeName ++ " \x7d from './" ++ options.baseName ++ "';"),
    plain ""] ++
  (loaderLines options).map plain ++
  [valuesPiece tree options,
    plain "",
    plain "export function run<R>(",
    plain ("  handlers: " ++ options.scopeName ++ ".Handlers<R>,"),
    plain "  argv: string[]",
    .block (.plain "): ExecutionOutcome<R> \x7b") [executePiece tree] "\x7d",
    plain ""]

section Writing

theorem writeAll_documented {α : Type} (indent : Text) (description name type : α → Text)
    (things : List α) : writeAll (documented indent description name type things) =
      things.flatMap fun thing => docLine indent (description thing) ++
        [member indent (name thing) (type thing)] := by
  rw [documented, writeAll_flatMap]
  simp only [writeAll_append, writeAll_plain, writeAll, write_member, member, List.append_assoc,
    List.append_nil]

theorem writeAll_paramsPieces (tree : CommandTree) (command : Command) :
    writeAll (paramsPieces tree command) = paramsInterface tree command := by
  simp only [paramsPieces, bundlePieces, flagPieces, argumentPieces, writeAll_append, writeAll_plain,
    writeAll, Piece.write, write_plain, writeAll_documented]
  simp [paramsInterface, flagMembers, argumentMembers, Line.write, Line.plain]
  exact ⟨rfl, rfl, rfl⟩

theorem writeAll_attributePieces (tree : CommandTree) : writeAll (attributePieces tree) =
    tree.attributeTable.map fun d => member "    " d.name (attributeType d.kind) := by
  simp only [attributePieces, writeAll_members, member, List.append_assoc]

theorem writeAll_handlerPieces (leaves : List Command) : writeAll (handlerPieces leaves) =
    ("    help(scope: HelpScope): R;" : Text) :: leaves.map handlerMember := by
  rw [handlerPieces, writeAll, writeAll_members, write_member]
  simp [handlerMember]
  rfl

theorem writeAll_declarationPieces (tree : CommandTree) (options : Options) :
    writeAll (declarationPieces tree options) = declarationLines tree options := by
  simp only [declarationPieces, writeAll_append, writeAll, Piece.write, write_plain, writeAll_flatMap,
    writeAll_paramsPieces, writeAll_attributePieces, writeAll_handlerPieces]
  simp [declarationLines, attributesInterface, handlersInterface, Line.write, Line.plain]

theorem writeAll_fieldPieces {α : Type} (record : Text) (fields : List (Field α)) :
    writeAll (fieldPieces record fields) = fields.map (Field.write "            " record) := by
  rw [fieldPieces, writeAll_members]
  simp [Field.write]

theorem write_rowPiece (tree : CommandTree) (command : Command) :
    (rowPiece tree command).write = attributeRow tree command := by
  rw [rowPiece, Piece.write, writeAll_members]
  simp [attributeRow, attributeMember, Line.write]

theorem writeAll_entryPieces (tree : CommandTree) (command : Command) :
    writeAll (entryPieces tree command) = handlerEntry tree command := by
  rw [handlerEntry_eq]
  simp only [entryPieces, bundlePieces, flagFields, argumentFields, writeAll, Piece.write, write_member,
    writeAll_fieldPieces]
  simp [BundleLiteral.write, bundleLiteral, Line.write, Line.plain]
  exact ⟨rfl, rfl, rfl⟩

theorem writeAll_supportPieces (tree : CommandTree) (options : Options) :
    writeAll (supportPieces tree options) = supportLines tree options := by
  simp only [supportPieces, valuesPiece, executePiece, writeAll_append, writeAll, Piece.write,
    write_plain, write_member, writeAll_flatMap, writeAll_map, write_rowPiece, writeAll_entryPieces]
  simp [supportLines, Line.write, Line.plain]
  exact ⟨rfl, rfl⟩

theorem emit_eq_ok (tree : CommandTree) {options : Options}
    (valid : options.scopeName.isValidIdentifier = true) : emit tree options = .ok
      ⟨Text.unlines (writeAll (declarationPieces tree options)),
        Text.unlines (writeAll (supportPieces tree options))⟩ := by
  rw [emit, if_pos valid, declarations, support, writeAll_declarationPieces, writeAll_supportPieces]

end Writing

section Names
variable {α : Type}

theorem lists_documented (indent : Text) (description name type : α → Text) (things : List α) :
    Lists (documented indent description name type things) (things.map name) := by
  rw [documented, List.map_eq_flatMap]
  apply Lists.flatMap
  intro thing _
  exact (lists_plain _).append (lists_member (keyName?_key _) _ _)

theorem lists_flagPieces (flags : List Flag) : Lists (flagPieces flags) (flags.map (·.name)) :=
  lists_documented ..

theorem lists_argumentPieces (args : List Argument) :
    Lists (argumentPieces args) (args.map (·.name)) :=
  lists_documented ..

theorem lists_fieldPieces (record : Text) (fields : List (Field α)) :
    Lists (fieldPieces record fields) (fields.map (·.name)) :=
  lists_members fun field _ => keyName?_key field.name

theorem lists_flagFields (record : Text) (flags : List Flag) :
    Lists (flagFields record flags) (flags.map (·.name)) := by
  have fields := lists_fieldPieces record (flags.map flagField)
  rwa [List.map_map] at fields

theorem lists_argumentFields (args : List Argument) :
    Lists (argumentFields args) (args.map (·.name)) := by
  have fields := lists_fieldPieces "p.args" (args.map argumentField)
  rwa [List.map_map] at fields

/-- Of the blocks of a bundle, and of the block that they make, only the arguments can repeat a
member. -/
theorem repeating_bundle {flags args globals : List Piece}
    {flagNames argNames globalNames : List Text} (hf : Lists flags flagNames)
    (ha : Lists args argNames) (hg : Lists globals globalNames) (flags_differ : flagNames.Nodup)
    (globals_differ : globalNames.Nodup) (opening : Line) (indent inner outer : Text)
    (pieces : List Piece) :
    repeating (.block opening (bundlePieces indent inner flags args globals) outer :: pieces) =
      (if argNames.Nodup then [] else [args]) ++ repeating pieces := by
  have keys_differ : (memberNames (bundlePieces indent inner flags args globals)).Nodup := by
    change [some ("flags" : Text), some "args", some "globals"].Nodup
    decide
  rw [repeating_block, if_pos keys_differ, bundlePieces, hf.repeating_block, ha.repeating_block,
    hg.repeating_block, if_pos flags_differ, if_pos globals_differ]
  simp only [repeating_nil, List.nil_append, List.append_nil]

end Names

section Commands
variable {tree : CommandTree} {command : Command}

theorem repeating_rowPiece (attributes : (tree.attributeTable.map (·.name)).Nodup) :
    repeating [rowPiece tree command] = [] := by
  have row : Lists (tree.attributeTable.map fun d => .member "    " (key d.name)
      (": " ++ literal (tree.attributeValue (some command.id) d) ++ ","))
      (tree.attributeTable.map (·.name)) := lists_members fun d _ => keyName?_key d.name
  rw [rowPiece, row.repeating_block, if_pos attributes]
  rfl

variable (globals : (tree.globalFlags.map (·.name)).Nodup)
variable (flags : (command.flags.map (·.name)).Nodup)
include globals flags

theorem repeating_paramsPieces : repeating (paramsPieces tree command) =
    if command.RepeatsArgument then [argumentPieces command.args] else [] := by
  rw [paramsPieces, repeating_append, (lists_plain _).repeating_eq_nil, List.nil_append,
    repeating_bundle (lists_flagPieces _) (lists_argumentPieces _) (lists_flagPieces _) flags globals]
  exact (List.append_nil _).trans (ite_not _ _ _).symm

theorem repeating_entryPieces : repeating (entryPieces tree command) =
    if command.RepeatsArgument then [argumentFields command.args] else [] := by
  rw [entryPieces, repeating_member,
    repeating_bundle (lists_flagFields _ _) (lists_argumentFields _) (lists_flagFields _ _) flags
      globals]
  exact (List.append_nil _).trans (ite_not _ _ _).symm

end Commands

section Leaves
variable {leaves : List Command} {pieces block : Command → List Piece}

theorem repeating_flatMap_leaves
    (h : ∀ c ∈ leaves, repeating (pieces c) = if c.RepeatsArgument then [block c] else []) :
    repeating (leaves.flatMap pieces) = (leaves.filter (·.RepeatsArgument)).map block := by
  induction leaves with
  | nil => rfl
  | cons c leaves ih =>
    obtain ⟨hc, hrest⟩ := List.forall_mem_cons.mp h
    rw [List.flatMap_cons, repeating_append, hc, ih hrest, List.filter_cons]
    by_cases repeats : c.RepeatsArgument
    · rw [if_pos repeats, if_pos (decide_eq_true repeats)]
      rfl
    · rw [if_neg repeats, if_neg (by simpa using repeats)]
      rfl

theorem nodup_byPath (paths : (leaves.map Command.path).Nodup)
    (h : ∀ c, memberNames (pieces c) = [some c.path]) :
    (memberNames (leaves.flatMap pieces)).Nodup := by
  have nodup := nodup_map_some_iff.mpr paths
  rw [List.map_map, List.map_eq_flatMap] at nodup
  rw [memberNames_flatMap, funext h]
  exact nodup

theorem lists_handlerPieces (leaves : List Command) :
    Lists (handlerPieces leaves) ("help" :: leaves.map handlerName) := by
  have help := lists_member (keyName?_of_isWordStart "elp" (by decide : Text.isWordStart (unit 'h')))
    "    " "(scope: HelpScope): R;"
  refine help.append (lists_members fun c _ => ?_)
  exact keyName?_of_isWordStart _ (by decide : Text.isWordStart (unit 'r') = true)

theorem nodup_handlerNames (identifiers : (leaves.map Command.identifier).Nodup) :
    (("help" : Text) :: leaves.map handlerName).Nodup := by
  apply List.nodup_cons.mpr
  constructor
  · intro hm
    obtain ⟨c, _, hc⟩ := List.mem_map.mp hm
    cases hc
  · have same :
        leaves.map handlerName = (leaves.map Command.identifier).map (("run" : Text) ++ ·) := by
      rw [List.map_map]
      rfl
    rw [same]
    exact identifiers.map fun _ _ => List.append_cancel_left

end Leaves

theorem lists_attributePieces (tree : CommandTree) :
    Lists (attributePieces tree) (tree.attributeTable.map (·.name)) :=
  lists_members fun d _ => keyName?_key d.name

theorem memberNames_leaves (tree : CommandTree) :
    memberNames (tree.leafCommands.flatMap (paramsPieces tree)) = [] := by
  rw [memberNames_flatMap, List.flatMap_eq_nil_iff]
  intro c _
  rw [paramsPieces, memberNames_append, memberNames_plain]
  rfl

section Tree
variable {tree : CommandTree} (consistent : tree.Consistent)
include consistent

theorem repeating_declarationPieces (attributes : (tree.attributeTable.map (·.name)).Nodup)
    (identifiers : (tree.leafCommands.map Command.identifier).Nodup) (options : Options) :
    repeating (declarationPieces tree options) =
      (tree.leafCommands.filter (·.RepeatsArgument)).map (argumentPieces ·.args) := by
  have leaves : repeating (tree.leafCommands.flatMap (paramsPieces tree)) =
      (tree.leafCommands.filter (·.RepeatsArgument)).map (argumentPieces ·.args) := by
    apply repeating_flatMap_leaves
    intro c hc
    obtain ⟨c, held, rfl⟩ := consistent.exists_holds_of_mem_leafCommands hc
    exact repeating_paramsPieces consistent.globalFlags_unshared.names
      (consistent.own_unshared held.mem).names
  -- The namespace itself has no keyed members; its blocks are taken one by one.
  rw [declarationPieces, repeating_plain, repeating_plain, repeating_plain, repeating_block, if_pos]
  · rw [repeating_append, leaves, (lists_attributePieces tree).repeating_block, if_pos attributes,
      repeating_plain, (lists_handlerPieces _).repeating_block,
      if_pos (nodup_handlerNames identifiers)]
    simp
  · rw [memberNames_append, memberNames_leaves]
    exact List.nodup_nil

theorem repeating_valuesPiece (attributes : (tree.attributeTable.map (·.name)).Nodup)
    (options : Options) : repeating [valuesPiece tree options] = [] := by
  have values : repeating (tree.leafCommands.flatMap fun c => [rowPiece tree c]) = [] := by
    rw [repeating_flatMap, List.flatMap_eq_nil_iff]
    intro c _
    exact repeating_rowPiece attributes
  have name (c : Command) : memberNames [rowPiece tree c] = [some c.path] :=
    congrArg (fun read => [read]) (keyName?_quoted c.path)
  rw [valuesPiece, List.map_eq_flatMap, repeating_block,
    if_pos (nodup_byPath consistent.nodup_leafPaths name), values]
  rfl

theorem repeating_executePiece : repeating [executePiece tree] =
    (tree.leafCommands.filter (·.RepeatsArgument)).map (argumentFields ·.args) := by
  have leaves : repeating (tree.leafCommands.flatMap (entryPieces tree)) =
      (tree.leafCommands.filter (·.RepeatsArgument)).map (argumentFields ·.args) := by
    apply repeating_flatMap_leaves
    intro c hc
    obtain ⟨c, held, rfl⟩ := consistent.exists_holds_of_mem_leafCommands hc
    exact repeating_entryPieces consistent.globalFlags_unshared.names
      (consistent.own_unshared held.mem).names
  have name (c : Command) : memberNames (entryPieces tree c) = [some c.path] :=
    congrArg (fun read => [read]) (keyName?_quoted c.path)
  rw [executePiece, repeating_block, if_pos, repeating_member, repeating_block,
    if_pos (nodup_byPath consistent.nodup_leafPaths name), leaves]
  · simp
  · change [some ("help" : Text), some "commands"].Nodup
    decide

theorem repeating_supportPieces (attributes : (tree.attributeTable.map (·.name)).Nodup)
    (options : Options) : repeating (supportPieces tree options) =
      (tree.leafCommands.filter (·.RepeatsArgument)).map (argumentFields ·.args) := by
  have values := repeating_valuesPiece consistent attributes options
  have call : memberNames [executePiece tree] = [] := rfl
  rw [supportPieces, repeating_append, repeating_append, (lists_plain _).repeating_eq_nil,
    ← List.singleton_append (x := valuesPiece tree options), repeating_append, values]
  simp [repeating_block, call, repeating_executePiece consistent]

end Tree

end Generated

open CommandTree Generated Piece

/-- For every compiled tree and every valid name of the namespace two files are emitted, and in both
the blocks that have two members of one name are those of the arguments of the commands that have
two arguments of one name. -/
theorem repeated_members_are_arguments {source : Text} {tree : CommandTree}
    (h : compile source = .ok tree) (options : Options)
    (valid : options.scopeName.isValidIdentifier = true) :
    emit tree options = .ok
      ⟨Text.unlines (writeAll (declarationPieces tree options)),
        Text.unlines (writeAll (supportPieces tree options))⟩ ∧
    repeating (declarationPieces tree options) =
      (tree.leafCommands.filter (·.RepeatsArgument)).map (argumentPieces ·.args) ∧
    repeating (supportPieces tree options) =
      (tree.leafCommands.filter (·.RepeatsArgument)).map (argumentFields ·.args) ∧
    (repeating (declarationPieces tree options) = [] ∧
        repeating (supportPieces tree options) = [] ↔
      ∀ c ∈ tree.commands, c.isLeaf = true → (c.args.map (·.name)).Nodup) := by
  have consistent := consistent_of_compile h
  have attributes := nodup_attributeTable_of_compile h
  have declared := repeating_declarationPieces consistent attributes
    (nodup_leafIdentifiers_of_compile h) options
  have supported := repeating_supportPieces consistent attributes options
  have distinct (c : Command) :
      ¬ decide c.RepeatsArgument = true ↔ (c.args.map (·.name)).Nodup := by
    rw [decide_eq_true_iff, Command.RepeatsArgument, not_not]
  refine ⟨emit_eq_ok tree valid, declared, supported, ?_⟩
  rw [declared, supported, List.map_eq_nil_iff, List.map_eq_nil_iff, and_self,
    List.filter_eq_nil_iff]
  simp only [consistent.perm_leafCommands.mem_iff, List.mem_filter, and_imp, distinct]

/-- Names that are written as literals, and a flag and an argument of one name. -/
theorem members_of_quoted_names_differ :
    ∃ tree, compile "cmd copy\nflag to.dir string \"\"\narg to.dir s \"\"\narg to s \"\"" =
        .ok tree ∧
      repeating (declarationPieces tree ⟨"cli", "cli", [], none⟩) = [] ∧
      repeating (supportPieces tree ⟨"cli", "cli", [], none⟩) = [] := by
  let copy : Command :=
    { commandOf (DeclarationTree.bareCommand 0 none "copy" 1) ["copy"]
        [⟨"to.dir", none, .string, []⟩] with
      args := [⟨"to.dir", "s", []⟩, ⟨"to", "s", []⟩] }
  let tree : CommandTree := ⟨none, [], [], [copy], [0], [], []⟩
  have h : compile "cmd copy\nflag to.dir string \"\"\narg to.dir s \"\"\narg to s \"\"" =
      .ok tree := by decide +kernel
  have valid : Text.isValidIdentifier "cli" = true := by decide
  obtain ⟨_, _, _, differ⟩ := repeated_members_are_arguments h ⟨"cli", "cli", [], none⟩ valid
  exact ⟨tree, h, differ.mpr (by decide +kernel)⟩

/-- Two arguments of one name become two members of one name, in both files. -/
theorem argument_member_repeated :
    ∃ tree options, compile "cmd copy\narg file s \"\"\narg file s \"\"" = .ok tree ∧
      emit tree options = .ok
        ⟨Text.unlines (writeAll (declarationPieces tree options)),
          Text.unlines (writeAll (supportPieces tree options))⟩ ∧
      (repeating (declarationPieces tree options)).map writeAll =
        [(["      file: string;", "      file: string;"] : List Text)] ∧
      (repeating (supportPieces tree options)).map writeAll =
        [(["            file: p.args[\"file\"] ?? '',",
          "            file: p.args[\"file\"] ?? '',"] : List Text)] := by
  let copy : Command :=
    { commandOf (DeclarationTree.bareCommand 0 none "copy" 1) ["copy"] [] with
      args := [⟨"file", "s", []⟩, ⟨"file", "s", []⟩] }
  let tree : CommandTree := ⟨none, [], [], [copy], [0], [], []⟩
  have h : compile "cmd copy\narg file s \"\"\narg file s \"\"" = .ok tree := by decide +kernel
  have valid : Text.isValidIdentifier "cli" = true := by decide
  exact ⟨tree, ⟨"cli", "cli", [], none⟩, h, emit_eq_ok tree valid, by decide +kernel,
    by decide +kernel⟩

end CommandLanguage
