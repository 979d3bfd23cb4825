import CommandLanguage.Generated.Files
import CommandLanguage.Proofs.Generated.Bundle
import CommandLanguage.Proofs.Generated.Insets
import CommandLanguage.Proofs.Text.Digits
import CommandLanguage.Proofs.Text.Name

/-!
# Text inside generated files

The texts of a source stand in the generated files as comments and as literals. Each of them is read
back where it was put: a description is one comment, whatever it says, and a literal gives the text
that it was written for. So reading a file finds the comments and literals that are listed here, and
no others.
-/

set_option autoImplicit false

namespace CommandLanguage

open Text

namespace Generated

section Listing

/-- A description stands in a comment of its own. -/
def docInsets (text : Text) : List Inset :=
  if text = [] then [] else [.comment ("* " ++ commentBody text ++ " ")]

/-- A name is quoted unless it is an identifier. -/
def keyInsets (name : Text) : List Inset := if name.isValidIdentifier then [] else [.literal name]

def valueInsets : AttributeValue → List Inset
  | .string value => [.literal value]
  | _ => []

def flagInsets (flags : List Flag) : List Inset :=
  flags.flatMap fun f => docInsets f.description ++ keyInsets f.name

def argumentInsets (args : List Argument) : List Inset :=
  args.flatMap fun a => docInsets a.description ++ keyInsets a.name

def paramsInsets (tree : CommandTree) (command : Command) : List Inset :=
  docInsets ("Parameters for '" ++ Text.join " " command.segments ++ "'.") ++
    flagInsets command.flags ++ argumentInsets command.args ++ flagInsets tree.globalFlags

/-- The comments and literals of the declarations file. -/
def declarationInsets (tree : CommandTree) : List Inset :=
  tree.leafCommands.flatMap (paramsInsets tree) ++
    tree.attributeTable.flatMap fun d => keyInsets d.name

def attributeInsets (tree : CommandTree) (command : Command) : List Inset :=
  .literal command.path :: tree.attributeTable.flatMap fun d =>
    keyInsets d.name ++ valueInsets (tree.attributeValue (some command.id) d)

/-- Members that read the members of the same names of a record. -/
def recordInsets (names : List Text) : List Inset :=
  names.flatMap fun name => keyInsets name ++ [.literal name]

def entryInsets (tree : CommandTree) (command : Command) : List Inset :=
  .literal command.path :: recordInsets (command.flags.map (·.name)) ++
    recordInsets (command.args.map (·.name)) ++ recordInsets (tree.globalFlags.map (·.name))

/-- The comments and literals of the support file. -/
def supportInsets (tree : CommandTree) (options : Options) : List Inset :=
  .literal options.definition :: tree.leafCommands.flatMap (attributeInsets tree) ++
    tree.leafCommands.flatMap (entryInsets tree)

end Listing

/-- The first lines of the support file, which name the source and the declarations file. -/
def importLines (options : Options) : List Text :=
  [header options,
    "import \x7b compile, execute, formatCompileError \x7d from '" ++ runtimeModule ++ "';",
    "import type \x7b ExecutionOutcome, ResolvedTree \x7d from '" ++ runtimeModule ++ "';",
    "import type \x7b " ++ options.scopeName ++ " \x7d from './" ++ options.baseName ++ "';",
    ""]

/-- The lines of the declarations file behind the first one. -/
def declaredLines (tree : CommandTree) (options : Options) : List Text :=
  List.flatten [
    ["import type \x7b HelpScope \x7d from '" ++ runtimeModule ++ "';",
      "",
      "export namespace " ++ options.scopeName ++ " \x7b"],
    tree.leafCommands.flatMap (paramsInterface tree),
    attributesInterface tree,
    handlersInterface tree.leafCommands,
    ["\x7d"]]

/-- The lines of the support file behind those that name other files. -/
def supportedLines (tree : CommandTree) (options : Options) : List Text :=
  List.flatten [
    loaderLines options,
    ["export const attributes: Record<string, " ++ options.scopeName ++ ".Attributes> = \x7b"],
    tree.leafCommands.flatMap (attributeRow tree),
    ["\x7d;",
      "",
      "export function run<R>(",
      "  handlers: " ++ options.scopeName ++ ".Handlers<R>,",
      "  argv: string[]",
      "): ExecutionOutcome<R> \x7b",
      "  return execute(tree, argv, \x7b",
      "    help: (scope) => handlers.help(scope),",
      "    commands: \x7b"],
    tree.leafCommands.flatMap (handlerEntry tree),
    ["    \x7d,",
      "  \x7d);",
      "\x7d"]]

/-- Lines, each with the line feed that ends it. -/
def ended (lines : List Text) : Text := lines.flatMap (· ++ [lineFeed])

theorem ended_append (lines others : List Text) :
    ended (lines ++ others) = ended lines ++ ended others :=
  List.flatMap_append

theorem unlines_concat_nil (lines : List Text) : Text.unlines (lines ++ [[]]) = ended lines := by
  induction lines with
  | nil => rfl
  | cons line lines ih =>
    have more : lines ++ [[]] ≠ [] := List.append_ne_nil_of_right_ne_nil lines (by decide)
    have first : Text.unlines (line :: (lines ++ [[]])) =
        line ++ [lineFeed] ++ Text.unlines (lines ++ [[]]) :=
      List.intercalate_cons_of_ne_nil more
    rw [List.cons_append, first, ih]
    rfl

theorem declarations_eq (tree : CommandTree) (options : Options) : declarations tree options =
    header options ++ lineFeed :: ended (declaredLines tree options) := by
  have lines : declarationLines tree options =
      [header options] ++ declaredLines tree options ++ [[]] := by
    simp [declarationLines, declaredLines]
    rfl
  rw [declarations, lines, unlines_concat_nil, ended_append, ended]
  simp

theorem support_eq (tree : CommandTree) (options : Options) : support tree options =
    ended (importLines options) ++ ended (supportedLines tree options) := by
  have lines : supportLines tree options =
      importLines options ++ supportedLines tree options ++ [[]] := by
    simp [supportLines, importLines, supportedLines]
    rfl
  rw [support, lines, unlines_concat_nil, ended_append]

/-- These are the comments and literals of some lines. -/
def HoldLines (lines : List Text) (found : List Inset) : Prop := Holds (ended lines) found

section Lines
variable {α : Type} {lines others : List Text} {line : Text} {found more : List Inset}

theorem holdLines_nil : HoldLines [] [] := holds_nil

theorem HoldLines.append (h : HoldLines lines found) (ho : HoldLines others more) :
    HoldLines (lines ++ others) (found ++ more) := by
  unfold HoldLines
  rw [ended_append]
  exact Holds.append h ho

theorem HoldLines.flatMap {f : α → List Text} {g : α → List Inset} {things : List α}
    (h : ∀ thing ∈ things, HoldLines (f thing) (g thing)) :
    HoldLines (things.flatMap f) (things.flatMap g) := by
  unfold HoldLines ended
  rw [List.flatMap_assoc]
  exact Holds.flatMap h

theorem holdLines_singleton (h : Holds line found) : HoldLines [line] found := by
  have feed : Holds [lineFeed] [] := holds_code (by decide)
  have whole := h.append feed
  unfold HoldLines ended
  rwa [List.flatMap_singleton, ← List.append_nil found]

theorem HoldLines.map {f : α → Text} {g : α → List Inset} {things : List α}
    (h : ∀ thing ∈ things, Holds (f thing) (g thing)) :
    HoldLines (things.map f) (things.flatMap g) := by
  rw [List.map_eq_flatMap]
  exact HoldLines.flatMap fun thing hm => holdLines_singleton (h thing hm)

theorem holdLines_code (h : ∀ line ∈ lines, ∀ u ∈ line, isCode u = true) : HoldLines lines [] := by
  have none := HoldLines.map (f := id) (g := fun _ => []) fun line hm => holds_code (h line hm)
  rwa [List.map_id, List.flatMap_eq_nil_iff.mpr fun _ _ => rfl] at none

end Lines

section Pieces
variable {indent record type name text : Text}

theorem isCode_of_isWordPart {u : CodeUnit} (h : isWordPart u = true) : isCode u = true := by
  simp only [isCode, Bool.and_eq_true, bne_iff_ne]
  refine ⟨⟨?_, ?_⟩, ?_⟩
  · rintro rfl
    exact absurd h (by decide)
  · rintro rfl
    exact absurd h (by decide)
  · rintro rfl
    exact absurd h (by decide)

theorem isCode_of_isValidIdentifier (h : name.isValidIdentifier = true) :
    ∀ u ∈ name, isCode u = true := by
  cases name with
  | nil => exact List.forall_mem_nil _
  | cons u rest =>
    obtain ⟨first, others⟩ := Bool.and_eq_true_iff.mp h
    refine List.forall_mem_cons.mpr ⟨isCode_of_isWordPart ?_, ?_⟩
    · rw [isWordPart, first, Bool.true_or]
    · intro v hv
      exact isCode_of_isWordPart (List.all_eq_true.mp others v hv)

theorem holds_key (name : Text) : Holds (key name) (keyInsets name) := by
  unfold key keyInsets
  split
  · next valid => exact holds_code (isCode_of_isValidIdentifier valid)
  · exact holds_quoted name

theorem holds_access (hr : ∀ u ∈ record, isCode u = true) (name : Text) :
    Holds (access record name) [.literal name] := by
  have front : Holds (record ++ "[") [] :=
    holds_code (List.forall_mem_append.mpr ⟨hr, by decide⟩)
  have back : Holds "]" [] := holds_code (by decide)
  exact (front.append (holds_quoted name)).append back

theorem holds_literal (value : AttributeValue) : Holds (literal value) (valueInsets value) := by
  cases value with
  | bool value =>
    apply holds_code
    cases value <;> decide
  | string value => exact holds_quoted value
  | int value =>
    have digits (n : Nat) : ∀ u ∈ ofNat n, isCode u = true := fun u hu =>
      isCode_of_isWordPart (by rw [isWordPart, isDigit_of_mem_ofNat n u hu, Bool.or_true])
    apply holds_code
    cases value with
    | ofNat n => exact digits n
    | negSucc n => exact List.forall_mem_append.mpr ⟨by decide, digits (n + 1)⟩

theorem unclosed_docBody (text : Text) : Unclosed ("* " ++ commentBody text ++ " ") := by
  have front : Unclosed "* " := by unfold Unclosed; decide
  have back : Unclosed " " := by unfold Unclosed; decide
  have blank : unit ' ' ≠ unit '*' ∧ unit ' ' ≠ unit '/' := by decide
  have begun : Unclosed ("* " ++ commentBody text) := by
    refine List.isChain_append.mpr ⟨front, unclosed_commentBody text, ?_⟩
    rintro _ ⟨⟩ v _ ⟨star, _⟩
    exact blank.1 star
  refine List.isChain_append.mpr ⟨begun, back, ?_⟩
  rintro u _ _ ⟨⟩ ⟨_, slash⟩
  exact blank.2 slash

theorem docComment_eq (text : Text) : "/** " ++ commentBody text ++ " */" =
    unit '/' :: unit '*' :: ("* " ++ commentBody text ++ " " ++ closing) := by
  have front : ("/** " : Text) = unit '/' :: unit '*' :: "* " := by decide
  have back : (" */" : Text) = " " ++ closing := by decide
  rw [front, back, List.append_assoc, List.append_assoc]
  rfl

theorem holds_docComment (text : Text) :
    Holds ("/** " ++ commentBody text ++ " */") [.comment ("* " ++ commentBody text ++ " ")] := by
  rw [docComment_eq]
  exact holds_comment (unclosed_docBody text)

theorem holdLines_docLine (hi : ∀ u ∈ indent, isCode u = true) (text : Text) :
    HoldLines (docLine indent text) (docInsets text) := by
  unfold docLine docInsets
  split
  · exact holdLines_nil
  · apply holdLines_singleton
    have whole := (holds_code hi).append (holds_docComment text)
    simpa only [List.append_assoc, List.nil_append] using whole

theorem holds_member (hi : ∀ u ∈ indent, isCode u = true) (ht : ∀ u ∈ type, isCode u = true)
    (name : Text) : Holds (member indent name type) (keyInsets name) := by
  have front := (holds_code hi).append (holds_key name)
  have colon : Holds ": " [] := holds_code (by decide)
  have stop : Holds ";" [] := holds_code (by decide)
  simpa [member] using ((front.append colon).append (holds_code ht)).append stop

theorem holds_conversion {α : Type} {expression : Text} {found : List Inset}
    (conversion : Conversion α) (h : Holds expression found) :
    Holds (conversion.write expression) found := by
  have fallback : Holds " ?? ''" [] := by
    have front : Holds " ?? " [] := holds_code (by decide)
    exact front.append (holds_apostrophes (List.forall_mem_nil _))
  cases conversion with
  | isTrue =>
    have back : Holds " === true" [] := holds_code (by decide)
    simpa [Conversion.write] using h.append back
  | asText =>
    have front : Holds "String(" [] := holds_code (by decide)
    have back : Holds ")" [] := holds_code (by decide)
    have closed : (" ?? '')" : Text) = " ?? ''" ++ ")" := by decide
    have whole := ((front.append h).append fallback).append back
    rw [Conversion.write, closed]
    simpa using whole
  | orEmpty => simpa [Conversion.write] using h.append fallback

theorem holds_field {α : Type} (hi : ∀ u ∈ indent, isCode u = true)
    (hr : ∀ u ∈ record, isCode u = true) (field : Field α) :
    Holds (field.write indent record) (keyInsets field.name ++ [.literal field.name]) := by
  have front := (holds_code hi).append (holds_key field.name)
  have colon : Holds ": " [] := holds_code (by decide)
  have stop : Holds "," [] := holds_code (by decide)
  have value := holds_conversion field.conversion (holds_access hr field.name)
  simpa [Field.write] using ((front.append colon).append value).append stop

end Pieces

section Declarations
variable {tree : CommandTree} {command : Command} {options : Options} {text name : Text}

theorem isCode_of_isLetterOrDigit {u : CodeUnit} (h : isLetterOrDigit u = true) :
    isCode u = true :=
  isCode_of_isWordPart (isWordPart_of_isLetterOrDigit h)

theorem isCode_of_mem_identifier (consistent : tree.Consistent)
    (leaf : command ∈ tree.leafCommands) : ∀ u ∈ command.identifier, isCode u = true := by
  obtain ⟨c, held, rfl⟩ := consistent.exists_holds_of_mem_leafCommands leaf
  intro u hu
  have named := consistent.isIdentifier_of_mem_segments held
  exact isCode_of_isLetterOrDigit (isLetterOrDigit_of_mem_pathIdentifier named u hu)

theorem holdLines_flagMembers (flags : List Flag) :
    HoldLines (flagMembers "      " flags) (flagInsets flags) := by
  apply HoldLines.flatMap
  intro flag _
  have type : ∀ u ∈ flagType flag.kind, isCode u = true := by
    cases flag.kind <;> decide
  have blank : ∀ u ∈ ("      " : Text), isCode u = true := by decide
  have comment := holdLines_docLine blank flag.description
  exact comment.append (holdLines_singleton (holds_member (by decide) type flag.name))

theorem holdLines_argumentMembers (args : List Argument) :
    HoldLines (argumentMembers "      " args) (argumentInsets args) := by
  apply HoldLines.flatMap
  intro argument _
  have blank : ∀ u ∈ ("      " : Text), isCode u = true := by decide
  have comment := holdLines_docLine blank argument.description
  exact comment.append (holdLines_singleton (holds_member (by decide) (by decide) argument.name))

theorem holdLines_paramsInterface (hc : ∀ u ∈ command.identifier, isCode u = true) :
    HoldLines (paramsInterface tree command) (paramsInsets tree command) := by
  have blank : ∀ u ∈ ("  " : Text), isCode u = true := by decide
  have comment := holdLines_docLine blank
    ("Parameters for '" ++ Text.join " " command.segments ++ "'.")
  have opening : HoldLines
      ["  export interface " ++ paramsName command ++ " \x7b", "    flags: \x7b"] [] := by
    apply holdLines_code
    simp only [paramsName, List.forall_mem_cons, List.forall_mem_append]
    exact ⟨⟨⟨by decide, hc, by decide⟩, by decide⟩, by decide, List.forall_mem_nil _⟩
  have args : HoldLines ["    \x7d;", "    args: \x7b"] [] := holdLines_code (by decide)
  have globals : HoldLines ["    \x7d;", "    globals: \x7b"] [] := holdLines_code (by decide)
  have ending : HoldLines ["    \x7d;", "  \x7d", ""] [] := holdLines_code (by decide)
  have own := (opening.append (holdLines_flagMembers command.flags)).append args
  have given := (holdLines_argumentMembers command.args).append globals
  have shared := (holdLines_flagMembers tree.globalFlags).append ending
  simpa [paramsInterface, paramsInsets] using comment.append (own.append (given.append shared))

theorem holdLines_attributesInterface (tree : CommandTree) :
    HoldLines (attributesInterface tree) (tree.attributeTable.flatMap fun d => keyInsets d.name) := by
  have opening : HoldLines ["  export interface Attributes \x7b"] [] := holdLines_code (by decide)
  have ending : HoldLines ["  \x7d", ""] [] := holdLines_code (by decide)
  have members : HoldLines
      (tree.attributeTable.map fun d => member "    " d.name (attributeType d.kind))
      (tree.attributeTable.flatMap fun d => keyInsets d.name) := by
    apply HoldLines.map
    intro d _
    have type : ∀ u ∈ attributeType d.kind, isCode u = true := by
      cases d.kind <;> decide
    exact holds_member (by decide) type d.name
  simpa [attributesInterface] using (opening.append members).append ending

theorem holdLines_handlersInterface {leaves : List Command}
    (hl : ∀ c ∈ leaves, ∀ u ∈ c.identifier, isCode u = true) :
    HoldLines (handlersInterface leaves) [] := by
  apply holdLines_code
  simp only [handlersInterface, List.flatten_cons, List.flatten_nil, List.append_nil,
    List.forall_mem_append, List.forall_mem_map]
  refine ⟨by decide, fun c hm => ?_, by decide⟩
  simp only [handlerMember, handlerName, paramsName, List.forall_mem_append]
  exact ⟨⟨⟨⟨by decide, by decide, hl c hm⟩, by decide⟩, hl c hm, by decide⟩, by decide⟩

theorem holds_import (hc : ∀ u ∈ text, isCode u = true) (hv : ∀ u ∈ name, isVerbatim u = true) :
    Holds (text ++ "'" ++ name ++ "';") [] := by
  have mark : ("'" : Text) = [apostrophe] := by decide
  have back : ("';" : Text) = [apostrophe] ++ ";" := by decide
  have stop : Holds ";" [] := holds_code (by decide)
  have whole := ((holds_code hc).append (holds_apostrophes hv)).append stop
  rw [mark, back]
  simpa using whole

theorem holdLines_declaredLines (consistent : tree.Consistent)
    (valid : options.scopeName.isValidIdentifier = true) :
    HoldLines (declaredLines tree options) (declarationInsets tree) := by
  have identifiers : ∀ c ∈ tree.leafCommands, ∀ u ∈ c.identifier, isCode u = true :=
    fun _ hc => isCode_of_mem_identifier consistent hc
  have importing : ∀ u ∈ ("import type \x7b HelpScope \x7d from " : Text), isCode u = true := by
    decide
  have imported : HoldLines ["import type \x7b HelpScope \x7d from '" ++ runtimeModule ++ "';"] [] :=
    holdLines_singleton (holds_import importing (by decide))
  have opening : HoldLines ["", "export namespace " ++ options.scopeName ++ " \x7b"] [] := by
    apply holdLines_code
    simp only [List.forall_mem_cons, List.forall_mem_append]
    exact ⟨by decide, ⟨⟨by decide, isCode_of_isValidIdentifier valid⟩, by decide⟩,
      List.forall_mem_nil _⟩
  have params : HoldLines (tree.leafCommands.flatMap (paramsInterface tree))
      (tree.leafCommands.flatMap (paramsInsets tree)) :=
    HoldLines.flatMap fun c hc => holdLines_paramsInterface (identifiers c hc)
  have members := params.append (holdLines_attributesInterface tree)
  have handlers := holdLines_handlersInterface identifiers
  have ending : HoldLines ["\x7d"] [] := holdLines_code (by decide)
  have whole := (imported.append opening).append ((members.append handlers).append ending)
  simpa [declaredLines, declarationInsets] using whole

end Declarations

section Support
variable {tree : CommandTree} {command : Command} {options : Options}

theorem holdLines_fields {α : Type} (record : Text) (hr : ∀ u ∈ record, isCode u = true)
    (fields : List (Field α)) : HoldLines (fields.map (Field.write "            " record))
      (recordInsets (fields.map (·.name))) := by
  rw [recordInsets, List.flatMap_map]
  exact HoldLines.map fun field _ => holds_field (by decide) hr field

theorem holdLines_bundleLiteral (tree : CommandTree) (command : Command) :
    HoldLines (bundleLiteral tree command).write
      (recordInsets (command.flags.map (·.name)) ++ recordInsets (command.args.map (·.name)) ++
        recordInsets (tree.globalFlags.map (·.name))) := by
  have opening : HoldLines ["          flags: \x7b"] [] := holdLines_code (by decide)
  have args : HoldLines ["          \x7d,", "          args: \x7b"] [] := holdLines_code (by decide)
  have globals : HoldLines ["          \x7d,", "          globals: \x7b"] [] :=
    holdLines_code (by decide)
  have ending : HoldLines ["          \x7d,"] [] := holdLines_code (by decide)
  have own := opening.append
    ((holdLines_fields "p.flags" (by decide) (command.flags.map flagField)).append args)
  have given :=
    (holdLines_fields "p.args" (by decide) (command.args.map argumentField)).append globals
  have shared :=
    (holdLines_fields "p.globals" (by decide) (tree.globalFlags.map flagField)).append ending
  have flagNames (flags : List Flag) : flags.map ((·.name) ∘ flagField) = flags.map (·.name) := rfl
  have argumentNames (args : List Argument) :
      args.map ((·.name) ∘ argumentField) = args.map (·.name) := rfl
  simpa [BundleLiteral.write, bundleLiteral, flagNames, argumentNames] using
    own.append (given.append shared)

theorem holdLines_handlerEntry (hc : ∀ u ∈ command.identifier, isCode u = true) :
    HoldLines (handlerEntry tree command) (entryInsets tree command) := by
  have indent : Holds "      " [] := holds_code (by decide)
  have arrow : Holds ": (p) =>" [] := holds_code (by decide)
  have path := holdLines_singleton ((indent.append (holds_quoted command.path)).append arrow)
  have call : HoldLines ["        handlers." ++ handlerName command ++ "(\x7b"] [] := by
    apply holdLines_code
    simp only [handlerName, List.forall_mem_singleton, List.forall_mem_append]
    exact ⟨⟨by decide, by decide, hc⟩, by decide⟩
  have ending : HoldLines ["        \x7d),"] [] := holdLines_code (by decide)
  have whole := (path.append call).append ((holdLines_bundleLiteral tree command).append ending)
  rw [handlerEntry_eq]
  simpa [entryInsets] using whole

theorem holdLines_attributeRow (tree : CommandTree) (command : Command) :
    HoldLines (attributeRow tree command) (attributeInsets tree command) := by
  have indent : Holds "  " [] := holds_code (by decide)
  have opening : Holds ": \x7b" [] := holds_code (by decide)
  have path := holdLines_singleton ((indent.append (holds_quoted command.path)).append opening)
  have members : HoldLines (tree.attributeTable.map (attributeMember tree command))
      (tree.attributeTable.flatMap fun d =>
        keyInsets d.name ++ valueInsets (tree.attributeValue (some command.id) d)) := by
    apply HoldLines.map
    intro d _
    have indent : Holds "    " [] := holds_code (by decide)
    have colon : Holds ": " [] := holds_code (by decide)
    have stop : Holds "," [] := holds_code (by decide)
    have value := holds_literal (tree.attributeValue (some command.id) d)
    have whole := (((indent.append (holds_key d.name)).append colon).append value).append stop
    simpa [attributeMember] using whole
  have ending : HoldLines ["  \x7d,"] [] := holdLines_code (by decide)
  simpa [attributeRow, attributeInsets] using (path.append members).append ending

/-- The escape of a line feed between apostrophes. -/
theorem holds_escapedLineFeed : Holds "'\\n'" [] := by
  intro rest
  have escape : readEscape (unit 'n' :: apostrophe :: rest) = some ([lineFeed], apostrophe :: rest) :=
    rfl
  have read : readApostrophes (unit '\\' :: unit 'n' :: apostrophe :: rest) =
      some ([lineFeed], rest) := by
    rw [readApostrophes_backslash, escape]
    simp [readApostrophes_apostrophe]
  have unchanged (found : Option (List Inset)) : found.map ([] ++ ·) = found := by simp
  exact (insets_apostrophe read).trans (unchanged _).symm

theorem holdLines_loaderLines (options : Options) :
    HoldLines (loaderLines options) [.literal options.definition] := by
  have front : Holds "const DEFINITION = " [] := holds_code (by decide)
  have stop : Holds ";" [] := holds_code (by decide)
  have constant := holdLines_singleton ((front.append (holds_quoted options.definition)).append stop)
  have compiled : HoldLines
      ["", "function load(): ResolvedTree \x7b",
        "  const \x7b tree, errors \x7d = compile(DEFINITION);", "  if (!tree) \x7b"] [] :=
    holdLines_code (by decide)
  have thrown : HoldLines
      ["    throw new Error(errors.map(formatCompileError).join('\\n'));"] [] := by
    have front : Holds "    throw new Error(errors.map(formatCompileError).join(" [] :=
      holds_code (by decide)
    have back : Holds "));" [] := holds_code (by decide)
    exact holdLines_singleton ((front.append holds_escapedLineFeed).append back)
  have ending : HoldLines
      ["  \x7d", "  return tree;", "\x7d", "", "export const tree = load();", ""] [] :=
    holdLines_code (by decide)
  have whole := constant.append (compiled.append (thrown.append ending))
  simpa [loaderLines] using whole

theorem holdLines_supportedLines (consistent : tree.Consistent)
    (valid : options.scopeName.isValidIdentifier = true) :
    HoldLines (supportedLines tree options) (supportInsets tree options) := by
  have scopeName := isCode_of_isValidIdentifier valid
  have attributes : HoldLines
      ["export const attributes: Record<string, " ++ options.scopeName ++ ".Attributes> = \x7b"]
      [] := by
    apply holdLines_code
    simp only [List.forall_mem_singleton, List.forall_mem_append]
    exact ⟨⟨by decide, scopeName⟩, by decide⟩
  have rows : HoldLines (tree.leafCommands.flatMap (attributeRow tree))
      (tree.leafCommands.flatMap (attributeInsets tree)) :=
    HoldLines.flatMap fun c _ => holdLines_attributeRow tree c
  have run : HoldLines ["\x7d;", "", "export function run<R>(",
      "  handlers: " ++ options.scopeName ++ ".Handlers<R>,"] [] := by
    apply holdLines_code
    simp only [List.forall_mem_cons, List.forall_mem_append]
    exact ⟨by decide, by decide, by decide, ⟨⟨by decide, scopeName⟩, by decide⟩,
      List.forall_mem_nil _⟩
  have executed : HoldLines ["  argv: string[]", "): ExecutionOutcome<R> \x7b",
      "  return execute(tree, argv, \x7b", "    help: (scope) => handlers.help(scope),",
      "    commands: \x7b"] [] := holdLines_code (by decide)
  have entries : HoldLines (tree.leafCommands.flatMap (handlerEntry tree))
      (tree.leafCommands.flatMap (entryInsets tree)) :=
    HoldLines.flatMap fun c hc =>
      holdLines_handlerEntry (isCode_of_mem_identifier consistent hc)
  have ending : HoldLines ["    \x7d,", "  \x7d);", "\x7d"] [] := holdLines_code (by decide)
  have table := (holdLines_loaderLines options).append (attributes.append (rows.append run))
  have handlers := executed.append (entries.append ending)
  simpa [supportedLines, supportInsets] using table.append handlers

theorem exists_definition (tree : CommandTree) (options : Options) : ∃ behind,
    ended (supportedLines tree options) =
      "const DEFINITION = " ++ (options.definition.quoted ++ behind) ∧
    (ofString ";" ++ lineFeed :: ended (loaderLines options).tail) <+: behind := by
  have first : ended (loaderLines options) = "const DEFINITION = " ++ options.definition.quoted ++
      ";" ++ [lineFeed] ++ ended (loaderLines options).tail := rfl
  obtain ⟨others, split⟩ : ∃ others, supportedLines tree options = loaderLines options ++ others :=
    ⟨_, rfl⟩
  refine ⟨_, ?_, List.prefix_append _ (ended others)⟩
  rw [split, ended_append, first]
  simp only [List.append_assoc, List.cons_append, List.nil_append]

end Support

section Descriptions
variable {tree : CommandTree} {command : Command} {lines others : List Text}
  {description begun : Text}

/-- A member with a comment on it: the comment is a line of its own, right before the member, and ends
where the line does. -/
def Documented (lines : List Text) (description begun : Text) : Prop :=
  ∃ comment, docLine "      " description = [comment] ∧ [comment, begun] <:+: lines ∧
    ClosesOnce comment

theorem Documented.mono (h : Documented lines description begun) (within : lines <:+: others) :
    Documented others description begun := by
  obtain ⟨comment, written, inside, closes⟩ := h
  exact ⟨comment, written, inside.trans within, closes⟩

theorem closesOnce_comment (text : Text) :
    ClosesOnce ("      " ++ ("/** " ++ commentBody text ++ " */")) := by
  have front : Unclosed ("      " ++ [unit '/', unit '*']) := by unfold Unclosed; decide
  have whole : Unclosed (("      " ++ [unit '/', unit '*']) ++ ("* " ++ commentBody text ++ " ")) := by
    refine List.isChain_append.mpr ⟨front, unclosed_docBody text, ?_⟩
    rintro _ _ v ⟨⟩ ⟨_, slash⟩
    exact absurd slash (by decide)
  have closes := whole.closesOnce
  rw [docComment_eq]
  simpa using closes

theorem documented_docLine (nonempty : description ≠ []) (begun : Text) :
    Documented (docLine "      " description ++ [begun]) description begun := by
  have written : docLine "      " description =
      ["      " ++ ("/** " ++ commentBody description ++ " */")] := by
    rw [docLine, if_neg nonempty, List.append_assoc, List.append_assoc, List.append_assoc]
  refine ⟨_, written, ?_, closesOnce_comment description⟩
  rw [written]
  exact List.infix_rfl

theorem infix_flatMap {α : Type} {thing : α} {things : List α} (hm : thing ∈ things)
    (f : α → List Text) : f thing <:+: things.flatMap f :=
  List.infix_of_mem_flatten (List.mem_map_of_mem hm)

theorem documented_flag {flags : List Flag} {flag : Flag} (hm : flag ∈ flags)
    (nonempty : flag.description ≠ []) : Documented (flagMembers "      " flags) flag.description
      (member "      " flag.name (flagType flag.kind)) :=
  (documented_docLine nonempty _).mono (infix_flatMap hm fun f =>
    docLine "      " f.description ++ [member "      " f.name (flagType f.kind)])

theorem documented_argument {args : List Argument} {argument : Argument} (hm : argument ∈ args)
    (nonempty : argument.description ≠ []) :
    Documented (argumentMembers "      " args) argument.description
      (member "      " argument.name "string") :=
  (documented_docLine nonempty _).mono (infix_flatMap hm fun a =>
    docLine "      " a.description ++ [member "      " a.name "string"])

theorem paramsInterface_infix (leaf : command ∈ tree.leafCommands) (options : Options) :
    paramsInterface tree command <:+: declarationLines tree options := by
  have all : tree.leafCommands.flatMap (paramsInterface tree) <:+: declarationLines tree options :=
    List.infix_of_mem_flatten (by simp)
  exact (infix_flatMap leaf (paramsInterface tree)).trans all

end Descriptions

end Generated

open CommandTree Generated

/-- In every compiled tree, whatever its texts say: behind the lines that name other files, the comments
and the literals between double quotes of both generated files are those listed for the tree, and a
literal reads as the text that it was written for. The description of a flag or an argument is written
right before its member, on a line that ends a comment at its end and nowhere else. The first constant
of the support file reads as the definition. -/
theorem user_text_stays_in_place {source : Text} {tree : CommandTree}
    (h : compile source = .ok tree) {options : Options}
    (valid : options.scopeName.isValidIdentifier = true) :
    ∃ declared supported behind,
      emit tree options = .ok ⟨header options ++ lineFeed :: declared,
        ended (importLines options) ++ supported⟩ ∧
      insets declared = some (declarationInsets tree) ∧
      insets supported = some (supportInsets tree options) ∧
      (∀ command ∈ tree.leafCommands,
        (∀ flag ∈ command.flags ++ tree.globalFlags, flag.description ≠ [] →
          Documented (declarationLines tree options) flag.description
            (member "      " flag.name (flagType flag.kind))) ∧
        ∀ argument ∈ command.args, argument.description ≠ [] →
          Documented (declarationLines tree options) argument.description
            (member "      " argument.name "string")) ∧
      supported = "const DEFINITION = " ++ (options.definition.quoted ++ behind) ∧
      readLiteral (options.definition.quoted ++ behind) = some (options.definition, behind) ∧
      (ofString ";" ++ lineFeed :: ended (loaderLines options).tail) <+: behind := by
  have consistent := consistent_of_compile h
  have declared := holdLines_declaredLines consistent valid
  have supported := holdLines_supportedLines consistent valid
  obtain ⟨behind, constant, loaded⟩ := exists_definition tree options
  refine ⟨_, _, behind, ?_, declared.insets_eq, supported.insets_eq, ?_, constant,
    readLiteral_quoted options.definition behind, loaded⟩
  · rw [emit, if_pos valid, declarations_eq, support_eq]
  · intro command leaf
    have within := paramsInterface_infix leaf options
    constructor
    · intro flag hm nonempty
      rcases List.mem_append.mp hm with hm | hm
      · have inside : flagMembers "      " command.flags <:+: paramsInterface tree command :=
          List.infix_of_mem_flatten (by simp)
        exact (documented_flag hm nonempty).mono (inside.trans within)
      · have inside : flagMembers "      " tree.globalFlags <:+: paramsInterface tree command :=
          List.infix_of_mem_flatten (by simp)
        exact (documented_flag hm nonempty).mono (inside.trans within)
    · intro argument hm nonempty
      have inside : argumentMembers "      " command.args <:+: paramsInterface tree command :=
        List.infix_of_mem_flatten (by simp)
      exact (documented_argument hm nonempty).mono (inside.trans within)

/-- A description that ends and begins comments, names to be quoted, and a definition that would end its
literal. -/
theorem hostile_description_stays_in_place :
    ∃ tree declared supported behind,
      compile "cmd run\nflag a-b bool \"**//*/\"\nattr a.b = \"'\"" = .ok tree ∧
      emit tree ⟨"cli", "x", "\"\n\\", none⟩ = .ok
        ⟨header ⟨"cli", "x", "\"\n\\", none⟩ ++ lineFeed :: declared,
          ended (importLines ⟨"cli", "x", "\"\n\\", none⟩) ++ supported⟩ ∧
      insets declared = some [.comment "* Parameters for 'run'. ", .comment "* **\\//*\\/ ",
        .literal "a-b", .comment "* Show help information ", .literal "a.b"] ∧
      readLiteral (quoted "\"\n\\" ++ behind) = some (ofString "\"\n\\", behind) := by
  let command : Command :=
    { id := 0, name := "run", segments := ["run"], description := []
      flags := [⟨"a-b", none, .bool, "**//*/"⟩], args := [], examples := []
      attributes := [("a.b", .string "'")], children := [], parent := none }
  let tree : CommandTree := ⟨none, [], [], [command], [0], [], [⟨"a.b", .string⟩]⟩
  have h : compile "cmd run\nflag a-b bool \"**//*/\"\nattr a.b = \"'\"" = .ok tree := by
    decide +kernel
  let options : Options := ⟨"cli", "x", "\"\n\\", none⟩
  have valid : options.scopeName.isValidIdentifier = true := by decide
  obtain ⟨declared, supported, behind, emitted, comments, _, _, _, definition, _⟩ :=
    user_text_stays_in_place h valid
  have listed : declarationInsets tree = [.comment "* Parameters for 'run'. ",
      .comment "* **\\//*\\/ ", .literal "a-b", .comment "* Show help information ",
      .literal "a.b"] := by
    decide +kernel
  exact ⟨tree, declared, supported, behind, h, emitted, listed ▸ comments, definition⟩

end CommandLanguage
