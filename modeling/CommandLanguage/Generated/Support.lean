import CommandLanguage.Generated.Fragment

/-!
# The support file

The support file compiles the embedded source anew, lists the attributes of every command that can
be called, and runs the handlers of a program with parameters of the declared types.
-/

set_option autoImplicit false

namespace CommandLanguage.Generated

/-- The member that converts the value of a flag to its declared type. -/
def flagConversion (indent record : Text) (flag : Flag) : Text :=
  match flag.kind with
  | .bool => indent ++ key flag.name ++ ": " ++ access record flag.name ++ " === true,"
  | .string => indent ++ key flag.name ++ ": String(" ++ access record flag.name ++ " ?? ''),"

/-- The member that hands an argument on. -/
def argumentConversion (indent record : Text) (argument : Argument) : Text :=
  indent ++ key argument.name ++ ": " ++ access record argument.name ++ " ?? '',"

/-- The lines that load the embedded source. -/
def loaderLines (options : Options) : List Text :=
  ["const DEFINITION = " ++ options.definition.quoted ++ ";",
    "",
    "function load(): ResolvedTree \x7b",
    "  const \x7b tree, errors \x7d = compile(DEFINITION);",
    "  if (!tree) \x7b",
    "    throw new Error(errors.map(formatCompileError).join('\\n'));",
    "  \x7d",
    "  return tree;",
    "\x7d",
    "",
    "export const tree = load();",
    ""]

/-- The member with the value of an attribute. -/
def attributeMember (tree : CommandTree) (command : Command) (d : AttributeDefinition) : Text :=
  "    " ++ key d.name ++ ": " ++ literal (tree.attributeValue (some command.id) d) ++ ","

def attributeRow (tree : CommandTree) (command : Command) : List Text :=
  List.flatten [
    ["  " ++ command.path.quoted ++ ": \x7b"],
    tree.attributeTable.map (attributeMember tree command),
    ["  \x7d,"]]

/-- The entry that calls the handler of a command. -/
def handlerEntry (tree : CommandTree) (command : Command) : List Text :=
  List.flatten [
    ["      " ++ command.path.quoted ++ ": (p) =>",
      "        handlers." ++ handlerName command ++ "(\x7b",
      "          flags: \x7b"],
    command.flags.map (flagConversion "            " "p.flags"),
    ["          \x7d,",
      "          args: \x7b"],
    command.args.map (argumentConversion "            " "p.args"),
    ["          \x7d,",
      "          globals: \x7b"],
    tree.globalFlags.map (flagConversion "            " "p.globals"),
    ["          \x7d,",
      "        \x7d),"]]

def supportLines (tree : CommandTree) (options : Options) : List Text :=
  List.flatten [
    [header options,
      "import \x7b compile, execute, formatCompileError \x7d from '" ++ runtimeModule ++ "';",
      "import type \x7b ExecutionOutcome, ResolvedTree \x7d from '" ++ runtimeModule ++ "';",
      "import type \x7b " ++ options.scopeName ++ " \x7d from './" ++ options.baseName ++ "';",
      ""],
    loaderLines options,
    ["export const attributes: Record<string, " ++ options.scopeName ++ ".Attributes> = \x7b"],
    tree.leafCommands.flatMap (attributeRow tree),
    ["\x7d;",
      "",
      "export function run<R>(",
      "  handlers: " ++ options.scopeName ++ ".Handlers<R>,",
      "  argv: string[]",
      "): ExecutionOutcome<R> \x7b",
      "  return execute(tree, argv, \x7b",
      "    help: (scope) => handlers.help(scope),",
      "    commands: \x7b"],
    tree.leafCommands.flatMap (handlerEntry tree),
    ["    \x7d,",
      "  \x7d);",
      "\x7d",
      ""]]

def support (tree : CommandTree) (options : Options) : Text :=
  Text.unlines (supportLines tree options)

end CommandLanguage.Generated
