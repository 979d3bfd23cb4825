import CommandLanguage.Generated.Fragment

/-!
# The declarations file

The declarations file gives, in one namespace, the parameters of each command that can be called,
the attributes that every such command has, and the handlers that a program must provide.
-/

set_option autoImplicit false

namespace CommandLanguage.Generated

def member (indent name type : Text) : Text := indent ++ key name ++ ": " ++ type ++ ";"

def flagMembers (indent : Text) (flags : List Flag) : List Text :=
  flags.flatMap fun f => docLine indent f.description ++ [member indent f.name (flagType f.kind)]

def argumentMembers (indent : Text) (args : List Argument) : List Text :=
  args.flatMap fun a => docLine indent a.description ++ [member indent a.name "string"]

def paramsInterface (tree : CommandTree) (command : Command) : List Text :=
  List.flatten [
    docLine "  " ("Parameters for '" ++ Text.join " " command.segments ++ "'."),
    ["  export interface " ++ paramsName command ++ " \x7b",
      "    flags: \x7b"],
    flagMembers "      " command.flags,
    ["    \x7d;",
      "    args: \x7b"],
    argumentMembers "      " command.args,
    ["    \x7d;",
      "    globals: \x7b"],
    flagMembers "      " tree.globalFlags,
    ["    \x7d;",
      "  \x7d",
      ""]]

def attributesInterface (tree : CommandTree) : List Text :=
  List.flatten [
    ["  export interface Attributes \x7b"],
    tree.attributeTable.map fun d => member "    " d.name (attributeType d.kind),
    ["  \x7d",
      ""]]

def handlerMember (command : Command) : Text :=
  "    " ++ handlerName command ++ "(params: " ++ paramsName command ++ "): R;"

def handlersInterface (leaves : List Command) : List Text :=
  List.flatten [
    ["  export interface Handlers<R> \x7b",
      "    help(scope: HelpScope): R;"],
    leaves.map handlerMember,
    ["  \x7d"]]

def declarationLines (tree : CommandTree) (options : Options) : List Text :=
  List.flatten [
    [header options,
      "import type \x7b HelpScope \x7d from '" ++ runtimeModule ++ "';",
      "",
      "export namespace " ++ options.scopeName ++ " \x7b"],
    tree.leafCommands.flatMap (paramsInterface tree),
    attributesInterface tree,
    handlersInterface tree.leafCommands,
    ["\x7d",
      ""]]

def declarations (tree : CommandTree) (options : Options) : Text :=
  Text.unlines (declarationLines tree options)

end CommandLanguage.Generated
