import CommandLanguage.CommandTree.Basic
import CommandLanguage.Text.Quoted
import CommandLanguage.Text.Replace

/-!
# Pieces of generated TypeScript

How names, values and descriptions of a command tree are written in TypeScript. A name is written
as it is where it is an identifier and as a literal elsewhere. A description becomes a comment, in
which the end of a comment is broken up.
-/

set_option autoImplicit false

namespace CommandLanguage.Generated

/-- What both files are told about each other and about their origin. -/
structure Options where
  scopeName : Text
  /-- The name of the declarations file without its extension. -/
  baseName : Text
  /-- The source, which the support file holds. -/
  definition : Text
  sourceName : Option Text
  deriving DecidableEq

/-- The module that generated code imports. -/
def runtimeModule : Text := "cdl-compiler"

def attributeType : AttributeKind → Text
  | .bool => "boolean"
  | .string => "string"
  | .int => "number"

def flagType : FlagKind → Text
  | .bool => "boolean"
  | .string => "string"

def literal : AttributeValue → Text
  | .bool true => "true"
  | .bool false => "false"
  | .string value => value.quoted
  | .int value => Text.ofInt value

/-- A name as the key of a member. -/
def key (name : Text) : Text := if name.isValidIdentifier then name else name.quoted

/-- The member of a record under a name. -/
def access (record name : Text) : Text := record ++ "[" ++ name.quoted ++ "]"

/-- A text with every end of a comment broken up. -/
def commentBody (text : Text) : Text := text.replaceAll "*/" "*\\/"

/-- The comment with a text, unless the text is empty. -/
def docLine (indent text : Text) : List Text :=
  if text = [] then [] else [indent ++ "/** " ++ commentBody text ++ " */"]

def paramsName (command : Command) : Text := command.identifier ++ "Params"

def handlerName (command : Command) : Text := "run" ++ command.identifier

/-- Where the source came from, as far as it is known. -/
def originSuffix : Option Text → Text
  | none | some [] => []
  | some name => " from " ++ name

/-- The first line of both files. -/
def header (options : Options) : Text :=
  "// Code generated by cdlc" ++ originSuffix options.sourceName ++ ". DO NOT EDIT."

end CommandLanguage.Generated
