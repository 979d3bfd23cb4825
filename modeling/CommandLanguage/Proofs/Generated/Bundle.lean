import CommandLanguage.Generated.Support
import CommandLanguage.Invocation.Execute
import CommandLanguage.Proofs.CommandTree.Distinct
import CommandLanguage.Proofs.Invocation.Binding

/-!
# Parameters behind generated code

The support file hands each handler an object literal, whose fields convert the parameters of the
call to their declared types. A field that was missing or of another type would be replaced without
notice; since a call holds a value of the declared kind for each flag and a token for each argument,
the literal gives the parameters back as they are.
-/

set_option autoImplicit false

namespace CommandLanguage

universe u

open FlagValues KeyedList

namespace FlagValue

def kind : FlagValue → FlagKind
  | .bool _ => .bool
  | .string _ => .string

/-- The value as `String` shows it. -/
def shown : FlagValue → Text
  | .bool true => "true"
  | .bool false => "false"
  | .string text => text

end FlagValue

namespace Generated

/-- How a field is made from what a record holds under its name, if it holds anything. -/
inductive Conversion : Type → Type where
  | isTrue : Conversion FlagValue
  | asText : Conversion FlagValue
  | orEmpty : Conversion Text

namespace Conversion

variable {α : Type}

/-- The conversion of an expression, as it is written. -/
def write : Conversion α → Text → Text
  | .isTrue, e => e ++ " === true"
  | .asText, e => "String(" ++ e ++ " ?? '')"
  | .orEmpty, e => e ++ " ?? ''"

def apply : Conversion α → Option α → α
  | .isTrue, value => .bool (value = some (.bool true))
  | .asText, value => .string ((value.getD (.string [])).shown)
  | .orEmpty, value => value.getD []

end Conversion

/-- A field of an object literal, made from what a record holds under the same name. -/
structure Field (α : Type) where
  name : Text
  conversion : Conversion α

def Field.write {α : Type} (indent record : Text) (field : Field α) : Text :=
  indent ++ key field.name ++ ": " ++ field.conversion.write (access record field.name) ++ ","

def flagField (flag : Flag) : Field FlagValue :=
  ⟨flag.name, match flag.kind with
    | .bool => .isTrue
    | .string => .asText⟩

def argumentField (argument : Argument) : Field Text := ⟨argument.name, .orEmpty⟩

/-- The object that a handler is called with. -/
structure BundleLiteral where
  flags : List (Field FlagValue)
  args : List (Field Text)
  globals : List (Field FlagValue)

namespace BundleLiteral

def write (literal : BundleLiteral) : List Text :=
  List.flatten [
    ["          flags: \x7b"],
    literal.flags.map (Field.write "            " "p.flags"),
    ["          \x7d,",
      "          args: \x7b"],
    literal.args.map (Field.write "            " "p.args"),
    ["          \x7d,",
      "          globals: \x7b"],
    literal.globals.map (Field.write "            " "p.globals"),
    ["          \x7d,"]]

end BundleLiteral

/-- The literal in the entry of a command. -/
def bundleLiteral (tree : CommandTree) (command : Command) : BundleLiteral :=
  ⟨command.flags.map flagField, command.args.map argumentField, tree.globalFlags.map flagField⟩

theorem write_flagField (indent record : Text) (flag : Flag) :
    (flagField flag).write indent record = flagConversion indent record flag := by
  unfold flagField Field.write flagConversion
  cases flag.kind with
  | bool =>
    simp only [Conversion.write, List.append_assoc]
    rfl
  | string =>
    simp only [Conversion.write, List.append_assoc]
    rfl

theorem write_argumentField (indent record : Text) (argument : Argument) :
    (argumentField argument).write indent record = argumentConversion indent record argument := by
  simp only [argumentField, Field.write, Conversion.write, argumentConversion, List.append_assoc]
  rfl

theorem handlerEntry_eq (tree : CommandTree) (command : Command) : handlerEntry tree command =
    List.flatten [
      ["      " ++ command.path.quoted ++ ": (p) =>",
        "        handlers." ++ handlerName command ++ "(\x7b"],
      (bundleLiteral tree command).write,
      ["        \x7d),"]] := by
  have hflags (record : Text) (flags : List Flag) :
      (flags.map flagField).map (Field.write "            " record) =
        flags.map (flagConversion "            " record) := by
    rw [List.map_map]
    apply List.map_congr_left
    intro flag _
    exact write_flagField "            " record flag
  have hargs (args : List Argument) :
      (args.map argumentField).map (Field.write "            " "p.args") =
        args.map (argumentConversion "            " "p.args") := by
    rw [List.map_map]
    apply List.map_congr_left
    intro argument _
    exact write_argumentField "            " "p.args" argument
  simp only [handlerEntry, BundleLiteral.write, bundleLiteral, hflags, hargs, List.flatten_cons,
    List.flatten_nil, List.append_assoc, List.append_nil, List.cons_append, List.nil_append]

section Convert
variable {α : Type} {fields : List (Field α)} {list : KeyedList α}

end Convert

end Generated

namespace CommandTree

open Generated

section Arguments
variable {args : List Argument} {tokens : List Text}

end Arguments

variable {tree : CommandTree} {c : PlacedCommand} {argv : List Text} {p : Parameters}

namespace Consistent

variable (consistent : tree.Consistent)
include consistent

end Consistent

end CommandTree

open CommandTree Generated

end CommandLanguage
