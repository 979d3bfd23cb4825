import CommandLanguage.Generated.Declarations
import CommandLanguage.Generated.Support
import CommandLanguage.Proofs.CommandTree.Attributes
import CommandLanguage.Proofs.Text.Digits
import CommandLanguage.Proofs.Text.Quoted
import Mathlib.Data.List.Forall2

/-!
# Attributes in generated code

The declarations file gives each attribute a type, and the support file gives it a literal for every
command that can be called. The two are printed apart, from the table of attributes and from the
values on a command; since values have the kinds of the table, each literal has the declared type.
-/

set_option autoImplicit false

namespace CommandLanguage

namespace Generated

/-- The text is a number in decimal digits, with a minus sign if it is negative. -/
def isNumber : Text → Bool
  | [] => false
  | u :: rest => if u = unit '-' then Text.isNumeral rest else Text.isNumeral (u :: rest)

/-- The type that TypeScript gives a literal. -/
def literalType? (text : Text) : Option Text :=
  if text = "true" ∨ text = "false" then some "boolean"
  else if (Text.readLiteral text).any (·.2.isEmpty) then some "string"
  else if isNumber text then some "number"
  else none

/-- A member is written with a literal of the type that is declared for its key. -/
def Fulfils (declared written : Text) : Prop :=
  ∃ name type literal : Text, declared = "    " ++ key name ++ ": " ++ type ++ ";" ∧
    written = "    " ++ key name ++ ": " ++ literal ++ "," ∧ literalType? literal = some type

theorem isNumber_ofNat (n : Nat) : isNumber (Text.ofNat n) = true := by
  have numeral := Text.isNumeral_ofNat n
  have digits := Text.isDigit_of_mem_ofNat n
  cases hn : Text.ofNat n with
  | nil =>
    rw [hn] at numeral
    cases numeral
  | cons u rest =>
    rw [hn] at numeral digits
    have unsigned : u ≠ unit '-' := by
      rintro rfl
      exact absurd (digits _ List.mem_cons_self) (by decide)
    rw [isNumber, if_neg unsigned]
    exact numeral

theorem isNumber_ofInt (value : Int) : isNumber (Text.ofInt value) = true := by
  cases value with
  | ofNat n => exact isNumber_ofNat n
  | negSucc n =>
    change isNumber (unit '-' :: Text.ofNat (n + 1)) = true
    rw [isNumber, if_pos rfl]
    exact Text.isNumeral_ofNat (n + 1)

theorem literalType?_quoted (value : Text) : literalType? value.quoted = some "string" := by
  have whole : Text.readLiteral value.quoted = some (value, []) := by
    rw [← Text.readLiteral_quoted value [], List.append_nil]
  have neither : ¬ (value.quoted = "true" ∨ value.quoted = "false") := by
    have first : value.quoted.head? = some (unit '"') := rfl
    rintro (h | h)
    · rw [h] at first
      exact absurd first (by decide)
    · rw [h] at first
      exact absurd first (by decide)
  rw [literalType?, if_neg neither, whole]
  rfl

theorem literalType?_number {text : Text} (h : isNumber text = true) :
    literalType? text = some "number" := by
  cases text with
  | nil => cases h
  | cons u rest =>
    have apart (v : CodeUnit) (sign : v ≠ unit '-') (digit : Text.isDigit v = false) : u ≠ v := by
      rintro rfl
      rw [isNumber, if_neg sign, Text.isNumeral, digit, Bool.false_and, Bool.false_and] at h
      cases h
    have neither : ¬ (u :: rest = ("true" : Text) ∨ u :: rest = ("false" : Text)) := by
      rintro (he | he)
      · exact apart (unit 't') (by decide) (by decide) (List.cons.inj he).1
      · exact apart (unit 'f') (by decide) (by decide) (List.cons.inj he).1
    have unquoted : Text.readLiteral (u :: rest) = none :=
      if_neg (apart (unit '"') (by decide) (by decide))
    rw [literalType?, if_neg neither, unquoted]
    exact if_pos h

/-- The literal of a value has the type of the kind of the value. -/
theorem literalType?_literal (value : AttributeValue) :
    literalType? (literal value) = some (attributeType value.kind) := by
  cases value with
  | bool value => cases value <;> decide
  | string value => exact literalType?_quoted value
  | int value => exact literalType?_number (isNumber_ofInt value)

end Generated

open CommandTree Generated

/-- The table of attributes lists every name that is set once, in the strict order of names. The value
of a row on a command is what the source assigned last to the command, else what it assigned last
globally, else the zero value, and it always has the kind of the row. So each literal in the generated
attributes of a command has the type that is declared for its key. -/
theorem attributes_are_sound {source : Text} {tree : CommandTree} (h : compile source = .ok tree) :
    (∀ name, name ∈ tree.attributeTable.map (·.name) ↔
      name ∈ KeyedList.names tree.globalAttributes ∨
        ∃ c ∈ tree.commands, name ∈ KeyedList.names c.attributes) ∧
    (tree.attributeTable.map (·.name)).Nodup ∧
    (tree.attributeTable.map (·.name)).Pairwise (· < ·) ∧
    (∀ d ∈ tree.attributeTable, ∀ command, (tree.attributeValue command d).kind = d.kind) ∧
    (∃ statements, Written .empty (scan source).dropLast statements) ∧
    (∀ statements, Written .empty (scan source).dropLast statements → ∀ d ∈ tree.attributeTable,
      tree.attributeValue none d =
        (Statement.lastAssigned [] d.name statements).getD d.kind.zero ∧
      ∀ id c, tree.commands[id]? = some c → tree.attributeValue (some id) d =
        ((Statement.lastAssigned c.segments d.name statements).or
          (Statement.lastAssigned [] d.name statements)).getD d.kind.zero) ∧
    ∃ declared : List Text,
      attributesInterface tree =
        (["  export interface Attributes \x7b"] : List Text) ++ declared ++
          (["  \x7d", ""] : List Text) ∧
      ∀ c ∈ tree.leafCommands, ∃ written : List Text,
        attributeRow tree c =
          (["  " ++ c.path.quoted ++ ": \x7b"] : List Text) ++ written ++
            (["  \x7d,"] : List Text) ∧
        List.Forall₂ Fulfils declared written := by
  obtain ⟨_, hp, _⟩ := Statement.exists_of_bind_eq_ok h
  refine ⟨fun _ => mem_attributeTable_names h, nodup_attributeTable_of_compile h,
    pairwise_attributeTable h, fun _ hd command => kind_attributeValue h hd command,
    DeclarationTree.exists_written_of_parse hp, ?_, ?_⟩
  · intro statements written d _
    refine ⟨congrArg (·.getD d.kind.zero) (get?_globalAttributes h written), ?_⟩
    intro id c hc
    rw [attributeValue, attribute?_of_command hc, get?_attributes h written hc,
      get?_globalAttributes h written]
  · refine ⟨_, rfl, fun c _ => ⟨_, rfl, ?_⟩⟩
    rw [List.forall₂_map_left_iff, List.forall₂_map_right_iff]
    apply List.forall₂_same.mpr
    intro d hd
    refine ⟨d.name, attributeType d.kind, _, rfl, rfl, ?_⟩
    rw [literalType?_literal, kind_attributeValue h hd]

/-- The command `a` is entered, left for `b` and entered again. -/
def reopeningSource : Text :=
  Text.unlines
    ["global attr n = 7 cmd a", "attr n = 2 cmd b", "attr s = \"x\" cmd a", "attr n = 3"]

/-- A command keeps its last value when it is entered again, and a name that only another command sets
has the zero value. -/
theorem last_value_of_reopened_command :
    ∃ tree, compile reopeningSource = .ok tree ∧
      tree.attributeTable = [⟨"n", .int⟩, ⟨"s", .string⟩] ∧
      (tree.attributeTable.map (·.name)).Pairwise (· < ·) ∧
      tree.attributeValue (some 0) ⟨"n", .int⟩ = .int 3 ∧
      tree.attributeValue (some 0) ⟨"s", .string⟩ = .string [] ∧
      ∃ statements, Written .empty (scan reopeningSource).dropLast statements ∧
        ((Statement.lastAssigned ["a"] "n" statements).or
          (Statement.lastAssigned [] "n" statements)).getD (.int 0) = .int 3 := by
  let declared : DeclarationTree :=
    { DeclarationTree.empty with
      globalAttributes := [("n", ⟨.int 7, 1⟩)]
      commands := [
        { DeclarationTree.bareCommand 0 none "a" 1 with attributes := [("n", ⟨.int 3, 4⟩)] },
        { DeclarationTree.bareCommand 1 none "b" 2 with attributes := [("s", ⟨.string "x", 3⟩)] }]
      roots := [0, 1] }
  let tree : CommandTree :=
    { app := none
      declaredFlags := []
      globalAttributes := [("n", .int 7)]
      commands := [
        { id := 0, name := "a", segments := ["a"], description := [], flags := [], args := []
          examples := [], attributes := [("n", .int 3)], children := [], parent := none },
        { id := 1, name := "b", segments := ["b"], description := [], flags := [], args := []
          examples := [], attributes := [("s", .string "x")], children := [], parent := none }]
      roots := [0, 1]
      topics := []
      attributeTable := [⟨"n", .int⟩, ⟨"s", .string⟩] }
  have parsed : parse reopeningSource = .ok declared := by decide +kernel
  have noted : (attributeScopes declared).foldlM noteKinds [] =
      .ok [("n", .int), ("s", .string)] := by decide +kernel
  have kinds : collectKinds declared = .ok tree.attributeTable := by
    rw [collectKinds, noted]
    exact congrArg Except.ok (List.mergeSort_of_pairwise (by decide +kernel))
  have h : compile reopeningSource = .ok tree := by
    rw [compile, parsed]
    change resolve declared = .ok tree
    rw [resolve, kinds]
    decide +kernel
  obtain ⟨_, _, ascending, _, ⟨statements, written⟩, values, _⟩ := attributes_are_sound h
  have value := (values statements written ⟨"n", .int⟩ List.mem_cons_self).2 0 _ rfl
  exact ⟨tree, h, rfl, ascending, rfl, rfl, statements, written, value.symm⟩

end CommandLanguage
