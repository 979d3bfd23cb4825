import CommandLanguage.Declaration
import CommandLanguage.Token

/-!
# Compile errors

A source can fail in three ways: some place of it is no token, its tokens are no sequence of
statements, or its declarations contradict each other. `CompileError` records the cause and the
line; the wording is in `message`, and `Diagnostic` is the form in which an error is reported.
-/

set_option autoImplicit false

namespace CommandLanguage

inductive Keyword where
  | global
  | cmd
  | flag
  | arg
  | attr
  | name
  | exampleLine
  | topic
  | text
  deriving DecidableEq

namespace Keyword

/-- The keyword that a word stands for; attributes have two. -/
def ofWord? (word : Text) : Option Keyword :=
  if word = "global" then some .global
  else if word = "cmd" then some .cmd
  else if word = "flag" then some .flag
  else if word = "arg" then some .arg
  else if word = "attr" then some .attr
  else if word = "param" then some .attr
  else if word = "name" then some .name
  else if word = "example" then some .exampleLine
  else if word = "topic" then some .topic
  else if word = "text" then some .text
  else none

end Keyword

/-- What a statement expects behind its keyword. -/
inductive Operand where
  | flagName
  | flagType
  | flagDescription
  | argName
  | argType
  | argDescription
  | attributeName
  | equalsSign
  | appName
  | tagline
  | exampleLine
  | topicName
  | topicDescription
  | topicText
  deriving DecidableEq

def Operand.describe : Operand → Text
  | .flagName => "flag name"
  | .flagType => "flag type"
  | .flagDescription => "flag description"
  | .argName => "arg name"
  | .argType => "arg type"
  | .argDescription => "arg description"
  | .attributeName => "attribute name"
  | .equalsSign => "'=' after attribute name"
  | .appName => "app name string"
  | .tagline => "tagline string"
  | .exampleLine => "example string"
  | .topicName => "topic name"
  | .topicDescription => "topic description"
  | .topicText => "text string"

/-- Why a token continues no sequence of statements. -/
inductive GrammarFault where
  | expectedKeyword (got : TokenKind)
  | unknownKeyword (word : Text)
  | expectedCommandPath (got : TokenKind)
  | expectedOperand (operand : Operand) (got : TokenKind)
  | expectedAttributeValue (got : TokenKind)
  | invalidNumber (digits : Text)
  | argWithoutCommand
  | exampleWithoutCommand
  | nameUnderCommand
  | nameRepeated
  | textWithoutTopic
  deriving DecidableEq

def GrammarFault.message : GrammarFault → Text
  | .expectedKeyword got => "expected keyword, got " ++ got.describe
  | .unknownKeyword word => "unknown keyword " ++ word.inQuotes
  | .expectedCommandPath got => "expected command name or path, got " ++ got.describe
  | .expectedOperand operand got => "expected " ++ operand.describe ++ ", got " ++ got.describe
  | .expectedAttributeValue got =>
    "expected bool, string or int attribute value, got " ++ got.describe
  | .invalidNumber digits => "invalid number " ++ digits.inQuotes
  | .argWithoutCommand => "'arg' must follow a 'cmd'"
  | .exampleWithoutCommand => "'example' must follow a 'cmd'"
  | .nameUnderCommand => "'name' must be under 'global'"
  | .nameRepeated => "app name already set"
  | .textWithoutTopic => "'text' must follow a 'topic'"

inductive FlagScope where
  | global
  | command (path : Text)
  deriving DecidableEq

def FlagScope.describe : FlagScope → Text
  | .global => "global scope"
  | .command path => "command " ++ path.inQuotes

/-- Why declarations make no command tree. -/
inductive ConsistencyFault where
  | missingTree
  | unsupportedKind (flag kind : Text)
  | duplicateFlag (name : Text) (scope : FlagScope)
  | duplicateShort (short : Text) (scope : FlagScope)
  | sharedIdentifier (first second identifier : Text)
  | conflictingKinds (name : Text) (first second : AttributeKind)
  | invalidNamespace (name : Text)
  deriving DecidableEq

def ConsistencyFault.message : ConsistencyFault → Text
  | .missingTree => "Invalid or null tree from parser"
  | .unsupportedKind flag kind =>
    "flag " ++ flag.inQuotes ++ " has unsupported kind " ++ kind.inQuotes
      ++ " (expected bool or string)"
  | .duplicateFlag name scope =>
    "duplicate flag " ++ Text.inQuotes ("--" ++ name) ++ " in " ++ scope.describe
  | .duplicateShort short scope =>
    "duplicate short flag " ++ Text.inQuotes ("-" ++ short) ++ " in " ++ scope.describe
  | .sharedIdentifier first second identifier =>
    "commands " ++ first.inQuotes ++ " and " ++ second.inQuotes ++ " share identifier "
      ++ identifier.inQuotes
  | .conflictingKinds name first second =>
    "attribute " ++ name.inQuotes ++ " has conflicting kinds: " ++ first.word ++ " vs "
      ++ second.word
  | .invalidNamespace name => "invalid namespace " ++ name.inQuotes

inductive CompileFault where
  | lexical (fault : LexicalFault)
  | grammatical (fault : GrammarFault)
  | semantic (fault : ConsistencyFault)
  deriving DecidableEq

/-- A fault and the line on which it was found, if it has one. -/
structure CompileError where
  fault : CompileFault
  line : Option Int
  deriving DecidableEq

inductive ErrorClass where
  | lexical
  | grammatical
  | semantic
  deriving DecidableEq

structure Diagnostic where
  errorClass : ErrorClass
  message : Text
  line : Option Int
  deriving DecidableEq

/-- The text of a reported error: the line, if there is one, comes first. -/
def Diagnostic.text (d : Diagnostic) : Text :=
  match d.line with
  | some line => "line " ++ Text.ofInt line ++ ": " ++ d.message
  | none => d.message

namespace CompileError

def diagnostic (e : CompileError) : Diagnostic :=
  match e.fault with
  | .lexical fault => ⟨.lexical, fault.message, e.line⟩
  | .grammatical fault => ⟨.grammatical, fault.message, e.line⟩
  | .semantic fault => ⟨.semantic, fault.message, e.line⟩

def text (e : CompileError) : Text := e.diagnostic.text

/-- A contradiction that was found on a line. -/
def semantic (fault : ConsistencyFault) (line : Int) : CompileError :=
  ⟨.semantic fault, some line⟩

/-- Reading stops at the first of the given tokens, which the grammar does not allow there. A
place that is no token is reported as such, whatever the grammar expected. -/
def atToken (fault : TokenKind → GrammarFault) : List Token → CompileError
  | [] => ⟨.grammatical (fault .endOfInput), none⟩
  | ⟨.fault cause, line⟩ :: _ => ⟨.lexical cause, some line⟩
  | ⟨kind, line⟩ :: _ => ⟨.grammatical (fault kind), some line⟩

end CompileError

end CommandLanguage
