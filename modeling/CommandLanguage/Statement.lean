import CommandLanguage.CompileError

/-!
# Statements

A statement is a keyword and its operands. What the operands are depends on the keyword alone;
whether the keyword is allowed depends on the statements before it, which is not decided here.

Two operands end with the line of the keyword: the segments of a command path and the short
alias of a flag. An identifier on a later line begins the next statement.
-/

set_option autoImplicit false

namespace CommandLanguage

open TokenKind (identifier? string? equals?)

inductive Statement where
  | global
  | command (path : List Text) (description : Option Text) (line : Int)
  | flag (flag : FlagDeclaration)
  | argument (argument : Argument)
  | assignment (name : Text) (entry : AttributeEntry)
  | identity (identity : Identity)
  | exampleLine (text : Text)
  | topic (name description : Text)
  | topicBody (text : Text)
  deriving DecidableEq

namespace Statement

/-- Reads the token that comes next as the given operand, for which only some kinds are accepted. -/
def expect {α : Type} (accept : TokenKind → Option α) (operand : Operand) :
    List Token → Except CompileError (α × List Token)
  | [] => .error (.atToken (.expectedOperand operand) [])
  | token :: rest =>
    match accept token.kind with
    | some value => .ok (value, rest)
    | none => .error (.atToken (.expectedOperand operand) (token :: rest))

/-- The identifiers on the given line, up to the first other token. -/
def readPath (line : Int) : List Token → List Text × List Token
  | [] => ([], [])
  | token :: rest =>
    match token.kind with
    | .identifier name =>
      if token.line = line then
        let (path, behind) := readPath line rest
        (name :: path, behind)
      else ([], token :: rest)
    | _ => ([], token :: rest)

/-- The string that comes next, if one does. -/
def readOptionalString : List Token → Option Text × List Token
  | ⟨.string value, _⟩ :: rest => (some value, rest)
  | tokens => (none, tokens)

/-- The identifier that comes next on the given line, if one does. -/
def readShort (line : Int) : List Token → Option Text × List Token
  | [] => (none, [])
  | token :: rest =>
    match token.kind with
    | .identifier name => if token.line = line then (some name, rest) else (none, token :: rest)
    | _ => (none, token :: rest)

/-- The greatest whole number that an attribute can have, one less than the 53rd power of two. -/
def greatestInt : Nat := 9007199254740991

def readAttributeValue : List Token → Except CompileError (AttributeEntry × List Token)
  | [] => .error (.atToken .expectedAttributeValue [])
  | token :: rest =>
    let fail := Except.error (.atToken .expectedAttributeValue (token :: rest))
    match token.kind with
    | .string value => .ok (⟨.string value, token.line⟩, rest)
    | .identifier word =>
      if word = "true" then .ok (⟨.bool true, token.line⟩, rest)
      else if word = "false" then .ok (⟨.bool false, token.line⟩, rest)
      else fail
    | .number digits =>
      if digits.digitsValue ≤ greatestInt then
        .ok (⟨.int digits.digitsValue, token.line⟩, rest)
      else .error ⟨.grammatical (.invalidNumber digits), some token.line⟩
    | _ => fail

/-- Reads the operands of a keyword that stands on the given line. -/
def readOperands (line : Int) (tokens : List Token) :
    Keyword → Except CompileError (Statement × List Token)
  | .global => .ok (.global, tokens)
  | .cmd =>
    match readPath line tokens with
    | ([], behind) => .error (.atToken .expectedCommandPath behind)
    | (path, behind) =>
      let (description, rest) := readOptionalString behind
      .ok (.command path description line, rest)
  | .flag => do
    let (name, tokens) ← expect identifier? .flagName tokens
    let (kind, tokens) ← expect identifier? .flagType tokens
    let (description, tokens) ← expect string? .flagDescription tokens
    let (short, tokens) := readShort line tokens
    .ok (.flag ⟨name, short, kind, description, line⟩, tokens)
  | .arg => do
    let (name, tokens) ← expect identifier? .argName tokens
    let (kind, tokens) ← expect identifier? .argType tokens
    let (description, tokens) ← expect string? .argDescription tokens
    .ok (.argument ⟨name, kind, description⟩, tokens)
  | .attr => do
    let (name, tokens) ← expect identifier? .attributeName tokens
    let ((), tokens) ← expect equals? .equalsSign tokens
    let (entry, tokens) ← readAttributeValue tokens
    .ok (.assignment name entry, tokens)
  | .name => do
    let (name, tokens) ← expect string? .appName tokens
    let (tagline, tokens) ← expect string? .tagline tokens
    .ok (.identity ⟨name, tagline⟩, tokens)
  | .exampleLine => do
    let (text, tokens) ← expect string? .exampleLine tokens
    .ok (.exampleLine text, tokens)
  | .topic => do
    let (name, tokens) ← expect identifier? .topicName tokens
    let (description, tokens) ← expect string? .topicDescription tokens
    .ok (.topic name description, tokens)
  | .text => do
    let (text, tokens) ← expect string? .topicText tokens
    .ok (.topicBody text, tokens)

end Statement

end CommandLanguage
