import CommandLanguage.Text.Basic

/-!
# Tokens

A source is a sequence of tokens, each with the line on which it begins. The sequence ends with
the end of the input or with the first place that is no token.
-/

set_option autoImplicit false

namespace CommandLanguage

/-- Why no token begins at some place of a source. -/
inductive LexicalFault where
  | unexpectedUnit (u : CodeUnit)
  | unterminatedString
  | unterminatedBlock
  deriving DecidableEq

def LexicalFault.message : LexicalFault → Text
  | .unexpectedUnit u => "unexpected character '" ++ [u] ++ "'"
  | .unterminatedString => "unterminated string"
  | .unterminatedBlock => "unterminated multiline string"

/-- What a token is, with the text it denotes. -/
inductive TokenKind where
  | identifier (name : Text)
  | string (value : Text)
  | number (digits : Text)
  | equals
  | endOfInput
  | fault (cause : LexicalFault)
  deriving DecidableEq

/-- Nothing comes after the end of the input or a fault. -/
def TokenKind.isLast : TokenKind → Bool
  | .endOfInput | .fault _ => true
  | _ => false

def TokenKind.identifier? : TokenKind → Option Text
  | .identifier name => some name
  | _ => none

def TokenKind.string? : TokenKind → Option Text
  | .string value => some value
  | _ => none

def TokenKind.equals? : TokenKind → Option Unit
  | .equals => some ()
  | _ => none

/-- The text of a token: what it denotes, or what is wrong with it. -/
def TokenKind.value : TokenKind → Text
  | .identifier name => name
  | .string value => value
  | .number digits => digits
  | .equals => "="
  | .endOfInput => []
  | .fault cause => cause.message

/-- How an error message names a token that it did not expect. -/
def TokenKind.describe : TokenKind → Text
  | .identifier name => "identifier " ++ name.inQuotes
  | .string value => "string " ++ value.inQuotes
  | .number digits => "number " ++ digits.inQuotes
  | .equals => "'='"
  | .endOfInput => "end of input"
  | .fault cause => cause.message

/-- A token and the line of its first code unit, counted from one. -/
structure Token where
  kind : TokenKind
  line : Int
  deriving DecidableEq

end CommandLanguage
