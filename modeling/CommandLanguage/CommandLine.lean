import CommandLanguage.CompileFile
import CommandLanguage.Text.Distance

/-!
# The command line of the compiler

The compiler takes a source and a namespace. The first token that looks like an option makes it
and everything behind it options; the only one there is asks for help. Behind `--` every token is
an argument.
-/

set_option autoImplicit false

namespace CommandLanguage

inductive Request where
  | help
  | unknownOption (option : Text)
  | missingArgument (name : Text)
  | excessArguments (count : Nat)
  | compile (source scopeName : Text)
  deriving DecidableEq

namespace Request

/-- The arguments and the options of a command line. -/
def split : List Text → List Text × List Text
  | [] => ([], [])
  | token :: rest =>
    if token = "--" then (rest, [])
    else if isFlagShaped token then ([], token :: rest)
    else
      let (arguments, options) := split rest
      (token :: arguments, options)

def helpOptions : List Text := ["-h", "--help"]

/-- What a command line asks for. Help comes first, then an unknown option, then the number of
arguments. -/
def ofCommandLine (argv : List Text) : Request :=
  let (arguments, options) := split argv
  if options.any (helpOptions.contains ·) then .help
  else
    match options with
    | option :: _ => .unknownOption option
    | [] =>
      match arguments with
      | [] => .missingArgument "source"
      | [_] => .missingArgument "namespace"
      | [source, scopeName] => .compile source scopeName
      | _ => .excessArguments arguments.length

def helpText : Text :=
  Text.unlines [
    "Usage: cdlc [options] <source> <namespace>",
    "",
    "Compile a command definition (.cdl) into TypeScript",
    "",
    "Arguments:",
    "  source      path to the .cdl file",
    "  namespace   namespace for the generated declarations",
    "",
    "Options:",
    "  -h, --help  display help for command"]

/-- The word is close enough to another to be a misspelling of it: at most three changes, and less
than six tenths of the longer word changed. -/
def resembles (word other : Text) : Bool :=
  let longer := max word.length other.length
  let lengthDifference := longer - min word.length other.length
  lengthDifference ≤ 3 &&
    let changes := Text.distance word other
    changes ≤ 3 && 5 * changes < 3 * longer

/-- What a long option begins with. -/
def longMark : Text := "--"

/-- The line that suggests the help option for a long option close to it. -/
def suggestion (option : Text) : Text :=
  if longMark.isPrefixOf option && resembles (option.drop 2) "help" then
    "\n(Did you mean --help?)"
  else []

def run {m : Type → Type} [Monad m] (host : Host m) (workingDirectory : FilePath) :
    Request → m ExitCode
  | .help => do
    host.out helpText
    pure .success
  | .unknownOption option =>
    CompileFile.fail host .failure
      ("error: unknown option '" ++ option ++ "'" ++ suggestion option)
  | .missingArgument name =>
    CompileFile.fail host .failure ("error: missing required argument '" ++ name ++ "'")
  | .excessArguments count =>
    CompileFile.fail host .failure
      ("error: too many arguments. Expected 2 arguments but got " ++ Text.ofNat count ++ ".")
  | .compile source scopeName => compileFile host workingDirectory source scopeName

end Request

end CommandLanguage
