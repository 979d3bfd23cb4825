import CommandLanguage.Text.Basic

/-!
# Failed calls

Why an argument vector names no call. The path of a failure holds the segments of the command
that had been reached.
-/

set_option autoImplicit false

namespace CommandLanguage

/-- Why an argument vector was refused. -/
inductive Failure where
  | unknownCommand (token : Text) (path : List Text)
  | ambiguousCommand (token : Text) (candidates path : List Text)
  | unknownFlag (token : Text) (path : List Text)
  | missingFlagValue (flag : Text) (path : List Text)
  | missingArgument (argument : Text) (path : List Text)
  | surplusArgument (token : Text) (path : List Text)
  deriving DecidableEq

namespace Failure

/-- The command below which a call failed, for the end of a message. -/
def whereabouts : List Text → Text
  | [] => []
  | path => " (in " ++ Text.join " " path ++ ")"

def text : Failure → Text
  | .unknownCommand token path => "unknown command: " ++ Text.join " " (path ++ [token])
  | .ambiguousCommand token candidates _ =>
    "ambiguous command: " ++ token ++ " (candidates: " ++ Text.join ", " candidates ++ ")"
  | .unknownFlag token path => "unknown flag: " ++ token ++ whereabouts path
  | .missingFlagValue flag path => "flag --" ++ flag ++ " requires a value" ++ whereabouts path
  | .missingArgument argument path => "argument " ++ argument ++ " is missing" ++ whereabouts path
  | .surplusArgument token path => "unexpected argument: " ++ token ++ whereabouts path

/-- The segments of the command that had been reached. -/
def path : Failure → List Text
  | .unknownCommand _ path | .ambiguousCommand _ _ path | .unknownFlag _ path
  | .missingFlagValue _ path | .missingArgument _ path | .surplusArgument _ path => path

end Failure

end CommandLanguage
