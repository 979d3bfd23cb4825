import CommandLanguage.CommandLine

/-!
# The compiler as a program

The only module that touches real files and the console.
-/

set_option autoImplicit false

namespace CommandLanguage

/-- The error number of an operation that a directory does not allow. -/
def directoryErrorNumber : UInt32 := 21

/-- The error under which a failed file operation is reported. -/
def FileError.ofException (path : FilePath) (onDirectory : FileError) : IO.Error → FileError
  | .noFileOrDirectory .. => .opening .missing path
  | .permissionDenied .. => .opening .notPermitted path
  | .invalidArgument .. => .opening .nameTooLong path
  | .inappropriateType _ number _ =>
    if number = directoryErrorNumber then onDirectory else .opening .notDirectory path
  | e => .other (Text.ofString (ToString.toString e))

/-- Runs a file operation and turns its exception into a value. -/
def catchFileError {α : Type} (path : FilePath) (onDirectory : FileError) (action : IO α) :
    IO (Except FileError α) := do
  try
    return .ok (← action)
  catch e =>
    return .error (.ofException path onDirectory e)

/-- The real file system and the console. -/
def realHost : Host IO where
  read path := catchFileError path .readingDirectory do
    return (← IO.FS.readBinFile path.text.toString).toList
  write path bytes := catchFileError path (.opening .isDirectory path) do
    IO.FS.writeBinFile path.text.toString (ByteArray.mk bytes.toArray)
  out line := IO.println line.toString
  err line := IO.eprintln line.toString

end CommandLanguage

open CommandLanguage in
/-- Compiles the definition named on the command line. -/
def main (args : List String) : IO UInt32 := do
  let directory := (← IO.currentDir).toString
  let workingDirectory := FilePath.resolve .root (Text.ofString directory)
  let code ← (Request.ofCommandLine (args.map Text.ofString)).run realHost workingDirectory
  return UInt32.ofNat code.toNat
