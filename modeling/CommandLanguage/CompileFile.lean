import CommandLanguage.Compile
import CommandLanguage.FileSystem
import CommandLanguage.Generated.Files

/-!
# Compiling a file

`compileFile` reads a definition, compiles it and writes the two generated files beside it. It
touches files and prints lines only through a `Host`, so the same steps run on a real file system
and on a `Session`, which holds the files and the printed lines as values.
-/

set_option autoImplicit false

namespace CommandLanguage

/-- What compiling a file may do to its surroundings. -/
structure Host (m : Type → Type) where
  read : FilePath → m (Except FileError (List UInt8))
  write : FilePath → List UInt8 → m (Except FileError Unit)
  out : Text → m Unit
  err : Text → m Unit

inductive ExitCode where
  | success
  | failure
  | misuse
  deriving DecidableEq

def ExitCode.toNat : ExitCode → Nat
  | .success => 0
  | .failure => 1
  | .misuse => 2

namespace CompileFile

def sourceExtension : Text := ".cdl"

/-- The name of a definition without its extension. -/
def baseName (path : FilePath) : Text :=
  path.name.take (path.name.length - sourceExtension.length)

/-- The options for the definition at a path. -/
def options (path : FilePath) (scopeName definition : Text) : Generated.Options :=
  { scopeName
    baseName := baseName path
    definition
    sourceName := some path.name }

/-- The paths and texts of the generated files, in the order of writing. -/
def outputs (path : FilePath) (files : Generated.Files) : List (FilePath × Text) :=
  [(path.sibling (baseName path ++ ".ts"), files.declarations),
    (path.sibling (baseName path ++ ".support.ts"), files.support)]

section Steps

variable {m : Type → Type} [Monad m] (host : Host m)

/-- Reports an error and ends the run. -/
def fail (code : ExitCode) (text : Text) : m ExitCode := do
  host.err text
  pure code

/-- Writes files in order, up to the first that cannot be written. -/
def writeAll : List (FilePath × Text) → m ExitCode
  | [] => pure .success
  | (path, text) :: rest => do
    match ← host.write path text.toUtf8 with
    | .error e => fail host .failure ("write " ++ path.text ++ ": " ++ e.text)
    | .ok () => do
      host.out ("Writing " ++ path.text)
      writeAll rest

/-- Compiles a definition that was read and writes the generated files. -/
def compileText (path : FilePath) (written scopeName definition : Text) : m ExitCode :=
  match compile definition with
  | .error e => fail host .failure ("parse " ++ written ++ ": " ++ e.text)
  | .ok tree =>
    if scopeName.isValidIdentifier then
      match Generated.emit tree (options path scopeName definition) with
      | .error e => fail host .failure ("generate: " ++ e.text)
      | .ok files => writeAll host (outputs path files)
    else fail host .failure ("invalid namespace " ++ scopeName.inQuotes)

end Steps

end CompileFile

open CompileFile in
/-- Compiles the definition at a written path into the given namespace. -/
def compileFile {m : Type → Type} [Monad m] (host : Host m) (workingDirectory : FilePath)
    (written scopeName : Text) : m ExitCode :=
  if FilePath.extension written = sourceExtension then do
    let path := FilePath.resolve workingDirectory written
    host.out ("Processing " ++ path.text)
    match ← host.read path with
    | .error e => fail host .failure ("read " ++ written ++ ": " ++ e.text)
    | .ok bytes => compileText host path written scopeName (Text.ofUtf8 bytes)
  else fail host .misuse ("input must be a .cdl file: " ++ written)

/-- Files and printed lines as values. -/
structure Session where
  files : FileSystem
  out : List Text
  err : List Text
  deriving DecidableEq

namespace Session

def start (files : FileSystem) : Session := ⟨files, [], []⟩

/-- Acts on the files and collects the lines of a session. -/
def host : Host (StateM Session) where
  read path := do return (← get).files.read path
  write path bytes := do
    match (← get).files.write path bytes with
    | .error e => return .error e
    | .ok files =>
      modify fun session => { session with files }
      return .ok ()
  out line := modify fun session => { session with out := session.out ++ [line] }
  err line := modify fun session => { session with err := session.err ++ [line] }

end Session

end CommandLanguage
