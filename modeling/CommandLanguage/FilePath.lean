import CommandLanguage.Text.Basic

/-!
# File paths

A path as a user writes it is a text with slashes. `FilePath` is what it means: the names from
the root of the file system down, without empty names, `.` and `..`.
-/

set_option autoImplicit false

namespace CommandLanguage

/-- The names from the root down to a file or directory. -/
structure FilePath where
  names : List Text
  deriving DecidableEq

namespace FilePath

def root : FilePath := ⟨[]⟩

/-- The parts of a written path between slashes. -/
def parts (written : Text) : List Text := written.splitOn (unit '/')

/-- Follows one part of a written path. -/
def step (path : FilePath) (part : Text) : FilePath :=
  if part = [] ∨ part = "." then path
  else if part = ".." then ⟨path.names.dropLast⟩
  else ⟨path.names ++ [part]⟩

/-- The path that a text means in a working directory. -/
def resolve (workingDirectory : FilePath) (written : Text) : FilePath :=
  let start := if [unit '/'].isPrefixOf written then root else workingDirectory
  (parts written).foldl step start

def text (path : FilePath) : Text := unit '/' :: Text.join "/" path.names

/-- The last name of a path; the root has none. -/
def name (path : FilePath) : Text := path.names.getLast?.getD []

/-- The path of the given name in the same directory. -/
def sibling (path : FilePath) (name : Text) : FilePath := ⟨path.names.dropLast ++ [name]⟩

/-- The part of a name from its last dot on. A dot in front begins no extension. -/
def nameExtension (name : Text) : Text :=
  match name.reverse.dropWhile (· ≠ unit '.') with
  | [] | [_] => []
  | _ => if name = ".." then [] else unit '.' :: (name.reverse.takeWhile (· ≠ unit '.')).reverse

/-- The extension of the last name in a written path; slashes behind it do not count. -/
def extension (written : Text) : Text :=
  nameExtension (((parts written).filter (· ≠ [])).getLast?.getD [])

end FilePath

end CommandLanguage
