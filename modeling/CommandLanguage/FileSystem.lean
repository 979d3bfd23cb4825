import CommandLanguage.FilePath
import CommandLanguage.KeyedList
import CommandLanguage.Text.Displayed
import CommandLanguage.Text.Utf8

/-!
# File systems

A file system is a tree of directories and files without links, all of which may be read and
written. Reading and writing a file can fail; the error says why.
-/

set_option autoImplicit false

namespace CommandLanguage

inductive OpenFault where
  | missing
  | notDirectory
  | isDirectory
  | nameTooLong
  | notPermitted
  deriving DecidableEq

/-- The code and the wording of a fault. -/
def OpenFault.text : OpenFault → Text
  | .missing => "ENOENT: no such file or directory"
  | .notDirectory => "ENOTDIR: not a directory"
  | .isDirectory => "EISDIR: illegal operation on a directory"
  | .nameTooLong => "ENAMETOOLONG: name too long"
  | .notPermitted => "EACCES: permission denied"

/-- Why a file cannot be read or written. -/
inductive FileError where
  /-- The path holds U+0000, which no file system can look up. -/
  | nullInPath (path : FilePath)
  | opening (fault : OpenFault) (path : FilePath)
  | readingDirectory
  | other (text : Text)
  deriving DecidableEq

def FileError.text : FileError → Text
  | .nullInPath path =>
    "The argument 'path' must be a string, Uint8Array, or URL without null bytes. Received " ++
      path.text.displayed
  | .opening fault path => fault.text ++ ", open '" ++ path.text ++ "'"
  | .readingDirectory => OpenFault.text .isDirectory ++ ", read"
  | .other text => text

inductive FileEntry where
  | directory
  | file (bytes : List UInt8)
  deriving DecidableEq

/-- Files and directories by the text of their paths. -/
structure FileSystem where
  entries : KeyedList FileEntry
  deriving DecidableEq

namespace FileSystem

/-- What stands at a path, if anything does; at the root there is always a directory. -/
def entry? (files : FileSystem) (path : FilePath) : Option FileEntry :=
  if path.names = [] then some .directory else KeyedList.get? files.entries path.text

/-- Puts a file or a directory at a path. -/
def put (files : FileSystem) (path : FilePath) (entry : FileEntry) : FileSystem :=
  ⟨KeyedList.assign files.entries path.text entry⟩

/-- The greatest length of a name, in bytes. -/
def longestName : Nat := 255

/-- The length, in bytes, from which on a path cannot be opened. -/
def pathLimit : Nat := 4096

/-- Follows names down from a directory: what stands at the end of them, if all but the last are
directories. -/
def follow (files : FileSystem) (directory : FilePath) :
    List Text → Except OpenFault (Option FileEntry)
  | [] => .ok (files.entry? directory)
  | name :: rest =>
    if longestName < name.toUtf8.length then .error .nameTooLong
    else
      let path : FilePath := ⟨directory.names ++ [name]⟩
      match files.entry? path with
      | some .directory => follow files path rest
      | some (.file bytes) => if rest.isEmpty then .ok (some (.file bytes)) else .error .notDirectory
      | none => if rest.isEmpty then .ok none else .error .missing

/-- What stands at a path, if it can be opened. The text of the path is judged before its names are
followed. -/
def openEntry (files : FileSystem) (path : FilePath) : Except FileError (Option FileEntry) :=
  if path.text.contains 0 then .error (.nullInPath path)
  else if pathLimit ≤ path.text.toUtf8.length then .error (.opening .nameTooLong path)
  else (files.follow .root path.names).mapError (.opening · path)

def read (files : FileSystem) (path : FilePath) : Except FileError (List UInt8) := do
  match ← files.openEntry path with
  | none => .error (.opening .missing path)
  | some .directory => .error .readingDirectory
  | some (.file bytes) => .ok bytes

/-- The file system after bytes were written to a file, which is made if there is none. -/
def write (files : FileSystem) (path : FilePath) (bytes : List UInt8) :
    Except FileError FileSystem := do
  match ← files.openEntry path with
  | some .directory => .error (.opening .isDirectory path)
  | _ => .ok (files.put path (.file bytes))

end FileSystem

end CommandLanguage
