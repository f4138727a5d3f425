import Respell.Path

/-!
# Storage

What compiling needs of a place where files are kept, whatever it is. Every operation names its file by
a path and either succeeds or tells why it does not.
-/

namespace Respell

/-- Why an operation on files does not succeed. -/
inductive StorageError where
  | notFound
  | alreadyExists
  | notDirectory
  | isDirectory
  | nameTooLong
  /-- The path holds a character that no name may hold. -/
  | badName
  /-- The file is no UTF-8 text. -/
  | notText
  | other (message : String)
deriving DecidableEq, Repr

/-- The wording of an error. -/
def StorageError.message : StorageError → String
  | .notFound => "No such file or directory (os error 2)"
  | .alreadyExists => "File exists (os error 17)"
  | .notDirectory => "Not a directory (os error 20)"
  | .isDirectory => "Is a directory (os error 21)"
  | .nameTooLong => "File name too long (os error 36)"
  | .badName => "file name contained an unexpected NUL byte"
  | .notText => "stream did not contain valid UTF-8"
  | .other message => message

/-- An error about a path. -/
structure Failure where
  path : Path
  error : StorageError
deriving DecidableEq, Repr

/-- The wording of a failure. -/
def Failure.message (f : Failure) : String := s!"{f.path.text}: {f.error.message}"

/-- Operations on files. -/
class Storage (m : Type → Type) where
  /-- The files under a path, each as the names that lead to it from there. The entries of a directory
      come by name, and what is in a subdirectory comes in its place. A path that names a file has that
      one file under it, with no names. -/
  walk : Path → m (Except Failure (List (List String)))
  /-- The text of a file. -/
  readText : Path → m (Except StorageError String)
  /-- Makes a directory and those it is in, as far as they are missing. -/
  createDirs : Path → m (Except StorageError Unit)
  /-- Makes a file with this text, or gives it this text. -/
  writeText : Path → String → m (Except StorageError Unit)

end Respell
