import Respell.Project.File
import Respell.Storage.Basic

/-!
# Loading project files

A project file in storage is read and parsed; either may fail.
-/

namespace Respell

/-- Why a project file gives no options. -/
inductive ProjectError where
  | unreadable (failure : Failure)
  | invalid (path : Path) (flaw : Json.Flaw)
deriving DecidableEq, Repr

/-- The wording of the failure to read a file. -/
def Failure.cannotRead (f : Failure) : String := s!"cannot read '{f.path.text}': {f.error.message}"

/-- The wording of the failure to write a file. -/
def Failure.cannotWrite (f : Failure) : String := s!"cannot write '{f.path.text}': {f.error.message}"

/-- The wording of an error of a project file. -/
def ProjectError.message : ProjectError → String
  | .unreadable f => f.cannotRead
  | .invalid path _ => s!"invalid project file '{path.text}'"

/-- Reads the project file that a path names. -/
def ProjectFile.load {m : Type → Type} [Monad m] [Storage m] (path : Path) :
    m (Except ProjectError ProjectFile) := do
  match ← Storage.readText path with
  | .error e => return .error (.unreadable ⟨path, e⟩)
  | .ok text =>
    match ProjectFile.parse text with
    | .error flaw => return .error (.invalid path flaw)
    | .ok file => return .ok file

end Respell
