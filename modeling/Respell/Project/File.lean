import Respell.Json.Record
import Respell.Project.Options

/-!
# Project files

A project file is JSON text that holds the options of a project. It is a record with the one key
`compilerOptions`, whose value is the record of the options.
-/

namespace Respell

/-- What a project file holds: the options, if it writes any. -/
structure ProjectFile where
  options? : Option Settings
deriving DecidableEq, Repr

namespace ProjectFile

/-- The keys of the options. -/
def optionKeys : List String := ["rootDir", "outDir", "extension", "outExtension"]

/-- Reads the options. -/
def readSettings : Json.Reader Settings := fun cs => do
  let (fields, rest) ← Json.record optionKeys (Json.optional Json.string) cs
  let get (key : String) : Option String := (fields.lookup key).join
  return (⟨get "rootDir", get "outDir", get "extension", get "outExtension"⟩, rest)

/-- Reads what a project file holds. -/
def read : Json.Reader ProjectFile := fun cs => do
  let (fields, rest) ← Json.record ["compilerOptions"] (Json.optional readSettings) cs
  return (⟨(fields.lookup "compilerOptions").join⟩, rest)

/-- Reads the text of a project file. -/
def parse (text : String) : Except Json.Flaw ProjectFile := Json.whole read text.toList

/-- The options that a project file writes; those it does not write are left out. -/
def settings (f : ProjectFile) : Settings := f.options?.getD {}

end ProjectFile

end Respell
