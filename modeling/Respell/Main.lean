import Respell.Command.Run

/-!
# The program

Runs the command line on the files of the machine: the operations of `Storage` are carried out by the
system, the output is printed, and the report goes to the error stream.
-/

namespace Respell.Main

/-- The error that the system gives. -/
def storageError (e : IO.Error) : StorageError :=
  match e with
  | .noFileOrDirectory _ _ _ => .notFound
  | .alreadyExists _ _ _ => .alreadyExists
  | .inappropriateType _ code _ => if code = 21 then .isDirectory else .notDirectory
  | e => .other (toString e)

/-- Carries out an action, with its error as a value. -/
def attempt {α : Type} (action : IO α) : IO (Except StorageError α) := do
  match ← action.toBaseIO with
  | .ok a => return .ok a
  | .error e => return .error (storageError e)

/-- The entry for a path. -/
def entry (p : Path) : IO.FS.DirEntry := ⟨p.text, ""⟩

/-- More directories than a path can lead through. -/
def maxDepth : Nat := 4096

/-- The files under a path, by the names that lead to them from there, through at most `depth`
    directories. -/
def walkWithin (depth : Nat) (p : Path) : IO (Except Failure (List (List String))) := do
  match depth with
  | 0 => return .ok []
  | depth + 1 =>
  match ← attempt (entry p).root.symlinkMetadata with
  | .error e => return .error ⟨p, e⟩
  | .ok found =>
    match found.type with
    | .file => return .ok [[]]
    | .dir =>
      match ← attempt (entry p).root.readDir with
      | .error e => return .error ⟨p, e⟩
      | .ok entries =>
        let names := (entries.toList.map (·.fileName)).mergeSort fun a b => decide (a ≤ b)
        let mut files : List (List String) := []
        for name in names do
          match ← walkWithin depth (p.join ⟨name⟩) with
          | .error f => return .error f
          | .ok below => files := files ++ below.map (name :: ·)
        return .ok files
    | _ => return .ok []

instance : Storage IO where
  walk := walkWithin maxDepth
  readText p := do
    match ← attempt (IO.FS.readBinFile p.text) with
    | .error e => return .error e
    | .ok bytes =>
      match String.fromUTF8? bytes with
      | some text => return .ok text
      | none => return .error .notText
  createDirs p := attempt (IO.FS.createDirAll p.text)
  writeText p text := attempt (IO.FS.writeFile p.text text)

end Respell.Main

def main (args : List String) : IO UInt32 := do
  let r ← Respell.Command.run args
  IO.print r.output
  for line in r.report do
    IO.eprintln line
  return r.status.toUInt32
