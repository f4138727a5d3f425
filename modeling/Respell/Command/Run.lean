import Respell.Command.Arguments
import Respell.Project.Compile
import Respell.Project.Load

/-!
# Running the command line

A run compiles the files it is given one by one, or else a whole directory. What it prints and how it
ends is a value of its own: an exit status, the output, and the lines of the report.

Exit statuses are 0 if all went well, 1 if something could not be read or written or the arguments make
no sense together, and 2 if a source is refused or the arguments are not understood. Of several files,
the highest status counts.
-/

namespace Respell.Command

/-- The end of a run. -/
structure Result where
  status : Nat
  output : String
  /-- What is reported about the run, line by line. -/
  report : List String
deriving DecidableEq, Repr

/-- All went well. -/
def statusOk : Nat := 0

/-- Something could not be read or written, or the arguments make no sense together. -/
def statusFailed : Nat := 1

/-- A source is refused, or the arguments are not understood. -/
def statusRefused : Nat := 2

/-- The output cannot be named. This ends the run at once. -/
def statusAborted : Nat := 101

/-- A line that reports an error. -/
def errorLine (message : String) : String := s!"error: {message}"

/-- A run that ends with an error. -/
def Result.failed (message : String) : Result := ⟨statusFailed, "", [errorLine message]⟩

/-- The lines that report a diagnostic. -/
def diagnosticLines (d : Diagnostic) : List String :=
  [d.display, s!"diagnostic help: {d.stage.label} {d.code}"]

/-! ## File by file -/

/-- What becomes of a file on the command line. -/
inductive FileResult where
  | printed (output : String)
  | written (target : Path)
  | unreadable (failure : Failure)
  | refused (diagnostic : Diagnostic)
  | unwritable (failure : Failure)
  /-- The output cannot be named, because its extension holds a slash. -/
  | unnamable
deriving DecidableEq, Repr

namespace FileResult

/-- The status that a file asks for. -/
def status : FileResult → Nat
  | .printed _ => statusOk
  | .written _ => statusOk
  | .unreadable _ => statusFailed
  | .refused _ => statusRefused
  | .unwritable _ => statusFailed
  | .unnamable => statusAborted

/-- What a file adds to the output. -/
def output : FileResult → String
  | .printed output => output
  | _ => ""

/-- What is reported about a file. -/
def report : FileResult → List String
  | .unreadable f => [errorLine f.cannotRead]
  | .refused d => diagnosticLines d
  | .unwritable f => [errorLine f.cannotWrite]
  | _ => []

end FileResult

/-- The end of a run over these files. -/
def Result.ofFiles (rs : List FileResult) : Result where
  status := rs.foldl (fun n r => max n r.status) statusOk
  output := String.join (rs.map (·.output))
  report := rs.flatMap (·.report)

/-- Where the output of a file goes: beside it, or into the directory that the arguments name. -/
def fileTarget? (o : Options) (outDir : Option Path) (p : Path) : Option Path := do
  let beside ← o.outputPath? p
  match outDir, beside.fileName? with
  | some dir, some name => return dir.join (.ofChars name)
  | _, _ => return beside

section

variable {m : Type → Type} [Monad m] [Storage m]

/-- Compiles one file. -/
def compileFile (a : Arguments) (o : Options) (p : Path) : m FileResult := do
  match ← Storage.readText p with
  | .error e => return .unreadable ⟨p, e⟩
  | .ok text =>
    match Engine.compile p.text text with
    | .error d => return .refused d
    | .ok output =>
      if a.toStdout then return .printed output
      else
        match fileTarget? o a.outDir p with
        | none => return .unnamable
        | some target =>
          match ← Storage.writeText target output with
          | .error e => return .unwritable ⟨target, e⟩
          | .ok () => return .written target

/-- Compiles files one after the other. Nothing follows a file whose output cannot be named. -/
def compileFiles (a : Arguments) (o : Options) : List Path → m (List FileResult)
  | [] => return []
  | p :: ps => do
    let r ← compileFile a o p
    if r = .unnamable then return [r]
    else
      let rs ← compileFiles a o ps
      return r :: rs

/-! ## Directories -/

/-- The line that counts the errors of a directory compile. -/
def foundLine (n : Nat) : String := if n = 1 then "Found 1 error." else s!"Found {n} errors."

/-- The end of a directory compile. -/
def treeResult : Except BatchError (List Path) → Result
  | .ok _ => ⟨statusOk, "", []⟩
  | .error (.refused ds) =>
    ⟨statusRefused, "", ds.flatMap diagnosticLines ++ [foundLine ds.length]⟩
  | .error .unnamable => ⟨statusAborted, "", []⟩
  | .error e => .failed e.message

/-! ## Runs -/

/-- The options of a run: those of the project file, if there is one, seen from where it is, and in
    front of them what the arguments say. -/
def Arguments.options (a : Arguments) : m (Except ProjectError Options) := do
  match a.project with
  | none => return .ok (override ({} : Settings).resolve)
  | some path =>
    let file ← ProjectFile.load path
    return file.map fun f =>
      override (f.settings.resolve.relativeTo (path.parent?.getD .empty))
where
  /-- The options with the directories that the arguments name. -/
  override (o : Options) : Options :=
    { o with rootDir := a.dir.getD o.rootDir, outDir := a.outDir.getD o.outDir }

/-- Runs what the arguments ask for. -/
def runArguments (a : Arguments) : m Result := do
  match ← a.options with
  | .error e => return .failed e.message
  | .ok o =>
    if !a.files.isEmpty then
      let rs ← compileFiles a o a.files
      return .ofFiles rs
    else if a.dir.isSome || a.project.isSome then
      if a.toStdout then return .failed "--stdout cannot be used with a directory compile"
      else
        let r ← compileProject o
        return treeResult r
    else return .failed "no input files"

/-- The name and version of the program. -/
def versionText : String := "neatc 0.1.0\n"

/-- How the program is used, line by line. -/
def helpLines : List String := [
  "Compile neat sources to JavaScript",
  "",
  "Usage: neatc [OPTIONS] [FILE]...",
  "",
  "Arguments:",
  "  [FILE]...  Source files to compile",
  "",
  "Options:",
  "      --dir <SRC>       Compile every source file under this directory",
  "  -o, --out-dir <DEST>  Write outputs here instead of next to their sources",
  "      --stdout          Print compiled files to stdout",
  "  -p, --project <FILE>  Path to a neat.json project file",
  "  -h, --help            Print help",
  "  -V, --version         Print version"]

/-- How the program is used. -/
def helpText : String := String.join (helpLines.map (· ++ "\n"))

/-- Runs a command line. -/
def run (args : List String) : m Result :=
  match readArguments args with
  | .run a => runArguments a
  | .help => return ⟨statusOk, helpText, []⟩
  | .version => return ⟨statusOk, versionText, []⟩
  | .rejected => return ⟨statusRefused, "", ["usage"]⟩

end

end Respell.Command
