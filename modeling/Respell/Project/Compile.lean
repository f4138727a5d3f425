import Respell.Engine.Compile
import Respell.Project.Options
import Respell.Storage.Basic

/-!
# Compiling directories

All sources under a directory are compiled, and each output goes to the same place under another
directory. A source that is refused does not keep the others from being written.
-/

namespace Respell

/-- A source file under the directory that is compiled. -/
structure Source where
  path : Path
  /-- The path from the directory that is compiled. -/
  relative : Path
deriving DecidableEq, Repr

/-- The file that these names lead to from a directory. -/
def Source.ofNames (dir : Path) (names : List String) : Source where
  path := names.foldl (fun p n => p.join ⟨n⟩) dir
  relative := ⟨"/".intercalate names⟩

/-- What becomes of a source that is read: its output is written, or the source is refused. -/
inductive Outcome where
  | written (target : Path)
  | refused (diagnostic : Diagnostic)
deriving DecidableEq, Repr

/-- Why not all sources of a directory are compiled. -/
inductive BatchError where
  /-- A file could not be read or written. -/
  | io (failure : Failure)
  /-- The directory could not be searched. -/
  | walk (failure : Failure)
  /-- The output cannot be named, because its extension holds a slash. -/
  | unnamable
  /-- Sources were refused. -/
  | refused (diagnostics : List Diagnostic)
deriving DecidableEq, Repr

/-- The wording of an error. -/
def BatchError.message : BatchError → String
  | .io f => f.message
  | .walk f => s!"IO error for operation on {f.message}"
  | .unnamable => "extension cannot contain path separators"
  | .refused ds => Diagnostic.report ds

/-- Where the output of a source goes. -/
def Options.target? (o : Options) (dest : Path) (s : Source) : Option Path :=
  o.outputPath? (dest.join s.relative)

/-- The targets of those sources that were written, in order. -/
def writtenTargets (outcomes : List Outcome) : List Path :=
  outcomes.filterMap fun
    | .written target => some target
    | .refused _ => none

/-- The diagnostics of those sources that were refused, in order. -/
def refusals (outcomes : List Outcome) : List Diagnostic :=
  outcomes.filterMap fun
    | .written _ => none
    | .refused d => some d

/-- The result of all sources together: the targets, or the diagnostics in the order of reports. -/
def summarize (outcomes : List Outcome) : Except BatchError (List Path) :=
  if refusals outcomes = [] then .ok (writtenTargets outcomes)
  else .error (.refused (Diagnostic.sort (refusals outcomes)))

section

variable {m : Type → Type} [Monad m] [Storage m]

/-- The sources under a directory. -/
def discover (o : Options) (dir : Path) : m (Except Failure (List Source)) := do
  let found ← Storage.walk dir
  return found.map fun names => (names.map (Source.ofNames dir)).filter fun s => o.isSource s.path

/-- Writes an output, and makes the directory it goes to if there is none. -/
def place (target : Path) (text : String) : m (Except Failure Unit) := do
  match ← makeParent with
  | .error f => return .error f
  | .ok () =>
    match ← Storage.writeText target text with
    | .error e => return .error ⟨target, e⟩
    | .ok () => return .ok ()
where
  /-- Makes the directory that the output goes to. -/
  makeParent : m (Except Failure Unit) :=
    match target.parent? with
    | none => return .ok ()
    | some dir => do
      let made ← Storage.createDirs dir
      return made.mapError (⟨dir, ·⟩)

/-- Compiles one source to its place under `dest`. -/
def compileSource (o : Options) (dest : Path) (s : Source) : m (Except BatchError Outcome) := do
  match ← Storage.readText s.path with
  | .error e => return .error (.io ⟨s.path, e⟩)
  | .ok text =>
    match Engine.compile s.path.text text with
    | .error d => return .ok (.refused d)
    | .ok output =>
      match o.target? dest s with
      | none => return .error .unnamable
      | some target =>
        let placed ← place target output
        return (placed.map fun _ => .written target).mapError .io

/-- Compiles sources one after the other, up to the first that cannot be read or written. -/
def compileSources (o : Options) (dest : Path) : List Source → m (Except BatchError (List Outcome))
  | [] => return .ok []
  | s :: rest => do
    match ← compileSource o dest s with
    | .error e => return .error e
    | .ok outcome =>
      let others ← compileSources o dest rest
      return others.map (outcome :: ·)

/-- Compiles all sources under a directory to the same places under `dest`: the targets in the order
    of the search. -/
def compileDir (o : Options) (dir dest : Path) : m (Except BatchError (List Path)) := do
  match ← discover o dir with
  | .error f => return .error (.walk f)
  | .ok sources =>
    let outcomes ← compileSources o dest sources
    return outcomes.bind summarize

/-- Compiles the directory that the options name. -/
def compileProject (o : Options) : m (Except BatchError (List Path)) := compileDir o o.rootDir o.outDir

end

end Respell
