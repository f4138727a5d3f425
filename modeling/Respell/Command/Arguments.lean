import Respell.Path

/-!
# Command line arguments

The arguments of the compiler are files and switches, in any order. A switch has a long name, and some
have a short one; some take a value, which is attached to the switch or follows it. Two hyphens end the
switches.

Arguments are read from left to right. A switch that asks for information takes effect when it is met;
the first argument that is not understood ends the reading.

The rules are those of `clap` 4.5 as it is derived for these switches: long names are written out in full, a
value is attached after `=` or, to a short name, directly; what begins with a hyphen is no value; no switch
stands twice; paths are not empty; and arguments that exclude each other are found at the end.
-/

namespace Respell.Command

/-- What the command line asks for. -/
structure Arguments where
  files : List Path := []
  dir : Option Path := none
  outDir : Option Path := none
  project : Option Path := none
  /-- Whether output is printed instead of written to files. -/
  toStdout : Bool := false
deriving DecidableEq, Repr

/-- The switches that take a value. -/
inductive Valued where
  | dir
  | outDir
  | project
deriving DecidableEq, Repr

/-- The switches that take no value. -/
inductive Flag where
  | stdout
  | help
  | version
deriving DecidableEq, Repr

/-- A switch. -/
inductive Switch where
  | valued (v : Valued)
  | flag (f : Flag)
deriving DecidableEq, Repr

/-- The switch with a long name. -/
def Switch.ofLong? (name : String) : Option Switch :=
  [("dir", .valued .dir), ("out-dir", .valued .outDir), ("project", .valued .project),
   ("stdout", .flag .stdout), ("help", .flag .help), ("version", .flag .version)].lookup name

/-- The switch with a short name. -/
def Switch.ofShort? : Char → Option Switch
  | 'o' => some (.valued .outDir)
  | 'p' => some (.valued .project)
  | 'h' => some (.flag .help)
  | 'V' => some (.flag .version)
  | _ => none

/-- The outcome of reading a command line. -/
inductive Request where
  | run (args : Arguments)
  | help
  | version
  /-- The arguments are not understood. -/
  | rejected
deriving DecidableEq, Repr

/-- An argument by its form. -/
inductive Form where
  /-- Two hyphens. -/
  | separator
  /-- A long name, and the value after an equals sign if there is one. -/
  | long (name : String) (value : Option String)
  /-- A short name, and what is attached to it. -/
  | short (name : Char) (attached : List Char)
  | plain (text : String)
deriving DecidableEq, Repr

/-- The form of an argument. A single hyphen is plain. -/
def Form.of (arg : String) : Form :=
  match arg.toList with
  | ['-', '-'] => .separator
  | '-' :: '-' :: cs =>
    let name := cs.takeWhile (· != '=')
    let after := cs.drop name.length
    .long (String.ofList name) (if after = [] then none else some (String.ofList after.tail))
  | '-' :: c :: cs => .short c cs
  | _ => .plain arg

/-- The value that is attached to a short name, without an equals sign in front. -/
def attachedValue? : List Char → Option String
  | [] => none
  | '=' :: cs => some (String.ofList cs)
  | cs => some (String.ofList cs)

/-- A path on the command line, which may not be empty. -/
def pathArgument? (text : String) : Option Path := if text = "" then none else some ⟨text⟩

namespace Arguments

/-- Takes note of a file. -/
def addFile? (a : Arguments) (text : String) : Option Arguments :=
  (pathArgument? text).map fun p => { a with files := a.files ++ [p] }

/-- Takes note of a switch with its value. No switch may be given twice. -/
def setValue? (a : Arguments) (v : Valued) (text : String) : Option Arguments := do
  let p ← pathArgument? text
  match v with
  | .dir => if a.dir.isSome then none else some { a with dir := some p }
  | .outDir => if a.outDir.isSome then none else some { a with outDir := some p }
  | .project => if a.project.isSome then none else some { a with project := some p }

/-- Whether some of the arguments exclude each other. -/
def conflicting (a : Arguments) : Bool :=
  (a.dir.isSome && !a.files.isEmpty) || (a.toStdout && a.outDir.isSome)

/-- The request made by arguments that have all been read. -/
def finish (a : Arguments) : Request := if a.conflicting then .rejected else .run a

end Arguments

/-- Reads arguments that are all files. -/
def readFiles (a : Arguments) : List String → Request
  | [] => a.finish
  | arg :: rest =>
    match a.addFile? arg with
    | some b => readFiles b rest
    | none => .rejected

/-! ## Reading -/

/-- What one argument leads to. -/
inductive Step where
  /-- Go on with these arguments. -/
  | more (a : Arguments)
  /-- The next argument is the value of this switch. -/
  | await (v : Valued)
  /-- Everything else is a file. -/
  | filesOnly
  | stop (r : Request)
deriving DecidableEq, Repr

/-- Goes on if the argument could be taken note of. -/
def Step.ofNoted : Option Arguments → Step
  | some a => .more a
  | none => .stop .rejected

/-- What a switch leads to. -/
def Arguments.takeFlag (a : Arguments) : Flag → Step
  | .stdout => if a.toStdout then .stop .rejected else .more { a with toStdout := true }
  | .help => .stop .help
  | .version => .stop .version

/-- What a switch with a value leads to, given the value that is attached to it. -/
def Arguments.takeValued (a : Arguments) (v : Valued) : Option String → Step
  | some text => .ofNoted (a.setValue? v text)
  | none => .await v

/-- What an argument leads to. -/
def Arguments.take (a : Arguments) (arg : String) : Step :=
  match Form.of arg with
  | .separator => .filesOnly
  | .plain text => .ofNoted (a.addFile? text)
  | .long name value =>
    match Switch.ofLong? name with
    | some (.valued v) => a.takeValued v value
    | some (.flag f) => if value.isSome then .stop .rejected else a.takeFlag f
    | none => .stop .rejected
  | .short name attached =>
    match Switch.ofShort? name with
    | some (.valued v) => a.takeValued v (attachedValue? attached)
    | some (.flag f) => a.takeFlag f
    | none => .stop .rejected

/-- Whether an argument may stand as the value of the switch before it. -/
def isValue (arg : String) : Bool := Form.of arg = .plain arg

/-- Reads arguments after those that have been read; `awaited` is a switch that still needs its
    value. -/
def readFrom : Option Valued → Arguments → List String → Request
  | none, a, [] => a.finish
  | some _, _, [] => .rejected
  | some v, a, arg :: rest =>
    if isValue arg then
      match a.setValue? v arg with
      | some b => readFrom none b rest
      | none => .rejected
    else .rejected
  | none, a, arg :: rest =>
    match a.take arg with
    | .more b => readFrom none b rest
    | .await v => readFrom (some v) a rest
    | .filesOnly => readFiles a rest
    | .stop r => r

/-- Reads a command line. -/
def readArguments (args : List String) : Request := readFrom none {} args

end Respell.Command
