import Respell.Diagnostic.Message
import Respell.Text.Span

/-!
# Faults and diagnostics

A `Fault` is what a check finds: a message, its arguments, and the span of the text it is about.
A `Diagnostic` is a fault located in a file: the filled-in wording and the line are added.
-/

namespace Respell

open Text

/-- A message about a stretch of a source text. -/
structure Fault where
  message : Message
  args : List String
  span : Span
deriving DecidableEq, Repr

/-- A fault located in a file. -/
structure Diagnostic where
  /-- The name of the file. -/
  file : String
  span : Span
  /-- The line on which the span begins, counted from one. -/
  line : UInt32
  /-- The wording, with all arguments in place. -/
  text : String
  code : Nat
  stage : Stage
deriving DecidableEq, Repr

/-- The diagnostic of a fault in the file `file` with the text `source`. -/
def Fault.inFile (file source : String) (f : Fault) : Diagnostic where
  file := file
  span := f.span
  line := lineNumber source f.span.start
  text := fill f.message.template f.args
  code := f.message.code
  stage := f.message.stage

namespace Diagnostic

/-- The diagnostic as one line of a report. -/
def display (d : Diagnostic) : String := s!"{d.file}, line {d.line}: {d.text}"

/-- The order of reports: by file name, then by position. Ties stay in place. -/
def precedes (a b : Diagnostic) : Bool :=
  a.file < b.file || (a.file == b.file && a.span.start ≤ b.span.start)

/-- The diagnostics in the order of reports. -/
def sort (ds : List Diagnostic) : List Diagnostic := ds.mergeSort precedes

/-- All diagnostics, one to a line, in the order given. -/
def report (ds : List Diagnostic) : String := "\n".intercalate (ds.map display)

end Diagnostic

end Respell
