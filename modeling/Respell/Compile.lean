import Respell.Helper
import Respell.Output.Pieces
import Respell.Parse.Program
import Respell.Scope.Program

/-!
# Compiling one text

A text is read, checked and written out again; the helpers it asks for are appended.
-/

namespace Respell

/-- The text of a program in plain JavaScript, without helpers. -/
def Program.output (p : Program) : String := Piece.join p.pieces

/-- The text of the helpers with these names; a name without a helper has none. -/
def helperText (names : List String) : String :=
  String.join (names.filterMap fun n => (Helper.find? n).map (·.source))

/-- A program in plain JavaScript, followed by the helpers with these names. -/
def Program.render (p : Program) (helpers : List String) : String := p.output ++ helperText helpers

/-- Reads and checks a text: its program, and the helpers that it asks for. -/
def analyze (source : String) : Except Fault (Program × List String) := do
  let p ← parseProgram source.toList
  let helpers ← p.validate
  return (p, helpers)

/-- The fault that a text is refused with, located in its file. -/
def inFile {α : Type} (file source : String) : Except Fault α → Except Diagnostic α :=
  Except.mapError (Fault.inFile file source)

/-- Compiles a text. The name of its file is used in diagnostics only. -/
def compile (file source : String) : Except Diagnostic String := do
  let (p, helpers) ← inFile file source (analyze source)
  return p.render helpers

end Respell
