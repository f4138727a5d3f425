import Respell.Compile
import Respell.Engine.Check
import Respell.Engine.Parse
import Respell.Engine.Print

/-!
# Compiling with the engine

The engine reads a text with a cursor, checks its program up to the first fault, and prints it at the end of an
empty text. Files and directories are compiled by it.
-/

namespace Respell

namespace Engine

/-- The helpers of a program, if no fault is found: not in its pragmas, in the names that it declares or in its
    statements. -/
def validate (p : Program) : Except Fault (List String) := do
  verdict (p.body.flatMap Stmt.pragmaFaults)
  -- The names of pragmas are in place before those of the program, which may not declare them again.
  let env ← entered (hoistStmts true p.body) p.pragmaScope
  checkStmts env .program p.body
  return p.helpers

/-- A program in plain JavaScript, followed by the helpers with these names. -/
def render (p : Program) (helpers : List String) : String :=
  Printer.onto (do p.print; write (helperText helpers)) ""

/-- Reads and checks a text: its program, and the helpers that it asks for. -/
def analyze (source : String) : Except Fault (Program × List String) := do
  let p ← parse source.toList
  let helpers ← validate p
  return (p, helpers)

/-- Compiles a text. The name of its file is used in diagnostics only. -/
def compile (file source : String) : Except Diagnostic String := do
  let (p, helpers) ← inFile file source (analyze source)
  return render p helpers

end Engine

end Respell
