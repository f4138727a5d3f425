import Respell.Parse.Stmt

/-!
# Reading programs

A statement takes one nesting level, and so does every expression that is read for its own sake: an
operand, an argument, an element, a test. The parsers of a level are built from those of the level
inside it, and the innermost level refuses everything.
-/

namespace Respell

open Text

namespace Parser

variable {σ : Type} [Scanner σ]

/-- Refuses whatever stands here because it is nested too deeply. -/
def tooDeep {α : Type} : ParserOf σ α := do
  let t ← peek
  throw (t.fault .nestedTooDeeply [])

/-- The parsers that have `n` nesting levels left. -/
def level : Nat → InnerOf σ
  | 0 => ⟨tooDeep, fun _ _ => tooDeep⟩
  | n + 1 => ⟨statement (level n), expression (level n)⟩

/-- The statements and the end of a program. -/
def program (limit : Nat) (preamble : String) : ParserOf σ Program := do
  let body ← many (fun k => k = .endOfFile) (level limit).statement
  let endOfFile ← expect .endOfFile
  return ⟨preamble, body, endOfFile⟩

end Parser

/-- The program with this text, if it is one and nests no deeper than `limit` levels. -/
def parseProgramWithin (limit : Nat) (source : List Char) : Except Fault Program :=
  let (preamble, p) := scanTrivia (.start source)
  (Parser.program limit preamble p).map Prod.fst

/-- How deeply statements and expressions may nest. -/
def maxNesting : Nat := 40

/-- The program with this text. -/
def parseProgram (source : List Char) : Except Fault Program :=
  parseProgramWithin maxNesting source

end Respell
