import Respell.Token.Quoted

/-!
# Streams of tokens

All tokens of a text, in order. A `Discipline` fixes beforehand after which tokens a quoted literal is
read; whoever knows the grammar decides that token by token instead.
-/

namespace Respell

open Text

/-- When quoted literals are read: never, after every quotation mark, or also after every slash. -/
inductive Discipline where
  | never
  | strings
  | always
deriving DecidableEq, Repr

/-- Whether a literal is read after a token of this kind. -/
def Discipline.reads : Discipline → Kind → Bool
  | .never, _ => false
  | .strings, k => k = .punct .doubleQuote || k = .punct .singleQuote
  | .always, k => k.isQuote

/-- Reads the token at a place, and the literal it begins where the discipline asks for it. -/
def readToken (d : Discipline) (p : Place) : Except Fault (Token × Place) :=
  match scan p with
  | (.ok t, after) => if d.reads t.kind then readQuoted t p else .ok (t, after)
  | (.error f, _) => .error f

/-- The tokens from a place to the end of the text, or those before the fault that stops the reading.
    A token that takes no characters ends the stream. -/
def tokensFrom (d : Discipline) (p : Place) : List Token × Option Fault :=
  match readToken d p with
  | .error f => ([], some f)
  | .ok (t, after) =>
    if after.rest.length < p.rest.length then
      let (ts, stopped) := tokensFrom d after
      (t :: ts, stopped)
    else ([t], none)
termination_by p.rest.length

/-- The trivia before the first token, the tokens up to the end of the text, and the fault that stops
    the reading, if any. -/
def tokensOf (d : Discipline) (source : List Char) : String × List Token × Option Fault :=
  let (preamble, p) := scanTrivia (.start source)
  (preamble, tokensFrom d p)

end Respell
