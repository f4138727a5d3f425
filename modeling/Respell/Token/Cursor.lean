import Respell.Token.Quoted

/-!
# Cursors

A `Cursor` walks over the tokens of one text and may hold one token that was looked at and not yet
taken. Every operation answers with its result and the cursor to go on with; after a fault that is
the cursor as the fault left it.
-/

namespace Respell

open Text

/-- A place in a text, and a token already read from it and not yet taken. -/
structure Cursor where
  /-- The whole text. -/
  source : List Char
  /-- The place to scan from next. -/
  place : Place
  /-- The token that was looked at; it ends where `place` is. -/
  held : Option Token
deriving DecidableEq

namespace Cursor

/-- The cursor at the beginning of a text. -/
def start (source : List Char) : Cursor := ⟨source, .start source, none⟩

/-- Reads the trivia before the first token. -/
def preamble (c : Cursor) : String × Cursor :=
  let (text, after) := scanTrivia c.place
  (text, { c with place := after })

/-- Takes the next token. -/
def next (c : Cursor) : Except Fault Token × Cursor :=
  match c.held with
  | some t => (.ok t, { c with held := none })
  | none =>
    let (result, after) := scan c.place
    (result, { c with place := after })

/-- Looks at the next token and holds it. -/
def peek (c : Cursor) : Except Fault Token × Cursor :=
  match c.held with
  | some t => (.ok t, c)
  | none =>
    match scan c.place with
    | (.ok t, after) => (.ok t, { c with place := after, held := some t })
    | (.error f, after) => (.error f, { c with place := after })

/-- Reads the literal that the token `opening` begins. The cursor goes back to the position of that token
    first; if the literal does not end, it stays where it was. -/
def quoted (opening : Token) (c : Cursor) : Except Fault Token × Cursor :=
  match readQuoted opening (.ofOffset c.source opening.pos) with
  | .ok (t, after) => (.ok t, { c with place := after })
  | .error f => (.error f, c)

/-- The results of taking `n` tokens, which the cursor itself does not move for. -/
def look : Nat → Cursor → List (Except Fault Token)
  | 0, _ => []
  | n + 1, c => c.next.1 :: look n c.next.2

end Cursor

end Respell
