import Respell.Token.Basic

/-!
# Pieces of output

The output is written piece by piece, and each piece knows what it is: a token of the source in its
place, such a token in another spelling, a lexeme that the source does not have, or text between
lexemes. Only `Piece.join` turns pieces into text.
-/

namespace Respell

/-- A piece of output. -/
inductive Piece where
  /-- A token of the source, in its place and without its trivia. -/
  | token (t : Token)
  /-- A token of the source in its place, spelt otherwise. -/
  | respelt (t : Token) (text : String)
  /-- A lexeme that does not stand at this place in the source. -/
  | added (text : String)
  /-- Blanks and comments. -/
  | gap (text : String)
deriving DecidableEq, Repr

namespace Piece

/-- The text of a piece. -/
def text : Piece → String
  | token t => t.text
  | respelt _ s => s
  | added s => s
  | gap s => s

/-- The text of pieces, one after the other. -/
def join (pieces : List Piece) : String := String.join (pieces.map text)

end Piece

/-- A token with its trivia, before the pieces that follow. -/
def Token.replay (t : Token) (tail : List Piece) : List Piece :=
  .token t :: .gap t.trailing :: tail

/-- A token that need not be there. -/
def replay? : Option Token → List Piece → List Piece
  | some t, tail => t.replay tail
  | none, tail => tail

/-- Several tokens with their trivia. -/
def replayAll (tokens : List Token) (tail : List Piece) : List Piece :=
  tokens.foldr Token.replay tail

/-- One blank. -/
def Piece.blank : Piece := .gap " "

end Respell
