import Respell.Text.Identifier
import Respell.Token.Kind

/-!
# Lexemes

What a token itself may look like. `Lexeme.next?` recognises the token that begins at the characters
at hand and answers with its kind and its number of characters. Quoted literals are not read here:
their opening delimiter is a token of its own until someone asks for the literal.
-/

namespace Respell.Lexeme

open Text

/-- The length of the run of digits that begins here. -/
def digits (cs : List Char) : Nat := (cs.takeWhile Char.isDigit).length

/-- The length of a number: digits, then possibly a point with at least one more digit. -/
def number (cs : List Char) : Nat :=
  let whole := digits cs
  match cs.drop whole with
  | '.' :: fraction => if 0 < digits fraction then whole + 1 + digits fraction else whole
  | _ => whole

/-- The first punctuation mark of the list that begins here. -/
def mark? (cs : List Char) : Option (Kind × Nat) :=
  (Punct.all.find? fun p => p.chars.isPrefixOf cs).map fun p => (.punct p, p.chars.length)

/-- A reserved word, if the whole run of word characters here is one; otherwise an identifier. -/
def word? [IdentifierClass] (cs : List Char) : Option (Kind × Nat) :=
  let run := cs.takeWhile isWordChar
  match Word.ofText? (String.ofList run) with
  | some w => some (.word w, run.length)
  | none =>
    match cs with
    | [] => none
    | c :: rest =>
      if isIdentifierStart c then
        some (.identifier, 1 + (rest.takeWhile isIdentifierPart).length)
      else none

/-- The characters of `#include`. -/
def includeChars : List Char := ['#', 'i', 'n', 'c', 'l', 'u', 'd', 'e']

/-- The characters of `#declare`. -/
def declareChars : List Char := ['#', 'd', 'e', 'c', 'l', 'a', 'r', 'e']

/-- Whether `text` stands here and no word character follows it. -/
def isWhole (text cs : List Char) : Bool :=
  text.isPrefixOf cs && !((cs.drop text.length).head?.any isWordChar)

/-- A pragma word that is not the beginning of a longer one. -/
def pragma? (cs : List Char) : Option (Kind × Nat) :=
  if isWhole includeChars cs then some (.includePragma, includeChars.length)
  else if isWhole declareChars cs then some (.declarePragma, declareChars.length)
  else none

/-- The lexeme that begins here, with its number of characters; none if no token can begin here. -/
def next? [IdentifierClass] (cs : List Char) : Option (Kind × Nat) :=
  match cs with
  | [] => some (.endOfFile, 0)
  | c :: _ =>
    if c.isDigit then some (.number, number cs)
    else (mark? cs).or ((word? cs).or (pragma? cs))

end Respell.Lexeme
