import Respell.Text.Place
import Respell.Token.Basic
import Respell.Token.Lexeme
import Respell.Token.Trivia

/-!
# Scanning one token

`scan` reads the token that begins at a place, with the trivia after it. It never skips anything
before the token, so a text is read from its `preamble` on.

A word or operator that the dialect refuses is a fault, but it has been read: the place moves past
it. Where no token begins, nothing is read.
-/

namespace Respell

open Text

/-- The trivia at a place, and the place after it. -/
def scanTrivia (p : Place) : String × Place :=
  let n := Trivia.length p.rest
  (p.text n, p.advance n)

/-- The token of kind `kind` that takes the next `n` characters, with its trivia, and the place
    after both. -/
def takeToken (p : Place) (kind : Kind) (n : Nat) : Token × Place :=
  let (trailing, after) := scanTrivia (p.advance n)
  (⟨kind, p.text n, p.pos, trailing⟩, after)

/-- The fault of a token that is refused wherever it stands. -/
def Token.refusal? (t : Token) : Option Fault :=
  match t.kind with
  | .word .this | .word .yield | .word .try | .word .catch | .word .finally =>
    some (t.fault .reservedKeyword [t.text])
  | .punct .strictEqual => some (t.fault .useInstead [Punct.equal.text, t.text])
  | .punct .strictUnequal => some (t.fault .useInstead [Punct.unequal.text, t.text])
  | _ => none

/-- The fault of a place where no token begins. -/
def invalidToken (p : Place) : Fault :=
  ⟨.invalidToken, [], ⟨p.pos, byteLength (p.rest.take 1)⟩⟩

/-- Reads the token at a place. The place returned is the one to go on from, also after a fault. -/
def scan (p : Place) : Except Fault Token × Place :=
  match Lexeme.next? p.rest with
  | none => (.error (invalidToken p), p)
  | some (kind, n) =>
    let (t, after) := takeToken p kind n
    match t.refusal? with
    | some f => (.error f, after)
    | none => (.ok t, after)

end Respell
