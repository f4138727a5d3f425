import Respell.Token.Scan

/-!
# Quoted literals

A string or a regular expression is read from the place of its opening delimiter, character by
character up to the first closing delimiter that no backslash takes away. Whatever the delimiter's
own token took for trivia is part of the literal.
-/

namespace Respell

open Text

namespace Quoted

/-- The number of characters up to and including the first `quote` that stands after no backslash
    of its own. A backslash takes the character after it along. -/
def body? (quote : Char) : List Char → Option Nat
  | [] => none
  | '\\' :: [] => none
  | '\\' :: _ :: cs => (body? quote cs).map (· + 2)
  | c :: cs => if c = quote then some 1 else (body? quote cs).map (· + 1)

/-- The number of letters after a regular expression: its flags. Strings have none. -/
def flags (quote : Char) (cs : List Char) : Nat :=
  if quote = '/' then (cs.takeWhile Char.isAlpha).length else 0

/-- The length of the literal that begins with the delimiter at the head of the characters. -/
def length? : List Char → Option Nat
  | [] => none
  | quote :: cs => (body? quote cs).map fun n => 1 + n + flags quote (cs.drop n)

/-- The kind of a literal that opens with this character. -/
def kind (quote : Char) : Kind := if quote = '/' then .regex else .string

/-- The message for a literal that opens with this character and does not end. -/
def runaway (quote : Char) : Message := if quote = '/' then .runawayRegex else .runawayString

end Quoted

/-- Reads the literal whose delimiter `opening` begins at the place: a token of the same position, and
    the place after its trivia. A literal that does not end is a fault at its delimiter. -/
def readQuoted (opening : Token) (p : Place) : Except Fault (Token × Place) :=
  let quote := p.rest.headD '"'
  match Quoted.length? p.rest with
  | some n => .ok (takeToken p (Quoted.kind quote) n)
  | none => .error (opening.fault (Quoted.runaway quote) [])

end Respell
