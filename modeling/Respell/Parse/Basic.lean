import Respell.Token.Quoted
import Respell.Tree.Separated

/-!
# Parsers

A parser reads tokens from a scanner and leaves the scanner after them, or stops with the first fault.

What a parser needs of a scanner is a `Scanner`. There are two of them. A `Place` is a scanner that scans
anew whenever it is asked; all that is proved about parsers is proved for places. A cursor holds the token
that was looked at; it is the scanner that texts are compiled with.
-/

namespace Respell

open Text

/-- Where tokens are taken from, one after the other. -/
class Scanner (σ : Type) where
  /-- Takes the next token. -/
  next : σ → Except Fault (Token × σ)
  /-- Looks at the next token without taking it. -/
  peek : σ → Except Fault (Token × σ)
  /-- Takes the quoted literal that the next token begins. -/
  quoted : σ → Except Fault (Token × σ)
  /-- The number of characters that have not been taken. -/
  remaining : σ → Nat

instance : Scanner Place where
  next p :=
    match scan p with
    | (.ok t, after) => .ok (t, after)
    | (.error f, _) => .error f
  peek p :=
    match scan p with
    | (.ok t, _) => .ok (t, p)
    | (.error f, _) => .error f
  quoted p :=
    match scan p with
    | (.ok t, _) => readQuoted t p
    | (.error f, _) => .error f
  remaining p := p.rest.length

/-- A parser: from a scanner to a result and the scanner after it, or the first fault. -/
abbrev ParserOf (σ α : Type) := StateT σ (Except Fault) α

/-- A parser that reads from a place. -/
abbrev Parser (α : Type) := ParserOf Place α

namespace Parser

variable {σ α : Type} [Scanner σ]

/-- Takes the next token. -/
def next : ParserOf σ Token := Scanner.next

/-- Looks at the next token without taking it. -/
def peek : ParserOf σ Token := Scanner.peek

/-- The kind of the next token. -/
def peekKind : ParserOf σ Kind := do
  return (← peek).kind

/-- The fault of finding `found` where a token of another kind has to stand. -/
def mismatch (wanted : Kind) (found : Token) : Fault :=
  found.fault .expected [wanted.describe, found.quotation]

/-- Takes the next token, which has to be of kind `k`. -/
def expect (k : Kind) : ParserOf σ Token := do
  let t ← next
  if t.kind = k then return t else throw (mismatch k t)

/-- Looks at the next token, which has to be of kind `k`. -/
def expectPeek (k : Kind) : ParserOf σ Token := do
  let t ← peek
  if t.kind = k then return t else throw (mismatch k t)

/-- Takes the next token if it is of kind `k`. -/
def optional (k : Kind) : ParserOf σ (Option Token) := do
  if (← peekKind) = k then
    let t ← next
    return some t
  else return none

/-- Takes the quoted literal that the next token begins. -/
def quoted : ParserOf σ Token := Scanner.quoted

/-- Runs a test and goes back to where it began. A test that meets a fault fails. -/
def lookAhead (test : ParserOf σ Bool) : ParserOf σ Bool := fun p =>
  match test p with
  | .ok (found, _) => .ok (found, p)
  | .error _ => .ok (false, p)

/-! A place scans whenever it is asked. -/

theorem next_eq (p : Place) : next p =
    match scan p with
    | (.ok t, after) => .ok (t, after)
    | (.error f, _) => .error f := rfl

theorem peek_eq (p : Place) : peek p =
    match scan p with
    | (.ok t, _) => .ok (t, p)
    | (.error f, _) => .error f := rfl

theorem quoted_eq (p : Place) : quoted p =
    match scan p with
    | (.ok t, _) => readQuoted t p
    | (.error f, _) => .error f := rfl

theorem remaining_eq (p : Place) : Scanner.remaining p = p.rest.length := rfl

/-! ## Repetition -/

/-- Items up to a token that ends the list; that token is not taken. -/
def many (ends : Kind → Bool) (item : ParserOf σ α) (p : σ) : Except Fault (List α × σ) := do
  let (k, seen) ← peekKind p
  if ends k then return ([], seen)
  else
    let (a, q) ← item seen
    if Scanner.remaining q < Scanner.remaining p then
      let (rest, r) ← many ends item q
      return (a :: rest, r)
    else return ([a], q)
termination_by Scanner.remaining p

/-- Items with commas between them, up to a token that ends the list or to an item without a comma
    after it. -/
def commaList (ends : Kind → Bool) (item : ParserOf σ α) (p : σ) :
    Except Fault (Separated α × σ) := do
  let (k, seen) ← peekKind p
  if ends k then return (.nil, seen)
  else
    let (a, q) ← item seen
    match ← optional (.punct .comma) q with
    | (none, r) => return (.one a, r)
    | (some comma, r) =>
      if Scanner.remaining r < Scanner.remaining p then
        let (rest, s) ← commaList ends item r
        return (.more a comma rest, s)
      else return (.more a comma .nil, r)
termination_by Scanner.remaining p

/-- Extends a value round by round until a round has nothing to add. -/
def extend (round : α → ParserOf σ (Option α)) (a : α) (p : σ) : Except Fault (α × σ) := do
  match ← round a p with
  | (none, q) => return (a, q)
  | (some b, q) =>
    if Scanner.remaining q < Scanner.remaining p then extend round b q
    else return (b, q)
termination_by Scanner.remaining p

end Parser

end Respell
