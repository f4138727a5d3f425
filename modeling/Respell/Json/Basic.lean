import Respell.Text.Place

/-!
# JSON text

The parts of JSON text below values: what is wrong with a text, blanks, words, and strings. Everything
here works on the characters that remain to be read.

A string is either read, which gives its characters, or skipped, which only finds its end. Skipping
asks less: an escaped code point need not be a character.
-/

namespace Respell.Json

/-- Why a text is refused: it is no JSON, it is JSON of another shape than the one asked for, or it
    ends too early. -/
inductive Flaw where
  | malformed
  | mismatched
  | truncated
deriving DecidableEq, Repr

/-- A reader takes characters from the front of a text. -/
abbrev Reader (α : Type) := List Char → Except Flaw (α × List Char)

/-- Whether a character may stand between the tokens of JSON. -/
def isBlank (c : Char) : Bool := c == ' ' || c == '\t' || c == '\n' || c == '\r'

/-- The text from its first character that is no blank. -/
def skipBlanks (cs : List Char) : List Char := cs.dropWhile isBlank

/-- Reads a word letter by letter: the first letter that differs is a flaw of its own. -/
def readWord : List Char → List Char → Except Flaw (List Char)
  | [], cs => .ok cs
  | _ :: _, [] => .error .truncated
  | w :: ws, c :: cs => if c = w then readWord ws cs else .error .malformed

/-! ## Escapes -/

/-- The value of a hexadecimal digit. -/
def hexValue? (c : Char) : Option Nat :=
  if '0' ≤ c ∧ c ≤ '9' then some (c.toNat - '0'.toNat)
  else if 'a' ≤ c ∧ c ≤ 'f' then some (c.toNat - 'a'.toNat + 10)
  else if 'A' ≤ c ∧ c ≤ 'F' then some (c.toNat - 'A'.toNat + 10)
  else none

/-- The number that four hexadecimal digits write. A text of fewer than four bytes ends too early,
    whatever it holds. -/
def hexFour (cs : List Char) : Except Flaw Nat :=
  if Text.byteLength (cs.take 4) < 4 then .error .truncated
  else match (cs.take 4).mapM hexValue? with
    | some ds => .ok (ds.foldl (fun n d => 16 * n + d) 0)
    | none => .error .malformed

/-- The character that a backslash and this letter stand for. -/
def plainEscape? : Char → Option Char
  | '"' => some '"'
  | '\\' => some '\\'
  | '/' => some '/'
  | 'b' => some '\x08'
  | 'f' => some '\x0c'
  | 'n' => some '\n'
  | 'r' => some '\r'
  | 't' => some '\t'
  | _ => none

/-- Whether a code unit opens a pair that stands for one character. -/
def isHighHalf (n : Nat) : Bool := 0xD800 ≤ n && n ≤ 0xDBFF

/-- Whether a code unit closes such a pair. -/
def isLowHalf (n : Nat) : Bool := 0xDC00 ≤ n && n ≤ 0xDFFF

/-- The character of a pair of code units. -/
def pairChar (high low : Nat) : Char := .ofNat (0x10000 + 0x400 * (high - 0xD800) + (low - 0xDC00))

/-- Reads the second half of a pair: its backslash, its letter and its four digits. -/
def readLowHalf : List Char → Except Flaw Nat
  | [] => .error .truncated
  | ['\\'] => .error .truncated
  | '\\' :: 'u' :: cs => do
    let low ← hexFour cs
    if isLowHalf low then .ok low else .error .malformed
  | _ :: _ => .error .malformed

/-- The character that is written after a backslash, and how many characters write it. -/
def readEscape : List Char → Except Flaw (Char × Nat)
  | [] => .error .truncated
  | 'u' :: cs => do
    let n ← hexFour cs
    if isLowHalf n then .error .malformed
    else if isHighHalf n then
      let low ← readLowHalf (cs.drop 4)
      return (pairChar n low, 11)
    else return (.ofNat n, 5)
  | c :: _ =>
    match plainEscape? c with
    | some d => .ok (d, 1)
    | none => .error .malformed

/-- How many characters write the escape after a backslash, whatever it stands for. -/
def skipEscape : List Char → Except Flaw Nat
  | [] => .error .truncated
  | 'u' :: cs => do
    let _ ← hexFour cs
    return 5
  | c :: _ => if (plainEscape? c).isSome then .ok 1 else .error .malformed

/-! ## Strings -/

/-- Whether a character may not stand in a string as it is. -/
def isControl (c : Char) : Bool := c.toNat < 0x20

/-- Reads a string to its closing quotation mark. -/
def readString (cs : List Char) : Except Flaw (List Char × List Char) :=
  match cs with
  | [] => .error .truncated
  | c :: rest =>
    if c = '"' then .ok ([], rest)
    else if c = '\\' then do
      let (d, n) ← readEscape rest
      let (s, after) ← readString (rest.drop n)
      return (d :: s, after)
    else if isControl c then .error .malformed
    else do
      let (s, after) ← readString rest
      return (c :: s, after)
termination_by cs.length
decreasing_by all_goals simp only [List.length_cons, List.length_drop]; omega

/-- Passes over a string to its closing quotation mark. -/
def skipString (cs : List Char) : Except Flaw (List Char) :=
  match cs with
  | [] => .error .truncated
  | c :: rest =>
    if c = '"' then .ok rest
    else if c = '\\' then do
      let n ← skipEscape rest
      skipString (rest.drop n)
    else if isControl c then .error .malformed
    else skipString rest
termination_by cs.length
decreasing_by all_goals simp only [List.length_cons, List.length_drop]; omega

end Respell.Json
