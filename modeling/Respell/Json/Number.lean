import Respell.Json.Basic

/-!
# Numbers in JSON text

Nothing that is configured here is a number, so numbers are only ever passed over or refused. The two
differ: a number that is passed over may be of any size, while one that stands where another value is
wanted is read as a double first, and a number too large for a double is no number at all. A number
that is read may also end too early; one that is passed over is merely malformed then.
-/

namespace Respell.Json

/-- Whether a character is a decimal digit. -/
def isDigit (c : Char) : Bool := '0' ≤ c && c ≤ '9'

/-- The value of a decimal digit. -/
def digitValue (c : Char) : Nat := c.toNat - '0'.toNat

/-- The digits of a number without its sign. -/
structure Numeral where
  whole : List Char
  fraction : List Char
  /-- Whether the exponent has a minus sign. -/
  shrinks : Bool
  exponent : List Char
deriving DecidableEq, Repr

/-- The digits at the front of a text, of which there must be one. `ended` is the flaw of a text that
    ends instead. -/
def readDigits (ended : Flaw) : Reader (List Char)
  | [] => .error ended
  | c :: cs =>
    if isDigit c then .ok (c :: cs.takeWhile isDigit, cs.dropWhile isDigit) else .error .malformed

/-- The digits before the point. A zero in front of other digits is malformed. -/
def readWhole (ended : Flaw) (cs : List Char) : Except Flaw (List Char × List Char) := do
  let (ds, rest) ← readDigits ended cs
  if ds.head? = some '0' ∧ 1 < ds.length then .error .malformed else .ok (ds, rest)

/-- The digits after the point, if there is one. -/
def readFraction (ended : Flaw) : Reader (List Char)
  | '.' :: cs => readDigits ended cs
  | cs => .ok ([], cs)

/-- The sign and the digits of the exponent, if there is one. -/
def readExponent (ended : Flaw) : Reader (Bool × List Char)
  | [] => .ok ((false, []), [])
  | c :: cs =>
    if c = 'e' ∨ c = 'E' then do
      let digits := if cs.head? = some '+' ∨ cs.head? = some '-' then cs.tail else cs
      let (ds, rest) ← readDigits ended digits
      return ((cs.head? == some '-', ds), rest)
    else .ok ((false, []), c :: cs)

/-- The digits of the number at the front of a text. -/
def readNumeral (ended : Flaw) (cs : List Char) : Except Flaw (Numeral × List Char) := do
  let (whole, afterWhole) ← readWhole ended cs
  let (fraction, afterFraction) ← readFraction ended afterWhole
  let ((shrinks, exponent), rest) ← readExponent ended afterFraction
  return (⟨whole, fraction, shrinks, exponent⟩, rest)

/-! ## The size of a number -/

/-- The largest significand that is kept. -/
def maxSignificand : Nat := Nat.pow 2 64 - 1

/-- Appends digits to a significand for as long as it stays within bounds: the significand, and the
    digits that were left over. -/
def appendDigits (n : Nat) : List Char → Nat × List Char
  | [] => (n, [])
  | d :: ds =>
    let grown := 10 * n + digitValue d
    if grown ≤ maxSignificand then appendDigits grown ds else (n, d :: ds)

/-- The value of a number without its exponent, as a significand and a power of ten. Digits that the
    significand has no room for count for their place only. -/
def Numeral.scaled (x : Numeral) : Nat × Int :=
  let (n, surplus) := appendDigits 0 x.whole
  let (m, unused) := appendDigits n x.fraction
  (m, (surplus.length : Int) - ((x.fraction.length - unused.length : Nat) : Int))

/-- The value of the exponent, without its sign. -/
def Numeral.exponentValue (x : Numeral) : Nat := x.exponent.foldl (fun n d => 10 * n + digitValue d) 0

/-- The nearest number with at most 53 binary digits before its zeros; a tie goes to the even one. -/
def roundToDouble (n : Nat) : Nat :=
  let unit := Nat.pow 2 (n.log2 + 1 - 53)
  let q := n / unit
  let r := n % unit
  if unit < 2 * r ∨ (2 * r = unit ∧ q % 2 = 1) then (q + 1) * unit else q * unit

/-- The least number that rounds to no double: halfway from the largest double to the next power of
    two. -/
def doubleBound : Nat := Nat.pow 2 1024 - Nat.pow 2 970

/-- The largest power of ten that is a double. -/
def maxDoublePower : Nat := 308

/-- The largest exponent that is taken at its value. -/
def maxExponent : Nat := Nat.pow 2 31 - 1

/-- Whether `n * 10 ^ e` is too large for a double, when both factors are rounded first. -/
def tooLarge (n : Nat) (e : Int) : Bool :=
  if n = 0 ∨ e < 0 then false
  else maxDoublePower < e.toNat || doubleBound ≤ roundToDouble n * roundToDouble (Nat.pow 10 e.toNat)

/-- Whether a number is too large for a double. -/
def Numeral.exceedsDouble (x : Numeral) : Bool :=
  let (n, e) := x.scaled
  let k := x.exponentValue
  if maxExponent < k then n ≠ 0 && !x.shrinks
  else tooLarge n (if x.shrinks then e - k else e + k)

/-! ## Numbers -/

/-- Passes over a number. -/
def skipNumber (cs : List Char) : Except Flaw (List Char) := do
  let (_, rest) ← readNumeral .malformed cs
  return rest

/-- Reads a number that a double can hold. -/
def readNumber (cs : List Char) : Except Flaw (List Char) := do
  let (x, rest) ← readNumeral .truncated cs
  if x.exceedsDouble then .error .malformed else return rest

end Respell.Json
