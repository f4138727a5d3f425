import Respell.Token.Kind

/-!
# Operator precedence

How strongly the operators between two operands bind. Assignments and conditionals group to the right,
all others to the left.
-/

namespace Respell

/-- Binding strengths, weakest first. -/
inductive Precedence where
  | lowest
  | assignment
  | conditional
  | logicalOr
  | logicalAnd
  | equality
  | relational
  | additive
  | multiplicative
  /-- The operand of a unary operator; no operator between two operands is as strong. -/
  | unary
deriving DecidableEq, Repr

namespace Precedence

/-- The strength as a number. -/
def strength : Precedence → Nat
  | lowest => 0
  | assignment => 5
  | conditional => 7
  | logicalOr => 10
  | logicalAnd => 20
  | equality => 30
  | relational => 40
  | additive => 50
  | multiplicative => 60
  | unary => 100

/-- Whether operators of this strength group to the right. -/
def isRightAssociative : Precedence → Bool
  | assignment | conditional => true
  | _ => false

/-- Whether an operator of strength `p` continues an operand that is read at threshold `threshold`: it
    has to be stronger, or as strong if it groups to the right. -/
def binds (p threshold : Precedence) : Bool :=
  if p.isRightAssociative then threshold.strength ≤ p.strength
  else threshold.strength < p.strength

/-- The strength of an operator between two operands; the question mark counts as one. -/
def ofKind? : Kind → Option Precedence
  | .punct .asterisk | .punct .slash | .punct .percent => some multiplicative
  | .punct .plus | .punct .minus => some additive
  | .punct .less | .punct .lessEqual | .punct .greater | .punct .greaterEqual
  | .word .instanceof => some relational
  | .punct .equal | .punct .unequal => some equality
  | .punct .and => some logicalAnd
  | .punct .or => some logicalOr
  | .punct .question => some conditional
  | k => if k.isAssignment then some assignment else none

end Precedence

end Respell
