import Respell.Token.Basic

/-!
# Comma lists

A comma list holds its items and its commas in place, so it can be written back as it was read. The
last item may be followed by a comma of its own.
-/

namespace Respell

/-- Items with commas between them: none, one without a comma, or one with its comma and more. -/
inductive Separated (α : Type) where
  | nil
  | one (item : α)
  | more (item : α) (comma : Token) (rest : Separated α)
deriving DecidableEq, Repr

namespace Separated

variable {α β : Type}

/-- The items without the commas. -/
def items : Separated α → List α
  | nil => []
  | one a => [a]
  | more a _ rest => a :: rest.items

/-- The commas without the items. -/
def commas : Separated α → List Token
  | nil => []
  | one _ => []
  | more _ c rest => c :: rest.commas

/-- The last item is followed by a comma. -/
def endsInComma : Separated α → Bool
  | nil => false
  | one _ => false
  | more _ _ nil => true
  | more _ _ rest => rest.endsInComma

/-- The same list with every item changed by `f`. -/
def map (f : α → β) : Separated α → Separated β
  | nil => nil
  | one a => one (f a)
  | more a c rest => more (f a) c (rest.map f)

/-- The same list with every item changed by `f`, if `f` is defined on all of them. -/
def map? (f : α → Option β) : Separated α → Option (Separated β)
  | nil => some nil
  | one a => (f a).map one
  | more a c rest =>
    match f a, rest.map? f with
    | some b, some bs => some (more b c bs)
    | _, _ => none

/-- The tokens of the list in source order, given those of an item. -/
def tokens (f : α → List Token) : Separated α → List Token
  | nil => []
  | one a => f a
  | more a c rest => f a ++ c :: rest.tokens f

end Separated

end Respell
