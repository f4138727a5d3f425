import Respell.Parse.Basic
import Respell.Parse.Precedence
import Respell.Tree.Basic

/-!
# Reading expressions

Everything here is read with the help of an `Inner`: the parsers for statements and expressions one
nesting level further in. A production calls no other production of its own level in a circle, so
the depth of a tree is bounded by the number of levels that stand ready.

Parentheses are the hard part. What a parenthesised list is, a group or the parameters of a function,
is decided by the token after its closing parenthesis, and a colon there is the beginning of a
receiver's name only if no enclosing conditional or `case` waits for it.
-/

namespace Respell

/-- Who a colon after a parenthesised list belongs to. -/
inductive Colon where
  /-- No enclosing construct waits for a colon. -/
  | free
  /-- The consequent of a conditional or the test of a `case` is being read, and ends with one. -/
  | awaited
deriving DecidableEq, Repr

/-- The parsers one nesting level further in. -/
structure InnerOf (σ : Type) where
  statement : ParserOf σ Stmt
  expression : Colon → Precedence → ParserOf σ Expr

/-- Inner parsers that read from a place. -/
abbrev Inner := InnerOf Text.Place

namespace Parser

variable {σ : Type} [Scanner σ]

/-! ## Lists -/

/-- The tokens before which a comma list of expressions ends. -/
def endsList : Kind → Bool
  | .punct .closeParen | .punct .closeBracket | .punct .semicolon => true
  | _ => false

/-- A comma list of expressions. -/
def expressions (inner : InnerOf σ) (colon : Colon) : ParserOf σ (Separated Expr) :=
  commaList endsList (inner.expression colon .lowest)

/-- A comma list of expressions between two delimiters. -/
def enclosed (inner : InnerOf σ) (colon : Colon) (opening closing : Punct) : ParserOf σ Enclosed := do
  let o ← expect (.punct opening)
  let items ← expressions inner colon
  let c ← expect (.punct closing)
  return ⟨o, items, c⟩

/-! ## Functions -/

/-- The tokens before which the statements of a block end. -/
def endsBlock : Kind → Bool
  | .punct .closeBrace | .endOfFile => true
  | _ => false

/-- Statements between braces. -/
def block (inner : InnerOf σ) : ParserOf σ Block := do
  let opening ← expect (.punct .openBrace)
  let body ← many endsBlock inner.statement
  let closing ← expect (.punct .closeBrace)
  return ⟨opening, body, closing⟩

/-- A list of expressions read as formal parameters. The token `before` made it one, and is where the
    fault is if an expression cannot be a parameter. -/
def asParams (list : Enclosed) (before : Token) : ParserOf σ Params := do
  match list.items.map? Expr.toParam? with
  | some items => return ⟨list.opening, items, list.closing⟩
  | none => throw (before.fault .invalidParameters [before.text])

/-- A name for the receiver, if a colon stands here. -/
def receiver : ParserOf σ (Option Receiver) := do
  match ← optional (.punct .colon) with
  | some colon =>
    let name ← expect .identifier
    return some ⟨colon, name⟩
  | none => return none

/-- The body of a function whose parameters and receiver have been read. Nothing outside the body
    waits for a colon inside it. -/
def finishFunction (inner : InnerOf σ) (keyword name : Option Token) (list : Enclosed)
    (named : Option Receiver) : ParserOf σ Func := do
  let brace ← expectPeek (.punct .openBrace)
  let params ← asParams list brace
  let body ← block inner
  return ⟨keyword, name, params, named, body⟩

/-- The parameters, receiver and body of a function after its keyword and name. -/
def functionRest (inner : InnerOf σ) (colon : Colon) (keyword name : Option Token) : ParserOf σ Func := do
  let list ← enclosed inner colon .openParen .closeParen
  let named ← receiver
  finishFunction inner keyword name list named

/-- Whether a colon, a name and an opening brace follow. -/
def atReceiver : ParserOf σ Bool :=
  lookAhead do
    let colon ← next
    if colon.kind = .punct .colon then
      let name ← next
      if name.kind = .identifier then
        let brace ← next
        return brace.kind = .punct .openBrace
      else return false
    else return false

/-! ## Heads -/

/-- A parenthesised list: a function without its keyword if a body or a receiver follows, an arrow
    function if an arrow follows, and otherwise a group around one expression. -/
def parenthesized (inner : InnerOf σ) (colon : Colon) : ParserOf σ Head := do
  let list ← enclosed inner colon .openParen .closeParen
  let after ← peek
  let bound ← atReceiver
  if after.kind = .punct .openBrace then
    let f ← finishFunction inner none none list none
    return .function f
  else if after.kind = .punct .colon ∧ (colon = .free ∨ bound) then
    let named ← receiver
    let f ← finishFunction inner none none list named
    return .function f
  else if after.kind = .punct .arrow then
    let params ← asParams list after
    let sign ← next
    let body ← inner.expression colon .lowest
    return .arrow params sign body
  else
    match list.items with
    | .one e => return .group list.opening e list.closing
    | _ => throw (after.fault .unexpectedAfterList [after.quotation])

/-- A dot and a name. -/
def member : ParserOf σ Member := do
  let dot ← expect (.punct .dot)
  let name ← expect .identifier
  return ⟨dot, name⟩

/-- `new`, a name with members, and arguments. -/
def construct (inner : InnerOf σ) (colon : Colon) : ParserOf σ Head := do
  let keyword ← expect (.word .new)
  let first ← expect .identifier
  let members ← many (fun k => k ≠ .punct .dot) member
  let arguments ← enclosed inner colon .openParen .closeParen
  return .construct keyword ⟨first, members⟩ arguments

/-- The key of an object entry: a name or a string. -/
def key : ParserOf σ Token := do
  let t ← peek
  match t.kind with
  | .identifier => next
  | .punct .doubleQuote | .punct .singleQuote => quoted
  | _ => throw (t.fault .invalidObjectKey [])

/-- A key with its value. -/
def entry (inner : InnerOf σ) (colon : Colon) : ParserOf σ Entry := do
  let k ← key
  let c ← expect (.punct .colon)
  let value ← inner.expression colon .lowest
  return ⟨k, c, value⟩

/-- An object: entries between braces. -/
def object (inner : InnerOf σ) (colon : Colon) : ParserOf σ Head := do
  let opening ← expect (.punct .openBrace)
  let entries ← commaList (fun k => k = .punct .closeBrace) (entry inner colon)
  let closing ← expect (.punct .closeBrace)
  return .object opening entries closing

/-- An expression without a leading operand. -/
def head (inner : InnerOf σ) (colon : Colon) : ParserOf σ Head := do
  let t ← peek
  match t.kind with
  | .number | .word .null | .word .true | .word .false => return .literal (← next)
  | .identifier => return .ident (← next)
  | .punct .doubleQuote | .punct .singleQuote | .punct .slash | .punct .divideAssign =>
    return .literal (← quoted)
  | .punct .atSign =>
    let mark ← next
    let handler ← optional .identifier
    return .pass mark handler
  | .punct .openBracket => return .array (← enclosed inner colon .openBracket .closeBracket)
  | .punct .openBrace => object inner colon
  | .word .new => construct inner colon
  | .punct .exclamation | .punct .minus | .punct .plus | .word .typeof | .word .delete =>
    let operator ← next
    let operand ← inner.expression colon .unary
    return .unary operator operand
  | .punct .openParen => parenthesized inner colon
  | .punct .arrow =>
    let sign ← next
    let body ← inner.expression colon .lowest
    return .simpleArrow sign body
  | .word .function =>
    let keyword ← next
    let name ← optional .identifier
    return .function (← functionRest inner colon (some keyword) name)
  | _ => throw (t.fault .invalidExpression [])

/-! ## Suffixes -/

/-- An operator and what stands to its right. The consequent of a conditional ends with a colon. -/
def operation (inner : InnerOf σ) (colon : Colon) (p : Precedence) : ParserOf σ Suffix := do
  let operator ← next
  if operator.kind = .punct .question then
    let consequent ← inner.expression .awaited .lowest
    let c ← expect (.punct .colon)
    let alternate ← inner.expression colon p
    return .ternary operator consequent c alternate
  else
    let right ← inner.expression colon p
    return .binary operator right

/-- A member, and its arguments if they follow at once. A reserved word may be the name of a member. -/
def access (inner : InnerOf σ) (colon : Colon) : ParserOf σ Suffix := do
  let dot ← next
  let name ← next
  if name.kind = .identifier || name.kind.isWord then
    if (← peekKind) = .punct .openParen then
      let arguments ← enclosed inner colon .openParen .closeParen
      return .invoke ⟨dot, name⟩ arguments
    else return .property ⟨dot, name⟩
  else throw (mismatch .identifier name)

/-- The expression `e` with one more suffix, if one stands here and binds at the threshold. Three dots
    are no suffix: they make a name a rest parameter, and stand nowhere else. -/
def suffix? (inner : InnerOf σ) (colon : Colon) (threshold : Precedence) (e : Expr) :
    ParserOf σ (Option Expr) := do
  let t ← peek
  match Precedence.ofKind? t.kind with
  | some p =>
    if p.binds threshold then return some (.suffix e (← operation inner colon p))
    else return none
  | none =>
    match t.kind with
    | .punct .dot => return some (.suffix e (← access inner colon))
    | .punct .openParen =>
      return some (.suffix e (.call (← enclosed inner colon .openParen .closeParen)))
    | .punct .openBracket =>
      let opening ← next
      let position ← inner.expression colon .lowest
      let closing ← expect (.punct .closeBracket)
      return some (.suffix e (.index opening position closing))
    | .punct .doubleColon =>
      let colons ← next
      let name ← optional .identifier
      return some (.suffix e (.prototype colons name))
    | .punct .ellipsis =>
      let dots ← next
      match e.bareName? with
      | some name => return some (.head (.rest name dots))
      | none => throw (dots.fault .unexpected [Punct.ellipsis.text])
    | _ => return none

/-- An expression whose operators bind at the threshold: a head with all its suffixes. -/
def expression (inner : InnerOf σ) (colon : Colon) (threshold : Precedence) : ParserOf σ Expr := do
  let h ← head inner colon
  extend (suffix? inner colon threshold) (.head h)

end Parser

end Respell
