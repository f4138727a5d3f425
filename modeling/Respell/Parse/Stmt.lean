import Respell.Parse.Expr

/-!
# Reading statements

Statements are read with the same `Inner` as expressions. No statement is read while a conditional or a
`case` waits for a colon, so inside statements a colon is free.
-/

namespace Respell.Parser

variable {σ : Type} [Scanner σ]

/-- Any expression inside a statement. -/
def anyExpression (inner : InnerOf σ) : ParserOf σ Expr := inner.expression .free .lowest

/-- A keyword, a test in parentheses, and a block. -/
def guarded (inner : InnerOf σ) (word : Word) : ParserOf σ Guarded := do
  let keyword ← expect (.word word)
  let opening ← expect (.punct .openParen)
  let test ← anyExpression inner
  let closing ← expect (.punct .closeParen)
  let body ← block inner
  return ⟨keyword, opening, test, closing, body⟩

/-- What follows a branch of a conditional: `else if` branches, as many as there are, and possibly an
    `else` block. None of them nests in another. -/
def ladder (inner : InnerOf σ) (p : σ) : Except Fault (Ladder × σ) := do
  match ← optional (.word .else) p with
  | (none, q) => return (.done, q)
  | (some keyword, q) =>
    let (k, seen) ← peekKind q
    if k = .word .if then
      let (next, r) ← guarded inner .if seen
      if Scanner.remaining r < Scanner.remaining p then
        let (others, s) ← ladder inner r
        return (.branch keyword next others, s)
      else return (.branch keyword next .done, r)
    else
      let (body, r) ← block inner seen
      return (.otherwise keyword body, r)
termination_by Scanner.remaining p

/-- A conditional with all its branches. -/
def conditional (inner : InnerOf σ) : ParserOf σ Stmt := do
  let first ← guarded inner .if
  let others ← ladder inner
  return .conditional first others

/-- One declared name, with its initial value after `=`. -/
def decl (inner : InnerOf σ) : ParserOf σ Decl := do
  let name ← expect .identifier
  match ← optional (.punct .assign) with
  | some equals =>
    let value ← anyExpression inner
    return ⟨name, some (equals, value)⟩
  | none => return ⟨name, none⟩

/-- The word `var` with at least one name. -/
def varList (inner : InnerOf σ) : ParserOf σ VarList := do
  let keyword ← expect (.word .var)
  let items ← commaList (fun _ => false) (decl inner)
  return ⟨keyword, items⟩

/-- Whether the head of a `for` goes over the keys of an object: a name, possibly after `var`, with the
    word `in` after it. -/
def atForIn : ParserOf σ Bool :=
  lookAhead do
    let first ← next
    let name ← if first.kind = .word .var then next else pure first
    if name.kind = .identifier then
      let word ← next
      return word.kind = .word .in
    else return false

/-- The first part of a `for` head. -/
def forInit (inner : InnerOf σ) : ParserOf σ ForInit := do
  if (← peekKind) = .word .var then return .vars (← varList inner)
  else return .exprs (← expressions inner .free)

/-- A `for` loop of either form. -/
def forStatement (inner : InnerOf σ) : ParserOf σ Stmt := do
  let keyword ← expect (.word .for)
  let opening ← expect (.punct .openParen)
  if ← atForIn then
    let var ← optional (.word .var)
    let name ← expect .identifier
    let inWord ← expect (.word .in)
    let object ← anyExpression inner
    let closing ← expect (.punct .closeParen)
    let body ← block inner
    return .forIn keyword opening var name inWord object closing body
  else
    let init ← forInit inner
    let first ← expect (.punct .semicolon)
    let test ← expressions inner .free
    let second ← expect (.punct .semicolon)
    let update ← expressions inner .free
    let closing ← expect (.punct .closeParen)
    let body ← block inner
    return .for keyword opening init first test second update closing body

/-- `break` or `continue`, with or without a label. -/
def jump (word : Word) : ParserOf σ Stmt := do
  let keyword ← expect (.word word)
  let label ← optional .identifier
  let semicolon ← expect (.punct .semicolon)
  return .jump keyword label semicolon

/-- `return`, with or without a value. -/
def returnStatement (inner : InnerOf σ) : ParserOf σ Stmt := do
  let keyword ← expect (.word .return)
  if (← peekKind) = .punct .semicolon then
    let semicolon ← expect (.punct .semicolon)
    return .return keyword none semicolon
  else
    let value ← anyExpression inner
    let semicolon ← expect (.punct .semicolon)
    return .return keyword (some value) semicolon

/-- `throw` with its value. -/
def throwStatement (inner : InnerOf σ) : ParserOf σ Stmt := do
  let keyword ← expect (.word .throw)
  let value ← anyExpression inner
  let semicolon ← expect (.punct .semicolon)
  return .throw keyword value semicolon

/-- A `var` statement. -/
def varStatement (inner : InnerOf σ) : ParserOf σ Stmt := do
  let list ← varList inner
  let semicolon ← expect (.punct .semicolon)
  return .vars list semicolon

/-- A function declaration, which has a name. -/
def functionStatement (inner : InnerOf σ) : ParserOf σ Stmt := do
  let keyword ← expect (.word .function)
  let name ← expect .identifier
  return .function (← functionRest inner .free (some keyword) (some name))

/-- The tokens before which the statements of a clause end. -/
def endsClause : Kind → Bool
  | .word .case | .word .default | .punct .closeBrace | .endOfFile => true
  | _ => false

/-- The word and the test of a clause. The test of a `case` ends with a colon. -/
def clauseHead (inner : InnerOf σ) : ParserOf σ (Token × Option Expr) := do
  let t ← peek
  if t.kind = .word .case then
    let keyword ← next
    let test ← inner.expression .awaited .lowest
    return (keyword, some test)
  else if t.kind = .word .default then
    let keyword ← next
    return (keyword, none)
  else throw (mismatch (.word .case) t)

/-- A clause with its statements. -/
def clause (inner : InnerOf σ) : ParserOf σ Clause := do
  let (keyword, test) ← clauseHead inner
  let colon ← expect (.punct .colon)
  let body ← many endsClause inner.statement
  return ⟨keyword, test, colon, body⟩

/-- A `switch` with its clauses. -/
def switchStatement (inner : InnerOf σ) : ParserOf σ Stmt := do
  let keyword ← expect (.word .switch)
  let opening ← expect (.punct .openParen)
  let subject ← anyExpression inner
  let closing ← expect (.punct .closeParen)
  let openBrace ← expect (.punct .openBrace)
  let clauses ← many (fun k => k = .punct .closeBrace) (clause inner)
  let closeBrace ← expect (.punct .closeBrace)
  return .switch keyword opening subject closing openBrace clauses closeBrace

/-- An item of a pragma. Only `#declare` lists groups. -/
def pragmaItem (groups : Bool) : ParserOf σ PragmaItem := do
  match ← optional (.punct .colon) with
  | some colon =>
    if groups then return .group colon (← expect .identifier)
    else throw (mismatch .identifier colon)
  | none => return .single (← expect .identifier)

/-- A pragma of either form. -/
def pragma (groups : Bool) : ParserOf σ Pragma := do
  let keyword ← next
  let items ← commaList (fun _ => false) (pragmaItem groups)
  let semicolon ← expect (.punct .semicolon)
  return ⟨keyword, items, semicolon⟩

/-- The statement after a label: a loop or a switch. -/
def labeledBody (inner : InnerOf σ) : ParserOf σ Stmt := do
  let t ← peek
  match t.kind with
  | .word .while | .word .for | .word .switch => inner.statement
  | _ => throw (t.fault .invalidLabeled [])

/-- An expression with its semicolon, or a label if the expression is a name and a colon follows. -/
def expressionStatement (inner : InnerOf σ) : ParserOf σ Stmt := do
  let e ← anyExpression inner
  match e.bareName? with
  | some label =>
    match ← optional (.punct .colon) with
    | some colon => return .labeled label colon (← labeledBody inner)
    | none => return .expr e (← expect (.punct .semicolon))
  | none => return .expr e (← expect (.punct .semicolon))

/-- A statement, by its first token. -/
def statement (inner : InnerOf σ) : ParserOf σ Stmt := do
  match ← peekKind with
  | .word .if => conditional inner
  | .word .while => return .while (← guarded inner .while)
  | .word .for => forStatement inner
  | .word .break => jump .break
  | .word .continue => jump .continue
  | .word .return => returnStatement inner
  | .word .throw => throwStatement inner
  | .word .var => varStatement inner
  | .word .function => functionStatement inner
  | .word .switch => switchStatement inner
  | .includePragma => return .include (← pragma false)
  | .declarePragma => return .declare (← pragma true)
  | .punct .openBrace => return .block (← block inner)
  | .punct .semicolon => return .empty (← next)
  | _ => expressionStatement inner

end Respell.Parser
