import Respell.Tree.Basic

/-!
# The tokens of a tree

`tokens` lists the tokens that a tree owns in the order of the source text: the fields of a node in
their order, and each comma right after its item.
-/

namespace Respell

/-- The dot and the name. -/
def Member.tokens (m : Member) : List Token := [m.dot, m.name]

/-- The first name, then the members in order. -/
def DottedName.tokens (d : DottedName) : List Token := d.first :: d.members.flatMap Member.tokens

/-- The tokens of a formal parameter. -/
def Param.tokens : Param → List Token
  | .plain name => [name]
  | .pass mark handler => mark :: handler.toList
  | .rest name dots => [name, dots]

/-- The tokens of a parameter list, with its parentheses. -/
def Params.tokens (p : Params) : List Token :=
  p.opening :: (p.items.tokens Param.tokens ++ [p.closing])

/-- The colon and the name. -/
def Receiver.tokens (a : Receiver) : List Token := [a.colon, a.name]

/-- The tokens of an item of a pragma. -/
def PragmaItem.tokens : PragmaItem → List Token
  | .single name => [name]
  | .group colon name => [colon, name]

/-- The tokens of a pragma. -/
def Pragma.tokens (p : Pragma) : List Token :=
  p.keyword :: (p.items.tokens PragmaItem.tokens ++ [p.semicolon])

mutual

/-- The tokens of an expression. -/
def Expr.tokens : Expr → List Token
  | .head h => h.tokens
  | .suffix leading s => leading.tokens ++ s.tokens

/-- The tokens of a head. -/
def Head.tokens : Head → List Token
  | .literal t => [t]
  | .ident t => [t]
  | .pass mark handler => mark :: handler.toList
  | .rest name dots => [name, dots]
  | .unary operator operand => operator :: operand.tokens
  | .construct keyword callee arguments => keyword :: (callee.tokens ++ arguments.tokens)
  | .array elements => elements.tokens
  | .object opening entries closing => opening :: (entriesTokens entries ++ [closing])
  | .group opening inner closing => opening :: (inner.tokens ++ [closing])
  | .function f => f.tokens
  | .arrow params sign body => params.tokens ++ sign :: body.tokens
  | .simpleArrow sign body => sign :: body.tokens

/-- The tokens of a suffix, without those of its leading operand. -/
def Suffix.tokens : Suffix → List Token
  | .binary operator right => operator :: right.tokens
  | .ternary question consequent colon alternate =>
    question :: (consequent.tokens ++ colon :: alternate.tokens)
  | .call arguments => arguments.tokens
  | .invoke member arguments => member.tokens ++ arguments.tokens
  | .index opening inner closing => opening :: (inner.tokens ++ [closing])
  | .property member => member.tokens
  | .prototype colons name => colons :: name.toList

/-- The tokens of a delimited list. -/
def Enclosed.tokens : Enclosed → List Token
  | ⟨opening, items, closing⟩ => opening :: (exprsTokens items ++ [closing])

/-- The tokens of a comma list of expressions. -/
def exprsTokens : Separated Expr → List Token
  | .nil => []
  | .one e => e.tokens
  | .more e comma rest => e.tokens ++ comma :: exprsTokens rest

/-- The tokens of a comma list of object entries. -/
def entriesTokens : Separated Entry → List Token
  | .nil => []
  | .one ⟨key, colon, value⟩ => key :: colon :: value.tokens
  | .more ⟨key, colon, value⟩ comma rest =>
    key :: colon :: (value.tokens ++ comma :: entriesTokens rest)

/-- The tokens of a function. -/
def Func.tokens : Func → List Token
  | ⟨keyword, name, params, receiver, body⟩ =>
    keyword.toList ++ name.toList ++ params.tokens ++ (receiver.map Receiver.tokens).getD [] ++
      body.tokens

/-- The tokens of a block, with its braces. -/
def Block.tokens : Block → List Token
  | ⟨opening, body, closing⟩ => opening :: (stmtsTokens body ++ [closing])

/-- The tokens of a list of statements. -/
def stmtsTokens : List Stmt → List Token
  | [] => []
  | s :: rest => s.tokens ++ stmtsTokens rest

/-- The tokens of a statement. -/
def Stmt.tokens : Stmt → List Token
  | .expr value semicolon => value.tokens ++ [semicolon]
  | .empty semicolon => [semicolon]
  | .conditional first others => first.tokens ++ others.tokens
  | .while loop => loop.tokens
  | .for keyword opening init first test second update closing body =>
    keyword :: opening :: (init.tokens ++ first :: (exprsTokens test ++ second ::
      (exprsTokens update ++ closing :: body.tokens)))
  | .forIn keyword opening var name inWord object closing body =>
    keyword :: opening :: (var.toList ++ name :: inWord :: (object.tokens ++ closing :: body.tokens))
  | .jump keyword label semicolon => keyword :: (label.toList ++ [semicolon])
  | .return keyword none semicolon => [keyword, semicolon]
  | .return keyword (some value) semicolon => keyword :: (value.tokens ++ [semicolon])
  | .throw keyword value semicolon => keyword :: (value.tokens ++ [semicolon])
  | .vars list semicolon => list.tokens ++ [semicolon]
  | .function f => f.tokens
  | .labeled label colon body => label :: colon :: body.tokens
  | .switch keyword opening subject closing openBrace clauses closeBrace =>
    keyword :: opening :: (subject.tokens ++ closing :: openBrace ::
      (clausesTokens clauses ++ [closeBrace]))
  | .block b => b.tokens
  | .include p => p.tokens
  | .declare p => p.tokens

/-- The tokens of a guarded block. -/
def Guarded.tokens : Guarded → List Token
  | ⟨keyword, opening, test, closing, body⟩ =>
    keyword :: opening :: (test.tokens ++ closing :: body.tokens)

/-- The tokens of the branches after the first one. -/
def Ladder.tokens : Ladder → List Token
  | .done => []
  | .otherwise keyword body => keyword :: body.tokens
  | .branch keyword next others => keyword :: (next.tokens ++ others.tokens)

/-- The tokens of the first part of a `for` head. -/
def ForInit.tokens : ForInit → List Token
  | .exprs items => exprsTokens items
  | .vars list => list.tokens

/-- The tokens of a `var` list. -/
def VarList.tokens : VarList → List Token
  | ⟨keyword, items⟩ => keyword :: declsTokens items

/-- The tokens of a comma list of declared names. -/
def declsTokens : Separated Decl → List Token
  | .nil => []
  | .one d => d.tokens
  | .more d comma rest => d.tokens ++ comma :: declsTokens rest

/-- The tokens of a declared name and its initial value. -/
def Decl.tokens : Decl → List Token
  | ⟨name, none⟩ => [name]
  | ⟨name, some (equals, value)⟩ => name :: equals :: value.tokens

/-- The tokens of the clauses of a switch. -/
def clausesTokens : List Clause → List Token
  | [] => []
  | ⟨keyword, none, colon, body⟩ :: rest =>
    keyword :: colon :: (stmtsTokens body ++ clausesTokens rest)
  | ⟨keyword, some test, colon, body⟩ :: rest =>
    keyword :: (test.tokens ++ colon :: (stmtsTokens body ++ clausesTokens rest))

end

/-- The tokens of a program, with the one at its end. -/
def Program.tokens (p : Program) : List Token := stmtsTokens p.body ++ [p.endOfFile]

end Respell
