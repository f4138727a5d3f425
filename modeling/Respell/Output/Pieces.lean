import Respell.Output.Piece
import Respell.Tree.Basic

/-!
# From trees to pieces

A tree is written as its tokens, each followed by its trivia, so the output has the layout of the
source. Only the constructs of the dialect are spelt otherwise, in their places:

- `==` and `!=` become `===` and `!==`;
- `a::b` becomes `a.prototype.b`;
- the comma after the last entry of an object goes;
- passed errors, receivers' names and remaining arguments become statements at the beginning of the
  function's body;
- arrow functions and functions without a keyword become function expressions;
- pragmas become comments.

Each function here puts its pieces before those of what follows. So the leading operand of an expression
is handled in a tail call, and a chain of any length needs no stack.
-/

namespace Respell

/-! ## Added text -/

/-- The parameter that holds a passed error. -/
def errorName : String := "__err"

/-- The statement that hands a passed error to its handler and leaves the function, or throws it if
    there is no handler. -/
def errorGuard (handler : Option Token) (tail : List Piece) : List Piece :=
  .blank :: .added "if" :: .blank :: .added "(" :: .added errorName :: .added ")" :: .blank ::
    .added "\x7b" :: .blank ::
    (match handler with
      | some h =>
        .added h.text :: .added "(" :: .added errorName :: .added ")" :: .added ";" :: .blank ::
          .added "return" :: .added ";" :: .blank :: .added "\x7d" :: tail
      | none =>
        .added "throw" :: .blank :: .added errorName :: .added ";" :: .blank :: .added "\x7d" :: tail)

/-- The statement that names the receiver of a function. -/
def receiverVar (receiver : Receiver) (tail : List Piece) : List Piece :=
  .blank :: .added "var" :: .blank :: .added receiver.name.text :: .blank :: .added "=" :: .blank ::
    .added "this" :: .added ";" :: tail

/-- The statement that collects the arguments from number `index` on. -/
def restSlice (name : Token) (index : Nat) (tail : List Piece) : List Piece :=
  .blank :: .added name.text :: .blank :: .added "=" :: .blank :: .added "[" :: .added "]" ::
    .added "." :: .added "slice" :: .added "." :: .added "call" :: .added "(" ::
    .added "arguments" :: .added "," :: .blank :: .added (toString index) :: .added ")" ::
    .added ";" :: tail

/-- The keyword of a function that has none in the source. -/
def functionWord (tail : List Piece) : List Piece := .added "function" :: .blank :: tail

/-- The end of a body that was opened for an arrow function. -/
def closeArrow (tail : List Piece) : List Piece :=
  .added ";" :: .blank :: .added "\x7d" :: tail

/-- Whether a text holds nothing but spaces and tabs. -/
def isSpacing (text : String) : Bool := text.toList.all fun c => c == ' ' || c == '\t'

/-- The trivia of tokens that are not written. If all of it is spacing it shrinks to one blank; line
    breaks and comments are kept. -/
def leftover (texts : List String) (tail : List Piece) : List Piece :=
  if texts.all isSpacing then
    if texts.all String.isEmpty then tail else .blank :: tail
  else texts.foldr (fun t r => .gap t :: r) tail

/-! ## Parameters and pragmas -/

/-- A parameter of a function. -/
def Param.pieces : Param → List Piece → List Piece
  | .plain name, tail => name.replay tail
  | .pass mark handler, tail => .added errorName :: .gap (handler.getD mark).trailing :: tail
  | .rest name dots, tail => name.replay (.gap dots.trailing :: tail)

/-- The parameters of a function. -/
def paramsPieces : Separated Param → List Piece → List Piece
  | .nil, tail => tail
  | .one p, tail => p.pieces tail
  | .more p comma ps, tail => p.pieces (comma.replay (paramsPieces ps tail))

/-- The parameters of an arrow function, each by its first token. -/
def arrowParamsPieces : Separated Param → List Piece → List Piece
  | .nil, tail => tail
  | .one p, tail => p.firstToken.replay tail
  | .more p comma ps, tail => p.firstToken.replay (comma.replay (arrowParamsPieces ps tail))

/-- The handler of the last passed error among the parameters, if one is passed. -/
def passed? : List Param → Option (Option Token)
  | [] => none
  | p :: ps =>
    (passed? ps).or
      (match p with
        | .pass _ handler => some handler
        | _ => none)

/-- The last parameter for remaining arguments, with its index, if there is one. -/
def collected? (index : Nat) : List Param → Option (Token × Nat)
  | [] => none
  | p :: ps =>
    (collected? (index + 1) ps).or
      (match p with
        | .rest name _ => some (name, index)
        | _ => none)

/-- The closing parenthesis of the parameters. A receiver's name goes, and leaves its trivia. -/
def closeParams (closing : Token) (receiver : Option Receiver) (tail : List Piece) : List Piece :=
  match receiver with
  | some a =>
    .token closing :: leftover [closing.trailing, a.colon.trailing, a.name.trailing] tail
  | none => closing.replay tail

/-- The statements that a function's parameters and receiver put at the beginning of its body. -/
def prologue (params : List Param) (receiver : Option Receiver) (tail : List Piece) : List Piece :=
  let slices := match collected? 0 params with
    | some (name, index) => restSlice name index tail
    | none => tail
  let receivers := match receiver with
    | some a => receiverVar a slices
    | none => slices
  match passed? params with
  | some handler => errorGuard handler receivers
  | none => receivers

/-- What a function begins with: its keyword, its name and its parameters. -/
def Func.opening (f : Func) (tail : List Piece) : List Piece :=
  let list := replay? f.name (f.params.opening.replay
    (paramsPieces f.params.items (closeParams f.params.closing f.receiver tail)))
  match f.keyword with
  | some keyword => keyword.replay list
  | none => functionWord list

/-- The text of an item of a pragma. -/
def PragmaItem.text : PragmaItem → String
  | .single name => name.text
  | .group colon name => colon.text ++ name.text

/-- The items of a pragma, as they stand in its comment. -/
def pragmaText : Separated PragmaItem → String
  | .nil => ""
  | .one item => item.text
  | .more item comma items => item.text ++ comma.text ++ " " ++ pragmaText items

/-- The trivia of an item of a pragma. -/
def PragmaItem.gaps : PragmaItem → List Piece → List Piece
  | .single name, tail => .gap name.trailing :: tail
  | .group colon name, tail => .gap colon.trailing :: .gap name.trailing :: tail

/-- The trivia of the items of a pragma. -/
def pragmaGaps : Separated PragmaItem → List Piece → List Piece
  | .nil, tail => tail
  | .one item, tail => item.gaps tail
  | .more item comma items, tail => item.gaps (.gap comma.trailing :: pragmaGaps items tail)

/-- A pragma: a comment that shows it, then the trivia of all its tokens. -/
def Pragma.pieces (p : Pragma) (tail : List Piece) : List Piece :=
  .gap ("/* " ++ p.keyword.text ++ " " ++ pragmaText p.items ++ p.semicolon.text ++ " */") ::
    .gap p.keyword.trailing :: pragmaGaps p.items (.gap p.semicolon.trailing :: tail)

/-! ## Operators and members -/

/-- An operator. The two comparisons of the dialect are strict. -/
def operatorPieces (operator : Token) (tail : List Piece) : List Piece :=
  match operator.kind with
  | .punct .equal | .punct .unequal =>
    .respelt operator (operator.text ++ "=") :: .gap operator.trailing :: tail
  | _ => operator.replay tail

/-- A member of the prototype, or the prototype itself. -/
def prototypePieces (colons : Token) (name : Option Token) (tail : List Piece) : List Piece :=
  .added "." :: .added "prototype" :: .gap colons.trailing ::
    (match name with
      | some n => .added "." :: n.replay tail
      | none => tail)

/-- A member access. -/
def Member.pieces (m : Member) (tail : List Piece) : List Piece := m.dot.replay (m.name.replay tail)

/-- A name with members. -/
def DottedName.pieces (d : DottedName) (tail : List Piece) : List Piece :=
  d.first.replay (d.members.foldr Member.pieces tail)

/-! ## Trees -/

mutual

/-- The pieces of an expression, before those of what follows. -/
def Expr.pieces : Expr → List Piece → List Piece
  | .head h, tail => h.pieces tail
  | .suffix leading s, tail => leading.pieces (s.pieces tail)

/-- The pieces of a head. -/
def Head.pieces : Head → List Piece → List Piece
  | .literal t, tail => t.replay tail
  | .ident t, tail => t.replay tail
  | .pass mark handler, tail => mark.replay (replay? handler tail)
  | .rest name dots, tail => name.replay (dots.replay tail)
  | .unary operator operand, tail => operator.replay (operand.pieces tail)
  | .construct keyword callee arguments, tail =>
    keyword.replay (callee.pieces (arguments.pieces tail))
  | .array elements, tail => elements.pieces tail
  | .object opening entries closing, tail =>
    opening.replay (entriesPieces entries (closing.replay tail))
  | .group opening inner closing, tail => opening.replay (inner.pieces (closing.replay tail))
  | .function f, tail => f.pieces tail
  | .arrow params sign body, tail =>
    functionWord (params.opening.replay (arrowParamsPieces params.items (params.closing.replay
      (.added "\x7b" :: .gap sign.trailing :: .added "return" :: .blank ::
        body.pieces (closeArrow tail)))))
  | .simpleArrow sign body, tail =>
    functionWord (.added "(" :: .added "_" :: .added ")" :: .blank :: .added "\x7b" ::
      .gap sign.trailing :: .added "return" :: .blank :: body.pieces (closeArrow tail))

/-- The pieces of a suffix, without those of its leading operand. -/
def Suffix.pieces : Suffix → List Piece → List Piece
  | .binary operator right, tail => operatorPieces operator (right.pieces tail)
  | .ternary question consequent colon alternate, tail =>
    question.replay (consequent.pieces (colon.replay (alternate.pieces tail)))
  | .call arguments, tail => arguments.pieces tail
  | .invoke member arguments, tail => member.pieces (arguments.pieces tail)
  | .index opening inner closing, tail => opening.replay (inner.pieces (closing.replay tail))
  | .property member, tail => member.pieces tail
  | .prototype colons name, tail => prototypePieces colons name tail

/-- The pieces of a delimited list. -/
def Enclosed.pieces : Enclosed → List Piece → List Piece
  | ⟨opening, items, closing⟩, tail => opening.replay (exprsPieces items (closing.replay tail))

/-- The pieces of a comma list of expressions. -/
def exprsPieces : Separated Expr → List Piece → List Piece
  | .nil, tail => tail
  | .one e, tail => e.pieces tail
  | .more e comma es, tail => e.pieces (comma.replay (exprsPieces es tail))

/-- The pieces of the entries of an object. A comma after the last entry leaves only its trivia. -/
def entriesPieces : Separated Entry → List Piece → List Piece
  | .nil, tail => tail
  | .one ⟨key, colon, value⟩, tail => key.replay (colon.replay (value.pieces tail))
  | .more ⟨key, colon, value⟩ comma .nil, tail =>
    key.replay (colon.replay (value.pieces (.gap comma.trailing :: tail)))
  | .more ⟨key, colon, value⟩ comma es, tail =>
    key.replay (colon.replay (value.pieces (comma.replay (entriesPieces es tail))))

/-- The pieces of a function. -/
def Func.pieces : Func → List Piece → List Piece
  | f@⟨_, _, params, receiver, ⟨opening, body, closing⟩⟩, tail =>
    f.opening (.token opening :: prologue params.items.items receiver (.gap opening.trailing ::
      stmtsPieces body (closing.replay tail)))

/-- The pieces of a block. -/
def Block.pieces : Block → List Piece → List Piece
  | ⟨opening, body, closing⟩, tail => opening.replay (stmtsPieces body (closing.replay tail))

/-- The pieces of a list of statements. -/
def stmtsPieces : List Stmt → List Piece → List Piece
  | [], tail => tail
  | s :: ss, tail => s.pieces (stmtsPieces ss tail)

/-- The pieces of a statement. -/
def Stmt.pieces : Stmt → List Piece → List Piece
  | .expr value semicolon, tail => value.pieces (semicolon.replay tail)
  | .empty semicolon, tail => semicolon.replay tail
  | .conditional first others, tail => first.pieces (others.pieces tail)
  | .while loop, tail => loop.pieces tail
  | .for keyword opening init first test second update closing body, tail =>
    keyword.replay (opening.replay (init.pieces (first.replay (exprsPieces test (second.replay
      (exprsPieces update (closing.replay (body.pieces tail))))))))
  | .forIn keyword opening var name inWord object closing body, tail =>
    keyword.replay (opening.replay (replay? var (name.replay (inWord.replay (object.pieces
      (closing.replay (body.pieces tail)))))))
  | .jump keyword label semicolon, tail => keyword.replay (replay? label (semicolon.replay tail))
  | .return keyword none semicolon, tail => keyword.replay (semicolon.replay tail)
  | .return keyword (some value) semicolon, tail =>
    keyword.replay (value.pieces (semicolon.replay tail))
  | .throw keyword value semicolon, tail => keyword.replay (value.pieces (semicolon.replay tail))
  | .vars list semicolon, tail => list.pieces (semicolon.replay tail)
  | .function f, tail => f.pieces tail
  | .labeled label colon body, tail => label.replay (colon.replay (body.pieces tail))
  | .switch keyword opening subject closing openBrace clauses closeBrace, tail =>
    keyword.replay (opening.replay (subject.pieces (closing.replay (openBrace.replay
      (clausesPieces clauses (closeBrace.replay tail))))))
  | .block b, tail => b.pieces tail
  | .include p, tail => p.pieces tail
  | .declare p, tail => p.pieces tail

/-- The pieces of a test and the block it guards. -/
def Guarded.pieces : Guarded → List Piece → List Piece
  | ⟨keyword, opening, test, closing, body⟩, tail =>
    keyword.replay (opening.replay (test.pieces (closing.replay (body.pieces tail))))

/-- The pieces of the branches after the first one. -/
def Ladder.pieces : Ladder → List Piece → List Piece
  | .done, tail => tail
  | .otherwise keyword body, tail => keyword.replay (body.pieces tail)
  | .branch keyword next others, tail => keyword.replay (next.pieces (others.pieces tail))

/-- The pieces of the first part of a `for` head. -/
def ForInit.pieces : ForInit → List Piece → List Piece
  | .exprs items, tail => exprsPieces items tail
  | .vars list, tail => list.pieces tail

/-- The pieces of a `var` list. -/
def VarList.pieces : VarList → List Piece → List Piece
  | ⟨keyword, items⟩, tail => keyword.replay (declsPieces items tail)

/-- The pieces of a comma list of declared names. -/
def declsPieces : Separated Decl → List Piece → List Piece
  | .nil, tail => tail
  | .one d, tail => d.pieces tail
  | .more d comma ds, tail => d.pieces (comma.replay (declsPieces ds tail))

/-- The pieces of a declared name and its initial value. -/
def Decl.pieces : Decl → List Piece → List Piece
  | ⟨name, none⟩, tail => name.replay tail
  | ⟨name, some (equals, value)⟩, tail => name.replay (equals.replay (value.pieces tail))

/-- The pieces of the clauses of a switch. -/
def clausesPieces : List Clause → List Piece → List Piece
  | [], tail => tail
  | ⟨keyword, none, colon, body⟩ :: cs, tail =>
    keyword.replay (colon.replay (stmtsPieces body (clausesPieces cs tail)))
  | ⟨keyword, some test, colon, body⟩ :: cs, tail =>
    keyword.replay (test.pieces (colon.replay (stmtsPieces body (clausesPieces cs tail))))

end

/-- The pieces of a program. -/
def Program.pieces (p : Program) : List Piece :=
  .gap p.preamble :: stmtsPieces p.body (p.endOfFile.replay [])

end Respell
