import Respell.Tree.Separated

/-!
# Syntax trees

The tree of a program owns every token of its text, punctuation included.

An expression is a *head* followed by *suffixes*: each suffix (an operator with its right operand, the
branches of a conditional, an argument list, an index, a member) takes the whole expression before
it as its leading operand. So `a + b * c` is the head `a` with one suffix, whose operand is the head
`b` with one suffix; and `a.b(c)[d]` is the head `a` with two.
-/

namespace Respell

/-- A member access: the dot and the name after it. -/
structure Member where
  dot : Token
  name : Token
deriving DecidableEq, Repr

/-- A name with members, as it stands after `new`. -/
structure DottedName where
  first : Token
  members : List Member
deriving DecidableEq, Repr

/-- A formal parameter. -/
inductive Param where
  | plain (name : Token)
  /-- An error passed first: `@`, or `@handler`. -/
  | pass (mark : Token) (handler : Option Token)
  /-- All remaining arguments: `name...`. -/
  | rest (name : Token) (dots : Token)
deriving DecidableEq, Repr

/-- The first token of a parameter. -/
def Param.firstToken : Param → Token
  | .plain name => name
  | .pass mark _ => mark
  | .rest name _ => name

/-- A parenthesised list of formal parameters. -/
structure Params where
  opening : Token
  items : Separated Param
  closing : Token
deriving DecidableEq, Repr

/-- A name for the receiver of a function: `: name`. -/
structure Receiver where
  colon : Token
  name : Token
deriving DecidableEq, Repr

/-- What a pragma lists: a name, or a declaration group as `:name`. -/
inductive PragmaItem where
  | single (name : Token)
  | group (colon : Token) (name : Token)
deriving DecidableEq, Repr

/-- A pragma: its word, what it lists, and its semicolon. -/
structure Pragma where
  keyword : Token
  items : Separated PragmaItem
  semicolon : Token
deriving DecidableEq, Repr

mutual

/-- An expression: a head, or an expression extended by a suffix. -/
inductive Expr where
  | head (h : Head)
  | suffix (leading : Expr) (s : Suffix)

/-- An expression that has no leading operand. -/
inductive Head where
  /-- A number, a string, a regular expression, `null`, `true` or `false`. -/
  | literal (token : Token)
  | ident (token : Token)
  /-- `@` or `@handler`, which has a meaning as a parameter only. -/
  | pass (mark : Token) (handler : Option Token)
  /-- `name...`, which has a meaning as a parameter only. -/
  | rest (name : Token) (dots : Token)
  | unary (operator : Token) (operand : Expr)
  | construct (keyword : Token) (callee : DottedName) (arguments : Enclosed)
  | array (elements : Enclosed)
  | object (opening : Token) (entries : Separated Entry) (closing : Token)
  | group (opening : Token) (inner : Expr) (closing : Token)
  | function (f : Func)
  /-- `(params) -> body`. -/
  | arrow (params : Params) (sign : Token) (body : Expr)
  /-- `-> body`, with the parameter `_`. -/
  | simpleArrow (sign : Token) (body : Expr)

/-- What extends a leading operand to a larger expression. -/
inductive Suffix where
  | binary (operator : Token) (right : Expr)
  | ternary (question : Token) (consequent : Expr) (colon : Token) (alternate : Expr)
  | call (arguments : Enclosed)
  /-- A member that is called at once. -/
  | invoke (member : Member) (arguments : Enclosed)
  | index (opening : Token) (inner : Expr) (closing : Token)
  | property (member : Member)
  /-- A member of the prototype, or the prototype itself: `::name` or `::`. -/
  | prototype (colons : Token) (name : Option Token)

/-- A comma list of expressions between two delimiters. -/
structure Enclosed where
  opening : Token
  items : Separated Expr
  closing : Token

/-- A key of an object with its value. -/
structure Entry where
  key : Token
  colon : Token
  value : Expr

/-- A function, with or without the keyword `function` and a name. -/
structure Func where
  keyword : Option Token
  name : Option Token
  params : Params
  receiver : Option Receiver
  body : Block

/-- Statements between braces. -/
structure Block where
  opening : Token
  body : List Stmt
  closing : Token

/-- A statement. -/
inductive Stmt where
  | expr (value : Expr) (semicolon : Token)
  | empty (semicolon : Token)
  | conditional (first : Guarded) (others : Ladder)
  | while (loop : Guarded)
  | for (keyword : Token) (opening : Token) (init : ForInit) (first : Token)
      (test : Separated Expr) (second : Token) (update : Separated Expr) (closing : Token)
      (body : Block)
  | forIn (keyword : Token) (opening : Token) (var : Option Token) (name : Token) (inWord : Token)
      (object : Expr) (closing : Token) (body : Block)
  /-- `break` or `continue`, with or without a label. -/
  | jump (keyword : Token) (label : Option Token) (semicolon : Token)
  | return (keyword : Token) (value : Option Expr) (semicolon : Token)
  | throw (keyword : Token) (value : Expr) (semicolon : Token)
  | vars (list : VarList) (semicolon : Token)
  | function (f : Func)
  | labeled (label : Token) (colon : Token) (body : Stmt)
  | switch (keyword : Token) (opening : Token) (subject : Expr) (closing : Token)
      (openBrace : Token) (clauses : List Clause) (closeBrace : Token)
  | block (b : Block)
  | include (p : Pragma)
  | declare (p : Pragma)

/-- A keyword, a test in parentheses, and the block that the test guards. -/
structure Guarded where
  keyword : Token
  opening : Token
  test : Expr
  closing : Token
  body : Block

/-- What follows the first branch of a conditional: nothing, an `else` block, or an `else if` branch
    and what follows that one. -/
inductive Ladder where
  | done
  | otherwise (keyword : Token) (body : Block)
  | branch (keyword : Token) (next : Guarded) (others : Ladder)

/-- The first part of a `for` head. -/
inductive ForInit where
  | exprs (items : Separated Expr)
  | vars (list : VarList)

/-- The word `var` with the names it declares. -/
structure VarList where
  keyword : Token
  items : Separated Decl

/-- A declared name, and its initial value after `=`. -/
structure Decl where
  name : Token
  init : Option (Token × Expr)

/-- A clause of a switch: `case` with a test, or `default` without one. -/
structure Clause where
  keyword : Token
  test : Option Expr
  colon : Token
  body : List Stmt

end

/-- A program: the trivia before its first token, its statements, and the token at its end. -/
structure Program where
  preamble : String
  body : List Stmt
  endOfFile : Token

/-- The token of an expression that is a name and nothing else. -/
def Expr.bareName? : Expr → Option Token
  | .head (.ident t) => some t
  | _ => none

/-- An expression read as a formal parameter. -/
def Expr.toParam? : Expr → Option Param
  | .head (.ident t) => some (.plain t)
  | .head (.pass mark handler) => some (.pass mark handler)
  | .head (.rest name dots) => some (.rest name dots)
  | _ => none

end Respell
