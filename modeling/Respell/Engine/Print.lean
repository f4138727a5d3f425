import Respell.Output.Pieces
import Respell.Tree.Form

/-!
# Printing with loops

The printer of the engine writes a tree at the end of a text, part after part. It goes through the chain of an
expression and through the branches of a conditional in loops; every other part is printed by recursion.
-/

namespace Respell

/-- What writes at the end of a text. -/
abbrev Printer := StateM String Unit

/-- Writes a text. -/
def write (text : String) : Printer := modify (· ++ text)

/-- The text after something has been written at the end of `out`. -/
def Printer.onto (x : Printer) (out : String) : String := (x.run out).run.2

/-- Writes a token and its trivia. -/
def Token.print (t : Token) : Printer := do
  write t.text
  write t.trailing

/-- Writes a token that need not be there. -/
def print? (o : Option Token) : Printer := forM o Token.print

/-! ## Parts without subtrees -/

/-- Prints a comma list, given how an item is printed. -/
def Separated.print {α : Type} (f : α → Printer) : Separated α → Printer
  | .nil => pure ()
  | .one a => f a
  | .more a comma rest => do
    f a
    comma.print
    rest.print f

/-- Prints a parameter of a function. -/
def Param.print : Param → Printer
  | .plain name => name.print
  | .pass mark handler => do
    write "__err"
    write (handler.getD mark).trailing
  | .rest name dots => do
    name.print
    write dots.trailing

/-- Writes the statement that handles a passed error. -/
def printGuard : Option Token → Printer
  | some handler => do
    write " if (__err) \x7b "
    write handler.text
    write "(__err); return; \x7d"
  | none => write " if (__err) \x7b throw __err; \x7d"

/-- Writes the statement that names a receiver. -/
def printReceiver (receiver : Receiver) : Printer := do
  write " var "
  write receiver.name.text
  write " = this;"

/-- Writes the statement that collects the arguments from number `index` on. -/
def printSlice (name : Token) (index : Nat) : Printer := do
  write " "
  write name.text
  write " = [].slice.call(arguments, "
  write (toString index)
  write ");"

/-- Writes what a function begins its body with. -/
def printPrologue (params : List Param) (receiver : Option Receiver) : Printer := do
  forM (passed? params) printGuard
  forM receiver printReceiver
  forM (collected? 0 params) fun rest => printSlice rest.1 rest.2

/-- Writes the trivia of tokens that are not written. -/
def printLeftover (texts : List String) : Printer :=
  if texts.all isSpacing then
    if texts.all String.isEmpty then pure () else write " "
  else forM texts write

/-- Prints the keyword of a function, also where the source has none. -/
def printKeyword : Option Token → Printer
  | some keyword => keyword.print
  | none => write "function "

/-- Prints the closing parenthesis of parameters. A receiver's name goes, and leaves its trivia. -/
def printClosing (closing : Token) : Option Receiver → Printer
  | some receiver => do
    -- The trivia of three tokens is written or shrunk as one.
    write closing.text
    printLeftover [closing.trailing, receiver.colon.trailing, receiver.name.trailing]
  | none => closing.print

/-- Prints what a function begins with, up to its body. -/
def Func.printHead (f : Func) : Printer := do
  printKeyword f.keyword
  print? f.name
  f.params.opening.print
  f.params.items.print Param.print
  printClosing f.params.closing f.receiver

/-- Writes the trivia of an item of a pragma. -/
def PragmaItem.printTrailing : PragmaItem → Printer
  | .single name => write name.trailing
  | .group colon name => do
    write colon.trailing
    write name.trailing

/-- Writes the trivia of the items of a pragma and of the commas between them. -/
def printPragmaTrailing : Separated PragmaItem → Printer
  | .nil => pure ()
  | .one item => item.printTrailing
  | .more item comma items => do
    item.printTrailing
    write comma.trailing
    printPragmaTrailing items

/-- Prints a pragma as a comment that shows it, then the trivia of all its tokens. -/
def Pragma.print (p : Pragma) : Printer := do
  write ("/* " ++ p.keyword.text ++ " " ++ pragmaText p.items ++ p.semicolon.text ++ " */")
  write p.keyword.trailing
  printPragmaTrailing p.items
  write p.semicolon.trailing

/-- Prints a binary operator. -/
def printOperator (operator : Token) : Printer :=
  if operator.kind = .punct .equal ∨ operator.kind = .punct .unequal then do
    write operator.text
    write "="
    write operator.trailing
  else operator.print

/-- Prints a member of the prototype, or the prototype itself. -/
def printPrototype (colons : Token) (name : Option Token) : Printer := do
  write ".prototype"
  write colons.trailing
  forM name fun n => do
    write "."
    n.print

/-- Prints a member access. -/
def Member.print (m : Member) : Printer := do
  m.dot.print
  m.name.print

/-- Prints a name with members. -/
def DottedName.print (d : DottedName) : Printer := do
  d.first.print
  forM d.members Member.print

/-! ## Trees -/

mutual

/-- Prints an expression: the forms on its stack, one after the other. -/
def Expr.print (e : Expr) : Printer := (e.unwind []).attach.forM fun n => n.val.print
termination_by 2 * sizeOf e + 1
decreasing_by
  -- The last form on the stack is as large as the expression, so an expression counts one more than its forms.
  have := Expr.sizeOf_le_of_mem_unwind n.property
  omega

/-- Prints a form, without its leading operand. -/
def Form.print : Form → Printer
  | .literal t => t.print
  | .ident t => t.print
  | .unary operator operand => do
    operator.print
    operand.print
  | .binary _ operator right => do
    printOperator operator
    right.print
  | .ternary _ question consequent colon alternate => do
    question.print
    consequent.print
    colon.print
    alternate.print
  | .call _ arguments => arguments.print
  | .invoke _ member arguments => do
    member.print
    arguments.print
  | .index _ opening inner closing => do
    opening.print
    inner.print
    closing.print
  | .property _ member => member.print
  | .prototype _ colons name => printPrototype colons name
  | .construct keyword callee arguments => do
    keyword.print
    callee.print
    arguments.print
  | .array elements => elements.print
  | .object opening entries closing => do
    opening.print
    printEntries entries
    closing.print
  | .group opening inner closing => do
    opening.print
    inner.print
    closing.print
  | .function f => f.print
  | .arrow params sign body => do
    write "function "
    params.opening.print
    params.items.print fun p => p.firstToken.print
    params.closing.print
    -- Of the sign only the trivia is left, and it comes after the brace.
    write "\x7b"
    write sign.trailing
    write "return "
    body.print
    write "; \x7d"
  | .simpleArrow sign body => do
    write "function (_) \x7b"
    write sign.trailing
    write "return "
    body.print
    write "; \x7d"
  | .pass mark handler => do
    mark.print
    print? handler
  | .rest name dots => do
    name.print
    dots.print
termination_by n => 2 * sizeOf n.expr
decreasing_by
  all_goals simp [Form.expr] <;> omega

/-- Prints a delimited list. -/
def Enclosed.print : Enclosed → Printer
  | ⟨opening, items, closing⟩ => do
    opening.print
    printExprs items
    closing.print
termination_by list => 2 * sizeOf list

/-- Prints a comma list of expressions. -/
def printExprs : Separated Expr → Printer
  | .nil => pure ()
  | .one e => e.print
  | .more e comma es => do
    e.print
    comma.print
    printExprs es
termination_by es => 2 * sizeOf es

/-- Prints the entries of an object. Of a comma after the last one only the trivia is written. -/
def printEntries : Separated Entry → Printer
  | .nil => pure ()
  | .one ⟨key, colon, value⟩ => do
    key.print
    colon.print
    value.print
  | .more ⟨key, colon, value⟩ comma .nil => do
    key.print
    colon.print
    value.print
    write comma.trailing
  | .more ⟨key, colon, value⟩ comma es => do
    key.print
    colon.print
    value.print
    comma.print
    printEntries es
termination_by es => 2 * sizeOf es

/-- Prints a function. -/
def Func.print : Func → Printer
  | f@⟨_, _, params, receiver, ⟨opening, body, closing⟩⟩ => do
    f.printHead
    -- What the parameters stand for comes between the brace and its trivia.
    write opening.text
    printPrologue params.items.items receiver
    write opening.trailing
    printStmts body
    closing.print
termination_by f => 2 * sizeOf f

/-- Prints a block. -/
def Block.print : Block → Printer
  | ⟨opening, body, closing⟩ => do
    opening.print
    printStmts body
    closing.print
termination_by b => 2 * sizeOf b

/-- Prints a list of statements. -/
def printStmts : List Stmt → Printer
  | [] => pure ()
  | s :: ss => do
    s.print
    printStmts ss
termination_by ss => 2 * sizeOf ss

/-- Prints a statement. -/
def Stmt.print : Stmt → Printer
  | .expr value semicolon => do
    value.print
    semicolon.print
  | .empty semicolon => semicolon.print
  | .conditional first others => printBranches first others
  | .while ⟨keyword, opening, test, closing, body⟩ => do
    keyword.print
    opening.print
    test.print
    closing.print
    body.print
  | .for keyword opening init first test second update closing body => do
    keyword.print
    opening.print
    init.print
    first.print
    printExprs test
    second.print
    printExprs update
    closing.print
    body.print
  | .forIn keyword opening var name inWord object closing body => do
    keyword.print
    opening.print
    print? var
    name.print
    inWord.print
    object.print
    closing.print
    body.print
  | .jump keyword label semicolon => do
    keyword.print
    print? label
    semicolon.print
  | .return keyword none semicolon => do
    keyword.print
    semicolon.print
  | .return keyword (some value) semicolon => do
    keyword.print
    value.print
    semicolon.print
  | .throw keyword value semicolon => do
    keyword.print
    value.print
    semicolon.print
  | .vars list semicolon => do
    list.print
    semicolon.print
  | .function f => f.print
  | .labeled label colon body => do
    label.print
    colon.print
    body.print
  | .switch keyword opening subject closing openBrace clauses closeBrace => do
    keyword.print
    opening.print
    subject.print
    closing.print
    openBrace.print
    printClauses clauses
    closeBrace.print
  | .block b => b.print
  | .include p => p.print
  | .declare p => p.print
termination_by s => 2 * sizeOf s

/-- Prints a branch of a conditional and goes on with the next one. -/
def printBranches : Guarded → Ladder → Printer
  | ⟨keyword, opening, test, closing, body⟩, others => do
    keyword.print
    opening.print
    test.print
    closing.print
    body.print
    match others with
    | .done => pure ()
    | .otherwise word otherBody => do
      word.print
      otherBody.print
    | .branch word next rest => do
      word.print
      printBranches next rest
termination_by branch others => 2 * (sizeOf branch + sizeOf others)

/-- Prints the first part of a `for` head. -/
def ForInit.print : ForInit → Printer
  | .exprs items => printExprs items
  | .vars list => list.print
termination_by init => 2 * sizeOf init

/-- Prints a `var` list. -/
def VarList.print : VarList → Printer
  | ⟨keyword, items⟩ => do
    keyword.print
    printDecls items
termination_by list => 2 * sizeOf list

/-- Prints a comma list of declared names. -/
def printDecls : Separated Decl → Printer
  | .nil => pure ()
  | .one d => d.print
  | .more d comma ds => do
    d.print
    comma.print
    printDecls ds
termination_by ds => 2 * sizeOf ds

/-- Prints a declared name and its initial value. -/
def Decl.print : Decl → Printer
  | ⟨name, none⟩ => name.print
  | ⟨name, some (equals, value)⟩ => do
    name.print
    equals.print
    value.print
termination_by d => 2 * sizeOf d

/-- Prints the clauses of a switch. -/
def printClauses : List Clause → Printer
  | [] => pure ()
  | ⟨keyword, none, colon, body⟩ :: cs => do
    keyword.print
    colon.print
    printStmts body
    printClauses cs
  | ⟨keyword, some test, colon, body⟩ :: cs => do
    keyword.print
    test.print
    colon.print
    printStmts body
    printClauses cs
termination_by cs => 2 * sizeOf cs

end

/-- Prints a program. -/
def Program.print (p : Program) : Printer := do
  write p.preamble
  printStmts p.body
  p.endOfFile.print

end Respell
