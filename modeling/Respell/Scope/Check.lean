import Respell.Scope.Declared
import Respell.Scope.Env

/-!
# Scope faults

The faults of statements and expressions against an environment, in the order in which they are found:
in source order, and inside an expression the leading operand first. A function or an arrow opens a
scope of its own; its parameters, the name of its receiver and the names its body declares are
declared there before its body is looked at.

Each function here puts the faults it finds before those of what follows. So the leading operand is
handled in a tail call, and a chain of any length needs no stack.
-/

namespace Respell

/-- The fault of using a name that the scope does not see. -/
def undeclared (env : Env) (name : Token) : List Fault :=
  if env.sees name.text then [] else [name.fault .notDeclared [name.text]]

/-- The faults of declaring names one after the other: each has to be new to the scope. -/
def redeclarations (env : Env) : List Token → List Fault
  | [] => []
  | name :: tail =>
    (if env.isDeclared name.text then [name.fault .alreadyDeclared [name.text]] else []) ++
      redeclarations (env.declare name.text) tail

/-! ## Parameters -/

/-- The environment after a parameter. The handler of a passed error is claimed, so that nothing inside
    the function can hide it. -/
def Env.bindParam (env : Env) : Param → Env
  | .plain name => env.declare name.text
  | .pass _ (some handler) => env.declare handler.text
  | .pass _ none => env
  | .rest name _ => env.declare name.text

/-- The faults of parameters: a passed error has to stand first, with a handler that the scope around
    the function sees; remaining arguments have to stand last; and no name is declared twice. -/
def paramFaults (outer inner : Env) (first : Bool) : List Param → List Fault
  | [] => []
  | p :: tail =>
    (match p with
      | .plain name => redeclarations inner [name]
      | .pass mark handler =>
        if first then
          match handler with
          | some h => if outer.sees h.text then [] else [mark.fault .notDeclared [h.text]]
          | none => []
        else [mark.fault .misplacedPass []]
      | .rest name _ =>
        if tail.isEmpty then redeclarations inner [name] else [name.fault .misplacedRest []]) ++
      paramFaults outer (inner.bindParam p) false tail

/-- The faults of the parameters of an arrow function: only names, and none twice. -/
def arrowParamFaults (inner : Env) : List Param → List Fault
  | [] => []
  | p :: tail =>
    (match p with
      | .plain name => redeclarations inner [name]
      | _ => [p.firstToken.fault .arrowParameter []]) ++
      arrowParamFaults (inner.bindParam p) tail

/-! ## Scopes of functions -/

/-- The environment of a function before its parameters. A function expression sees its own name. -/
def Func.outset (env : Env) (f : Func) (isDeclaration : Bool) : Env :=
  match f.name, isDeclaration with
  | some name, false => env.fork.inherit name.text
  | _, _ => env.fork

/-- The names that a function declares for its body: its receiver's name, and those of the body. -/
def Func.locals (f : Func) : List Token :=
  (f.receiver.map (·.name)).toList ++ declaredNames true f.body.body

/-- The environment of a function after its parameters. -/
def Func.withParams (env : Env) (f : Func) (isDeclaration : Bool) : Env :=
  f.params.items.items.foldl Env.bindParam (f.outset env isDeclaration)

/-- The environment in which the body of a function is looked at. -/
def Func.scope (env : Env) (f : Func) (isDeclaration : Bool) : Env :=
  (f.withParams env isDeclaration).declareAll (f.locals.map (·.text))

/-- The faults of a function's parameters and of the names its body declares. -/
def Func.headFaults (env : Env) (f : Func) (isDeclaration : Bool) : List Fault :=
  paramFaults env (f.outset env isDeclaration) true f.params.items.items ++
    redeclarations (f.withParams env isDeclaration) f.locals

/-- The environment of an arrow's body. -/
def arrowScope (env : Env) (params : Params) : Env :=
  params.items.items.foldl Env.bindParam env.fork

/-- The parameter of an arrow that names none. -/
def implicitParam : String := "_"

/-! ## Statements and expressions -/

/-- Where a statement stands in its scope. -/
inductive Standing where
  /-- Directly in the program. -/
  | program
  /-- Directly in the body of a function. -/
  | body
  /-- Inside another statement. -/
  | nested
deriving DecidableEq, Repr

/-- The fault of a function declared inside another statement. -/
def Func.standingFaults (f : Func) : Standing → List Fault
  | .nested => [(f.keyword.getD f.params.opening).fault .misplacedFunction []]
  | _ => []

/-- The fault of a pragma that does not stand directly in the program. -/
def Pragma.standingFaults (p : Pragma) (message : Message) : Standing → List Fault
  | .program => []
  | _ => [p.keyword.fault message []]

mutual

/-- The faults of an expression, before those of what follows. -/
def Expr.faults (env : Env) : Expr → List Fault → List Fault
  | .head h, tail => h.faults env tail
  | .suffix leading s, tail => leading.faults env (s.faults env tail)

/-- The faults of a head. -/
def Head.faults (env : Env) : Head → List Fault → List Fault
  | .literal _, tail => tail
  | .ident name, tail => undeclared env name ++ tail
  | .pass mark _, tail => mark.fault .strayPass [] :: tail
  | .rest name _, tail => name.fault .strayRest [] :: tail
  | .unary _ operand, tail => operand.faults env tail
  | .construct _ callee arguments, tail => undeclared env callee.first ++ arguments.faults env tail
  | .array elements, tail => elements.faults env tail
  | .object _ entries _, tail => entriesFaults env entries tail
  | .group _ inner _, tail => inner.faults env tail
  | .function f, tail => f.faults env false tail
  | .arrow params _ body, tail =>
    arrowParamFaults env.fork params.items.items ++ body.faults (arrowScope env params) tail
  | .simpleArrow _ body, tail => body.faults (env.fork.declare implicitParam) tail

/-- The faults of a suffix, without those of its leading operand. -/
def Suffix.faults (env : Env) : Suffix → List Fault → List Fault
  | .binary _ right, tail => right.faults env tail
  | .ternary _ consequent _ alternate, tail => consequent.faults env (alternate.faults env tail)
  | .call arguments, tail => arguments.faults env tail
  | .invoke _ arguments, tail => arguments.faults env tail
  | .index _ inner _, tail => inner.faults env tail
  | .property _, tail => tail
  | .prototype _ _, tail => tail

/-- The faults of a delimited list. -/
def Enclosed.faults (env : Env) : Enclosed → List Fault → List Fault
  | ⟨_, items, _⟩, tail => exprsFaults env items tail

/-- The faults of a comma list of expressions. -/
def exprsFaults (env : Env) : Separated Expr → List Fault → List Fault
  | .nil, tail => tail
  | .one e, tail => e.faults env tail
  | .more e _ es, tail => e.faults env (exprsFaults env es tail)

/-- The faults of the values of an object. -/
def entriesFaults (env : Env) : Separated Entry → List Fault → List Fault
  | .nil, tail => tail
  | .one ⟨_, _, value⟩, tail => value.faults env tail
  | .more ⟨_, _, value⟩ _ es, tail => value.faults env (entriesFaults env es tail)

/-- The faults of a function. -/
def Func.faults (env : Env) : Func → Bool → List Fault → List Fault
  | f@⟨_, _, _, _, ⟨_, body, _⟩⟩, isDeclaration, tail =>
    f.headFaults env isDeclaration ++ stmtsFaults (f.scope env isDeclaration) .body body tail

/-- The faults of a list of statements that all stand alike. -/
def stmtsFaults (env : Env) (standing : Standing) : List Stmt → List Fault → List Fault
  | [], tail => tail
  | s :: ss, tail => s.faults env standing (stmtsFaults env standing ss tail)

/-- The faults of a statement. -/
def Stmt.faults (env : Env) (standing : Standing) : Stmt → List Fault → List Fault
  | .expr value _, tail => value.faults env tail
  | .empty _, tail => tail
  | .conditional first others, tail => first.faults env (others.faults env tail)
  | .while loop, tail => loop.faults env tail
  | .for _ _ init _ test _ update _ body, tail =>
    init.faults env (exprsFaults env test (exprsFaults env update (body.faults env tail)))
  | .forIn _ _ var name _ object _ body, tail =>
    (if var.isNone then undeclared env name else []) ++ object.faults env (body.faults env tail)
  | .jump _ _ _, tail => tail
  | .return _ none _, tail => tail
  | .return _ (some value) _, tail => value.faults env tail
  | .throw _ value _, tail => value.faults env tail
  | .vars list _, tail => list.faults env tail
  | .function f, tail => f.standingFaults standing ++ f.faults env true tail
  | .labeled _ _ body, tail => body.faults env .nested tail
  | .switch _ _ subject _ _ clauses _, tail => subject.faults env (clausesFaults env clauses tail)
  | .block b, tail => b.faults env tail
  | .include p, tail => p.standingFaults .misplacedInclude standing ++ tail
  | .declare p, tail => p.standingFaults .misplacedDeclare standing ++ tail

/-- The faults of a block that is no function's body. -/
def Block.faults (env : Env) : Block → List Fault → List Fault
  | ⟨_, body, _⟩, tail => stmtsFaults env .nested body tail

/-- The faults of a test and the block it guards. -/
def Guarded.faults (env : Env) : Guarded → List Fault → List Fault
  | ⟨_, _, test, _, body⟩, tail => test.faults env (body.faults env tail)

/-- The faults of the branches after the first one. -/
def Ladder.faults (env : Env) : Ladder → List Fault → List Fault
  | .done, tail => tail
  | .otherwise _ body, tail => body.faults env tail
  | .branch _ next others, tail => next.faults env (others.faults env tail)

/-- The faults of the first part of a `for` head. -/
def ForInit.faults (env : Env) : ForInit → List Fault → List Fault
  | .exprs items, tail => exprsFaults env items tail
  | .vars list, tail => list.faults env tail

/-- The faults of the initial values of a `var` list. Its names have been declared before. -/
def VarList.faults (env : Env) : VarList → List Fault → List Fault
  | ⟨_, items⟩, tail => declsFaults env items tail

/-- The faults of initial values. -/
def declsFaults (env : Env) : Separated Decl → List Fault → List Fault
  | .nil, tail => tail
  | .one d, tail => d.faults env tail
  | .more d _ ds, tail => d.faults env (declsFaults env ds tail)

/-- The faults of one initial value. -/
def Decl.faults (env : Env) : Decl → List Fault → List Fault
  | ⟨_, none⟩, tail => tail
  | ⟨_, some (_, value)⟩, tail => value.faults env tail

/-- The faults of the clauses of a switch. -/
def clausesFaults (env : Env) : List Clause → List Fault → List Fault
  | [], tail => tail
  | ⟨_, none, _, body⟩ :: cs, tail => stmtsFaults env .nested body (clausesFaults env cs tail)
  | ⟨_, some test, _, body⟩ :: cs, tail =>
    test.faults env (stmtsFaults env .nested body (clausesFaults env cs tail))

end

end Respell
