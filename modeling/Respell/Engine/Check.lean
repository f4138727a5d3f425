import Respell.Scope.Check
import Respell.Tree.Form

/-!
# Checking with loops

The checker of the engine ends at the first fault. Names are declared one after the other in a state; a tree is
looked at part by part. The chain of an expression and the branches of a conditional are gone through in loops.
-/

namespace Respell

/-- What a list of faults amounts to: the first of them, or success. -/
def verdict : List Fault → Except Fault Unit
  | [] => .ok ()
  | f :: _ => .error f

/-! ## Declaring names -/

/-- Declaring names in an environment. It ends at the first fault, and leaves the environment of that moment. -/
abbrev Hoist := EStateM Fault Env Unit

/-- The environment after all names have been declared. -/
def entered (x : Hoist) (env : Env) : Except Fault Env :=
  match x.run env with
  | .ok _ env' => .ok env'
  | .error f _ => .error f

/-- Declares a name that is new to the scope. -/
def declareName (name : Token) : Hoist := do
  if (← get).isDeclared name.text then
    throw (name.fault .alreadyDeclared [name.text])
  else
    modify (·.declare name.text)

/-- Declares the names of a `var` list. -/
def VarList.hoist (list : VarList) : Hoist := forM list.items.items fun d => declareName d.name

mutual

/-- Declares the names of a statement. -/
def Stmt.hoist (direct : Bool) : Stmt → Hoist
  -- A function that is nested in a statement declares nothing. It is refused when the statement is looked at.
  | .function f => if direct then forM f.name declareName else pure ()
  | .vars list _ => list.hoist
  | .conditional first others => hoistBranches first others
  | .while ⟨_, _, _, _, ⟨_, body, _⟩⟩ => hoistStmts false body
  | .for _ _ (.vars list) _ _ _ _ _ ⟨_, body, _⟩ => do
    list.hoist
    hoistStmts false body
  | .for _ _ (.exprs _) _ _ _ _ _ ⟨_, body, _⟩ => hoistStmts false body
  | .forIn _ _ (some _) name _ _ _ ⟨_, body, _⟩ => do
    declareName name
    hoistStmts false body
  | .forIn _ _ none _ _ _ _ ⟨_, body, _⟩ => hoistStmts false body
  | .labeled _ _ body => body.hoist false
  | .switch _ _ _ _ _ clauses _ => hoistClauses clauses
  | .block ⟨_, body, _⟩ => hoistStmts false body
  | .expr _ _ | .empty _ | .jump _ _ _ | .return _ _ _ | .throw _ _ _ | .include _ | .declare _ => pure ()
termination_by s => sizeOf s

/-- Declares the names of a list of statements. -/
def hoistStmts (direct : Bool) : List Stmt → Hoist
  | [] => pure ()
  | s :: ss => do
    s.hoist direct
    hoistStmts direct ss
termination_by ss => sizeOf ss

/-- Declares the names of a branch of a conditional and goes on with the next one. -/
def hoistBranches : Guarded → Ladder → Hoist
  | ⟨_, _, _, _, ⟨_, body, _⟩⟩, others => do
    hoistStmts false body
    match others with
    | .done => pure ()
    | .otherwise _ ⟨_, otherBody, _⟩ => hoistStmts false otherBody
    | .branch _ next rest => hoistBranches next rest
termination_by branch others => sizeOf branch + sizeOf others

/-- Declares the names of the clauses of a switch. -/
def hoistClauses : List Clause → Hoist
  | [] => pure ()
  | ⟨_, _, _, body⟩ :: cs => do
    hoistStmts false body
    hoistClauses cs
termination_by cs => sizeOf cs

end

/-- Declares a parameter, given the environment around the function and where the parameter stands. -/
def Param.enter (outer : Env) (isFirst isLast : Bool) : Param → Hoist
  | .plain name => declareName name
  | .pass mark (some handler) => do
    if isFirst then
      -- The handler is a name of the scopes around. It is declared here too, so that nothing hides it.
      if outer.sees handler.text then
        modify (·.declare handler.text)
      else throw (mark.fault .notDeclared [handler.text])
    else throw (mark.fault .misplacedPass [])
  | .pass mark none => if isFirst then pure () else throw (mark.fault .misplacedPass [])
  | .rest name _ => if isLast then declareName name else throw (name.fault .misplacedRest [])

/-- Declares the parameters of a function. -/
def enterParams (outer : Env) (isFirst : Bool) : List Param → Hoist
  | [] => pure ()
  | p :: ps => do
    p.enter outer isFirst ps.isEmpty
    enterParams outer false ps

/-- Declares a parameter of an arrow. -/
def Param.enterArrow : Param → Hoist
  | .plain name => declareName name
  | p => throw (p.firstToken.fault .arrowParameter [])

/-- Declares everything that a function declares for its body. -/
def Func.enter (outer : Env) (f : Func) : Hoist := do
  enterParams outer true f.params.items.items
  forM f.receiver fun receiver => declareName receiver.name
  hoistStmts true f.body.body

/-! ## Looking at trees -/

/-- A name that is used has to be seen. -/
def requireSeen (env : Env) (name : Token) : Except Fault Unit :=
  if env.sees name.text then .ok () else .error (name.fault .notDeclared [name.text])

mutual

/-- Looks at an expression: at the forms on its stack, one after the other. -/
def Expr.check (env : Env) (e : Expr) : Except Fault Unit :=
  (e.unwind []).attach.forM fun n => n.val.check env
termination_by 2 * sizeOf e + 1
decreasing_by
  -- The last form on the stack is as large as the expression, so an expression counts one more than its forms.
  have := Expr.sizeOf_le_of_mem_unwind n.property
  omega

/-- Looks at a form, without its leading operand. -/
def Form.check (env : Env) : Form → Except Fault Unit
  | .literal _ => pure ()
  | .ident name => requireSeen env name
  | .unary _ operand => operand.check env
  | .binary _ _ right => right.check env
  | .ternary _ _ consequent _ alternate => do
    consequent.check env
    alternate.check env
  | .call _ arguments => arguments.check env
  | .invoke _ _ arguments => arguments.check env
  | .index _ _ inner _ => inner.check env
  | .property _ _ | .prototype _ _ _ => pure ()
  | .construct _ callee arguments => do
    requireSeen env callee.first
    arguments.check env
  | .array elements => elements.check env
  | .object _ entries _ => checkEntries env entries
  | .group _ inner _ => inner.check env
  | .function f => f.check env false
  | .arrow params _ body => do
    let inner ← entered (forM params.items.items Param.enterArrow) env.fork
    body.check inner
  | .simpleArrow _ body => body.check (env.fork.declare implicitParam)
  | .pass mark _ => throw (mark.fault .strayPass [])
  | .rest name _ => throw (name.fault .strayRest [])
termination_by n => 2 * sizeOf n.expr
decreasing_by
  all_goals simp [Form.expr] <;> omega

/-- Looks at a delimited list. -/
def Enclosed.check (env : Env) : Enclosed → Except Fault Unit
  | ⟨_, items, _⟩ => checkExprs env items
termination_by list => 2 * sizeOf list

/-- Looks at a comma list of expressions. -/
def checkExprs (env : Env) : Separated Expr → Except Fault Unit
  | .nil => pure ()
  | .one e => e.check env
  | .more e _ es => do
    e.check env
    checkExprs env es
termination_by es => 2 * sizeOf es

/-- Looks at the values of an object. -/
def checkEntries (env : Env) : Separated Entry → Except Fault Unit
  | .nil => pure ()
  | .one ⟨_, _, value⟩ => value.check env
  | .more ⟨_, _, value⟩ _ es => do
    value.check env
    checkEntries env es
termination_by es => 2 * sizeOf es

/-- Looks at a function: declares its names, then looks at its body. -/
def Func.check (env : Env) : Func → Bool → Except Fault Unit
  | f@⟨_, _, _, _, ⟨_, body, _⟩⟩, isDeclaration => do
    -- All names are declared before the body is looked at, so a use may stand before the declaration.
    let inner ← entered (f.enter env) (f.outset env isDeclaration)
    checkStmts inner .body body
termination_by f => 2 * sizeOf f

/-- Looks at a list of statements that all stand alike. -/
def checkStmts (env : Env) (standing : Standing) : List Stmt → Except Fault Unit
  | [] => pure ()
  | s :: ss => do
    s.check env standing
    checkStmts env standing ss
termination_by ss => 2 * sizeOf ss

/-- Looks at a statement. -/
def Stmt.check (env : Env) (standing : Standing) : Stmt → Except Fault Unit
  | .expr value _ => value.check env
  | .empty _ => pure ()
  | .conditional first others => checkBranches env first others
  | .while ⟨_, _, test, _, body⟩ => do
    test.check env
    body.check env
  | .for _ _ init _ test _ update _ body => do
    init.check env
    checkExprs env test
    checkExprs env update
    body.check env
  | .forIn _ _ none name _ object _ body => do
    requireSeen env name
    object.check env
    body.check env
  | .forIn _ _ (some _) _ _ object _ body => do
    object.check env
    body.check env
  | .jump _ _ _ => pure ()
  | .return _ none _ => pure ()
  | .return _ (some value) _ => value.check env
  | .throw _ value _ => value.check env
  | .vars list _ => list.check env
  | .function f =>
    if standing = .nested then throw ((f.keyword.getD f.params.opening).fault .misplacedFunction [])
    else f.check env true
  | .labeled _ _ body => body.check env .nested
  | .switch _ _ subject _ _ clauses _ => do
    subject.check env
    checkClauses env clauses
  | .block b => b.check env
  | .include p => if standing = .program then pure () else throw (p.keyword.fault .misplacedInclude [])
  | .declare p => if standing = .program then pure () else throw (p.keyword.fault .misplacedDeclare [])
termination_by s => 2 * sizeOf s

/-- Looks at a block that is no function's body. -/
def Block.check (env : Env) : Block → Except Fault Unit
  | ⟨_, body, _⟩ => checkStmts env .nested body
termination_by b => 2 * sizeOf b

/-- Looks at a branch of a conditional and goes on with the next one. -/
def checkBranches (env : Env) : Guarded → Ladder → Except Fault Unit
  | ⟨_, _, test, _, body⟩, others => do
    test.check env
    body.check env
    match others with
    | .done => pure ()
    | .otherwise _ otherBody => otherBody.check env
    | .branch _ next rest => checkBranches env next rest
termination_by branch others => 2 * (sizeOf branch + sizeOf others)

/-- Looks at the first part of a `for` head. -/
def ForInit.check (env : Env) : ForInit → Except Fault Unit
  | .exprs items => checkExprs env items
  | .vars list => list.check env
termination_by init => 2 * sizeOf init

/-- Looks at the initial values of a `var` list. -/
def VarList.check (env : Env) : VarList → Except Fault Unit
  | ⟨_, items⟩ => checkDecls env items
termination_by list => 2 * sizeOf list

/-- Looks at initial values. -/
def checkDecls (env : Env) : Separated Decl → Except Fault Unit
  | .nil => pure ()
  | .one d => d.check env
  | .more d _ ds => do
    d.check env
    checkDecls env ds
termination_by ds => 2 * sizeOf ds

/-- Looks at one initial value. -/
def Decl.check (env : Env) : Decl → Except Fault Unit
  | ⟨_, none⟩ => pure ()
  | ⟨_, some (_, value)⟩ => value.check env
termination_by d => 2 * sizeOf d

/-- Looks at the clauses of a switch. -/
def checkClauses (env : Env) : List Clause → Except Fault Unit
  | [] => pure ()
  | ⟨_, none, _, body⟩ :: cs => do
    checkStmts env .nested body
    checkClauses env cs
  | ⟨_, some test, _, body⟩ :: cs => do
    test.check env
    checkStmts env .nested body
    checkClauses env cs
termination_by cs => 2 * sizeOf cs

end

end Respell
