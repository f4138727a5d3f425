import Respell.Scope.Program

/-!
# The scope rule

When a program is well scoped, said about its tree as a whole: there are no environments here, nothing
is declared step by step, and no order of checking is fixed.

A *scope* is the program, a function or an arrow, with the scopes around it. It declares names and sees
names. A *site* is a place of the tree that the rule speaks about, with the scope it lies in. A program
is well scoped if its pragmas name what exists, if the names it declares are distinct, and if every site
of it is sound.
-/

namespace Respell

/-! ## The names of a body -/

mutual

/-- A statement, and the statements inside it that belong to the same scope. -/
def Stmt.within : Stmt → List Stmt
  | s@(.conditional ⟨_, _, _, _, ⟨_, body, _⟩⟩ others) => s :: (stmtsWithin body ++ others.within)
  | s@(.while ⟨_, _, _, _, ⟨_, body, _⟩⟩) => s :: stmtsWithin body
  | s@(.for _ _ _ _ _ _ _ _ ⟨_, body, _⟩) => s :: stmtsWithin body
  | s@(.forIn _ _ _ _ _ _ _ ⟨_, body, _⟩) => s :: stmtsWithin body
  | s@(.labeled _ _ body) => s :: body.within
  | s@(.switch _ _ _ _ _ clauses _) => s :: clausesWithin clauses
  | s@(.block ⟨_, body, _⟩) => s :: stmtsWithin body
  | s => [s]

/-- The statements of a list, with those inside them that belong to the same scope. -/
def stmtsWithin : List Stmt → List Stmt
  | [] => []
  | s :: ss => s.within ++ stmtsWithin ss

/-- The statements inside the branches after the first one. -/
def Ladder.within : Ladder → List Stmt
  | .done => []
  | .otherwise _ ⟨_, body, _⟩ => stmtsWithin body
  | .branch _ ⟨_, _, _, _, ⟨_, body, _⟩⟩ others => stmtsWithin body ++ others.within

/-- The statements inside the clauses of a switch. -/
def clausesWithin : List Clause → List Stmt
  | [] => []
  | ⟨_, _, _, body⟩ :: cs => stmtsWithin body ++ clausesWithin cs

end

theorem stmtsWithin_eq (ss : List Stmt) : stmtsWithin ss = ss.flatMap Stmt.within := by
  induction ss with
  | nil => rfl
  | cons s ss ih => rw [stmtsWithin, ih, List.flatMap_cons]

/-- The names that the word `var` declares in a statement, not counting the statements inside it. -/
def Stmt.ownVars : Stmt → List Token
  | .vars list _ => list.items.items.map (·.name)
  | .for _ _ (.vars list) _ _ _ _ _ _ => list.items.items.map (·.name)
  | .forIn _ _ (some _) name _ _ _ _ => [name]
  | _ => []

/-- The name of the function that a statement declares. -/
def Stmt.functionName? : Stmt → Option Token
  | .function f => f.name
  | _ => none

/-- The names that a body declares: those of `var` wherever it stands in the scope, and those of the
    functions that stand directly in the body. -/
def bodyNames (body : List Stmt) : List Token :=
  (stmtsWithin body).flatMap Stmt.ownVars ++ body.filterMap Stmt.functionName?

/-! ## The names of pragmas -/

/-- The groups that a program can declare. -/
def groupNames : List String := ["standard", "node", "browser"]

/-- A group has a name for a member: all have the globals of the language, and each host has its own. -/
def GroupLists (group n : String) : Prop :=
  group ∈ groupNames ∧
    (n ∈ Group.standard ∨ (group = "node" ∧ n ∈ Group.node) ∨ (group = "browser" ∧ n ∈ Group.browser))

/-- An item of a pragma makes a name known: it is the name, or the tag of a group with such a member. -/
def PragmaItem.Introduces : PragmaItem → String → Prop
  | .single name, n => n = name.text
  | .group _ name, n => GroupLists name.text n

/-- A pragma among the statements of a program makes a name known. -/
def Program.Introduces (x : Program) (n : String) : Prop :=
  ∃ p, (.include p ∈ x.body ∨ .declare p ∈ x.body) ∧ ∃ item ∈ p.items.items, item.Introduces n

/-! ## Scopes -/

/-- A scope, with the scopes around it. -/
inductive Scope where
  | program (x : Program)
  | function (outer : Scope) (f : Func) (isDeclaration : Bool)
  | arrow (outer : Scope) (params : Params)
  | simpleArrow (outer : Scope)

/-- The name that a parameter takes up in its scope: its own, or that of the handler of an error. -/
def Param.name? : Param → Option Token
  | .plain name => some name
  | .pass _ handler => handler
  | .rest name _ => some name

/-- The names that parameters take up. -/
def paramNames (ps : List Param) : List Token := ps.filterMap Param.name?

/-- The names that a scope declares. -/
def Scope.declared : Scope → List String
  | .program x => (bodyNames x.body).map (·.text)
  | .function _ f _ =>
    (paramNames f.params.items.items ++ (f.receiver.map (·.name)).toList ++
      bodyNames f.body.body).map (·.text)
  | .arrow _ params => (paramNames params.items.items).map (·.text)
  | .simpleArrow _ => [implicitParam]

/-- A name can be used in a scope: the scope declares it, or it is the own name of a function
    expression, or it comes from a pragma, or the scope around sees it. -/
def Scope.Sees : Scope → String → Prop
  | .program x, n => n ∈ (Scope.program x).declared ∨ x.Introduces n
  | .function outer f isDeclaration, n =>
    n ∈ (Scope.function outer f isDeclaration).declared ∨
      (isDeclaration = false ∧ ∃ name, f.name = some name ∧ n = name.text) ∨ outer.Sees n
  | .arrow outer params, n => n ∈ (Scope.arrow outer params).declared ∨ outer.Sees n
  | .simpleArrow outer, n => n ∈ (Scope.simpleArrow outer).declared ∨ outer.Sees n

/-! ## Sites -/

/-- A place of a program that the scope rule speaks about. -/
inductive Site where
  /-- A name that is used: as an expression, after `new`, or in the head of a `for` loop. -/
  | reference (scope : Scope) (name : Token)
  /-- A function, in the scope around it. -/
  | function (scope : Scope) (f : Func) (isDeclaration : Bool)
  /-- An arrow with parameters, in the scope around it. -/
  | arrow (scope : Scope) (params : Params)
  | declaration (standing : Standing) (f : Func)
  | pragma (standing : Standing) (p : Pragma)
  /-- An `@` or a name with `...` that stands where no parameter does. -/
  | stray (mark : Token)

/-- Parameters stand where they may: a passed error only first, remaining arguments only last. -/
def ParamsPlaced (ps : List Param) : Prop :=
  (∀ mark handler, .pass mark handler ∉ ps.tail) ∧ ∀ name dots, .rest name dots ∉ ps.dropLast

/-- The rule for a site. -/
def Site.Sound : Site → Prop
  | .reference scope name => scope.Sees name.text
  | .function scope f isDeclaration =>
    ParamsPlaced f.params.items.items ∧
      (∀ mark handler, .pass mark (some handler) ∈ f.params.items.items → scope.Sees handler.text) ∧
      (Scope.function scope f isDeclaration).declared.Nodup
  | .arrow scope params =>
    (∀ x ∈ params.items.items, ∃ name, x = .plain name) ∧ (Scope.arrow scope params).declared.Nodup
  | .declaration standing _ => standing ≠ .nested
  | .pragma standing _ => standing = .program
  | .stray _ => False

mutual

/-- The sites of an expression. -/
def Expr.sites (scope : Scope) : Expr → List Site
  | .head h => h.sites scope
  | .suffix leading s => leading.sites scope ++ s.sites scope

/-- The sites of a head. -/
def Head.sites (scope : Scope) : Head → List Site
  | .literal _ => []
  | .ident name => [.reference scope name]
  | .pass mark _ => [.stray mark]
  | .rest name _ => [.stray name]
  | .unary _ operand => operand.sites scope
  | .construct _ callee arguments => .reference scope callee.first :: arguments.sites scope
  | .array elements => elements.sites scope
  | .object _ entries _ => entriesSites scope entries
  | .group _ inner _ => inner.sites scope
  | .function f => f.sites scope false
  | .arrow params _ body => .arrow scope params :: body.sites (.arrow scope params)
  | .simpleArrow _ body => body.sites (.simpleArrow scope)

/-- The sites of a suffix. -/
def Suffix.sites (scope : Scope) : Suffix → List Site
  | .binary _ right => right.sites scope
  | .ternary _ consequent _ alternate => consequent.sites scope ++ alternate.sites scope
  | .call arguments => arguments.sites scope
  | .invoke _ arguments => arguments.sites scope
  | .index _ inner _ => inner.sites scope
  | .property _ => []
  | .prototype _ _ => []

/-- The sites of a delimited list. -/
def Enclosed.sites (scope : Scope) : Enclosed → List Site
  | ⟨_, items, _⟩ => exprsSites scope items

/-- The sites of a comma list of expressions. -/
def exprsSites (scope : Scope) : Separated Expr → List Site
  | .nil => []
  | .one e => e.sites scope
  | .more e _ es => e.sites scope ++ exprsSites scope es

/-- The sites of the values of an object. -/
def entriesSites (scope : Scope) : Separated Entry → List Site
  | .nil => []
  | .one ⟨_, _, value⟩ => value.sites scope
  | .more ⟨_, _, value⟩ _ es => value.sites scope ++ entriesSites scope es

/-- The sites of a function: itself, and those of its body. -/
def Func.sites (scope : Scope) : Func → Bool → List Site
  | f@⟨_, _, _, _, ⟨_, body, _⟩⟩, isDeclaration =>
    .function scope f isDeclaration :: stmtsSites (.function scope f isDeclaration) .body body

/-- The sites of a list of statements that all stand alike. -/
def stmtsSites (scope : Scope) (standing : Standing) : List Stmt → List Site
  | [] => []
  | s :: ss => s.sites scope standing ++ stmtsSites scope standing ss

/-- The sites of a statement. -/
def Stmt.sites (scope : Scope) (standing : Standing) : Stmt → List Site
  | .expr value _ => value.sites scope
  | .empty _ => []
  | .conditional first others => first.sites scope ++ others.sites scope
  | .while loop => loop.sites scope
  | .for _ _ init _ test _ update _ body =>
    init.sites scope ++ exprsSites scope test ++ exprsSites scope update ++ body.sites scope
  | .forIn _ _ none name _ object _ body =>
    .reference scope name :: (object.sites scope ++ body.sites scope)
  | .forIn _ _ (some _) _ _ object _ body => object.sites scope ++ body.sites scope
  | .jump _ _ _ => []
  | .return _ none _ => []
  | .return _ (some value) _ => value.sites scope
  | .throw _ value _ => value.sites scope
  | .vars list _ => list.sites scope
  | .function f => .declaration standing f :: f.sites scope true
  | .labeled _ _ body => body.sites scope .nested
  | .switch _ _ subject _ _ clauses _ => subject.sites scope ++ clausesSites scope clauses
  | .block b => b.sites scope
  | .include p => [.pragma standing p]
  | .declare p => [.pragma standing p]

/-- The sites of a block that is no function's body. -/
def Block.sites (scope : Scope) : Block → List Site
  | ⟨_, body, _⟩ => stmtsSites scope .nested body

/-- The sites of a test and the block it guards. -/
def Guarded.sites (scope : Scope) : Guarded → List Site
  | ⟨_, _, test, _, body⟩ => test.sites scope ++ body.sites scope

/-- The sites of the branches after the first one. -/
def Ladder.sites (scope : Scope) : Ladder → List Site
  | .done => []
  | .otherwise _ body => body.sites scope
  | .branch _ next others => next.sites scope ++ others.sites scope

/-- The sites of the first part of a `for` head. -/
def ForInit.sites (scope : Scope) : ForInit → List Site
  | .exprs items => exprsSites scope items
  | .vars list => list.sites scope

/-- The sites of a `var` list, which are those of its initial values. -/
def VarList.sites (scope : Scope) : VarList → List Site
  | ⟨_, items⟩ => declsSites scope items

/-- The sites of initial values. -/
def declsSites (scope : Scope) : Separated Decl → List Site
  | .nil => []
  | .one d => d.sites scope
  | .more d _ ds => d.sites scope ++ declsSites scope ds

/-- The sites of one initial value. -/
def Decl.sites (scope : Scope) : Decl → List Site
  | ⟨_, none⟩ => []
  | ⟨_, some (_, value)⟩ => value.sites scope

/-- The sites of the clauses of a switch. -/
def clausesSites (scope : Scope) : List Clause → List Site
  | [] => []
  | ⟨_, none, _, body⟩ :: cs => stmtsSites scope .nested body ++ clausesSites scope cs
  | ⟨_, some test, _, body⟩ :: cs =>
    test.sites scope ++ stmtsSites scope .nested body ++ clausesSites scope cs

end

/-- The sites of a program. -/
def Program.sites (x : Program) : List Site := stmtsSites (.program x) .program x.body

/-- The scope rule. -/
structure Program.WellScoped (x : Program) : Prop where
  /-- What is included is a helper. -/
  helpers_exist : ∀ p, .include p ∈ x.body → ∀ item ∈ p.items.items,
    ∃ name, item = .single name ∧ ∃ helper ∈ Helper.all, helper.name = name.text
  /-- A group that is declared is one of the groups there are. -/
  groups_exist : ∀ p, .declare p ∈ x.body → ∀ colon name, .group colon name ∈ p.items.items →
    name.text ∈ groupNames
  /-- The program declares no name twice. -/
  declared_nodup : (Scope.program x).declared.Nodup
  /-- The program declares no name that a pragma makes known. -/
  declared_fresh : ∀ n ∈ (Scope.program x).declared, ¬ x.Introduces n
  /-- All uses of names, functions, arrows and pragmas are as they should be. -/
  sites_sound : ∀ s ∈ x.sites, s.Sound

end Respell
