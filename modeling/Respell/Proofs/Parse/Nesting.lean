import Respell.Tree.Basic

/-!
# Nesting

How many levels a tree takes. A statement takes one, and so does every expression that is read for its
own sake; what stands inside them takes further ones. A leading operand is on the level of the
expression it leads, however many suffixes follow, and the branches of a conditional statement are all
on the level of the first one.
-/

namespace Respell

/-- A parameter was read as an expression, and takes one level. -/
def Params.nesting (x : Params) : Nat := if x.items.items.isEmpty then 0 else 1

mutual

/-- The levels of an expression. -/
def Expr.nesting : Expr → Nat
  | .head h => h.nesting + 1
  | .suffix leading s => max leading.nesting (s.nesting + 1)

/-- The levels inside a head. -/
def Head.nesting : Head → Nat
  | .literal _ => 0
  | .ident _ => 0
  | .pass _ _ => 0
  | .rest _ _ => 0
  | .unary _ operand => operand.nesting
  | .construct _ _ arguments => arguments.nesting
  | .array elements => elements.nesting
  | .object _ entries _ => entriesNesting entries
  | .group _ inner _ => inner.nesting
  | .function f => f.nesting
  | .arrow params _ body => max params.nesting body.nesting
  | .simpleArrow _ body => body.nesting

/-- The levels inside a suffix. -/
def Suffix.nesting : Suffix → Nat
  | .binary _ right => right.nesting
  | .ternary _ consequent _ alternate => max consequent.nesting alternate.nesting
  | .call arguments => arguments.nesting
  | .invoke _ arguments => arguments.nesting
  | .index _ inner _ => inner.nesting
  | .property _ => 0
  | .prototype _ _ => 0

/-- The levels inside a delimited list. -/
def Enclosed.nesting : Enclosed → Nat
  | ⟨_, items, _⟩ => exprsNesting items

/-- The levels of a comma list of expressions. -/
def exprsNesting : Separated Expr → Nat
  | .nil => 0
  | .one e => e.nesting
  | .more e _ es => max e.nesting (exprsNesting es)

/-- The levels of the values of an object. -/
def entriesNesting : Separated Entry → Nat
  | .nil => 0
  | .one ⟨_, _, value⟩ => value.nesting
  | .more ⟨_, _, value⟩ _ es => max value.nesting (entriesNesting es)

/-- The levels inside a function. -/
def Func.nesting : Func → Nat
  | ⟨_, _, params, _, body⟩ => max params.nesting body.nesting

/-- The levels inside a block. -/
def Block.nesting : Block → Nat
  | ⟨_, body, _⟩ => stmtsNesting body

/-- The levels of a list of statements. -/
def stmtsNesting : List Stmt → Nat
  | [] => 0
  | s :: ss => max s.nesting (stmtsNesting ss)

/-- The levels of a statement. -/
def Stmt.nesting : Stmt → Nat
  | .expr value _ => value.nesting + 1
  | .empty _ => 1
  | .conditional first others => max first.nesting others.nesting + 1
  | .while loop => loop.nesting + 1
  | .for _ _ init _ test _ update _ body =>
    max (max init.nesting (exprsNesting test)) (max (exprsNesting update) body.nesting) + 1
  | .forIn _ _ _ _ _ object _ body => max object.nesting body.nesting + 1
  | .jump _ _ _ => 1
  | .return _ none _ => 1
  | .return _ (some value) _ => value.nesting + 1
  | .throw _ value _ => value.nesting + 1
  | .vars list _ => list.nesting + 1
  | .function f => f.nesting + 1
  | .labeled _ _ body => body.nesting + 1
  | .switch _ _ subject _ _ clauses _ => max subject.nesting (clausesNesting clauses) + 1
  | .block b => b.nesting + 1
  | .include _ => 1
  | .declare _ => 1

/-- The levels of a test and the block it guards. -/
def Guarded.nesting : Guarded → Nat
  | ⟨_, _, test, _, body⟩ => max test.nesting body.nesting

/-- The levels of the branches after the first one. -/
def Ladder.nesting : Ladder → Nat
  | .done => 0
  | .otherwise _ body => body.nesting
  | .branch _ next others => max next.nesting others.nesting

/-- The levels of the first part of a `for` head. -/
def ForInit.nesting : ForInit → Nat
  | .exprs items => exprsNesting items
  | .vars list => list.nesting

/-- The levels of a `var` list. -/
def VarList.nesting : VarList → Nat
  | ⟨_, items⟩ => declsNesting items

/-- The levels of initial values. -/
def declsNesting : Separated Decl → Nat
  | .nil => 0
  | .one d => d.nesting
  | .more d _ ds => max d.nesting (declsNesting ds)

/-- The levels of one initial value. -/
def Decl.nesting : Decl → Nat
  | ⟨_, none⟩ => 0
  | ⟨_, some (_, value)⟩ => value.nesting

/-- The levels of the clauses of a switch. -/
def clausesNesting : List Clause → Nat
  | [] => 0
  | ⟨_, none, _, body⟩ :: cs => max (stmtsNesting body) (clausesNesting cs)
  | ⟨_, some test, _, body⟩ :: cs =>
    max (max test.nesting (stmtsNesting body)) (clausesNesting cs)

end

/-- Every expression takes a level. -/
theorem Expr.nesting_pos (e : Expr) : 0 < e.nesting := by
  match e with
  | .head h => exact Nat.succ_pos _
  | .suffix leading s =>
      rw [Expr.nesting]
      omega

end Respell
