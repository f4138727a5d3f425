import Respell.Proofs.Parse.Formed

/-!
# The expressions of a tree

The expressions of a program are those inside its statements, at any depth. While one of them is read, it begins
with a head and grows suffix by suffix: what it has grown to is the leading operand of the next suffix.
-/

namespace Respell

open Text Respell.Parser

/-! ## Expressions inside trees -/

mutual

/-- An expression, and the expressions inside it. -/
def Expr.subexprs : Expr → List Expr
  | e@(.head h) => e :: h.subexprs
  | e@(.suffix leading s) => e :: (leading.subexprs ++ s.subexprs)

/-- The expressions inside a head. -/
def Head.subexprs : Head → List Expr
  | .literal _ => []
  | .ident _ => []
  | .pass _ _ => []
  | .rest _ _ => []
  | .unary _ operand => operand.subexprs
  | .construct _ _ arguments => arguments.subexprs
  | .array elements => elements.subexprs
  | .object _ entries _ => entriesSubexprs entries
  | .group _ inner _ => inner.subexprs
  | .function f => f.subexprs
  | .arrow _ _ body => body.subexprs
  | .simpleArrow _ body => body.subexprs

/-- The expressions inside a suffix, which its leading operand does not belong to. -/
def Suffix.subexprs : Suffix → List Expr
  | .binary _ right => right.subexprs
  | .ternary _ consequent _ alternate => consequent.subexprs ++ alternate.subexprs
  | .call arguments => arguments.subexprs
  | .invoke _ arguments => arguments.subexprs
  | .index _ inner _ => inner.subexprs
  | .property _ => []
  | .prototype _ _ => []

/-- The expressions of a delimited list. -/
def Enclosed.subexprs : Enclosed → List Expr
  | ⟨_, items, _⟩ => exprsSubexprs items

/-- The expressions of a comma list. -/
def exprsSubexprs : Separated Expr → List Expr
  | .nil => []
  | .one e => e.subexprs
  | .more e _ es => e.subexprs ++ exprsSubexprs es

/-- The expressions of the values of an object. -/
def entriesSubexprs : Separated Entry → List Expr
  | .nil => []
  | .one ⟨_, _, value⟩ => value.subexprs
  | .more ⟨_, _, value⟩ _ es => value.subexprs ++ entriesSubexprs es

/-- The expressions of a function. Its parameters are none. -/
def Func.subexprs : Func → List Expr
  | ⟨_, _, _, _, body⟩ => body.subexprs

/-- The expressions of a block. -/
def Block.subexprs : Block → List Expr
  | ⟨_, body, _⟩ => stmtsSubexprs body

/-- The expressions of a list of statements. -/
def stmtsSubexprs : List Stmt → List Expr
  | [] => []
  | s :: ss => s.subexprs ++ stmtsSubexprs ss

/-- The expressions of a statement. -/
def Stmt.subexprs : Stmt → List Expr
  | .expr value _ => value.subexprs
  | .empty _ => []
  | .conditional first others => first.subexprs ++ others.subexprs
  | .while loop => loop.subexprs
  | .for _ _ init _ test _ update _ body =>
    init.subexprs ++ exprsSubexprs test ++ exprsSubexprs update ++ body.subexprs
  | .forIn _ _ _ _ _ object _ body => object.subexprs ++ body.subexprs
  | .jump _ _ _ => []
  | .return _ none _ => []
  | .return _ (some value) _ => value.subexprs
  | .throw _ value _ => value.subexprs
  | .vars list _ => list.subexprs
  | .function f => f.subexprs
  | .labeled _ _ body => body.subexprs
  | .switch _ _ subject _ _ clauses _ => subject.subexprs ++ clausesSubexprs clauses
  | .block b => b.subexprs
  | .include _ => []
  | .declare _ => []

/-- The expressions of a test and the block it guards. -/
def Guarded.subexprs : Guarded → List Expr
  | ⟨_, _, test, _, body⟩ => test.subexprs ++ body.subexprs

/-- The expressions of the branches after the first one. -/
def Ladder.subexprs : Ladder → List Expr
  | .done => []
  | .otherwise _ body => body.subexprs
  | .branch _ next others => next.subexprs ++ others.subexprs

/-- The expressions of the first part of a `for` head. -/
def ForInit.subexprs : ForInit → List Expr
  | .exprs items => exprsSubexprs items
  | .vars list => list.subexprs

/-- The expressions of a `var` list. -/
def VarList.subexprs : VarList → List Expr
  | ⟨_, items⟩ => declsSubexprs items

/-- The expressions of initial values. -/
def declsSubexprs : Separated Decl → List Expr
  | .nil => []
  | .one d => d.subexprs
  | .more d _ ds => d.subexprs ++ declsSubexprs ds

/-- The expressions of one initial value. -/
def Decl.subexprs : Decl → List Expr
  | ⟨_, none⟩ => []
  | ⟨_, some (_, value)⟩ => value.subexprs

/-- The expressions of the clauses of a switch. -/
def clausesSubexprs : List Clause → List Expr
  | [] => []
  | ⟨_, none, _, body⟩ :: cs => stmtsSubexprs body ++ clausesSubexprs cs
  | ⟨_, some test, _, body⟩ :: cs =>
    test.subexprs ++ stmtsSubexprs body ++ clausesSubexprs cs

end

/-- The expressions of a program. -/
def Program.subexprs (x : Program) : List Expr := stmtsSubexprs x.body

namespace Parser

/-! ## How expressions grow -/

/-- While an expression was read from `p` on, it had grown to `e` at `q`. -/
inductive Grows (inner : Inner) (colon : Colon) (threshold : Precedence) (p : Place) :
    Expr → Place → Prop where
  | head {h : Head} {q : Place} :
      HeadRule inner colon p h q → Grows inner colon threshold p (.head h) q
  | round {e e' : Expr} {q r : Place} :
      Grows inner colon threshold p e q → RoundRule inner colon threshold e q (some e') r →
      Grows inner colon threshold p e' r

variable {inner : Inner} {colon : Colon} {threshold : Precedence} {p q r : Place}

theorem Grows.growth {e e' : Expr} (h : Grows inner colon threshold p e q)
    (hgrowth : Growth (suffix? inner colon threshold) e q e' r) :
    Grows inner colon threshold p e' r := by
  induction hgrowth with
  | refl => exact h
  | stop hround =>
      -- A round that adds nothing stays where it is.
      cases suffix?_ok hround with
      | weak => exact h
      | stop => exact h
  | step hround _ ih => exact ih (h.round (suffix?_ok hround))

theorem expression_grows {e : Expr} (h : expression inner colon threshold p = .ok (e, q)) :
    Grows inner colon threshold p e q := by
  obtain ⟨first, p₁, hfirst, hgrowth⟩ := expression_ok h
  exact (Grows.head hfirst).growth hgrowth

end Parser

end Respell
