import Respell.Proofs.Engine.Check
import Respell.Proofs.Engine.Print

/-!
# Walking chains and ladders

Two parts of a tree have no limit on their length although nothing in them is nested: the chain of leading operands
of an expression, and the `else if` branches of a conditional. The engine walks along them in loops. It comes to
the same as two kinds of recursion:

- recursion on the leading operand, and on the branches after the first one, with the engine for every other part;
- recursion on whole trees, which puts the pieces or the faults of every part before those of what follows.
-/

namespace Respell

/-- An expression is printed and checked as by recursion: its leading operand first, then the rest of it. -/
structure Expr.WalkedInOrder (e : Expr) : Prop where
  /-- The form of an expression, of which the leading operand is a part, is the whole expression. -/
  form : e.form.expr = e
  printed_by_recursion : e.print = e.recursively Form.print
  printed (out : String) : e.print.onto out = out ++ Piece.join (e.pieces [])
  /-- Its text comes between that of what stands before it and after it. -/
  printed_between (front tail : List Piece) :
    Piece.join (front ++ e.pieces tail) = e.print.onto (Piece.join front) ++ Piece.join tail
  checked_by_recursion (env : Env) : e.check env = e.recursively (Form.check env)
  /-- The outcome is success, or the same first fault. -/
  checked (env : Env) : e.check env = verdict (e.faults env [])
  /-- What follows decides only if there is no fault. -/
  checked_before (env : Env) (tail : List Fault) : verdict (e.faults env tail) = (do e.check env; verdict tail)

/-- A conditional is printed and checked, and its names are declared, as by recursion on its ladder. -/
structure WalkedByBranches (first : Guarded) (others : Ladder) : Prop where
  printed_by_recursion : printBranches first others = (do first.print; others.print)
  printed (out : String) :
    (printBranches first others).onto out = out ++ Piece.join ((Stmt.conditional first others).pieces [])
  printed_between (front tail : List Piece) :
    Piece.join (front ++ (Stmt.conditional first others).pieces tail) =
      (printBranches first others).onto (Piece.join front) ++ Piece.join tail
  checked_by_recursion (env : Env) :
    checkBranches env first others = (do first.check env; others.check env)
  checked (env : Env) (standing : Standing) :
    checkBranches env first others = verdict ((Stmt.conditional first others).faults env standing [])
  checked_before (env : Env) (standing : Standing) (tail : List Fault) :
    verdict ((Stmt.conditional first others).faults env standing tail) =
      (do checkBranches env first others; verdict tail)
  hoisted_by_recursion : hoistBranches first others = (do hoistStmts false first.body.body; others.hoist)
  /-- The same names are declared in the same order, so also a fault leaves the same environment. -/
  hoisted (direct : Bool) :
    hoistBranches first others = forM ((Stmt.conditional first others).declared direct) declareName
  /-- If the scope has declared none of the names before, its environment is the one with all of them. -/
  hoisted_all (env : Env) (direct : Bool) :
    entered (hoistBranches first others) env = (do
      verdict (redeclarations env ((Stmt.conditional first others).declared direct))
      pure (env.declareAll (((Stmt.conditional first others).declared direct).map (·.text))))

/-- Pieces in the middle of others. -/
theorem Prints.between {x : Printer} {ps tail : List Piece} (h : Prints x ps tail) (front : List Piece) :
    Piece.join (front ++ ps) = x.onto (Piece.join front) ++ Piece.join tail := by
  rw [h (Piece.join front)]
  simp [Piece.join]

theorem Finds.alone {x : Except Fault Unit} {fs : List Fault} (h : Finds x fs []) : x = verdict fs := by
  rw [show verdict fs = _ from h]
  exact bind_pure_unit.symm

theorem Expr.walkedInOrder (e : Expr) : e.WalkedInOrder where
  form := e.expr_form
  printed_by_recursion := e.print_eq
  printed := (e.puts []).prints.alone
  printed_between front tail := (e.puts tail).prints.between front
  checked_by_recursion env := e.check_eq env
  checked env := (e.finds env []).alone
  checked_before env tail := e.finds env tail

theorem walkedByBranches (first : Guarded) (others : Ladder) : WalkedByBranches first others := by
  have hprint (tail : List Piece) : Prints (printBranches first others)
      ((Stmt.conditional first others).pieces tail) tail := by
    rw [printBranches_eq]
    exact (first.puts _).prints.seq (others.puts tail).prints
  have hcheck (env : Env) (standing : Standing) (tail : List Fault) : Finds (checkBranches env first others)
      ((Stmt.conditional first others).faults env standing tail) tail := by
    rw [checkBranches_eq]
    exact (first.finds env _).seq (others.finds env tail)
  have hhoist (direct : Bool) :
      hoistBranches first others = forM ((Stmt.conditional first others).declared direct) declareName := by
    -- What is proved by recursion on statements is used for one statement.
    have h := (Stmt.conditional first others).hoist_eq direct
    rwa [Stmt.hoist] at h
  exact {
    printed_by_recursion := printBranches_eq others first
    printed := (hprint []).alone
    printed_between := fun front tail => (hprint tail).between front
    checked_by_recursion := fun env => checkBranches_eq env others first
    checked := fun env standing => (hcheck env standing []).alone
    checked_before := hcheck
    hoisted_by_recursion := hoistBranches_eq others first
    hoisted := hhoist
    hoisted_all := fun env direct => by
      rw [hhoist direct]
      exact settles_declareAll _ env }

/-- Loops and recursion agree on every expression, and so on every form, and on every conditional. -/
theorem walkers_eq_recursion :
    (∀ n : Form, n.expr.form = n) ∧ (∀ e : Expr, e.WalkedInOrder) ∧
      ∀ (first : Guarded) (others : Ladder), WalkedByBranches first others :=
  ⟨Form.form_expr, Expr.walkedInOrder, walkedByBranches⟩

end Respell
