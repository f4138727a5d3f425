import Respell.Tree.Basic

/-!
# Expressions by their forms

An expression seen from outside: its form, and the parts that the form has. Seven forms begin with an operand,
and that operand may be of such a form again, so that there is a chain of them. Chains have no limit on their
length, and are gone through in a loop: the forms are put on a stack from the outermost to the innermost, and
are taken off it in the order of the source.
-/

namespace Respell

/-- An expression by its form. -/
inductive Form where
  | literal (token : Token)
  | ident (token : Token)
  | unary (operator : Token) (operand : Expr)
  | binary (left : Expr) (operator : Token) (right : Expr)
  | ternary (test : Expr) (question : Token) (consequent : Expr) (colon : Token) (alternate : Expr)
  | call (callee : Expr) (arguments : Enclosed)
  | invoke (target : Expr) (member : Member) (arguments : Enclosed)
  | index (target : Expr) (opening : Token) (inner : Expr) (closing : Token)
  | property (target : Expr) (member : Member)
  | prototype (target : Expr) (colons : Token) (name : Option Token)
  | construct (keyword : Token) (callee : DottedName) (arguments : Enclosed)
  | array (elements : Enclosed)
  | object (opening : Token) (entries : Separated Entry) (closing : Token)
  | group (opening : Token) (inner : Expr) (closing : Token)
  | function (f : Func)
  | arrow (params : Params) (sign : Token) (body : Expr)
  | simpleArrow (sign : Token) (body : Expr)
  | pass (mark : Token) (handler : Option Token)
  | rest (name : Token) (dots : Token)

/-- The form of an expression. -/
def Expr.form : Expr → Form
  | .head (.literal t) => .literal t
  | .head (.ident t) => .ident t
  | .head (.pass mark handler) => .pass mark handler
  | .head (.rest name dots) => .rest name dots
  | .head (.unary operator operand) => .unary operator operand
  | .head (.construct keyword callee arguments) => .construct keyword callee arguments
  | .head (.array elements) => .array elements
  | .head (.object opening entries closing) => .object opening entries closing
  | .head (.group opening inner closing) => .group opening inner closing
  | .head (.function f) => .function f
  | .head (.arrow params sign body) => .arrow params sign body
  | .head (.simpleArrow sign body) => .simpleArrow sign body
  | .suffix left (.binary operator right) => .binary left operator right
  | .suffix test (.ternary question consequent colon alternate) =>
    .ternary test question consequent colon alternate
  | .suffix callee (.call arguments) => .call callee arguments
  | .suffix target (.invoke member arguments) => .invoke target member arguments
  | .suffix target (.index opening inner closing) => .index target opening inner closing
  | .suffix target (.property member) => .property target member
  | .suffix target (.prototype colons name) => .prototype target colons name

namespace Form

/-- The expression of a form. -/
def expr : Form → Expr
  | literal t => .head (.literal t)
  | ident t => .head (.ident t)
  | unary operator operand => .head (.unary operator operand)
  | binary left operator right => .suffix left (.binary operator right)
  | ternary test question consequent colon alternate =>
    .suffix test (.ternary question consequent colon alternate)
  | call callee arguments => .suffix callee (.call arguments)
  | invoke target member arguments => .suffix target (.invoke member arguments)
  | index target opening inner closing => .suffix target (.index opening inner closing)
  | property target member => .suffix target (.property member)
  | prototype target colons name => .suffix target (.prototype colons name)
  | construct keyword callee arguments => .head (.construct keyword callee arguments)
  | array elements => .head (.array elements)
  | object opening entries closing => .head (.object opening entries closing)
  | group opening inner closing => .head (.group opening inner closing)
  | function f => .head (.function f)
  | arrow params sign body => .head (.arrow params sign body)
  | simpleArrow sign body => .head (.simpleArrow sign body)
  | pass mark handler => .head (.pass mark handler)
  | rest name dots => .head (.rest name dots)

/-- The operand that comes first in the source, if the form has one: the left side of an operator, the test of
    a conditional, or the target of a call, an index or a member access. -/
def leadingOperand? : Form → Option Expr
  | binary left _ _ => some left
  | ternary test _ _ _ _ => some test
  | call callee _ => some callee
  | invoke target _ _ => some target
  | index target _ _ _ => some target
  | property target _ => some target
  | prototype target _ _ => some target
  | _ => none

theorem form_expr (n : Form) : n.expr.form = n := by
  cases n <;> rfl

end Form

namespace Expr

theorem expr_form (e : Expr) : e.form.expr = e := by
  cases e with
  | head h => cases h <;> rfl
  | suffix leading s => cases s <;> rfl

theorem leadingOperand?_head (h : Head) : (Expr.head h).form.leadingOperand? = none := by
  cases h <;> rfl

theorem leadingOperand?_suffix (leading : Expr) (s : Suffix) :
    (Expr.suffix leading s).form.leadingOperand? = some leading := by
  cases s <;> rfl

theorem sizeOf_leadingOperand? {e operand : Expr} (h : e.form.leadingOperand? = some operand) :
    sizeOf operand < sizeOf e := by
  cases e with
  | head hd =>
      rw [leadingOperand?_head] at h
      cases h
  | suffix leading s =>
      rw [leadingOperand?_suffix] at h
      cases h
      rw [Expr.suffix.sizeOf_spec]
      omega

/-- Goes from an expression to the operand that is innermost, and puts the forms it comes through on the
    stack. -/
def unwind (e : Expr) (stack : List Form) : List Form :=
  match h : e.form.leadingOperand? with
  | some operand =>
    have := sizeOf_leadingOperand? h
    operand.unwind (e.form :: stack)
  | none => e.form :: stack
termination_by sizeOf e

theorem sizeOf_le_or_mem_of_mem_unwind {e : Expr} {stack : List Form} {n : Form} (h : n ∈ e.unwind stack) :
    sizeOf n.expr ≤ sizeOf e ∨ n ∈ stack := by
  fun_induction unwind e stack with
  | case1 e stack operand hoperand hlt ih =>
      rcases ih h with hle | hmem
      · exact .inl (by omega)
      · rcases List.mem_cons.mp hmem with rfl | hmem
        · rw [expr_form]
          exact .inl (Nat.le_refl _)
        · exact .inr hmem
  | case2 e stack hnone =>
      rcases List.mem_cons.mp h with rfl | hmem
      · rw [expr_form]
        exact .inl (Nat.le_refl _)
      · exact .inr hmem

theorem sizeOf_le_of_mem_unwind {e : Expr} {n : Form} (h : n ∈ e.unwind []) : sizeOf n.expr ≤ sizeOf e :=
  (sizeOf_le_or_mem_of_mem_unwind h).resolve_right List.not_mem_nil

end Expr

end Respell
