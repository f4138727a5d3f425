import Respell.Tree.Form

/-!
# Chains by recursion

The chain of an expression gone through by plain recursion: the leading operand first, then the rest of the
expression. A loop that takes the forms off their stack comes to the same, whatever is done with a form.
-/

namespace Respell

namespace Expr

variable {m : Type → Type} [Monad m]

/-- Does something with the leading operand by recursion, then with the form itself. -/
def recursively (visit : Form → m Unit) (e : Expr) : m Unit :=
  match h : e.form.leadingOperand? with
  | some operand =>
    have := sizeOf_leadingOperand? h
    do
      operand.recursively visit
      visit e.form
  | none => visit e.form
termination_by sizeOf e

variable (visit : Form → m Unit)

theorem recursively_of_none {e : Expr} (h : e.form.leadingOperand? = none) :
    e.recursively visit = visit e.form := by
  rw [recursively]
  split
  · next operand hoperand =>
      rw [h] at hoperand
      cases hoperand
  · rfl

theorem recursively_of_some {e operand : Expr} (h : e.form.leadingOperand? = some operand) :
    e.recursively visit = (do operand.recursively visit; visit e.form) := by
  rw [recursively]
  split
  · next operand' hoperand =>
      rw [h] at hoperand
      cases hoperand
      rfl
  · next hnone =>
      rw [h] at hnone
      cases hnone

variable [LawfulMonad m]

theorem forM_unwind (e : Expr) (stack : List Form) :
    forM (e.unwind stack) visit = (do e.recursively visit; forM stack visit) := by
  fun_induction unwind e stack with
  | case1 e stack operand hoperand hlt ih =>
      -- The form of this expression lies on top of the stack, so it comes right after the leading operand.
      rw [ih, List.forM_cons, recursively_of_some visit hoperand, bind_assoc]
  | case2 e stack hnone => rw [List.forM_cons, recursively_of_none visit hnone]

/-- The loop over the whole chain is the recursion. -/
theorem forM_attach_unwind (e : Expr) :
    (e.unwind []).attach.forM (fun n => visit n.val) = e.recursively visit := by
  have hmap : forM ((e.unwind []).attach.map Subtype.val) visit = e.recursively visit := by
    rw [List.attach_map_subtype_val, forM_unwind]
    exact bind_pure_unit
  rwa [List.forM_map] at hmap

end Expr

end Respell
