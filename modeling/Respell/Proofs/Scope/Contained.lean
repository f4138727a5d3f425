import Respell.Proofs.Parse.Statements
import Respell.Proofs.Scope.Binding

/-!
# Where contained statements stand

Every part of a program, at any depth, has its sites among those of the program, and a statement stands there as it
does: directly in the program only if it is one of the program's own statements. The step is from a spot to
the spots right inside it. So a rule about sites is a rule about all statements, and in a well-scoped program
no pragma is hidden inside another statement.
-/

namespace Respell

open Respell.Parser

/-- The statement's sites, where it stands, are among those of the program; and it stands directly in the
    program only if it is one of its statements. -/
def Program.Sites (x : Program) (s : Stmt) : Prop :=
  ∃ scope standing, s.sites scope standing ⊆ x.sites ∧ (standing = .program → s ∈ x.body)

/-- The sites of the part are among those of the program. -/
def Node.Sited (x : Program) : Node → Prop
  | .expr e => ∃ scope, e.sites scope ⊆ x.sites
  | .stmt s => x.Sites s

/-- All the spots have their sites among those of the program. -/
def AllSited (x : Program) (spots : List Spot) : Prop := ∀ s ∈ spots, s.node.Sited x

/-! ## Parts of parts -/

namespace AllSited

variable {x : Program} {scope : Scope} {colon : Colon} {after : List Token}

theorem nil : AllSited x [] := List.forall_mem_nil _

theorem append {ss ss' : List Spot} (h : AllSited x ss) (h' : AllSited x ss') : AllSited x (ss ++ ss') :=
  List.forall_mem_append.mpr ⟨h, h'⟩

theorem expr {e : Expr} (h : e.sites scope ⊆ x.sites) : AllSited x (e.spot colon after) :=
  List.forall_mem_singleton.mpr ⟨scope, h⟩

theorem exprs {es : Separated Expr} (h : exprsSites scope es ⊆ x.sites) :
    AllSited x (exprSpots colon after es) := by
  induction es with
  | nil => exact nil
  | one e => exact expr h
  | more e comma es ih =>
      obtain ⟨he, hes⟩ := List.append_subset.mp h
      exact (expr he).append (ih hes)

theorem enclosed {e : Enclosed} (h : e.sites scope ⊆ x.sites) : AllSited x (e.spots colon after) := by
  obtain ⟨opening, items, closing⟩ := e
  exact exprs h

theorem entries {es : Separated Entry} (h : entriesSites scope es ⊆ x.sites) :
    AllSited x (es.spots Entry.tokens (Entry.spots colon) after) := by
  induction es with
  | nil => exact nil
  | one e =>
      obtain ⟨key, c, value⟩ := e
      exact expr h
  | more e comma es ih =>
      obtain ⟨key, c, value⟩ := e
      obtain ⟨hvalue, hes⟩ := List.append_subset.mp h
      exact (expr hvalue).append (ih hes)

/-- Statements that all stand alike, directly in the program only if they are its own. -/
theorem stmts {standing : Standing} {ss : List Stmt} (h : stmtsSites scope standing ss ⊆ x.sites)
    (hdirect : standing = .program → ss ⊆ x.body) : AllSited x (stmtSpots after ss) := by
  induction ss with
  | nil => exact nil
  | cons s ss ih =>
      obtain ⟨hs, hss⟩ := List.append_subset.mp h
      have hfirst : x.Sites s := ⟨scope, standing, hs, fun hp => (List.cons_subset.mp (hdirect hp)).1⟩
      exact append (List.forall_mem_singleton.mpr hfirst)
        (ih hss fun hp => (List.cons_subset.mp (hdirect hp)).2)

theorem block {b : Block} (h : b.sites scope ⊆ x.sites) : AllSited x (b.spots after) := by
  obtain ⟨opening, body, closing⟩ := b
  exact stmts h nofun

theorem function {f : Func} {isDeclaration : Bool} (h : f.sites scope isDeclaration ⊆ x.sites) :
    AllSited x (f.body.spots after) := by
  rw [f.sites_eq] at h
  exact stmts (List.cons_subset.mp h).2 nofun

theorem head {h : Head} (hsites : h.sites scope ⊆ x.sites) : AllSited x (h.spots colon after) := by
  cases h with
  | unary operator operand => exact expr hsites
  | construct keyword callee arguments => exact enclosed (List.cons_subset.mp hsites).2
  | array elements => exact enclosed hsites
  | object opening items closing => exact entries hsites
  | group opening inner closing => exact expr hsites
  | function f => exact function hsites
  | arrow params sign body => exact expr (List.cons_subset.mp hsites).2
  | simpleArrow sign body => exact expr hsites
  | _ => exact nil

theorem suffix {s : Suffix} (hsites : s.sites scope ⊆ x.sites) : AllSited x (s.spots colon after) := by
  cases s with
  | binary operator right => exact expr hsites
  | ternary question consequent c alternate =>
      obtain ⟨hconsequent, halternate⟩ := List.append_subset.mp hsites
      exact (expr hconsequent).append (expr halternate)
  | call arguments => exact enclosed hsites
  | invoke member arguments => exact enclosed hsites
  | index opening inner closing => exact expr hsites
  | _ => exact nil

theorem expression {e : Expr} (h : e.sites scope ⊆ x.sites) : AllSited x (e.spots colon after) := by
  cases e with
  | head first => exact head h
  | suffix leading s =>
      obtain ⟨hleading, hs⟩ := List.append_subset.mp h
      exact (expr hleading).append (suffix hs)

theorem guarded {g : Guarded} (h : g.sites scope ⊆ x.sites) : AllSited x (g.spots after) := by
  obtain ⟨keyword, opening, test, closing, body⟩ := g
  obtain ⟨htest, hbody⟩ := List.append_subset.mp h
  exact (expr htest).append (block hbody)

theorem ladder (l : Ladder) (h : l.sites scope ⊆ x.sites) : AllSited x (l.spots after) := by
  cases l with
  | done => exact nil
  | otherwise keyword body => exact block h
  | branch keyword next others =>
      obtain ⟨hnext, hothers⟩ := List.append_subset.mp h
      exact (guarded hnext).append (ladder others hothers)

theorem varList {l : VarList} (h : l.sites scope ⊆ x.sites) : AllSited x (l.spots after) := by
  have hdecl {d : Decl} {after : List Token} (hd : d.sites scope ⊆ x.sites) :
      AllSited x (d.spots after) := by
    obtain ⟨name, init⟩ := d
    cases init with
    | none => exact nil
    | some init => exact expr hd
  obtain ⟨keyword, items⟩ := l
  induction items with
  | nil => exact nil
  | one d => exact hdecl h
  | more d comma ds ih =>
      obtain ⟨hd, hds⟩ := List.append_subset.mp h
      exact append (hdecl hd) (ih hds)

theorem clauses {cs : List Clause} (h : clausesSites scope cs ⊆ x.sites) :
    AllSited x (listSpots Clause.tokens Clause.spots after cs) := by
  induction cs with
  | nil => exact nil
  | cons c cs ih =>
      obtain ⟨keyword, test, c, body⟩ := c
      cases test with
      | none =>
          obtain ⟨hbody, hcs⟩ := List.append_subset.mp h
          exact append (stmts hbody nofun) (ih hcs)
      | some test =>
          obtain ⟨hc, hcs⟩ := List.append_subset.mp h
          obtain ⟨htest, hbody⟩ := List.append_subset.mp hc
          exact append ((expr htest).append (stmts hbody nofun)) (ih hcs)

theorem statement {s : Stmt} {standing : Standing} (h : s.sites scope standing ⊆ x.sites) :
    AllSited x (s.spots after) := by
  cases s with
  | expr value semicolon => exact expr h
  | conditional first others =>
      obtain ⟨hfirst, hothers⟩ := List.append_subset.mp h
      exact (guarded hfirst).append (ladder others hothers)
  | «while» loop => exact guarded h
  | «for» keyword opening init first test second update closing body =>
      obtain ⟨h, hbody⟩ := List.append_subset.mp h
      obtain ⟨h, hupdate⟩ := List.append_subset.mp h
      obtain ⟨hinit, htest⟩ := List.append_subset.mp h
      refine append (append (append ?_ (exprs htest)) (exprs hupdate)) (block hbody)
      cases init with
      | exprs items => exact exprs hinit
      | vars list => exact varList hinit
  | forIn keyword opening var name inWord object closing body =>
      have hparts : object.sites scope ++ body.sites scope ⊆ x.sites := by
        cases var with
        | none => exact (List.cons_subset.mp h).2
        | some var => exact h
      obtain ⟨hobject, hbody⟩ := List.append_subset.mp hparts
      exact (expr hobject).append (block hbody)
  | «return» keyword value semicolon =>
      cases value with
      | none => exact nil
      | some value => exact expr h
  | throw keyword value semicolon => exact expr h
  | vars list semicolon => exact varList h
  | function f => exact function (List.cons_subset.mp h).2
  | labeled label c body =>
      exact List.forall_mem_singleton.mpr (show x.Sites body from ⟨scope, .nested, h, nofun⟩)
  | switch keyword opening subject closing openBrace cs closeBrace =>
      obtain ⟨hsubject, hcs⟩ := List.append_subset.mp h
      exact (expr hsubject).append (clauses hcs)
  | block b => exact block h
  | _ => exact nil

end AllSited

/-! ## Statements of a program -/

theorem Program.Stands.sited {x : Program} {s : Spot} (h : x.Stands s) : s.node.Sited x := by
  induction h with
  | top hmem => exact AllSited.stmts (List.Subset.refl _) (fun _ => List.Subset.refl _) _ hmem
  | @inside s part _ hmem ih =>
      obtain ⟨node, colon, after⟩ := s
      cases node with
      | expr e =>
          obtain ⟨scope, hsites⟩ := ih
          exact AllSited.expression hsites _ hmem
      | stmt s =>
          obtain ⟨scope, standing, hsites, _⟩ := ih
          exact AllSited.statement hsites _ hmem

/-- Where all sites are sound, every pragma stands directly in the program. -/
theorem Program.Contains.include_direct {x : Program} (hsound : ∀ s ∈ x.sites, s.Sound) {p : Pragma}
    (h : x.Contains (.include p)) : .include p ∈ x.body := by
  obtain ⟨after, hstands⟩ := h.stands
  obtain ⟨scope, standing, hsites, hdirect⟩ := hstands.sited
  exact hdirect (hsound _ (hsites List.mem_cons_self))

end Respell
