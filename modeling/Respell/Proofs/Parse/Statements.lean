import Respell.Proofs.Parse.Placed
import Respell.Proofs.Scope.Rule

/-!
# The statements of a tree

Every statement of a program, at any depth, stands somewhere in it: from scope to scope this passes through the
functions. So it was read by one of the rules of statements on some nesting level, and a fact about all
statements needs to be proved for the rules only.

An expression statement begins with the head of its innermost leading operand. Its rule was chosen for the
token there, so it begins like no other statement.
-/

namespace Respell

open Text Respell.Parser

/-! ## Statements inside trees -/

/-- A statement of the program at any depth: in the program's own scope, or in the body of a function
    that is declared or stands in an expression. -/
inductive Program.Contains (x : Program) : Stmt → Prop where
  | body {s : Stmt} : s ∈ stmtsWithin x.body → Program.Contains x s
  | declared {f : Func} {s : Stmt} :
      Program.Contains x (.function f) → s ∈ stmtsWithin f.body.body → Program.Contains x s
  | expressed {f : Func} {s : Stmt} :
      .head (.function f) ∈ x.subexprs → s ∈ stmtsWithin f.body.body → Program.Contains x s

/-- The statement stands somewhere in the program. -/
def Program.HoldsStmt (x : Program) (s : Stmt) : Prop := ∃ after, x.Stands ⟨.stmt s, .free, after⟩

section Within

variable {x : Program}

mutual

theorem Stmt.heldWithin {after : List Token} (s : Stmt) (h : x.StandAll (s.spot after)) :
    ∀ t ∈ s.within, x.HoldsStmt t := by
  have hself := List.forall_mem_singleton.mp h
  have hs : x.StandAll (s.spots after) := fun _ hpart => hself.inside hpart
  have hall {ss : List Stmt} (hss : ∀ t ∈ ss, x.HoldsStmt t) : ∀ t ∈ s :: ss, x.HoldsStmt t :=
    List.forall_mem_cons.mpr ⟨⟨after, hself⟩, hss⟩
  cases s with
  | conditional first others =>
      obtain ⟨_, _, _, _, ⟨_, body, _⟩⟩ := first
      obtain ⟨hfirst, hothers⟩ := List.forall_mem_append.mp hs
      exact hall (List.forall_mem_append.mpr
        ⟨stmtsHeldWithin body (List.forall_mem_append.mp hfirst).2, others.heldWithin hothers⟩)
  | «while» loop =>
      obtain ⟨_, _, _, _, ⟨_, body, _⟩⟩ := loop
      exact hall (stmtsHeldWithin body (List.forall_mem_append.mp hs).2)
  | «for» _ _ _ _ _ _ _ _ body =>
      obtain ⟨_, body, _⟩ := body
      exact hall (stmtsHeldWithin body (List.forall_mem_append.mp hs).2)
  | forIn _ _ _ _ _ _ _ body =>
      obtain ⟨_, body, _⟩ := body
      exact hall (stmtsHeldWithin body (List.forall_mem_append.mp hs).2)
  | labeled _ _ body => exact hall (body.heldWithin hs)
  | switch _ _ _ _ _ clauses _ =>
      exact hall (clausesHeldWithin clauses (List.forall_mem_append.mp hs).2)
  | block b =>
      obtain ⟨_, body, _⟩ := b
      exact hall (stmtsHeldWithin body hs)
  | _ => exact hall (List.forall_mem_nil _)

theorem stmtsHeldWithin {after : List Token} (ss : List Stmt) (hs : x.StandAll (stmtSpots after ss)) :
    ∀ t ∈ stmtsWithin ss, x.HoldsStmt t := by
  cases ss with
  | nil => exact List.forall_mem_nil _
  | cons s ss =>
      obtain ⟨hfirst, hrest⟩ := List.forall_mem_append.mp hs
      exact List.forall_mem_append.mpr ⟨s.heldWithin hfirst, stmtsHeldWithin ss hrest⟩

theorem Ladder.heldWithin {after : List Token} (l : Ladder) (hs : x.StandAll (l.spots after)) :
    ∀ t ∈ l.within, x.HoldsStmt t := by
  cases l with
  | done => exact List.forall_mem_nil _
  | otherwise _ body =>
      obtain ⟨_, body, _⟩ := body
      exact stmtsHeldWithin body hs
  | branch _ next others =>
      obtain ⟨_, _, _, _, ⟨_, body, _⟩⟩ := next
      obtain ⟨hnext, hothers⟩ := List.forall_mem_append.mp hs
      exact List.forall_mem_append.mpr
        ⟨stmtsHeldWithin body (List.forall_mem_append.mp hnext).2, others.heldWithin hothers⟩

theorem clausesHeldWithin {after : List Token} (cs : List Clause)
    (hs : x.StandAll (listSpots Clause.tokens Clause.spots after cs)) :
    ∀ t ∈ clausesWithin cs, x.HoldsStmt t := by
  cases cs with
  | nil => exact List.forall_mem_nil _
  | cons c cs =>
      obtain ⟨_, test, _, body⟩ := c
      obtain ⟨hclause, hclauses⟩ := List.forall_mem_append.mp hs
      have hbody : ∀ t ∈ stmtsWithin body, x.HoldsStmt t := by
        cases test with
        | none => exact stmtsHeldWithin body hclause
        | some _ => exact stmtsHeldWithin body (List.forall_mem_append.mp hclause).2
      exact List.forall_mem_append.mpr ⟨hbody, clausesHeldWithin cs hclauses⟩

end

end Within

theorem Program.Contains.stands {x : Program} {s : Stmt} (h : x.Contains s) : x.HoldsStmt s := by
  induction h with
  | body hs => exact stmtsHeldWithin x.body (fun _ => .top) _ hs
  | @declared f s _ hs ih =>
      obtain ⟨after, hf⟩ := ih
      exact stmtsHeldWithin f.body.body (fun _ hpart => hf.inside hpart) _ hs
  | @expressed f s hf hs =>
      obtain ⟨colon, after, hf⟩ := x.holds_of_mem_subexprs hf
      exact stmtsHeldWithin f.body.body (fun _ hpart => hf.inside hpart) _ hs

/-- The statement was read on some nesting level. -/
def Parser.StmtArises (s : Stmt) : Prop := ∃ n p q, StmtRule (level n) p s q

/-- Every statement of a parsed program was read by the rules of statements. -/
theorem stmtArises_of_parse {limit : Nat} {source : List Char} {x : Program}
    (h : parseProgramWithin limit source = .ok x) {s : Stmt} (hs : x.Contains s) : StmtArises s := by
  obtain ⟨last, _, hread⟩ := exists_allRead h
  obtain ⟨after, hstands⟩ := hs.stands
  obtain ⟨p, q, ⟨n, hrule⟩, _⟩ := hread _ hstands
  exact ⟨n, p, q, hrule⟩

/-! ## What expression statements begin with -/

/-- The head of the innermost leading operand. -/
def Expr.lead : Expr → Head
  | .head h => h
  | .suffix leading _ => leading.lead

/-- A head that begins like a statement of another form: a function with its keyword, or an object. -/
def Head.opensStatement : Head → Bool
  | .object _ _ _ => true
  | .function f => f.keyword.isSome
  | _ => false

namespace Parser

variable {inner : Inner} {colon : Colon} {threshold : Precedence} {p q r : Place}

/-- A head that begins with a token of no other statement is none that opens one. -/
theorem HeadRule.opensStatement_eq_false {h : Head} {first : Token} (hrule : HeadRule inner colon p h q)
    (hfirst : next p = .ok (first, r)) (hopens : opensStatement first.kind = false) :
    h.opensStatement = false := by
  have hkind {t : Token} {k : Kind} {r' : Place} (ht : expect k p = .ok (t, r')) :
      opensStatement k = false := by
    obtain ⟨hnext, hk⟩ := expect_ok_iff.mp ht
    rw [hfirst] at hnext
    cases hnext
    rwa [← hk]
  cases hrule with
  | object hopening _ _ => exact absurd (hkind hopening) (by decide)
  | function hkeyword _ _ => exact absurd (hkind hkeyword) (by decide)
  | paren hrule =>
      cases hrule with
      | function _ _ _ hf =>
          obtain ⟨items, body, _, _, rfl⟩ := finishFunction_ok hf
          rfl
      | bound _ _ _ _ _ _ hf =>
          obtain ⟨items, body, _, _, rfl⟩ := finishFunction_ok hf
          rfl
      | arrow _ _ _ _ => rfl
      | group _ _ _ _ _ _ _ => rfl
  | _ => rfl

/-- While an expression grows its lead stays, but for a name that becomes a name with dots. -/
theorem Grows.lead_opensStatement_eq_false {e : Expr} {first : Token}
    (h : Grows inner colon threshold p e q) (hfirst : next p = .ok (first, r))
    (hopens : opensStatement first.kind = false) : e.lead.opensStatement = false := by
  induction h with
  | head hrule => exact hrule.opensStatement_eq_false hfirst hopens
  | round _ hrule ih =>
      cases hrule with
      | operator _ _ _ _ => exact ih
      | tight _ _ _ => exact ih
      | rest _ _ => rfl

theorem StmtArises.formed {s : Stmt} (h : StmtArises s) : s.Formed := by
  obtain ⟨n, p, q, hrule⟩ := h
  exact hrule.formed (level_forms n)

/-- An expression statement begins like no other statement. -/
theorem StmtArises.expr_lead {value : Expr} {semicolon : Token} (h : StmtArises (.expr value semicolon)) :
    value.lead.opensStatement = false := by
  obtain ⟨n, p, q, hrule⟩ := h
  cases hrule with
  | expr hfirst hopens hvalue _ =>
      cases n with
      | zero => exact (tooDeep_not_ok hvalue).elim
      | succ n => exact (expression_grows hvalue).lead_opensStatement_eq_false hfirst hopens

end Parser

end Respell
