import Respell.Parse.Program
import Respell.Proofs.Parse.ExprRules

/-!
# The rules of statements

What a successful run of each production for statements did, in the form of the rules of expressions.
-/

namespace Respell.Parser

open Text

variable {inner : Inner} {p q : Place}

/-! ## Conditionals -/

theorem guarded_ok {w : Word} {g : Guarded} (h : guarded inner w p = .ok (g, q)) :
    ∃ p₁ p₂ p₃ p₄, expect (.word w) p = .ok (g.keyword, p₁) ∧
      expect (.punct .openParen) p₁ = .ok (g.opening, p₂) ∧
      inner.expression .free .lowest p₂ = .ok (g.test, p₃) ∧
      expect (.punct .closeParen) p₃ = .ok (g.closing, p₄) ∧ block inner p₄ = .ok (g.body, q) := by
  rw [guarded] at h
  simp only [bind_ok_iff, pure_ok_iff] at h
  obtain ⟨keyword, p₁, hk, opening, p₂, ho, test, p₃, htest, closing, p₄, hc, body, _, hbody, rfl,
    rfl⟩ := h
  exact ⟨p₁, p₂, p₃, p₄, hk, ho, htest, hc, hbody⟩

/-- How the branches after the first one were read. -/
inductive LadderRule (inner : Inner) : Place → Ladder → Place → Prop where
  | done {p : Place} : LadderRule inner p .done p
  | otherwise {keyword : Token} {body : Block} {p p₁ q : Place} :
      expect (.word .else) p = .ok (keyword, p₁) → block inner p₁ = .ok (body, q) →
      LadderRule inner p (.otherwise keyword body) q
  | branch {keyword : Token} {g : Guarded} {others : Ladder} {p p₁ p₂ q : Place} :
      expect (.word .else) p = .ok (keyword, p₁) → guarded inner .if p₁ = .ok (g, p₂) →
      LadderRule inner p₂ others q → LadderRule inner p (.branch keyword g others) q

theorem ladder_ok {l : Ladder} (h : ladder inner p = .ok (l, q)) : LadderRule inner p l q := by
  fun_induction ladder inner p generalizing l q with
  | case1 p ih =>
    obtain ⟨⟨o, p₁⟩, helse, h⟩ := except_bind_ok_iff.mp h
    rcases optional_ok helse with ⟨keyword, rfl, hkeyword⟩ | ⟨rfl, rfl, _⟩
    · obtain ⟨⟨k, _⟩, hpeek, hrest⟩ := except_bind_ok_iff.mp h
      obtain ⟨rfl, _⟩ := peekKind_ok hpeek
      dsimp only at hrest
      split at hrest
      · obtain ⟨⟨g, p₂⟩, hg, hrest⟩ := except_bind_ok_iff.mp hrest
        dsimp only at hrest
        split at hrest
        · next hlt =>
            obtain ⟨⟨others, _⟩, hothers, hrest⟩ := except_bind_ok_iff.mp hrest
            cases except_pure_ok_iff.mp hrest
            exact .branch hkeyword hg (ih p₂ hlt hothers)
        · cases except_pure_ok_iff.mp hrest
          exact .branch hkeyword hg .done
      · obtain ⟨⟨body, _⟩, hbody, hrest⟩ := except_bind_ok_iff.mp hrest
        cases except_pure_ok_iff.mp hrest
        exact .otherwise hkeyword hbody
    · cases except_pure_ok_iff.mp h
      exact .done

/-! ## Parts of statements -/

/-- A declared name, with its initial value if an `=` follows it. -/
theorem decl_ok {d : Decl} (h : decl inner p = .ok (d, q)) :
    ∃ p₁, expect .identifier p = .ok (d.name, p₁) ∧
      ((∃ equals value p₂, d.init = some (equals, value) ∧
          expect (.punct .assign) p₁ = .ok (equals, p₂) ∧
          inner.expression .free .lowest p₂ = .ok (value, q)) ∨
        (d.init = none ∧ q = p₁)) := by
  rw [decl] at h
  simp only [bind_ok_iff] at h
  obtain ⟨name, p₁, hname, o, p₂, hequals, h⟩ := h
  rcases optional_ok hequals with ⟨equals, rfl, htaken⟩ | ⟨rfl, rfl, _⟩
  · simp only [bind_ok_iff, pure_ok_iff] at h
    obtain ⟨value, _, hvalue, rfl, rfl⟩ := h
    exact ⟨p₁, hname, .inl ⟨equals, value, p₂, rfl, htaken, hvalue⟩⟩
  · obtain ⟨rfl, rfl⟩ := pure_ok_iff.mp h
    exact ⟨_, hname, .inr ⟨rfl, rfl⟩⟩

theorem varList_ok {l : VarList} (h : varList inner p = .ok (l, q)) :
    ∃ p₁, expect (.word .var) p = .ok (l.keyword, p₁) ∧ CommaRounds (decl inner) p₁ l.items q := by
  rw [varList] at h
  simp only [bind_ok_iff, pure_ok_iff] at h
  obtain ⟨keyword, p₁, hk, items, _, hitems, rfl, rfl⟩ := h
  exact ⟨p₁, hk, commaRounds_of_commaList hitems⟩

/-- How the first part of a `for` head was read. -/
inductive ForInitRule (inner : Inner) (p : Place) : ForInit → Place → Prop where
  | vars {list : VarList} {q : Place} :
      varList inner p = .ok (list, q) → ForInitRule inner p (.vars list) q
  | exprs {items : Separated Expr} {q : Place} :
      CommaRounds (inner.expression .free .lowest) p items q → ForInitRule inner p (.exprs items) q

theorem forInit_ok {i : ForInit} (h : forInit inner p = .ok (i, q)) : ForInitRule inner p i q := by
  rw [forInit, bind_ok_iff] at h
  obtain ⟨k, p', hpeek, h⟩ := h
  obtain ⟨rfl, _⟩ := peekKind_ok hpeek
  split at h
  · simp only [bind_ok_iff, pure_ok_iff] at h
    obtain ⟨list, _, hlist, rfl, rfl⟩ := h
    exact .vars hlist
  · simp only [bind_ok_iff, pure_ok_iff] at h
    obtain ⟨items, _, hitems, rfl, rfl⟩ := h
    exact .exprs (commaRounds_of_commaList hitems)

/-- How the word and the test of a clause were read. -/
inductive ClauseHeadRule (inner : Inner) (p : Place) : Token → Option Expr → Place → Prop where
  | case {keyword : Token} {test : Expr} {p₁ q : Place} :
      expect (.word .case) p = .ok (keyword, p₁) →
      inner.expression .awaited .lowest p₁ = .ok (test, q) →
      ClauseHeadRule inner p keyword (some test) q
  | default {keyword : Token} {q : Place} :
      expect (.word .default) p = .ok (keyword, q) → ClauseHeadRule inner p keyword none q

theorem clauseHead_ok {keyword : Token} {test : Option Expr}
    (h : clauseHead inner p = .ok ((keyword, test), q)) :
    ClauseHeadRule inner p keyword test q := by
  rw [clauseHead, bind_ok_iff] at h
  obtain ⟨t, p', hpeek, h⟩ := h
  obtain ⟨rfl, r, hnext⟩ := peek_ok hpeek
  split at h
  · next hcase =>
      simp only [bind_ok_iff, pure_ok_iff, Prod.mk.injEq] at h
      obtain ⟨_, p₁, hk, value, _, hvalue, ⟨rfl, rfl⟩, rfl⟩ := h
      exact .case (expect_of_seen hnext hcase hk) hvalue
  · split at h
    · next hdefault =>
        simp only [bind_ok_iff, pure_ok_iff, Prod.mk.injEq] at h
        obtain ⟨_, _, hk, ⟨rfl, rfl⟩, rfl⟩ := h
        exact .default (expect_of_seen hnext hdefault hk)
    · exact (throw_ok_iff.mp h).elim

theorem clause_ok {c : Clause} (h : clause inner p = .ok (c, q)) :
    ∃ p₁ p₂, ClauseHeadRule inner p c.keyword c.test p₁ ∧
      expect (.punct .colon) p₁ = .ok (c.colon, p₂) ∧ Rounds inner.statement p₂ c.body q := by
  rw [clause] at h
  simp only [bind_ok_iff, pure_ok_iff] at h
  obtain ⟨⟨keyword, test⟩, p₁, hhead, colon, p₂, hcolon, body, _, hbody, rfl, rfl⟩ := h
  exact ⟨p₁, p₂, clauseHead_ok hhead, hcolon, rounds_of_many hbody⟩

/-- How an item of a pragma was read. -/
inductive PragmaItemRule (groups : Bool) (p : Place) : PragmaItem → Place → Prop where
  | group {colon name : Token} {p₁ q : Place} :
      groups = true → expect (.punct .colon) p = .ok (colon, p₁) →
      expect .identifier p₁ = .ok (name, q) → PragmaItemRule groups p (.group colon name) q
  | single {name : Token} {q : Place} :
      expect .identifier p = .ok (name, q) → PragmaItemRule groups p (.single name) q

theorem pragmaItem_ok {groups : Bool} {i : PragmaItem} (h : pragmaItem groups p = .ok (i, q)) :
    PragmaItemRule groups p i q := by
  rw [pragmaItem, bind_ok_iff] at h
  obtain ⟨o, p₁, hcolon, h⟩ := h
  rcases optional_ok hcolon with ⟨colon, rfl, htaken⟩ | ⟨rfl, rfl, _⟩
  · cases groups with
    | true =>
        simp only [if_true, bind_ok_iff, pure_ok_iff] at h
        obtain ⟨name, _, hname, rfl, rfl⟩ := h
        exact .group rfl htaken hname
    | false => exact (throw_ok_iff.mp h).elim
  · simp only [bind_ok_iff, pure_ok_iff] at h
    obtain ⟨name, _, hname, rfl, rfl⟩ := h
    exact .single hname

/-- A pragma begins with whatever token stands here: its word has been seen before. -/
theorem pragma_ok {groups : Bool} {x : Pragma} (h : pragma groups p = .ok (x, q)) :
    ∃ p₁ p₂, next p = .ok (x.keyword, p₁) ∧ CommaRounds (pragmaItem groups) p₁ x.items p₂ ∧
      expect (.punct .semicolon) p₂ = .ok (x.semicolon, q) := by
  rw [pragma] at h
  simp only [bind_ok_iff, pure_ok_iff] at h
  obtain ⟨keyword, p₁, hk, items, p₂, hitems, semicolon, _, hs, rfl, rfl⟩ := h
  exact ⟨p₁, p₂, hk, commaRounds_of_commaList hitems, hs⟩

/-! ## Statements -/

/-- The kinds that begin a statement other than an expression statement or a labeled one. -/
def opensStatement : Kind → Bool
  | .word .if | .word .while | .word .for | .word .break | .word .continue | .word .return
  | .word .throw | .word .var | .word .function | .word .switch | .includePragma | .declarePragma
  | .punct .openBrace | .punct .semicolon => true
  | _ => false

/-- How a statement was read. -/
inductive StmtRule (inner : Inner) (p : Place) : Stmt → Place → Prop where
  | expr {value : Expr} {semicolon first : Token} {p₁ r q : Place} :
      next p = .ok (first, r) → opensStatement first.kind = false →
      inner.expression .free .lowest p = .ok (value, p₁) →
      expect (.punct .semicolon) p₁ = .ok (semicolon, q) → StmtRule inner p (.expr value semicolon) q
  | labeled {label colon first : Token} {body : Stmt} {p₁ p₂ r q : Place} :
      next p = .ok (first, r) → opensStatement first.kind = false →
      inner.expression .free .lowest p = .ok (.head (.ident label), p₁) →
      expect (.punct .colon) p₁ = .ok (colon, p₂) → inner.statement p₂ = .ok (body, q) →
      StmtRule inner p (.labeled label colon body) q
  | empty {semicolon : Token} {q : Place} :
      expect (.punct .semicolon) p = .ok (semicolon, q) → StmtRule inner p (.empty semicolon) q
  | conditional {first : Guarded} {others : Ladder} {p₁ q : Place} :
      guarded inner .if p = .ok (first, p₁) → LadderRule inner p₁ others q →
      StmtRule inner p (.conditional first others) q
  | while {loop : Guarded} {q : Place} :
      guarded inner .while p = .ok (loop, q) → StmtRule inner p (.while loop) q
  | for {keyword opening first second closing : Token} {init : ForInit}
      {test update : Separated Expr} {body : Block} {p₁ p₂ p₃ p₄ p₅ p₆ p₇ p₈ q : Place} :
      expect (.word .for) p = .ok (keyword, p₁) → expect (.punct .openParen) p₁ = .ok (opening, p₂) →
      ForInitRule inner p₂ init p₃ → expect (.punct .semicolon) p₃ = .ok (first, p₄) →
      CommaRounds (inner.expression .free .lowest) p₄ test p₅ →
      expect (.punct .semicolon) p₅ = .ok (second, p₆) →
      CommaRounds (inner.expression .free .lowest) p₆ update p₇ →
      expect (.punct .closeParen) p₇ = .ok (closing, p₈) → block inner p₈ = .ok (body, q) →
      StmtRule inner p (.for keyword opening init first test second update closing body) q
  | forIn {keyword opening name inWord closing : Token} {var : Option Token} {object : Expr}
      {body : Block} {p₁ p₂ p₃ p₄ p₅ p₆ p₇ q : Place} :
      expect (.word .for) p = .ok (keyword, p₁) → expect (.punct .openParen) p₁ = .ok (opening, p₂) →
      optional (.word .var) p₂ = .ok (var, p₃) → expect .identifier p₃ = .ok (name, p₄) →
      expect (.word .in) p₄ = .ok (inWord, p₅) →
      inner.expression .free .lowest p₅ = .ok (object, p₆) →
      expect (.punct .closeParen) p₆ = .ok (closing, p₇) → block inner p₇ = .ok (body, q) →
      StmtRule inner p (.forIn keyword opening var name inWord object closing body) q
  | jump {w : Word} {keyword semicolon : Token} {label : Option Token} {p₁ p₂ q : Place} :
      (w = .break ∨ w = .continue) → expect (.word w) p = .ok (keyword, p₁) →
      optional .identifier p₁ = .ok (label, p₂) →
      expect (.punct .semicolon) p₂ = .ok (semicolon, q) →
      StmtRule inner p (.jump keyword label semicolon) q
  | returnNothing {keyword semicolon : Token} {p₁ q : Place} :
      expect (.word .return) p = .ok (keyword, p₁) →
      expect (.punct .semicolon) p₁ = .ok (semicolon, q) →
      StmtRule inner p (.return keyword none semicolon) q
  | return {keyword semicolon : Token} {value : Expr} {p₁ p₂ q : Place} :
      expect (.word .return) p = .ok (keyword, p₁) →
      inner.expression .free .lowest p₁ = .ok (value, p₂) →
      expect (.punct .semicolon) p₂ = .ok (semicolon, q) →
      StmtRule inner p (.return keyword (some value) semicolon) q
  | throw {keyword semicolon : Token} {value : Expr} {p₁ p₂ q : Place} :
      expect (.word .throw) p = .ok (keyword, p₁) →
      inner.expression .free .lowest p₁ = .ok (value, p₂) →
      expect (.punct .semicolon) p₂ = .ok (semicolon, q) →
      StmtRule inner p (.throw keyword value semicolon) q
  | vars {list : VarList} {semicolon : Token} {p₁ q : Place} :
      varList inner p = .ok (list, p₁) → expect (.punct .semicolon) p₁ = .ok (semicolon, q) →
      StmtRule inner p (.vars list semicolon) q
  | function {keyword name : Token} {f : Func} {p₁ p₂ q : Place} :
      expect (.word .function) p = .ok (keyword, p₁) → expect .identifier p₁ = .ok (name, p₂) →
      functionRest inner .free (some keyword) (some name) p₂ = .ok (f, q) →
      StmtRule inner p (.function f) q
  | switch {keyword opening closing openBrace closeBrace : Token} {subject : Expr}
      {clauses : List Clause} {p₁ p₂ p₃ p₄ p₅ p₆ q : Place} :
      expect (.word .switch) p = .ok (keyword, p₁) →
      expect (.punct .openParen) p₁ = .ok (opening, p₂) →
      inner.expression .free .lowest p₂ = .ok (subject, p₃) →
      expect (.punct .closeParen) p₃ = .ok (closing, p₄) →
      expect (.punct .openBrace) p₄ = .ok (openBrace, p₅) → Rounds (clause inner) p₅ clauses p₆ →
      expect (.punct .closeBrace) p₆ = .ok (closeBrace, q) →
      StmtRule inner p (.switch keyword opening subject closing openBrace clauses closeBrace) q
  | block {b : Block} {q : Place} : Parser.block inner p = .ok (b, q) → StmtRule inner p (.block b) q
  | include {x : Pragma} {q : Place} :
      x.keyword.kind = .includePragma → pragma false p = .ok (x, q) →
      StmtRule inner p (.include x) q
  | declare {x : Pragma} {q : Place} :
      x.keyword.kind = .declarePragma → pragma true p = .ok (x, q) →
      StmtRule inner p (.declare x) q

theorem conditional_ok {s : Stmt} (h : conditional inner p = .ok (s, q)) : StmtRule inner p s q := by
  rw [conditional] at h
  simp only [bind_ok_iff, pure_ok_iff] at h
  obtain ⟨first, p₁, hfirst, others, _, hothers, rfl, rfl⟩ := h
  exact .conditional hfirst (ladder_ok hothers)

theorem forStatement_ok {s : Stmt} (h : forStatement inner p = .ok (s, q)) : StmtRule inner p s q := by
  rw [forStatement] at h
  simp only [bind_ok_iff] at h
  obtain ⟨keyword, p₁, hk, opening, p₂, ho, isForIn, p', hahead, h⟩ := h
  obtain rfl := lookAhead_ok hahead
  split at h
  -- The test ahead took nothing, so both heads are read from `p₂` on.
  · simp only [bind_ok_iff, pure_ok_iff] at h
    obtain ⟨var, p₃, hvar, name, p₄, hname, inWord, p₅, hin, object, p₆, hobject, closing, p₇, hc, body,
      _, hbody, rfl, rfl⟩ := h
    exact .forIn hk ho hvar hname hin hobject hc hbody
  · simp only [bind_ok_iff, pure_ok_iff] at h
    obtain ⟨init, p₃, hinit, first, p₄, hfirst, test, p₅, htest, second, p₆, hsecond, update, p₇,
      hupdate, closing, p₈, hc, body, _, hbody, rfl, rfl⟩ := h
    exact .for hk ho (forInit_ok hinit) hfirst (commaRounds_of_commaList htest) hsecond
      (commaRounds_of_commaList hupdate) hc hbody

theorem jump_ok {w : Word} {s : Stmt} (hw : w = .break ∨ w = .continue)
    (h : jump w p = .ok (s, q)) : StmtRule inner p s q := by
  rw [jump] at h
  simp only [bind_ok_iff, pure_ok_iff] at h
  obtain ⟨keyword, p₁, hk, label, p₂, hlabel, semicolon, _, hs, rfl, rfl⟩ := h
  exact .jump hw hk hlabel hs

theorem returnStatement_ok {s : Stmt} (h : returnStatement inner p = .ok (s, q)) :
    StmtRule inner p s q := by
  rw [returnStatement] at h
  simp only [bind_ok_iff] at h
  obtain ⟨keyword, p₁, hk, k, p', hpeek, h⟩ := h
  obtain ⟨rfl, _⟩ := peekKind_ok hpeek
  split at h
  · simp only [bind_ok_iff, pure_ok_iff] at h
    obtain ⟨semicolon, _, hs, rfl, rfl⟩ := h
    exact .returnNothing hk hs
  · simp only [bind_ok_iff, pure_ok_iff] at h
    obtain ⟨value, p₂, hvalue, semicolon, _, hs, rfl, rfl⟩ := h
    exact .return hk hvalue hs

theorem throwStatement_ok {s : Stmt} (h : throwStatement inner p = .ok (s, q)) :
    StmtRule inner p s q := by
  rw [throwStatement] at h
  simp only [bind_ok_iff, pure_ok_iff] at h
  obtain ⟨keyword, p₁, hk, value, p₂, hvalue, semicolon, _, hs, rfl, rfl⟩ := h
  exact .throw hk hvalue hs

theorem varStatement_ok {s : Stmt} (h : varStatement inner p = .ok (s, q)) : StmtRule inner p s q := by
  rw [varStatement] at h
  simp only [bind_ok_iff, pure_ok_iff] at h
  obtain ⟨list, p₁, hlist, semicolon, _, hs, rfl, rfl⟩ := h
  exact .vars hlist hs

theorem functionStatement_ok {s : Stmt} (h : functionStatement inner p = .ok (s, q)) :
    StmtRule inner p s q := by
  rw [functionStatement] at h
  simp only [bind_ok_iff, pure_ok_iff] at h
  obtain ⟨keyword, p₁, hk, name, p₂, hname, f, _, hf, rfl, rfl⟩ := h
  exact .function hk hname hf

theorem switchStatement_ok {s : Stmt} (h : switchStatement inner p = .ok (s, q)) :
    StmtRule inner p s q := by
  rw [switchStatement] at h
  simp only [bind_ok_iff, pure_ok_iff] at h
  obtain ⟨keyword, p₁, hk, opening, p₂, ho, subject, p₃, hsubject, closing, p₄, hc, openBrace, p₅, hob,
    clauses, p₆, hclauses, closeBrace, _, hcb, rfl, rfl⟩ := h
  exact .switch hk ho hsubject hc hob (rounds_of_many hclauses) hcb

theorem labeledBody_ok {s : Stmt} (h : labeledBody inner p = .ok (s, q)) :
    inner.statement p = .ok (s, q) := by
  rw [labeledBody, bind_ok_iff] at h
  obtain ⟨t, p', hpeek, h⟩ := h
  obtain ⟨rfl, _⟩ := peek_ok hpeek
  generalize t.kind = k at h
  split at h
  case h_1 | h_2 | h_3 => exact h
  case h_4 => exact (throw_ok_iff.mp h).elim

theorem expressionStatement_ok {first : Token} {r : Place} {s : Stmt}
    (hfirst : next p = .ok (first, r)) (hopens : opensStatement first.kind = false)
    (h : expressionStatement inner p = .ok (s, q)) : StmtRule inner p s q := by
  rw [expressionStatement, bind_ok_iff] at h
  obtain ⟨e, p₁, he, h⟩ := h
  cases hname : e.bareName? with
  | none =>
      simp only [hname, bind_ok_iff, pure_ok_iff] at h
      obtain ⟨semicolon, _, hs, rfl, rfl⟩ := h
      exact .expr hfirst hopens he hs
  | some label =>
      simp only [hname, bind_ok_iff] at h
      obtain rfl := eq_ident_of_bareName? hname
      obtain ⟨o, p₂, hcolon, h⟩ := h
      rcases optional_ok hcolon with ⟨colon, rfl, htaken⟩ | ⟨rfl, rfl, _⟩
      · simp only [bind_ok_iff, pure_ok_iff] at h
        obtain ⟨body, _, hbody, rfl, rfl⟩ := h
        exact .labeled hfirst hopens he htaken (labeledBody_ok hbody)
      · simp only [bind_ok_iff, pure_ok_iff] at h
        obtain ⟨semicolon, _, hs, rfl, rfl⟩ := h
        exact .expr hfirst hopens he hs

theorem statement_ok {s : Stmt} (h : statement inner p = .ok (s, q)) : StmtRule inner p s q := by
  rw [statement, bind_ok_iff] at h
  obtain ⟨k, p', hpeek, h⟩ := h
  obtain ⟨rfl, first, r, hfirst, hk⟩ := peekKind_ok hpeek
  split at h
  case h_1 => exact conditional_ok h
  case h_2 =>
    simp only [bind_ok_iff, pure_ok_iff] at h
    obtain ⟨loop, _, hloop, rfl, rfl⟩ := h
    exact .while hloop
  case h_3 => exact forStatement_ok h
  case h_4 => exact jump_ok (.inl rfl) h
  case h_5 => exact jump_ok (.inr rfl) h
  case h_6 => exact returnStatement_ok h
  case h_7 => exact throwStatement_ok h
  case h_8 => exact varStatement_ok h
  case h_9 => exact functionStatement_ok h
  case h_10 => exact switchStatement_ok h
  case h_11 =>
    simp only [bind_ok_iff, pure_ok_iff] at h
    obtain ⟨x, _, hx, rfl, rfl⟩ := h
    -- `pragma` takes any token for its word, so that the word is right comes from what was seen.
    obtain ⟨_, _, hword, _⟩ := pragma_ok hx
    exact .include (kind_of_expect (expect_of_seen hfirst hk hword)) hx
  case h_12 =>
    simp only [bind_ok_iff, pure_ok_iff] at h
    obtain ⟨x, _, hx, rfl, rfl⟩ := h
    obtain ⟨_, _, hword, _⟩ := pragma_ok hx
    exact .declare (kind_of_expect (expect_of_seen hfirst hk hword)) hx
  case h_13 =>
    simp only [bind_ok_iff, pure_ok_iff] at h
    obtain ⟨b, _, hb, rfl, rfl⟩ := h
    exact .block hb
  case h_14 =>
    simp only [bind_ok_iff, pure_ok_iff] at h
    obtain ⟨semicolon, _, hs, rfl, rfl⟩ := h
    exact .empty (expect_of_seen hfirst hk hs)
  case h_15 =>
    refine expressionStatement_ok hfirst ?_ h
    rw [hk]
    unfold opensStatement
    split <;> simp_all

/-! ## All levels -/

/-- What every successful run of a level's parsers satisfies: `S` the runs that give statements, `E`
    those that give expressions. -/
structure Keeps (inner : Inner) (S : Place → Stmt → Place → Prop)
    (E : Colon → Precedence → Place → Expr → Place → Prop) : Prop where
  statement {p q : Place} {s : Stmt} : inner.statement p = .ok (s, q) → S p s q
  expression {colon : Colon} {threshold : Precedence} {p q : Place} {e : Expr} :
    inner.expression colon threshold p = .ok (e, q) → E colon threshold p e q

theorem tooDeep_not_ok {α : Type} {a : α} : tooDeep p ≠ .ok (a, q) := by
  intro h
  rw [tooDeep, bind_ok_iff] at h
  obtain ⟨t, p₁, _, h⟩ := h
  exact throw_ok_iff.mp h

/-- What passes from the parsers inside to those around them is kept on every level. -/
theorem level_keeps {S : Place → Stmt → Place → Prop}
    {E : Colon → Precedence → Place → Expr → Place → Prop}
    (hstatement : ∀ {n p s q}, Keeps (level n) S E → StmtRule (level n) p s q → S p s q)
    (hexpression : ∀ {n colon threshold p e q}, Keeps (level n) S E →
      expression (level n) colon threshold p = .ok (e, q) → E colon threshold p e q) (n : Nat) :
    Keeps (level n) S E := by
  induction n with
  | zero =>
      -- The innermost level refuses everything, so there is nothing to show for it.
      constructor
      · intro p q s h
        exact (tooDeep_not_ok h).elim
      · intro colon threshold p q e h
        exact (tooDeep_not_ok h).elim
  | succ n ih =>
      constructor
      · intro p q s h
        exact hstatement ih (statement_ok h)
      · intro colon threshold p q e h
        exact hexpression ih h

/-! ## Programs -/

theorem program_ok {limit : Nat} {preamble : String} {x : Program}
    (h : program limit preamble p = .ok (x, q)) :
    ∃ p₁, x.preamble = preamble ∧ Rounds (level limit).statement p x.body p₁ ∧
      expect .endOfFile p₁ = .ok (x.endOfFile, q) := by
  rw [program] at h
  simp only [bind_ok_iff, pure_ok_iff] at h
  obtain ⟨body, p₁, hbody, endOfFile, _, hend, rfl, rfl⟩ := h
  exact ⟨p₁, rfl, rounds_of_many hbody, hend⟩

end Respell.Parser
