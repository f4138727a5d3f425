import Respell.Proofs.Parse.ReplayRules

/-!
# Statements in step

The productions of statements are echoed like those of expressions. Every statement ends with a token it
takes, so a statement is echoed also where the common part of the two texts ends with it. From this the levels
follow by induction, and from them the statements of a whole program.
-/

namespace Respell

open Text

namespace Parser

variable {x : Pair} {n : Nat} {inner inner' : Inner} {colon : Colon} {p q r : Place} {s : Stmt}
  {t : Token}

variable (h : InnerEcho x n inner inner')
include h

theorem conditional_echo (hrun : conditional inner p = .ok (s, q)) :
    Echo x (n + 1) True p q s.tokens s.nesting (conditional inner') (s.relayout x.layout) := by
  simp only [conditional, bind_ok_iff, pure_ok_iff] at hrun
  obtain ⟨first, p₁, hfirst, others, _, hothers, rfl, rfl⟩ := hrun
  exact .deepen ((guarded_echo h hfirst).bind ((ladder_echo h hothers).ending rfl) (by simp))

/-! ## Declarations -/

theorem decl_echo {d : Decl} (hrun : decl inner p = .ok (d, q)) :
    Echo x n False p q d.tokens d.nesting (decl inner') (d.relayout x.layout) := by
  rw [decl, bind_ok_iff] at hrun
  obtain ⟨name, p₁, hname, hrun⟩ := hrun
  obtain ⟨o, p₂, hequals, hrun⟩ := bind_ok_iff.mp hrun
  cases o with
  | none =>
      obtain ⟨rfl, rfl⟩ := pure_ok_iff.mp hrun
      exact .cons (expect_echo hname) ((optional_echo hequals).ending rfl)
  | some equals =>
      simp only [bind_ok_iff, pure_ok_iff] at hrun
      obtain ⟨value, _, hvalue, rfl, rfl⟩ := hrun
      refine .cons (expect_echo hname) (Echo.cast ((optional_echo hequals).bind
        ((h.expression hvalue).ending rfl) (by simp)) rfl (Nat.zero_max _))

theorem varList_echo {l : VarList} (hrun : varList inner p = .ok (l, q)) :
    Echo x n False p q l.tokens l.nesting (varList inner') (l.relayout x.layout) := by
  simp only [varList, bind_ok_iff, pure_ok_iff] at hrun
  obtain ⟨keyword, p₁, hk, items, p₂, hitems, rfl, rfl⟩ := hrun
  have hitems' : Echo x n False p₁ p₂ (declsTokens items) (declsNesting items)
      (commaList (fun _ => false) (decl inner')) (declsRelayout x.layout items) := by
    rw [declsTokens_eq, declsNesting_eq, declsRelayout_eq]
    exact commaList_echo (decl_echo h) hitems
  refine .cons (expect_echo hk) ?_
  exact hitems'.ending rfl

theorem varStatement_echo (hrun : varStatement inner p = .ok (s, q)) :
    Echo x (n + 1) True p q s.tokens s.nesting (varStatement inner') (s.relayout x.layout) := by
  simp only [varStatement, bind_ok_iff, pure_ok_iff] at hrun
  obtain ⟨list, p₁, hlist, semicolon, _, hsemi, rfl, rfl⟩ := hrun
  refine .deepen (Echo.cast ?_ rfl (Nat.max_zero _))
  exact (varList_echo h hlist).bind_cons (.cons (expect_echo hsemi) .pure)

theorem functionStatement_echo (hrun : functionStatement inner p = .ok (s, q)) :
    Echo x (n + 1) True p q s.tokens s.nesting (functionStatement inner') (s.relayout x.layout) := by
  simp only [functionStatement, bind_ok_iff, pure_ok_iff] at hrun
  obtain ⟨keyword, p₁, hk, name, p₂, hname, f, _, hf, rfl, rfl⟩ := hrun
  obtain ⟨ts, htokens, hrest⟩ := functionRest_echo h hf
  rw [Stmt.tokens, htokens]
  refine .deepen (.cons (expect_echo hk) (.cons (expect_echo hname) ?_))
  exact hrest.ending rfl

/-! ## Loops -/

theorem forInit_echo {i : ForInit} (hrun : forInit inner p = .ok (i, q)) :
    Echo x n False p q i.tokens i.nesting (forInit inner') (i.relayout x.layout) := by
  rw [forInit, bind_ok_iff] at hrun
  obtain ⟨k, _, hpeek, hrun⟩ := hrun
  obtain ⟨rfl, t, r, hnext, rfl⟩ := peekKind_ok hpeek
  refine .peekKind_bind hnext (by simp) ?_
  split at hrun
  · next hvar =>
      obtain ⟨list, _, hlist, heq⟩ := bind_ok_iff.mp hrun
      obtain ⟨rfl, rfl⟩ := pure_ok_iff.mp heq
      rw [if_pos hvar]
      exact (varList_echo h hlist).ending rfl
  · next hvar =>
      obtain ⟨items, _, hitems, heq⟩ := bind_ok_iff.mp hrun
      obtain ⟨rfl, rfl⟩ := pure_ok_iff.mp heq
      rw [if_neg hvar]
      exact (expressions_echo h hitems).ending rfl

theorem forStatement_echo (hrun : forStatement inner p = .ok (s, q)) :
    Echo x (n + 1) True p q s.tokens s.nesting (forStatement inner') (s.relayout x.layout) := by
  simp only [forStatement, bind_ok_iff] at hrun
  obtain ⟨keyword, p₁, hk, opening, p₂, ho, b, p₃, hforIn, hrun⟩ := hrun
  obtain rfl := lookAhead_ok hforIn
  cases b with
  | true =>
      simp only [if_true, bind_ok_iff, pure_ok_iff] at hrun
      obtain ⟨var, p₄, hvar, name, p₅, hname, inWord, p₆, hin, object, p₇, hobject, closing, p₈, hc, body, _,
        hbody, rfl, rfl⟩ := hrun
      refine .deepen (.cons (expect_echo hk) (.cons (expect_echo ho) (.look (atForIn_echo hforIn) (by simp) ?_)))
      rw [if_pos rfl]
      refine Echo.cast ((optional_echo hvar).bind_cons (.cons (expect_echo hname) (.cons (expect_echo hin)
        ((h.expression hobject).bind_cons (.cons (expect_echo hc) ((block_echo h hbody).ending rfl)))))) ?_ ?_
      · rfl
      · rw [Nat.zero_max]
  | false =>
      simp only [Bool.false_eq_true, if_false, bind_ok_iff, pure_ok_iff] at hrun
      obtain ⟨init, p₄, hinit, first, p₅, hfirst, test, p₆, htest, second, p₇, hsecond, update, p₈, hupdate,
        closing, p₉, hc, body, _, hbody, rfl, rfl⟩ := hrun
      refine .deepen (.cons (expect_echo hk) (.cons (expect_echo ho) (.look (atForIn_echo hforIn) (by simp) ?_)))
      rw [if_neg Bool.false_ne_true]
      refine Echo.cast ((forInit_echo h hinit).bind_cons (.cons (expect_echo hfirst)
        ((expressions_echo h htest).bind_cons (.cons (expect_echo hsecond) ((expressions_echo h hupdate).bind_cons
          (.cons (expect_echo hc) ((block_echo h hbody).ending rfl))))))) ?_ ?_
      · rfl
      · rw [Nat.max_assoc]

/-! ## Jumps -/

omit h in
theorem jump_echo {w : Word} (hrun : jump w p = .ok (s, q)) :
    Echo x (n + 1) True p q s.tokens s.nesting (jump w) (s.relayout x.layout) := by
  simp only [jump, bind_ok_iff, pure_ok_iff] at hrun
  obtain ⟨keyword, p₁, hk, label, p₂, hlabel, semicolon, _, hsemi, rfl, rfl⟩ := hrun
  exact .deepen (.cons (expect_echo hk) ((optional_echo hlabel).bind_cons (.cons (expect_echo hsemi) .pure)))

theorem returnStatement_echo (hrun : returnStatement inner p = .ok (s, q)) :
    Echo x (n + 1) True p q s.tokens s.nesting (returnStatement inner') (s.relayout x.layout) := by
  simp only [returnStatement, bind_ok_iff] at hrun
  obtain ⟨keyword, p₁, hk, k, _, hpeek, hrun⟩ := hrun
  obtain ⟨rfl, t, r, hnext, rfl⟩ := peekKind_ok hpeek
  split at hrun
  · next hsemi =>
      simp only [bind_ok_iff, pure_ok_iff] at hrun
      obtain ⟨semicolon, _, hsemi', rfl, rfl⟩ := hrun
      refine .deepen (.cons (expect_echo hk) (.peekKind_bind hnext (by simp) ?_))
      rw [if_pos hsemi]
      exact .cons (expect_echo hsemi') .pure
  · next hsemi =>
      simp only [bind_ok_iff, pure_ok_iff] at hrun
      obtain ⟨value, p₂, hvalue, semicolon, _, hsemi', rfl, rfl⟩ := hrun
      refine .deepen (.cons (expect_echo hk) (.peekKind_bind hnext (by simp) ?_))
      rw [if_neg hsemi]
      refine Echo.cast ?_ rfl (Nat.max_zero _)
      exact (h.expression hvalue).bind_cons (.cons (expect_echo hsemi') .pure)

theorem throwStatement_echo (hrun : throwStatement inner p = .ok (s, q)) :
    Echo x (n + 1) True p q s.tokens s.nesting (throwStatement inner') (s.relayout x.layout) := by
  simp only [throwStatement, bind_ok_iff, pure_ok_iff] at hrun
  obtain ⟨keyword, p₁, hk, value, p₂, hvalue, semicolon, _, hsemi, rfl, rfl⟩ := hrun
  refine .deepen (.cons (expect_echo hk) (Echo.cast ?_ rfl (Nat.max_zero _)))
  exact (h.expression hvalue).bind_cons (.cons (expect_echo hsemi) .pure)

/-! ## Switches -/

theorem clauseHead_echo {keyword : Token} {test : Option Expr}
    (hrun : clauseHead inner p = .ok ((keyword, test), q)) :
    Echo x n False p q (keyword :: (test.map Expr.tokens).getD []) ((test.map Expr.nesting).getD 0)
      (clauseHead inner') (keyword.relayout x.layout, test.map (Expr.relayout x.layout)) := by
  rw [clauseHead, bind_ok_iff] at hrun
  obtain ⟨t, _, hpeek, hrun⟩ := hrun
  obtain ⟨rfl, r, hnext⟩ := peek_ok hpeek
  refine .peek_bind hnext (by simp) fun t' hk => ?_
  rw [hk]
  split at hrun
  · next hcase =>
      simp only [bind_ok_iff, pure_ok_iff] at hrun
      obtain ⟨_, p₁, hword, e, _, he, heq, rfl⟩ := hrun
      cases heq
      rw [if_pos hcase]
      refine .cons (next_echo hword) ?_
      exact (h.expression he).ending rfl
  · next hcase =>
      split at hrun
      · next hdefault =>
          simp only [bind_ok_iff, pure_ok_iff] at hrun
          obtain ⟨_, _, hword, heq, rfl⟩ := hrun
          cases heq
          rw [if_neg hcase, if_pos hdefault]
          exact .cons (next_echo hword) .pure
      · exact (throw_ok_iff.mp hrun).elim

theorem clause_echo {c : Clause} (hrun : clause inner p = .ok (c, q)) :
    Echo x n False p q c.tokens c.nesting (clause inner') (c.relayout x.layout) := by
  rw [clause, bind_ok_iff] at hrun
  obtain ⟨⟨keyword, test⟩, p₁, hhead, hrun⟩ := hrun
  simp only [bind_ok_iff, pure_ok_iff] at hrun
  obtain ⟨colon, p₂, hcolon, body, _, hbody, rfl, rfl⟩ := hrun
  refine Echo.cast ((clauseHead_echo h hhead).bind_cons (.cons (expect_echo hcolon)
    ((stmts_echo h hbody).ending rfl))) ?_ ?_
  · simp [Clause.tokens]
  · simp [Clause.nesting]

theorem switchStatement_echo (hrun : switchStatement inner p = .ok (s, q)) :
    Echo x (n + 1) True p q s.tokens s.nesting (switchStatement inner') (s.relayout x.layout) := by
  simp only [switchStatement, bind_ok_iff, pure_ok_iff] at hrun
  obtain ⟨keyword, p₁, hk, opening, p₂, ho, subject, p₃, hsubject, closing, p₄, hc, openBrace, p₅, hob, clauses,
    p₆, hclauses, closeBrace, _, hcb, rfl, rfl⟩ := hrun
  have hclauses' : Echo x n False p₅ p₆ (clausesTokens clauses) (clausesNesting clauses)
      (many (fun k => k = .punct .closeBrace) (clause inner')) (clausesRelayout x.layout clauses) := by
    rw [clausesTokens_eq, clausesNesting_eq, clausesRelayout_eq]
    exact many_echo (clause_echo h) (by simp [Clause.tokens]) hclauses
  refine .deepen (.cons (expect_echo hk) (.cons (expect_echo ho) ?_))
  refine Echo.cast ((h.expression hsubject).bind_cons (.cons (expect_echo hc) (.cons (expect_echo hob)
    (hclauses'.bind_cons (.cons (expect_echo hcb) .pure))))) ?_ ?_
  · rfl
  · rw [Nat.max_zero]

/-! ## Pragmas -/

omit h in
theorem pragmaItem_echo {groups : Bool} {i : PragmaItem} (hrun : pragmaItem groups p = .ok (i, q)) :
    Echo x n False p q i.tokens 0 (pragmaItem groups) (i.relayout x.layout) := by
  rw [pragmaItem, bind_ok_iff] at hrun
  obtain ⟨o, p₁, hcolon, hrun⟩ := hrun
  cases o with
  | none =>
      simp only [bind_ok_iff, pure_ok_iff] at hrun
      obtain ⟨name, _, hname, rfl, rfl⟩ := hrun
      exact (optional_echo hcolon).bind_cons (.cons (expect_echo hname) .pure)
  | some colon =>
      cases groups with
      | true =>
          simp only [if_true, bind_ok_iff, pure_ok_iff] at hrun
          obtain ⟨name, _, hname, rfl, rfl⟩ := hrun
          exact (optional_echo hcolon).bind_cons (.cons (expect_echo hname) .pure)
      | false =>
          exact (throw_ok_iff.mp hrun).elim

omit h in
theorem pragma_echo {groups : Bool} {y : Pragma} (hrun : pragma groups p = .ok (y, q)) :
    Echo x n True p q y.tokens 0 (pragma groups) (y.relayout x.layout) := by
  simp only [pragma, bind_ok_iff, pure_ok_iff] at hrun
  obtain ⟨keyword, p₁, hk, items, p₂, hitems, semicolon, _, hsemi, rfl, rfl⟩ := hrun
  have hitems' : Echo x n False p₁ p₂ (items.tokens PragmaItem.tokens) (deepest (fun _ => 0) items.items)
      (commaList (fun _ => false) (pragmaItem groups))
      (items.relayout x.layout (PragmaItem.relayout x.layout)) := commaList_echo pragmaItem_echo hitems
  refine .cons (next_echo hk) (Echo.cast (hitems'.bind_cons (.cons (expect_echo hsemi) .pure)) rfl ?_)
  rw [deepest_zero, Nat.max_zero]

/-! ## Expressions as statements -/

theorem labeledBody_echo (hrun : labeledBody inner p = .ok (s, q)) :
    Echo x n True p q s.tokens s.nesting (labeledBody inner') (s.relayout x.layout) := by
  rw [labeledBody, bind_ok_iff] at hrun
  obtain ⟨t, _, hpeek, hrun⟩ := hrun
  obtain ⟨rfl, r, hnext⟩ := peek_ok hpeek
  refine .peek_bind hnext (fun hnil => absurd hnil s.tokens_ne_nil) fun t' hk => ?_
  rw [hk]
  generalize t.kind = k at hrun
  split at hrun
  case h_4 => exact (throw_ok_iff.mp hrun).elim
  all_goals exact h.statement hrun

theorem expressionStatement_echo (hrun : expressionStatement inner p = .ok (s, q)) :
    Echo x (n + 1) True p q s.tokens s.nesting (expressionStatement inner') (s.relayout x.layout) := by
  rw [expressionStatement, bind_ok_iff] at hrun
  obtain ⟨e, p₁, he, hrun⟩ := hrun
  have hname := e.bareName?_relayout (g := x.layout)
  cases hlabel : e.bareName? with
  | none =>
      simp only [hlabel, bind_ok_iff, pure_ok_iff] at hrun
      obtain ⟨semicolon, _, hsemi, rfl, rfl⟩ := hrun
      rw [hlabel] at hname
      refine .deepen (Echo.cast ((h.expression he).bind_cons ?_) rfl (Nat.max_zero _))
      rw [hname]
      exact .cons (expect_echo hsemi) .pure
  | some label =>
      simp only [hlabel, bind_ok_iff] at hrun
      obtain ⟨o, p₂, hcolon, hrun⟩ := hrun
      rw [hlabel] at hname
      cases o with
      | some colon =>
          simp only [bind_ok_iff, pure_ok_iff] at hrun
          obtain ⟨body, _, hbody, rfl, rfl⟩ := hrun
          cases eq_ident_of_bareName? hlabel
          -- The name takes a level as an expression, and the statement after it at least as many.
          refine .deepen (Echo.cast ((h.expression he).bind ((optional_echo hcolon).bind
            ((labeledBody_echo h hbody).ending rfl) (by simp [body.tokens_ne_nil])) (by simp)) ?_ ?_)
          · simp [Expr.tokens, Head.tokens, Stmt.tokens]
          · have hpos := body.nesting_pos
            simp only [Expr.nesting, Head.nesting]
            omega
      | none =>
          simp only [bind_ok_iff, pure_ok_iff] at hrun
          obtain ⟨semicolon, _, hsemi, rfl, rfl⟩ := hrun
          refine .deepen (Echo.cast ((h.expression he).bind_cons ?_) rfl (Nat.max_zero _))
          rw [hname]
          exact (optional_echo hcolon).bind_cons (.cons (expect_echo hsemi) .pure)

theorem statement_echo (hrun : statement inner p = .ok (s, q)) :
    Echo x (n + 1) True p q s.tokens s.nesting (statement inner') (s.relayout x.layout) := by
  rw [statement, bind_ok_iff] at hrun
  obtain ⟨k, _, hpeek, hrun⟩ := hrun
  obtain ⟨rfl, t, r, hnext, rfl⟩ := peekKind_ok hpeek
  refine .peekKind_bind hnext (fun hnil => absurd hnil s.tokens_ne_nil) ?_
  generalize t.kind = k at hrun
  split at hrun
  case h_1 => exact conditional_echo h hrun
  case h_2 =>
    obtain ⟨loop, _, hloop, heq⟩ := bind_ok_iff.mp hrun
    obtain ⟨rfl, rfl⟩ := pure_ok_iff.mp heq
    exact .deepen ((guarded_echo h hloop).ending rfl)
  case h_3 => exact forStatement_echo h hrun
  case h_4 => exact jump_echo hrun
  case h_5 => exact jump_echo hrun
  case h_6 => exact returnStatement_echo h hrun
  case h_7 => exact throwStatement_echo h hrun
  case h_8 => exact varStatement_echo h hrun
  case h_9 => exact functionStatement_echo h hrun
  case h_10 => exact switchStatement_echo h hrun
  case h_11 =>
    obtain ⟨y, _, hy, heq⟩ := bind_ok_iff.mp hrun
    obtain ⟨rfl, rfl⟩ := pure_ok_iff.mp heq
    exact .deepen ((pragma_echo hy).ending rfl)
  case h_12 =>
    obtain ⟨y, _, hy, heq⟩ := bind_ok_iff.mp hrun
    obtain ⟨rfl, rfl⟩ := pure_ok_iff.mp heq
    exact .deepen ((pragma_echo hy).ending rfl)
  case h_13 =>
    obtain ⟨b, _, hb, heq⟩ := bind_ok_iff.mp hrun
    obtain ⟨rfl, rfl⟩ := pure_ok_iff.mp heq
    exact .deepen ((block_echo h hb).ending rfl)
  case h_14 =>
    obtain ⟨semicolon, _, hsemi, heq⟩ := bind_ok_iff.mp hrun
    obtain ⟨rfl, rfl⟩ := pure_ok_iff.mp heq
    exact .deepen (.cons (next_echo hsemi) .pure)
  case h_15 => exact expressionStatement_echo h hrun

/-! ## Levels -/

omit h

/-- A level does in the second text what any level did in the first one, as far as its own levels go. -/
theorem level_echo (m n : Nat) : InnerEcho x n (level m) (level n) := by
  induction n generalizing m with
  | zero =>
      constructor
      · intro p q s _
        exact tooDeep_echo s.tokens_ne_nil s.nesting_pos
      · intro colon threshold p q e _
        exact tooDeep_echo e.tokens_ne_nil e.nesting_pos
  | succ n ih =>
      cases m with
      | zero =>
          constructor
          · intro p q s hrun
            exact (tooDeep_not_ok hrun).elim
          · intro colon threshold p q e hrun
            exact (tooDeep_not_ok hrun).elim
      | succ m =>
          constructor
          · intro p q s hrun
            exact statement_echo (ih m) hrun
          · intro colon threshold p q e hrun
            exact expression_echo (ih m) hrun

/-! ## Programs -/

/-- A list that ends with the common part. With enough levels the second text is read up to there, and then
    the list goes on with what else the second text has; otherwise the second text is refused. -/
theorem many_joined {α β : Type} {ends : Kind → Bool} {item : Parser α} {item' : Parser β} {f : α → β}
    {tok : α → List Token} {wt : α → Nat} {p' : Place}
    (hitem : ∀ {p q a}, item p = .ok (a, q) → Echo x n True p q (tok a) (wt a) item' (f a))
    (htok : ∀ a, tok a ≠ []) {as : List α} (hrun : many ends item p = .ok (as, q))
    (htwin : Twin x p p' (as.flatMap tok)) :
    (deepest wt as ≤ n → many ends item' p' =
      (many ends item' x.right).map fun o => (as.map f ++ o.1, o.2)) ∧
    (n < deepest wt as → ∃ e, many ends item' p' = .error e ∧ e.message = .nestedTooDeeply) := by
  fun_induction many ends item p generalizing as q p' with
  | case1 start ih =>
    obtain ⟨⟨k, p⟩, hpeek, hrun⟩ := except_bind_ok_iff.mp hrun
    obtain ⟨rfl, t, r, hnext, rfl⟩ := peekKind_ok hpeek
    dsimp only at hrun
    split at hrun
    · next hends =>
        cases except_pure_ok_iff.mp hrun
        cases htwin
        refine ⟨fun _ => ?_, fun hw => absurd hw (Nat.not_lt_zero _)⟩
        cases many ends item' x.right <;> rfl
    · next hends =>
        have hends : ends t.kind = false := by simpa using hends
        obtain ⟨⟨a, p₁⟩, ha, hrun⟩ := except_bind_ok_iff.mp hrun
        dsimp only at hrun
        -- The first item in the second text, whatever follows it.
        have hfirst {as : List α} (htwin : Twin x p p' (tok a ++ as.flatMap tok)) :
            ∃ t' r', next p' = .ok (t', r') ∧ ends t'.kind = false := by
          obtain ⟨t', r', hnext', hk⟩ := htwin.shows (by simp [htok a]) hnext
          exact ⟨t', r', hnext', by rw [hk]; exact hends⟩
        have hlength : 0 < (tok a).length := List.length_pos_iff.mpr (htok a)
        split at hrun
        · next hlt =>
            obtain ⟨⟨rest, p₂⟩, hrest, hrun⟩ := except_bind_ok_iff.mp hrun
            cases except_pure_ok_iff.mp hrun
            rw [List.flatMap_cons] at htwin
            obtain ⟨t', r', hnext', hends'⟩ := hfirst htwin
            by_cases hfits : wt a ≤ n
            · obtain ⟨q', ha', hq⟩ := (hitem ha).run (fun _ => trivial) htwin hfits
              have hright := hq.right
              have hcons := many_cons hnext' hends' ha' (by omega)
              obtain ⟨hrun', hrefuse⟩ := ih p₁ hlt hrest hq.twin
              change (max (wt a) (deepest wt rest) ≤ n → _) ∧ (n < max (wt a) (deepest wt rest) → _)
              refine ⟨fun hw => ?_, fun hw => ?_⟩
              · rw [hcons, hrun' (by omega)]
                cases many ends item' x.right <;> rfl
              · obtain ⟨e, hrun', he⟩ := hrefuse (by omega)
                rw [hcons, hrun']
                exact ⟨e, rfl, he⟩
            · obtain ⟨e, ha', he⟩ := (hitem ha).refuse (fun _ => trivial) htwin (by omega)
              change (max (wt a) (deepest wt rest) ≤ n → _) ∧ _
              exact ⟨fun hw => by omega, fun _ => ⟨e, many_error hnext' hends' ha', he⟩⟩
        · next hlt =>
            -- An item takes something, so this happens only if it is refused.
            cases except_pure_ok_iff.mp hrun
            obtain ⟨t', r', hnext', hends'⟩ := hfirst htwin
            have hdeep : ¬ wt a ≤ n := by
              intro hfits
              obtain ⟨_, _, hq⟩ := (hitem ha).run (fun _ => trivial) htwin hfits
              have hleft := hq.left
              rw [remaining_eq, remaining_eq] at hlt
              omega
            obtain ⟨e, ha', he⟩ := (hitem ha).refuse (fun _ => trivial) htwin (by omega)
            change (max (wt a) 0 ≤ n → _) ∧ _
            exact ⟨fun hw => by omega, fun _ => ⟨e, many_error hnext' hends' ha', he⟩⟩

section Body

variable {m : Nat} {p' : Place} {ss : List Stmt}
  (hrun : many (fun k => k = .endOfFile) (level m).statement p = .ok (ss, q))
  (htwin : Twin x p p' (stmtsTokens ss))
include hrun htwin

/-- The statements of a program in a second text that may go on, with enough levels for them. -/
theorem body_run (hw : stmtsNesting ss ≤ n) :
    many (fun k => k = .endOfFile) (level n).statement p' =
      (many (fun k => k = .endOfFile) (level n).statement x.right).map fun o =>
        (stmtsRelayout x.layout ss ++ o.1, o.2) := by
  rw [stmtsRelayout_eq]
  rw [stmtsTokens_eq] at htwin
  rw [stmtsNesting_eq] at hw
  exact (many_joined (level_echo m n).statement Stmt.tokens_ne_nil hrun htwin).1 hw

/-- The statements of a program in a second text, with too few levels. -/
theorem body_refuse (hw : n < stmtsNesting ss) :
    ∃ e, many (fun k => k = .endOfFile) (level n).statement p' = .error e ∧
      e.message = .nestedTooDeeply := by
  rw [stmtsTokens_eq] at htwin
  rw [stmtsNesting_eq] at hw
  exact (many_joined (level_echo m n).statement Stmt.tokens_ne_nil hrun htwin).2 hw

end Body

end Parser

end Respell
