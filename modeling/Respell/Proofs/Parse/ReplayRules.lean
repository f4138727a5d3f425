import Respell.Proofs.Parse.Replay

/-!
# Productions in step

Every production is echoed: given what it read in one text with some inner parsers, the same production with
other inner parsers reads the same tokens in a second text, if those inner parsers echo the first ones. The
tokens it takes are those of its tree, and the nesting levels it needs are those of its tree too. An
expression or a statement takes one level more than what stands inside it, so echoes pass from level to level.
-/

namespace Respell

open Text

/-! ## Levels of lists -/

theorem exprsNesting_eq (es : Separated Expr) :
    exprsNesting es = Parser.deepest Expr.nesting es.items := by
  induction es with
  | nil => rfl
  | one e => simp [exprsNesting, Parser.deepest, Separated.items]
  | more e comma es ih =>
      rw [exprsNesting, ih]
      rfl

theorem stmtsNesting_eq (ss : List Stmt) : stmtsNesting ss = Parser.deepest Stmt.nesting ss := by
  induction ss with
  | nil => rfl
  | cons s ss ih =>
      rw [stmtsNesting, ih]
      rfl

/-- The levels of the value of an object entry. -/
def Entry.nesting (e : Entry) : Nat := e.value.nesting

theorem entriesNesting_eq (es : Separated Entry) :
    entriesNesting es = Parser.deepest Entry.nesting es.items := by
  induction es with
  | nil => rfl
  | one e =>
      obtain ⟨key, colon, value⟩ := e
      simp [entriesNesting, Parser.deepest, Separated.items, Entry.nesting]
  | more e comma es ih =>
      obtain ⟨key, colon, value⟩ := e
      rw [entriesNesting, ih]
      rfl

theorem declsNesting_eq (ds : Separated Decl) :
    declsNesting ds = Parser.deepest Decl.nesting ds.items := by
  induction ds with
  | nil => rfl
  | one d => simp [declsNesting, Parser.deepest, Separated.items]
  | more d comma ds ih =>
      rw [declsNesting, ih]
      rfl

/-- The levels of a clause. -/
def Clause.nesting (c : Clause) : Nat := max ((c.test.map Expr.nesting).getD 0) (stmtsNesting c.body)

theorem clausesNesting_eq (cs : List Clause) :
    clausesNesting cs = Parser.deepest Clause.nesting cs := by
  induction cs with
  | nil => rfl
  | cons c cs ih =>
      obtain ⟨keyword, test, colon, body⟩ := c
      cases test with
      | none =>
          rw [clausesNesting, ih]
          simp [Parser.deepest, Clause.nesting]
      | some test =>
          rw [clausesNesting, ih]
          simp [Parser.deepest, Clause.nesting]

/-- Parameters take a level each, as the expressions they were read as. -/
theorem nesting_of_map? {items : Separated Expr} {params : Separated Param}
    (h : items.map? Expr.toParam? = some params) :
    exprsNesting items = if params.items.isEmpty then 0 else 1 := by
  have hone {e : Expr} {y : Param} (he : e.toParam? = some y) : e.nesting = 1 := by
    unfold Expr.toParam? at he
    split at he <;> cases he <;> rfl
  induction items generalizing params with
  | nil => cases h; rfl
  | one e =>
      obtain ⟨y, hy, rfl⟩ := Option.map_eq_some_iff.mp h
      simp [exprsNesting, hone hy, Separated.items]
  | more e comma items ih =>
      rw [Separated.map?] at h
      split at h
      · next y ys hy hys =>
          cases h
          rw [exprsNesting, hone hy, ih hys]
          simp only [Separated.items, List.isEmpty_cons, Bool.false_eq_true, if_false]
          split <;> rfl
      · cases h

theorem Head.tokens_ne_nil (h : Head) : h.tokens ≠ [] := by
  cases h with
  | construct => simp [Head.tokens]
  | array elements => cases elements; simp [Head.tokens, Enclosed.tokens]
  | function f => cases f; simp [Head.tokens, Func.tokens, Params.tokens]
  | arrow => simp [Head.tokens]
  | _ => simp [Head.tokens]

theorem Expr.tokens_ne_nil (e : Expr) : e.tokens ≠ [] := by
  cases e with
  | head h => exact h.tokens_ne_nil
  | suffix leading s => simp [Expr.tokens, leading.tokens_ne_nil]

theorem Guarded.tokens_ne_nil (x : Guarded) : x.tokens ≠ [] := by
  cases x
  simp [Guarded.tokens]

theorem Stmt.tokens_ne_nil (s : Stmt) : s.tokens ≠ [] := by
  cases s with
  | «return» keyword value semicolon => cases value <;> simp [Stmt.tokens]
  | conditional first others => simp [Stmt.tokens, first.tokens_ne_nil]
  | «while» loop => exact loop.tokens_ne_nil
  | function f => cases f; simp [Stmt.tokens, Func.tokens, Params.tokens]
  | block b => cases b; simp [Stmt.tokens, Block.tokens]
  | «include» p => simp [Stmt.tokens, Pragma.tokens]
  | declare p => simp [Stmt.tokens, Pragma.tokens]
  | _ => simp [Stmt.tokens]

theorem Stmt.nesting_pos (s : Stmt) : 0 < s.nesting := by
  cases s with
  | «return» keyword value semicolon => cases value <;> simp [Stmt.nesting]
  | _ => simp [Stmt.nesting]

namespace Parser

variable {x : Pair} {n : Nat} {inner inner' : Inner} {colon : Colon} {p q : Place}

/-- The parsers `inner'` of a second reading echo the parsers `inner` of a first one, with `n` levels. -/
structure InnerEcho (x : Pair) (n : Nat) (inner inner' : Inner) : Prop where
  statement {p q : Place} {s : Stmt} : inner.statement p = .ok (s, q) →
    Echo x n True p q s.tokens s.nesting inner'.statement (s.relayout x.layout)
  expression {colon : Colon} {threshold : Precedence} {p q : Place} {e : Expr} :
    inner.expression colon threshold p = .ok (e, q) →
    Echo x n False p q e.tokens e.nesting (inner'.expression colon threshold) (e.relayout x.layout)

variable (h : InnerEcho x n inner inner')
include h

/-! ## Functions -/

theorem expressions_echo {es : Separated Expr} (hrun : expressions inner colon p = .ok (es, q)) :
    Echo x n False p q (exprsTokens es) (exprsNesting es) (expressions inner' colon)
      (exprsRelayout x.layout es) := by
  rw [exprsTokens_eq, exprsNesting_eq, exprsRelayout_eq]
  exact commaList_echo h.expression hrun

theorem enclosed_echo {o c : Punct} {e : Enclosed} (hrun : enclosed inner colon o c p = .ok (e, q)) :
    Echo x n True p q e.tokens e.nesting (enclosed inner' colon o c) (e.relayout x.layout) := by
  simp only [enclosed, bind_ok_iff, pure_ok_iff] at hrun
  obtain ⟨opening, p₁, ho, items, p₂, hitems, closing, _, hc, rfl, rfl⟩ := hrun
  refine Echo.cast ?_ rfl (Nat.max_zero _)
  exact .cons (expect_echo ho) ((expressions_echo h hitems).bind_cons (.cons (expect_echo hc) .pure))

theorem stmts_echo {ends : Kind → Bool} {ss : List Stmt}
    (hrun : many ends inner.statement p = .ok (ss, q)) :
    Echo x n False p q (stmtsTokens ss) (stmtsNesting ss) (many ends inner'.statement)
      (stmtsRelayout x.layout ss) := by
  rw [stmtsTokens_eq, stmtsNesting_eq, stmtsRelayout_eq]
  refine many_echo ?_ Stmt.tokens_ne_nil hrun
  intro p q s hs
  exact (h.statement hs).ahead

theorem block_echo {b : Block} (hrun : block inner p = .ok (b, q)) :
    Echo x n True p q b.tokens b.nesting (block inner') (b.relayout x.layout) := by
  simp only [block, bind_ok_iff, pure_ok_iff] at hrun
  obtain ⟨opening, p₁, ho, body, p₂, hbody, closing, _, hc, rfl, rfl⟩ := hrun
  refine Echo.cast ?_ rfl (Nat.max_zero _)
  exact .cons (expect_echo ho) ((stmts_echo h hbody).bind_cons (.cons (expect_echo hc) .pure))

omit h in
/-- A list that was taken for parameters is taken for parameters again, whatever token made it so. -/
theorem asParams_echo {list : Enclosed} {items : Separated Param} {before' : Token}
    (hitems : list.items.map? Expr.toParam? = some items) :
    Echo x n True p p [] 0 (asParams (list.relayout x.layout) before')
      (Params.relayout x.layout ⟨list.opening, items, list.closing⟩) := by
  obtain ⟨opening, exprs, closing⟩ := list
  have hitems' : (Enclosed.relayout x.layout ⟨opening, exprs, closing⟩).items.map? Expr.toParam? =
      some (items.relayout x.layout (Param.relayout x.layout)) := by
    rw [Enclosed.relayout, exprsRelayout_eq, map?_relayout, hitems]
    rfl
  unfold asParams
  rw [hitems']
  exact .pure

omit h in
theorem receiver_echo {named : Option Receiver} (hrun : receiver p = .ok (named, q)) :
    Echo x n False p q (receiverTokens named) 0 receiver (named.map (Receiver.relayout x.layout)) := by
  rw [receiver, bind_ok_iff] at hrun
  obtain ⟨o, p₁, hcolon, hrun⟩ := hrun
  cases o with
  | none =>
      obtain ⟨rfl, rfl⟩ := pure_ok_iff.mp hrun
      exact (optional_echo hcolon).ending rfl
  | some colon =>
      simp only [bind_ok_iff, pure_ok_iff] at hrun
      obtain ⟨name, _, hname, rfl, rfl⟩ := hrun
      exact (optional_echo hcolon).bind_cons (.cons (expect_echo hname) .pure)

omit h in
theorem nesting_of_params {list : Enclosed} {items : Separated Param}
    (hitems : list.items.map? Expr.toParam? = some items) :
    Params.nesting ⟨list.opening, items, list.closing⟩ = list.nesting := by
  obtain ⟨opening, exprs, closing⟩ := list
  exact (nesting_of_map? hitems).symm

/-- The body of a function, after its parameters and the name of its receiver. -/
theorem finishFunction_echo {keyword name : Option Token} {list : Enclosed} {named : Option Receiver}
    {f : Func} (hrun : finishFunction inner keyword name list named p = .ok (f, q)) :
    f.tokens = keyword.toList ++ name.toList ++ (list.tokens ++ (receiverTokens named ++ f.body.tokens)) ∧
      f.nesting = max list.nesting f.body.nesting ∧
      Echo x n True p q f.body.tokens f.body.nesting
        (finishFunction inner' (keyword.map (Token.relayout x.layout))
          (name.map (Token.relayout x.layout)) (list.relayout x.layout)
          (named.map (Receiver.relayout x.layout))) (f.relayout x.layout) := by
  simp only [finishFunction, bind_ok_iff, pure_ok_iff] at hrun
  obtain ⟨brace, p₁, hbrace, params, p₂, hparams, body, _, hbody, rfl, rfl⟩ := hrun
  obtain ⟨rfl, ⟨r, hnext⟩, hk⟩ := expectPeek_ok hbrace
  obtain ⟨rfl, items, hitems, rfl⟩ := asParams_ok hparams
  refine ⟨?_, ?_, ?_⟩
  · rw [Func.tokens, tokens_of_params hitems]
    simp [receiverTokens]
  · rw [Func.nesting, nesting_of_params hitems]
  · have hne : body.tokens ≠ [] := by
      rw [Block.tokens_eq]
      exact List.cons_ne_nil _ _
    refine expectPeek_echo hnext hk (fun hnil => absurd hnil hne) fun t' => ?_
    exact .look (asParams_echo hitems) (by simp) ((block_echo h hbody).ending rfl)

/-- The parameters, the name of the receiver and the body of a function. -/
theorem functionRest_echo {keyword name : Option Token} {f : Func}
    (hrun : functionRest inner colon keyword name p = .ok (f, q)) :
    ∃ ts, f.tokens = keyword.toList ++ name.toList ++ ts ∧
      Echo x n True p q ts f.nesting (functionRest inner' colon
        (keyword.map (Token.relayout x.layout)) (name.map (Token.relayout x.layout)))
        (f.relayout x.layout) := by
  simp only [functionRest, bind_ok_iff] at hrun
  obtain ⟨list, p₁, hlist, named, p₂, hnamed, hf⟩ := hrun
  obtain ⟨htokens, hnesting, hbody⟩ := finishFunction_echo h hf
  have hne : f.body.tokens ≠ [] := by
    rw [Block.tokens_eq]
    exact List.cons_ne_nil _ _
  refine ⟨_, htokens, ?_⟩
  rw [hnesting, ← Nat.zero_max f.body.nesting]
  exact (enclosed_echo h hlist).bind ((receiver_echo hnamed).bind hbody fun hnil => absurd hnil hne) (by simp)

/-! ## Heads -/

theorem parenthesized_echo {y : Head} (hrun : parenthesized inner colon p = .ok (y, q)) :
    Echo x n False p q y.tokens y.nesting (parenthesized inner' colon) (y.relayout x.layout) := by
  simp only [parenthesized, bind_ok_iff] at hrun
  obtain ⟨list, p₁, hlist, after, p₂, hafter, bound, p₃, hbound, hrun⟩ := hrun
  obtain ⟨rfl, r, hnext⟩ := peek_ok hafter
  obtain rfl := lookAhead_ok hbound
  unfold parenthesized
  -- All three tests come out as they did, since the token after the list is of the same kind.
  split at hrun
  · next hbrace =>
      simp only [bind_ok_iff, pure_ok_iff] at hrun
      obtain ⟨f, _, hf, rfl, rfl⟩ := hrun
      obtain ⟨htokens, hnesting, hbody⟩ := finishFunction_echo h hf
      rw [Head.tokens, htokens, Head.nesting, hnesting]
      refine (enclosed_echo h hlist).bind
        (.peek_bind hnext (by simp) fun after' hk => .look (atReceiver_echo hbound) (by simp) ?_) (by simp)
      rw [if_pos (hk.trans hbrace)]
      exact hbody.ahead.ending rfl
  · next hbrace =>
      split at hrun
      · next hcolon =>
          simp only [bind_ok_iff, pure_ok_iff] at hrun
          obtain ⟨named, p₄, hnamed, f, _, hf, rfl, rfl⟩ := hrun
          obtain ⟨htokens, hnesting, hbody⟩ := finishFunction_echo h hf
          rw [Head.tokens, htokens, Head.nesting, hnesting]
          refine (enclosed_echo h hlist).bind
            (.peek_bind hnext (by simp) fun after' hk => .look (atReceiver_echo hbound) (by simp) ?_) (by simp)
          rw [hk, if_neg hbrace, if_pos hcolon]
          refine Echo.cast ((receiver_echo hnamed).bind (hbody.ahead.ending rfl) (by simp)) rfl (Nat.zero_max _)
      · next hcolon =>
          split at hrun
          · next harrow =>
              simp only [bind_ok_iff, pure_ok_iff] at hrun
              obtain ⟨params, _, hparams, sign, p₄, hsign, body, _, hbody, rfl, rfl⟩ := hrun
              obtain ⟨rfl, items, hitems, rfl⟩ := asParams_ok hparams
              rw [Head.tokens, tokens_of_params hitems, Head.nesting, nesting_of_params hitems]
              refine (enclosed_echo h hlist).bind
                (.peek_bind hnext (by simp) fun after' hk => .look (atReceiver_echo hbound) (by simp) ?_) (by simp)
              rw [hk, if_neg hbrace, if_neg hcolon, if_pos harrow]
              refine .look (asParams_echo hitems) (by simp) (.cons (next_echo hsign) ?_)
              exact (h.expression hbody).ending rfl
          · next harrow =>
              obtain ⟨opening, items, closing⟩ := list
              dsimp only at hrun
              split at hrun
              · next e =>
                  obtain ⟨rfl, rfl⟩ := pure_ok_iff.mp hrun
                  refine Echo.cast ((enclosed_echo h hlist).bind
                    (.peek_bind hnext (by simp) fun after' hk => .look (atReceiver_echo hbound) (by simp) ?_)
                    (by simp))
                    (List.append_nil _) (Nat.max_zero _)
                  rw [hk, if_neg hbrace, if_neg hcolon, if_neg harrow]
                  exact .pure
              · exact (throw_ok_iff.mp hrun).elim

omit h in
theorem member_echo {m : Member} (hrun : member p = .ok (m, q)) :
    Echo x n True p q m.tokens 0 member (m.relayout x.layout) := by
  obtain ⟨p₁, hdot, hname⟩ := member_ok hrun
  exact .cons (expect_echo hdot) (.cons (expect_echo hname) .pure)

theorem construct_echo {y : Head} (hrun : construct inner colon p = .ok (y, q)) :
    Echo x n False p q y.tokens y.nesting (construct inner' colon) (y.relayout x.layout) := by
  simp only [construct, bind_ok_iff, pure_ok_iff] at hrun
  obtain ⟨keyword, p₁, hk, first, p₂, hfirst, members, p₃, hmembers, arguments, _, hargs, rfl, rfl⟩ :=
    hrun
  have hmembers' : Echo x n False p₂ p₃ (members.flatMap Member.tokens) (deepest (fun _ => 0) members)
      (many (fun k => k ≠ .punct .dot) member) (members.map (Member.relayout x.layout)) :=
    many_echo (fun hm => (member_echo hm).ahead) (by simp [Member.tokens])
      hmembers
  rw [deepest_zero] at hmembers'
  refine Echo.cast (.cons (expect_echo hk) (.cons (expect_echo hfirst)
    (hmembers'.bind ((enclosed_echo h hargs).ahead.ending rfl) (by simp)))) ?_ ?_
  · simp [Head.tokens, DottedName.tokens]
  · simp [Head.nesting]

omit h in
theorem key_echo {t : Token} (hrun : key p = .ok (t, q)) :
    Echo x n True p q [t] 0 key (t.relayout x.layout) := by
  rw [key, bind_ok_iff] at hrun
  obtain ⟨mark, p₁, hpeek, hrun⟩ := hrun
  obtain ⟨rfl, r, hnext⟩ := peek_ok hpeek
  generalize hk : mark.kind = k at hrun
  refine .peek_bind hnext (by simp) fun mark' hk' => ?_
  rw [hk', hk]
  split at hrun
  · exact next_echo hrun
  · exact quoted_echo hrun
  · exact quoted_echo hrun
  · exact (throw_ok_iff.mp hrun).elim

theorem entry_echo {e : Entry} (hrun : entry inner colon p = .ok (e, q)) :
    Echo x n False p q e.tokens e.nesting (entry inner' colon) (e.relayout x.layout) := by
  obtain ⟨p₁, p₂, hkey, hcolon, hvalue⟩ := entry_ok hrun
  exact .cons (key_echo hkey) (.cons (expect_echo hcolon) ((h.expression hvalue).ending rfl))

theorem object_echo {y : Head} (hrun : object inner colon p = .ok (y, q)) :
    Echo x n False p q y.tokens y.nesting (object inner' colon) (y.relayout x.layout) := by
  simp only [object, bind_ok_iff, pure_ok_iff] at hrun
  obtain ⟨opening, p₁, ho, entries, p₂, hentries, closing, _, hc, rfl, rfl⟩ := hrun
  have hecho := commaList_echo (entry_echo h) hentries
  rw [← entriesTokens_eq, ← entriesNesting_eq, ← entriesRelayout_eq] at hecho
  refine Echo.cast ?_ rfl (Nat.max_zero _)
  exact .cons (expect_echo ho) (hecho.bind_cons (.cons (expect_echo hc) .pure))

theorem head_echo {y : Head} (hrun : head inner colon p = .ok (y, q)) :
    Echo x n False p q y.tokens y.nesting (head inner' colon) (y.relayout x.layout) := by
  rw [head, bind_ok_iff] at hrun
  obtain ⟨t, p', hpeek, hrun⟩ := hrun
  obtain ⟨rfl, r, hnext⟩ := peek_ok hpeek
  generalize hk : t.kind = k at hrun
  refine .peek_bind hnext (by simp) fun t' hk' => ?_
  rw [hk', hk]
  -- The cases are those of `head`, in its order.
  split at hrun
  case h_1 | h_2 | h_3 | h_4 | h_5 =>
    simp only [bind_ok_iff, pure_ok_iff] at hrun
    obtain ⟨s, _, hs, rfl, rfl⟩ := hrun
    exact .cons (next_echo hs) .pure
  case h_6 | h_7 | h_8 | h_9 =>
    simp only [bind_ok_iff, pure_ok_iff] at hrun
    obtain ⟨s, _, hs, rfl, rfl⟩ := hrun
    exact .cons (quoted_echo hs) .pure
  case h_10 =>
    simp only [bind_ok_iff, pure_ok_iff] at hrun
    obtain ⟨mark, p₁, hmark, handler, _, hhandler, rfl, rfl⟩ := hrun
    refine .cons (next_echo hmark) ?_
    exact (optional_echo hhandler).ending rfl
  case h_11 =>
    simp only [bind_ok_iff, pure_ok_iff] at hrun
    obtain ⟨elements, _, helements, rfl, rfl⟩ := hrun
    exact (enclosed_echo h helements).ahead.ending rfl
  case h_12 => exact object_echo h hrun
  case h_13 => exact construct_echo h hrun
  case h_14 | h_15 | h_16 | h_17 | h_18 =>
    simp only [bind_ok_iff, pure_ok_iff] at hrun
    obtain ⟨operator, p₁, hoperator, operand, _, hoperand, rfl, rfl⟩ := hrun
    refine .cons (next_echo hoperator) ?_
    exact (h.expression hoperand).ending rfl
  case h_19 => exact parenthesized_echo h hrun
  case h_20 =>
    simp only [bind_ok_iff, pure_ok_iff] at hrun
    obtain ⟨sign, p₁, hsign, body, _, hbody, rfl, rfl⟩ := hrun
    refine .cons (next_echo hsign) ?_
    exact (h.expression hbody).ending rfl
  case h_21 =>
    simp only [bind_ok_iff, pure_ok_iff] at hrun
    obtain ⟨keyword, p₁, hkeyword, name, p₂, hname, f, _, hf, rfl, rfl⟩ := hrun
    obtain ⟨ts, htokens, hecho⟩ := functionRest_echo h hf
    refine Echo.cast (.cons (next_echo hkeyword) ((optional_echo hname).bind (hecho.ahead.ending rfl) (by simp))) ?_ ?_
    · simp [Head.tokens, htokens]
    · simp [Head.nesting]
  case h_22 => exact (throw_ok_iff.mp hrun).elim

/-! ## Suffixes -/

theorem operation_echo {s : Precedence} {y : Suffix} (hrun : operation inner colon s p = .ok (y, q)) :
    Echo x n False p q y.tokens y.nesting (operation inner' colon s) (y.relayout x.layout) := by
  rw [operation, bind_ok_iff] at hrun
  obtain ⟨operator, p₁, hoperator, hrun⟩ := hrun
  unfold operation
  split at hrun
  · next hquestion =>
      simp only [bind_ok_iff, pure_ok_iff] at hrun
      obtain ⟨consequent, p₂, hconsequent, c, p₃, hc, alternate, _, halternate, rfl, rfl⟩ := hrun
      refine .cons (next_echo hoperator) ?_
      rw [if_pos (by exact hquestion)]
      exact (h.expression hconsequent).bind_cons (.cons (expect_echo hc)
        ((h.expression halternate).ending rfl))
  · next hquestion =>
      simp only [bind_ok_iff, pure_ok_iff] at hrun
      obtain ⟨right, _, hright, rfl, rfl⟩ := hrun
      refine .cons (next_echo hoperator) ?_
      rw [if_neg (by exact hquestion)]
      exact (h.expression hright).ending rfl

theorem access_echo {y : Suffix} (hrun : access inner colon p = .ok (y, q)) :
    Echo x n False p q y.tokens y.nesting (access inner' colon) (y.relayout x.layout) := by
  simp only [access, bind_ok_iff] at hrun
  obtain ⟨dot, p₁, hdot, name, p₂, hname, hrun⟩ := hrun
  unfold access
  split at hrun
  · next hkind =>
      obtain ⟨k, p₃, hpeek, hrun⟩ := bind_ok_iff.mp hrun
      obtain ⟨rfl, after, _, hafter, rfl⟩ := peekKind_ok hpeek
      split at hrun
      · next hparen =>
          simp only [bind_ok_iff, pure_ok_iff] at hrun
          obtain ⟨arguments, _, harguments, rfl, rfl⟩ := hrun
          refine .cons (next_echo hdot) (.cons (next_echo hname) ?_)
          rw [if_pos (by exact hkind)]
          refine .peekKind_bind hafter (by simp) ?_
          rw [if_pos hparen]
          exact (enclosed_echo h harguments).ahead.ending rfl
      · next hparen =>
          obtain ⟨rfl, rfl⟩ := pure_ok_iff.mp hrun
          refine .cons (next_echo hdot) (.cons (next_echo hname) ?_)
          rw [if_pos (by exact hkind)]
          refine .peekKind_bind hafter (by simp) ?_
          rw [if_neg hparen]
          exact .pure
  · exact (throw_ok_iff.mp hrun).elim

/-- What a round of suffixes did to the expression `e`: nothing, or it took the tokens `us` and needed `w`
    levels inside the expression. -/
inductive Grown (e : Expr) : Option Expr → List Token → Nat → Prop where
  | stop : Grown e none [] 0
  | step {e' : Expr} {us : List Token} {w : Nat} : e'.tokens = e.tokens ++ us → us ≠ [] →
      e'.nesting = max e.nesting (w + 1) → Grown e (some e') us w

omit h in
theorem grown_suffix (e : Expr) (y : Suffix) : Grown e (some (.suffix e y)) y.tokens y.nesting := by
  refine .step rfl ?_ rfl
  cases y with
  | call arguments => cases arguments; simp [Suffix.tokens, Enclosed.tokens]
  | invoke => simp [Suffix.tokens, Member.tokens]
  | property => simp [Suffix.tokens, Member.tokens]
  | _ => simp [Suffix.tokens]

theorem suffix?_echo {threshold : Precedence} {e : Expr} {o : Option Expr}
    (hrun : suffix? inner colon threshold e p = .ok (o, q)) :
    ∃ us w, Grown e o us w ∧ Echo x n False p q us w
      (suffix? inner' colon threshold (e.relayout x.layout)) (o.map (Expr.relayout x.layout)) := by
  rw [suffix?, bind_ok_iff] at hrun
  obtain ⟨t, p', hpeek, hrun⟩ := hrun
  obtain ⟨rfl, r, hnext⟩ := peek_ok hpeek
  unfold suffix?
  cases hprec : Precedence.ofKind? t.kind with
  | some s =>
      simp only [hprec] at hrun
      split at hrun
      · next hbinds =>
          simp only [bind_ok_iff, pure_ok_iff] at hrun
          obtain ⟨y, _, hy, rfl, rfl⟩ := hrun
          refine ⟨_, _, grown_suffix e y, .peek_bind hnext (by simp) fun t' hk' => ?_⟩
          simp only [hk', hprec, if_pos hbinds]
          exact (operation_echo h hy).ending rfl
      · next hbinds =>
          obtain ⟨rfl, rfl⟩ := pure_ok_iff.mp hrun
          refine ⟨_, _, .stop, .peek_bind hnext (by simp) fun t' hk' => ?_⟩
          simp only [hk', hprec, if_neg hbinds]
          exact .pure
  | none =>
      simp only [hprec] at hrun
      generalize hk : t.kind = k at hrun hprec
      split at hrun
      case h_1 =>
        simp only [bind_ok_iff, pure_ok_iff] at hrun
        obtain ⟨y, _, hy, rfl, rfl⟩ := hrun
        refine ⟨_, _, grown_suffix e y, .peek_bind hnext (by simp) fun t' hk' => ?_⟩
        simp only [hk', hk]
        exact (access_echo h hy).ending rfl
      case h_2 =>
        simp only [bind_ok_iff, pure_ok_iff] at hrun
        obtain ⟨arguments, _, harguments, rfl, rfl⟩ := hrun
        refine ⟨_, _, grown_suffix e (.call arguments), .peek_bind hnext (by simp) fun t' hk' => ?_⟩
        simp only [hk', hk]
        exact (enclosed_echo h harguments).ahead.ending rfl
      case h_3 =>
        simp only [bind_ok_iff, pure_ok_iff] at hrun
        obtain ⟨opening, p₁, ho, position, p₂, hposition, closing, _, hc, rfl, rfl⟩ := hrun
        refine ⟨_, _, grown_suffix e (.index opening position closing),
          .peek_bind hnext (by simp) fun t' hk' => ?_⟩
        simp only [hk', hk]
        refine Echo.cast ?_ rfl (Nat.max_zero _)
        exact .cons (next_echo ho) ((h.expression hposition).bind_cons (.cons (expect_echo hc) .pure))
      case h_4 =>
        simp only [bind_ok_iff, pure_ok_iff] at hrun
        obtain ⟨colons, p₁, hcolons, name, _, hname, rfl, rfl⟩ := hrun
        refine ⟨_, _, grown_suffix e (.prototype colons name), .peek_bind hnext (by simp) fun t' hk' => ?_⟩
        simp only [hk', hk]
        refine .cons (next_echo hcolons) ?_
        exact (optional_echo hname).ending rfl
      case h_5 =>
        obtain ⟨dots, p₁, hdots, hrun⟩ := bind_ok_iff.mp hrun
        cases hname : e.bareName? with
        | none =>
            simp only [hname] at hrun
            exact (throw_ok_iff.mp hrun).elim
        | some name =>
            simp only [hname] at hrun
            obtain ⟨rfl, rfl⟩ := pure_ok_iff.mp hrun
            obtain rfl := eq_ident_of_bareName? hname
            -- The name stays on the level it was on.
            refine ⟨[dots], 0, .step rfl (by simp) rfl, .peek_bind hnext (by simp) fun t' hk' => ?_⟩
            simp only [hk', hk]
            exact .cons (next_echo hdots) .pure
      case h_6 =>
        obtain ⟨rfl, rfl⟩ := pure_ok_iff.mp hrun
        refine ⟨_, _, .stop, .peek_bind hnext (by simp) fun t' hk' => ?_⟩
        simp only [hk', hk, hprec]
        exact .pure

section Extend

variable {α β : Type} {round : β → Parser (Option β)} {b d : β} {us vs : List Token} {w v : Nat} {r : Place}
omit h

theorem extend_none_echo (hround : Echo x n False p q [] 0 (round b) none) :
    Echo x n False p q [] 0 (extend round b) b := by
  constructor
  · intro p' ts hts htwin hw
    obtain ⟨q', hrun, hq⟩ := hround.run hts htwin hw
    exact ⟨q', extend_none hrun, hq⟩
  · intro p' ts _ _ hw
    exact absurd hw (Nat.not_lt_zero _)

theorem extend_refuse {p' : Place} {ts : List Token} {o : Option β}
    (hround : Echo x n False p q us w (round b) o) (hts : ts = [] → False)
    (htwin : Twin x p p' (us ++ ts)) (hw : n < w) :
    ∃ f, extend round b p' = .error f ∧ f.message = .nestedTooDeeply := by
  obtain ⟨e, hrun, he⟩ := hround.refuse hts htwin hw
  exact ⟨e, extend_error hrun, he⟩

theorem extend_some_echo {c : β} (hround : Echo x n False p q us w (round b) (some c)) (hus : us ≠ [])
    (hrest : Echo x n False q r vs v (extend round c) d) :
    Echo x n False p r (us ++ vs) (max w v) (extend round b) d := by
  have hlength : 0 < us.length := List.length_pos_iff.mpr hus
  refine hround.seq (k := fun o => o) hrest (by simp) ?_ ?_
  · intro p' q' ts hts htwin hrun hright
    rw [extend_some hrun (by omega)]
    cases extend round c q' <;> rfl
  · intro p' ts hts htwin hw
    exact extend_refuse hround (fun hnil => hts (List.append_eq_nil_iff.mp hnil).2) htwin hw

end Extend

/-- All rounds of suffixes: the tokens they took and the levels they needed. -/
theorem extend_echo {threshold : Precedence} {e e' : Expr}
    (hrun : extend (suffix? inner colon threshold) e p = .ok (e', q)) :
    ∃ us w, e'.tokens = e.tokens ++ us ∧ e'.nesting = max e.nesting (w + 1) ∧
      Echo x n False p q us w (extend (suffix? inner' colon threshold) (e.relayout x.layout))
        (e'.relayout x.layout) := by
  fun_induction extend (suffix? inner colon threshold) e p generalizing e' q with
  | case1 e p ih =>
    have hpos := e.nesting_pos
    obtain ⟨⟨o, r⟩, hround, hrun⟩ := except_bind_ok_iff.mp hrun
    obtain ⟨us, w, hgrown, hecho⟩ := suffix?_echo h hround
    cases hgrown with
    | stop =>
        cases except_pure_ok_iff.mp hrun
        exact ⟨[], 0, (List.append_nil _).symm, by omega, extend_none_echo hecho⟩
    | @step e₁ _ _ htokens hne hnesting =>
        dsimp only at hrun
        split at hrun
        · next hlt =>
            obtain ⟨vs, v, htokens', hnesting', hrest⟩ := ih e₁ r hlt hrun
            refine ⟨us ++ vs, max w v, ?_, by omega, extend_some_echo hecho hne hrest⟩
            rw [htokens', htokens, List.append_assoc]
        · next hlt =>
            -- A suffix takes something, so this happens only if it is refused.
            cases except_pure_ok_iff.mp hrun
            refine ⟨us, w, htokens, hnesting, ?_, extend_refuse hecho⟩
            intro p' ts hts htwin hw
            obtain ⟨_, _, hr⟩ := hecho.run hts htwin hw
            have hleft := hr.left
            have hlength : 0 < us.length := List.length_pos_iff.mpr hne
            rw [remaining_eq, remaining_eq] at hlt
            omega

/-- An expression takes one level more than what stands inside it. -/
theorem expression_echo {threshold : Precedence} {e : Expr}
    (hrun : expression inner colon threshold p = .ok (e, q)) :
    Echo x (n + 1) False p q e.tokens e.nesting (expression inner' colon threshold)
      (e.relayout x.layout) := by
  rw [expression, bind_ok_iff] at hrun
  obtain ⟨first, p₁, hfirst, hrun⟩ := hrun
  obtain ⟨us, w, htokens, hnesting, hrest⟩ := extend_echo h hrun
  refine Echo.cast ((head_echo h hfirst).bind hrest (by simp)).deepen htokens.symm ?_
  rw [hnesting, Expr.nesting]
  omega

/-! ## Statements -/

theorem guarded_echo {w : Word} {y : Guarded} (hrun : guarded inner w p = .ok (y, q)) :
    Echo x n True p q y.tokens y.nesting (guarded inner' w) (y.relayout x.layout) := by
  simp only [guarded, bind_ok_iff, pure_ok_iff] at hrun
  obtain ⟨keyword, p₁, hk, opening, p₂, ho, test, p₃, htest, closing, p₄, hc, body, _, hbody, rfl, rfl⟩ :=
    hrun
  exact .cons (expect_echo hk) (.cons (expect_echo ho) ((h.expression htest).bind_cons
    (.cons (expect_echo hc) ((block_echo h hbody).ending rfl))))

section Ladder

variable {keyword t : Token} {y : Guarded} {r s : Place}
omit h

theorem ladder_done (hword : optional (.word .else) p = .ok (none, q)) :
    ladder inner p = .ok (.done, q) := by
  rw [ladder, hword]
  rfl

theorem ladder_otherwise (hword : expect (.word .else) p = .ok (keyword, q)) (hnext : next q = .ok (t, r))
    (hk : t.kind ≠ .word .if) :
    ladder inner p = (block inner q).map fun o => (.otherwise keyword o.1, o.2) := by
  rw [ladder, optional_of_expect hword]
  change (peekKind q >>= _) = _
  rw [peekKind_of_next hnext]
  change (if t.kind = .word .if then _ else _) = _
  rw [if_neg hk]
  cases block inner q <;> rfl

theorem ladder_branch (hword : expect (.word .else) p = .ok (keyword, q)) (hnext : next q = .ok (t, r))
    (hk : t.kind = .word .if) (hguarded : guarded inner .if q = .ok (y, s))
    (hlt : s.rest.length < p.rest.length) :
    ladder inner p = (ladder inner s).map fun o => (.branch keyword y o.1, o.2) := by
  rw [ladder, optional_of_expect hword]
  change (peekKind q >>= _) = _
  rw [peekKind_of_next hnext]
  change (if t.kind = .word .if then _ else _) = _
  rw [if_pos hk, hguarded]
  change (if s.rest.length < p.rest.length then _ else _) = _
  rw [if_pos hlt]
  cases ladder inner s <;> rfl

theorem ladder_error {e : Fault} (hword : expect (.word .else) p = .ok (keyword, q))
    (hnext : next q = .ok (t, r)) (hk : t.kind = .word .if) (hguarded : guarded inner .if q = .error e) :
    ladder inner p = .error e := by
  rw [ladder, optional_of_expect hword]
  change (peekKind q >>= _) = _
  rw [peekKind_of_next hnext]
  change (if t.kind = .word .if then _ else _) = _
  rw [if_pos hk, hguarded]
  rfl

end Ladder

section Branches

variable {p' r s : Place} {keyword t : Token} {us ts : List Token}

omit h in
/-- The `else` of a branch in the second text, and the kind of the token after it. -/
theorem Twin.else_ahead (htwin : Twin x p p' (keyword :: us)) (hne : us ≠ [])
    (hword : expect (.word .else) p = .ok (keyword, q)) (hnext : next q = .ok (t, r)) :
    ∃ q', expect (.word .else) p' = .ok (keyword.relayout x.layout, q') ∧ Twin x q q' us ∧
      ∃ t' r', next q' = .ok (t', r') ∧ t'.kind = t.kind := by
  obtain ⟨hnext', hk⟩ := expect_ok_iff.mp hword
  obtain ⟨q', hrun, hq, _⟩ := htwin.of_next hnext'
  exact ⟨q', expect_ok_iff.mpr ⟨hrun, hk⟩, hq, hq.shows hne hnext⟩

variable (hword : expect (.word .else) p = .ok (keyword, q)) (hnext : next q = .ok (t, r))
include hword hnext

theorem ladder_otherwise_echo {body : Block} (hk : t.kind ≠ .word .if)
    (hbody : block inner q = .ok (body, s)) :
    Echo x n True p s (keyword :: body.tokens) body.nesting (ladder inner')
      (.otherwise (keyword.relayout x.layout) (body.relayout x.layout)) := by
  have hne : body.tokens ≠ [] := by
    rw [Block.tokens_eq]
    exact List.cons_ne_nil _ _
  refine Echo.cast ((expect_echo hword).seq (k := Ladder.otherwise (keyword.relayout x.layout))
    (block_echo h hbody) (by simp) ?_ ?_) rfl (Nat.zero_max _)
  · intro p' q' ts hts htwin hrun _
    obtain ⟨q'', hword', _, t', r', hnext', hk'⟩ :=
      Twin.else_ahead htwin (by simp [hne]) hword hnext
    rw [hrun] at hword'
    cases hword'
    exact ladder_otherwise hrun hnext' (by rw [hk']; exact hk)
  · intro p' ts _ _ hw
    exact absurd hw (Nat.not_lt_zero _)

variable {y : Guarded} (hk : t.kind = .word .if) (hguarded : guarded inner .if q = .ok (y, s))
include hk hguarded

theorem ladder_refuse (htwin : Twin x p p' (keyword :: (y.tokens ++ ts))) (hw : n < y.nesting) :
    ∃ f, ladder inner' p' = .error f ∧ f.message = .nestedTooDeeply := by
  obtain ⟨q', hword', hq, t', r', hnext', hk'⟩ :=
    Twin.else_ahead htwin (by simp [y.tokens_ne_nil]) hword hnext
  obtain ⟨e, hrun, he⟩ := (guarded_echo h hguarded).refuse (by simp) hq hw
  exact ⟨e, ladder_error hword' hnext' (hk'.trans hk) hrun, he⟩

theorem ladder_branch_echo {l : Ladder} {p₁ : Place}
    (hothers : Echo x n True s p₁ l.tokens l.nesting (ladder inner') (l.relayout x.layout)) :
    Echo x n True p p₁ (keyword :: (y.tokens ++ l.tokens)) (max y.nesting l.nesting) (ladder inner')
      (.branch (keyword.relayout x.layout) (y.relayout x.layout) (l.relayout x.layout)) := by
  -- The branch itself, on the way to those after it.
  have hfirst : Echo x n True p s (keyword :: y.tokens) y.nesting
      (expect (.word .else) >>= fun keyword => guarded inner' .if >>= fun y => pure (keyword, y))
      (keyword.relayout x.layout, y.relayout x.layout) := by
    refine .cons (expect_echo hword) ?_
    exact (guarded_echo h hguarded).ending rfl
  refine hfirst.seq (k := Ladder.branch (keyword.relayout x.layout) (y.relayout x.layout)) hothers
    (by simp) ?_ ?_
  · intro p' s' ts hts htwin hrun hright
    obtain ⟨q', hword', _, t', r', hnext', hk'⟩ :=
      Twin.else_ahead htwin (by simp [y.tokens_ne_nil]) hword hnext
    rw [bind_of_ok hword'] at hrun
    simp only [bind_ok_iff, pure_ok_iff] at hrun
    obtain ⟨y', _, hguarded', heq, rfl⟩ := hrun
    cases heq
    rw [List.length_cons] at hright
    exact ladder_branch hword' hnext' (hk'.trans hk) hguarded' (by omega)
  · intro p' ts hts htwin hw
    exact ladder_refuse h hword hnext hk hguarded htwin hw

end Branches

/-- The branches after the first one. Where the common part ends after the last branch, the second text does not
    go on with another. -/
theorem ladder_echo {l : Ladder} (hrun : ladder inner p = .ok (l, q)) :
    Echo x n True p q l.tokens l.nesting (ladder inner') (l.relayout x.layout) := by
  fun_induction ladder inner p generalizing l q with
  | case1 p ih =>
    obtain ⟨⟨o, p₁⟩, hword, hrun⟩ := except_bind_ok_iff.mp hrun
    rcases optional_ok hword with ⟨keyword, rfl, hword'⟩ | ⟨rfl, rfl, t, r, hnext, hk⟩
    · obtain ⟨⟨k, _⟩, hpeek, hrun⟩ := except_bind_ok_iff.mp hrun
      obtain ⟨rfl, t, r, hnext, rfl⟩ := peekKind_ok hpeek
      dsimp only at hrun
      split at hrun
      · next hif =>
          obtain ⟨⟨y, p₂⟩, hguarded, hrun⟩ := except_bind_ok_iff.mp hrun
          dsimp only at hrun
          split at hrun
          · next hlt =>
              obtain ⟨⟨others, p₃⟩, hothers, hrun⟩ := except_bind_ok_iff.mp hrun
              cases except_pure_ok_iff.mp hrun
              exact ladder_branch_echo h hword' hnext hif hguarded (ih p₂ hlt hothers)
          · next hlt =>
              -- A branch takes something, so this happens only if it is refused.
              cases except_pure_ok_iff.mp hrun
              have hlength := (taken_of_expect hword').length_lt (by rw [kind_of_expect hword']; simp)
              suffices hstuck : Echo x n True p q (keyword :: y.tokens) y.nesting (ladder inner')
                  (.branch (keyword.relayout x.layout) (y.relayout x.layout) .done) from
                hstuck.cast (by simp [Ladder.tokens]) (by simp [Ladder.nesting])
              constructor
              · intro p' ts hts htwin hw
                obtain ⟨q', _, hq, _⟩ :=
                  Twin.else_ahead htwin (by simp [y.tokens_ne_nil]) hword' hnext
                obtain ⟨_, _, hy⟩ := (guarded_echo h hguarded).run (by simp) hq hw
                have hleft := hy.left
                rw [remaining_eq, remaining_eq] at hlt
                omega
              · intro p' ts _ htwin hw
                exact ladder_refuse h hword' hnext hif hguarded htwin hw
      · next hif =>
          obtain ⟨⟨body, p₂⟩, hbody, hrun⟩ := except_bind_ok_iff.mp hrun
          cases except_pure_ok_iff.mp hrun
          exact ladder_otherwise_echo h hword' hnext hif hbody
    · cases except_pure_ok_iff.mp hrun
      have hdone : Echo x n True q q [] 0 (optional (.word .else)) none := optional_else_echo hnext hk
      constructor
      · intro p' ts hts htwin hw
        obtain ⟨q', hrun', hq⟩ := hdone.run hts htwin hw
        exact ⟨q', ladder_done hrun', hq⟩
      · intro p' ts _ _ hw
        exact absurd hw (Nat.not_lt_zero _)

end Parser

end Respell
