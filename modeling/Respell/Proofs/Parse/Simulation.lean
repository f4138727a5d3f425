import Respell.Parse.Program

/-!
# Parsers and their scanners

A parser asks its scanner for tokens and for nothing else. So if two scanners are related and answer each
request alike, staying related, then parsers built from the same requests answer alike too: from related
scanners they come to the same fault, or to the same result with related scanners after it.

A relation between scanners carries a number. Taking a token lowers it, and no parser raises it, so a parser
that is used after a token has been taken is asked only where less is left. That is how parsers of different
nesting levels are compared.
-/

namespace Respell.Parser

variable {σ τ α β : Type} {n : Nat}

/-! ## Outcomes -/

/-- The same fault, or the same result with related scanners after it. -/
inductive Alike (R : σ → τ → Prop) : Except Fault (α × σ) → Except Fault (α × τ) → Prop where
  | fault (f : Fault) : Alike R (.error f) (.error f)
  | result (a : α) {s : σ} {t : τ} : R s t → Alike R (.ok (a, s)) (.ok (a, t))

namespace Alike

variable {R S : σ → τ → Prop}

theorem mono {x : Except Fault (α × σ)} {y : Except Fault (α × τ)} (h : Alike R x y)
    (hRS : ∀ {s t}, R s t → S s t) : Alike S x y := by
  cases h with
  | fault f => exact .fault f
  | result a hst => exact .result a (hRS hst)

/-- Outcomes that are alike stay so under what is done with them, if that treats related scanners alike. -/
theorem bind {x : Except Fault (α × σ)} {y : Except Fault (α × τ)} {f : α × σ → Except Fault (β × σ)}
    {g : α × τ → Except Fault (β × τ)} (h : Alike R x y)
    (hfg : ∀ (a : α) {s : σ} {t : τ}, R s t → Alike S (f (a, s)) (g (a, t))) :
    Alike S (x >>= f) (y >>= g) := by
  cases h with
  | fault f => exact .fault f
  | result a hst => exact hfg a hst

/-- Where the first parser succeeds, so does the second one. -/
theorem ok_left {x : Except Fault (α × σ)} {y : Except Fault (α × τ)} {a : α} {s : σ} (h : Alike R x y)
    (hx : x = .ok (a, s)) : ∃ t, y = .ok (a, t) ∧ R s t := by
  cases h with
  | fault f => cases hx
  | result a hst =>
      cases hx
      exact ⟨_, rfl, hst⟩

/-- Outcomes that are alike give the same result, without their scanners. -/
theorem map_fst {x : Except Fault (α × σ)} {y : Except Fault (α × τ)} (h : Alike R x y) :
    x.map Prod.fst = y.map Prod.fst := by
  cases h <;> rfl

end Alike

/-! ## Relations between scanners -/

/-- A relation that every request preserves. Whoever takes a token comes to a smaller number. -/
class Simulation [Scanner σ] [Scanner τ] (R : Nat → σ → τ → Prop) : Prop where
  succ {n : Nat} {s : σ} {t : τ} : R n s t → R (n + 1) s t
  remaining {n : Nat} {s : σ} {t : τ} : R n s t → Scanner.remaining s = Scanner.remaining t
  next {n : Nat} {s : σ} {t : τ} : R (n + 1) s t → Alike (R n) (Scanner.next s) (Scanner.next t)
  peek {n : Nat} {s : σ} {t : τ} : R n s t → Alike (R n) (Scanner.peek s) (Scanner.peek t)
  quoted {n : Nat} {s : σ} {t : τ} : R n s t → Alike (R n) (Scanner.quoted s) (Scanner.quoted t)

/-- From scanners that are related by `n` or less, both parsers answer alike, and the number is not
    raised. -/
structure Agrees (R : Nat → σ → τ → Prop) (n : Nat) (x : ParserOf σ α) (y : ParserOf τ α) : Prop where
  alike {m : Nat} {s : σ} {t : τ} : m ≤ n → R m s t → Alike (R m) (x s) (y t)

variable {R : Nat → σ → τ → Prop}

namespace Agrees

theorem mono {x : ParserOf σ α} {y : ParserOf τ α} (h : Agrees R (n + 1) x y) : Agrees R n x y where
  alike hm hst := h.alike (Nat.le_succ_of_le hm) hst

theorem pure {a : α} : Agrees R n (pure a) (pure a) where
  alike _ hst := .result a hst

theorem throw {f : Fault} : Agrees R n (throw f : ParserOf σ α) (throw f) where
  alike _ _ := .fault f

theorem bind {x : ParserOf σ α} {y : ParserOf τ α} {f : α → ParserOf σ β} {g : α → ParserOf τ β}
    (hx : Agrees R n x y) (hf : ∀ a, Agrees R n (f a) (g a)) : Agrees R n (x >>= f) (y >>= g) where
  alike hm hst := (hx.alike hm hst).bind fun a _ _ hst' => (hf a).alike hm hst'

theorem lookAhead {x : ParserOf σ Bool} {y : ParserOf τ Bool} (h : Agrees R n x y) :
    Agrees R n (lookAhead x) (lookAhead y) := by
  constructor
  intro m s t hm hst
  have hxy := h.alike hm hst
  unfold Parser.lookAhead
  revert hxy
  -- Whatever was found ahead, both go on from where they were.
  generalize x s = outcome, y t = outcome'
  rintro (_ | ⟨found, _⟩)
  · exact .result false hst
  · exact .result found hst

/-! ### Single tokens -/

variable [Scanner σ] [Scanner τ] [Simulation R] {k : Kind} {f : Token → ParserOf σ β}
  {g : Token → ParserOf τ β}

/-- After a token that is taken, less has to be agreed on. At the end of the text there is nothing to take,
    and the number may stay what it was. -/
theorem next_bind (hf : ∀ t, Agrees R n (f t) (g t)) :
    Agrees R (n + 1) (Parser.next >>= f) (Parser.next >>= g) := by
  constructor
  intro m s t hm hst
  cases m with
  | zero =>
      refine (Simulation.next (R := R) (Simulation.succ hst)).bind fun a _ _ hst' => ?_
      exact (hf a).alike (Nat.zero_le _) hst'
  | succ m =>
      refine (Simulation.next hst).bind fun a _ _ hst' => ?_
      exact ((hf a).alike (Nat.le_of_succ_le_succ hm) hst').mono Simulation.succ

theorem next : Agrees R n Parser.next Parser.next where
  alike _ hst := Simulation.next (Simulation.succ hst)

theorem peek : Agrees R n Parser.peek Parser.peek where
  alike _ hst := Simulation.peek hst

theorem quoted : Agrees R n Parser.quoted Parser.quoted where
  alike _ hst := Simulation.quoted hst

theorem expect_bind (hf : ∀ t, Agrees R n (f t) (g t)) :
    Agrees R (n + 1) (Parser.expect k >>= f) (Parser.expect k >>= g) := by
  unfold Parser.expect
  rw [bind_assoc, bind_assoc]
  refine .next_bind fun t => ?_
  split
  · rw [pure_bind, pure_bind]
    exact hf t
  · exact ⟨fun _ _ => .fault _⟩

theorem expect : Agrees R n (Parser.expect k) (Parser.expect k) := by
  refine .bind .next fun t => ?_
  split
  · exact .pure
  · exact .throw

theorem peekKind : Agrees R n (Parser.peekKind) (Parser.peekKind) := .bind .peek fun _ => .pure

theorem expectPeek : Agrees R n (Parser.expectPeek k) (Parser.expectPeek k) := by
  refine .bind .peek fun t => ?_
  split
  · exact .pure
  · exact .throw

/-- Where a token need not be there, less has to be agreed on after it only if it is. -/
theorem optional_bind {f : Option Token → ParserOf σ β} {g : Option Token → ParserOf τ β}
    (hnone : Agrees R (n + 1) (f none) (g none)) (hsome : ∀ t, Agrees R n (f (some t)) (g (some t))) :
    Agrees R (n + 1) (Parser.optional k >>= f) (Parser.optional k >>= g) := by
  unfold Parser.optional
  rw [bind_assoc, bind_assoc]
  refine .bind .peekKind fun k' => ?_
  split
  · rw [bind_assoc, bind_assoc]
    refine .next_bind fun t => ?_
    rw [pure_bind, pure_bind]
    exact hsome t
  · rw [pure_bind, pure_bind]
    exact hnone

theorem optional : Agrees R n (Parser.optional k) (Parser.optional k) := by
  refine .bind .peekKind fun k' => ?_
  split
  · exact .bind .next fun _ => .pure
  · exact .pure

end Agrees

/-! ## Loops -/

variable [Scanner σ] [Scanner τ] [Simulation R]

section Loops

variable {item : ParserOf σ α} {item' : ParserOf τ α} {ends : Kind → Bool}

theorem many_agrees (h : Agrees R n item item') : Agrees R n (many ends item) (many ends item') := by
  constructor
  intro m s t hm hst
  -- By induction along the loop of the first scanner. Related scanners have the same number of characters left, so
  -- their tests come out alike.
  fun_induction many ends item s generalizing t with
  | case1 s ih =>
    rw [many.eq_def ends item' t]
    refine (Agrees.peekKind.alike hm hst).bind fun k s₁ t₁ hst₁ => ?_
    dsimp only
    split
    · exact .result [] hst₁
    · refine (h.alike hm hst₁).bind fun a s₂ t₂ hst₂ => ?_
      dsimp only
      rw [← Simulation.remaining hst, ← Simulation.remaining hst₂]
      split
      · next hlt => exact (ih s₂ hlt hst₂).bind fun as _ _ hst₃ => .result (a :: as) hst₃
      · exact .result [a] hst₂

theorem commaList_agrees (h : Agrees R n item item') :
    Agrees R n (commaList ends item) (commaList ends item') := by
  constructor
  intro m s t hm hst
  fun_induction commaList ends item s generalizing t with
  | case1 s ih =>
    rw [commaList.eq_def ends item' t]
    refine (Agrees.peekKind.alike hm hst).bind fun k s₁ t₁ hst₁ => ?_
    dsimp only
    split
    · exact .result Separated.nil hst₁
    · refine (h.alike hm hst₁).bind fun a s₂ t₂ hst₂ => ?_
      refine (Agrees.optional.alike hm hst₂).bind fun o s₃ t₃ hst₃ => ?_
      cases o with
      | none => exact .result (Separated.one a) hst₃
      | some comma =>
          dsimp only
          rw [← Simulation.remaining hst, ← Simulation.remaining hst₃]
          split
          · next hlt =>
              exact (ih s₃ hlt hst₃).bind fun rest _ _ hst₄ => .result (Separated.more a comma rest) hst₄
          · exact .result (Separated.more a comma .nil) hst₃

theorem extend_agrees {round : α → ParserOf σ (Option α)} {round' : α → ParserOf τ (Option α)}
    (h : ∀ a, Agrees R n (round a) (round' a)) (a : α) :
    Agrees R n (extend round a) (extend round' a) := by
  constructor
  intro m s t hm hst
  fun_induction extend round a s generalizing t with
  | case1 a s ih =>
    rw [extend.eq_def round' a t]
    refine ((h a).alike hm hst).bind fun o s₁ t₁ hst₁ => ?_
    cases o with
    | none => exact .result a hst₁
    | some b =>
        dsimp only
        rw [← Simulation.remaining hst, ← Simulation.remaining hst₁]
        split
        · next hlt => exact ih b s₁ hlt hst₁
        · exact .result b hst₁

end Loops

/-! ## Expressions -/

section Productions

variable {inner : InnerOf σ} {inner' : InnerOf τ} {colon : Colon}

/-- The inner parsers answer alike, those of statements where at most `n` characters are left and those of
    expressions where at most `m` are. -/
structure InnerAgrees (R : Nat → σ → τ → Prop) (n m : Nat) (inner : InnerOf σ) (inner' : InnerOf τ) :
    Prop where
  statement : Agrees R n inner.statement inner'.statement
  expression (colon : Colon) (threshold : Precedence) :
    Agrees R m (inner.expression colon threshold) (inner'.expression colon threshold)

variable (h : InnerAgrees R n n inner inner')
include h

theorem expressions_agrees : Agrees R n (expressions inner colon) (expressions inner' colon) :=
  commaList_agrees (h.expression _ _)

theorem enclosed_agrees {o c : Punct} :
    Agrees R (n + 1) (enclosed inner colon o c) (enclosed inner' colon o c) :=
  .expect_bind fun _ => .bind (expressions_agrees h) fun _ => .bind .expect fun _ => .pure

theorem block_agrees : Agrees R (n + 1) (block inner) (block inner') :=
  .expect_bind fun _ => .bind (many_agrees h.statement) fun _ => .bind .expect fun _ => .pure

omit [Scanner σ] [Scanner τ] [Simulation R] h in
theorem asParams_agrees {list : Enclosed} {before : Token} :
    Agrees R n (asParams list before) (asParams list before) := by
  unfold asParams
  split
  · exact .pure
  · exact .throw

omit h in
theorem receiver_agrees : Agrees R n receiver receiver := by
  refine .bind .optional fun o => ?_
  cases o with
  | none => exact .pure
  | some colon => exact .bind .expect fun _ => .pure

theorem finishFunction_agrees {keyword name : Option Token} {list : Enclosed} {named : Option Receiver} :
    Agrees R (n + 1) (finishFunction inner keyword name list named)
      (finishFunction inner' keyword name list named) :=
  .bind .expectPeek fun _ => .bind asParams_agrees fun _ => .bind (block_agrees h) fun _ => .pure

theorem functionRest_agrees {keyword name : Option Token} :
    Agrees R (n + 1) (functionRest inner colon keyword name) (functionRest inner' colon keyword name) :=
  .bind (enclosed_agrees h) fun _ => .bind receiver_agrees fun _ => finishFunction_agrees h

omit h in
theorem atReceiver_agrees : Agrees R n atReceiver atReceiver := by
  refine .lookAhead (.bind .next fun colon => ?_)
  split
  · refine .bind .next fun name => ?_
    split
    · exact .bind .next fun _ => .pure
    · exact .pure
  · exact .pure

theorem parenthesized_agrees : Agrees R (n + 1) (parenthesized inner colon) (parenthesized inner' colon) := by
  refine .bind (enclosed_agrees h) fun list => .bind .peek fun after => .bind atReceiver_agrees fun bound => ?_
  split
  · exact .bind (finishFunction_agrees h) fun _ => .pure
  split
  · exact .bind receiver_agrees fun _ => .bind (finishFunction_agrees h) fun _ => .pure
  split
  · exact .bind asParams_agrees fun _ => .next_bind fun _ => .bind (h.expression _ _) fun _ => .pure
  split
  · exact .pure
  · exact .throw

omit h in
theorem member_agrees : Agrees R n member member := .bind .expect fun _ => .bind .expect fun _ => .pure

theorem construct_agrees : Agrees R (n + 1) (construct inner colon) (construct inner' colon) :=
  .bind .expect fun _ => .bind .expect fun _ => .bind (many_agrees member_agrees) fun _ =>
    .bind (enclosed_agrees h) fun _ => .pure

omit h in
theorem key_agrees : Agrees R n key key := by
  refine .bind .peek fun t => ?_
  split
  · exact .next
  · exact .quoted
  · exact .quoted
  · exact .throw

theorem entry_agrees : Agrees R n (entry inner colon) (entry inner' colon) :=
  .bind key_agrees fun _ => .bind .expect fun _ => .bind (h.expression _ _) fun _ => .pure

theorem object_agrees : Agrees R (n + 1) (object inner colon) (object inner' colon) :=
  .expect_bind fun _ => .bind (commaList_agrees (entry_agrees h)) fun _ => .bind .expect fun _ => .pure

theorem head_agrees : Agrees R (n + 1) (head inner colon) (head inner' colon) := by
  refine .bind .peek fun t => ?_
  split
  case h_1 | h_2 | h_3 | h_4 | h_5 => exact .bind .next fun _ => .pure
  case h_6 | h_7 | h_8 | h_9 => exact .bind .quoted fun _ => .pure
  case h_10 => exact .bind .next fun _ => .bind .optional fun _ => .pure
  case h_11 => exact .bind (enclosed_agrees h) fun _ => .pure
  case h_12 => exact object_agrees h
  case h_13 => exact construct_agrees h
  case h_14 | h_15 | h_16 | h_17 | h_18 =>
    exact .next_bind fun _ => .bind (h.expression _ _) fun _ => .pure
  case h_19 => exact parenthesized_agrees h
  case h_20 => exact .next_bind fun _ => .bind (h.expression _ _) fun _ => .pure
  case h_21 =>
    exact .bind .next fun _ => .bind .optional fun _ => .bind (functionRest_agrees h) fun _ => .pure
  case h_22 => exact .throw

theorem operation_agrees {s : Precedence} :
    Agrees R (n + 1) (operation inner colon s) (operation inner' colon s) := by
  refine .next_bind fun operator => ?_
  split
  · exact .bind (h.expression _ _) fun _ => .bind .expect fun _ => .bind (h.expression _ _) fun _ => .pure
  · exact .bind (h.expression _ _) fun _ => .pure

theorem access_agrees : Agrees R (n + 1) (access inner colon) (access inner' colon) := by
  refine .bind .next fun dot => .bind .next fun name => ?_
  split
  · refine .bind .peekKind fun k => ?_
    split
    · exact .bind (enclosed_agrees h) fun _ => .pure
    · exact .pure
  · exact .throw

theorem suffix?_agrees {threshold : Precedence} (e : Expr) :
    Agrees R (n + 1) (suffix? inner colon threshold e) (suffix? inner' colon threshold e) := by
  refine .bind .peek fun t => ?_
  split
  · split
    · exact .bind (operation_agrees h) fun _ => .pure
    · exact .pure
  split
  case h_1 => exact .bind (access_agrees h) fun _ => .pure
  case h_2 => exact .bind (enclosed_agrees h) fun _ => .pure
  case h_3 =>
    exact .next_bind fun _ => .bind (h.expression _ _) fun _ => .bind .expect fun _ => .pure
  case h_4 => exact .bind .next fun _ => .bind .optional fun _ => .pure
  case h_5 =>
    refine .bind .next fun dots => ?_
    split
    · exact .pure
    · exact .throw
  case h_6 => exact .pure

/-- To read an expression where at most `n + 1` characters are left, the inner parsers are asked where at most
    `n` are. -/
theorem expression_agrees {threshold : Precedence} :
    Agrees R (n + 1) (expression inner colon threshold) (expression inner' colon threshold) :=
  .bind (head_agrees h) fun _ => extend_agrees (suffix?_agrees h) _

/-! ## Statements -/

theorem guarded_agrees {w : Word} : Agrees R (n + 1) (guarded inner w) (guarded inner' w) :=
  .expect_bind fun _ => .bind .expect fun _ => .bind (h.expression _ _) fun _ => .bind .expect fun _ =>
    .bind (block_agrees h).mono fun _ => .pure

theorem ladder_agrees : Agrees R (n + 1) (ladder inner) (ladder inner') := by
  constructor
  intro m s t hm hst
  fun_induction ladder inner s generalizing t with
  | case1 s ih =>
    rw [ladder.eq_def inner' t]
    refine (Agrees.optional.alike hm hst).bind fun o s₁ t₁ hst₁ => ?_
    cases o with
    | none => exact .result Ladder.done hst₁
    | some keyword =>
        refine (Agrees.peekKind.alike hm hst₁).bind fun k s₂ t₂ hst₂ => ?_
        dsimp only
        split
        · refine ((guarded_agrees h).alike hm hst₂).bind fun next s₃ t₃ hst₃ => ?_
          dsimp only
          rw [← Simulation.remaining hst, ← Simulation.remaining hst₃]
          split
          · next hlt =>
              exact (ih s₃ hlt hst₃).bind fun others _ _ hst₄ =>
                .result (Ladder.branch keyword next others) hst₄
          · exact .result (Ladder.branch keyword next .done) hst₃
        · exact ((block_agrees h).alike hm hst₂).bind fun body _ _ hst₃ =>
            .result (Ladder.otherwise keyword body) hst₃

theorem conditional_agrees : Agrees R (n + 1) (conditional inner) (conditional inner') :=
  .bind (guarded_agrees h) fun _ => .bind (ladder_agrees h) fun _ => .pure

theorem decl_agrees : Agrees R n (decl inner) (decl inner') := by
  refine .bind .expect fun name => .bind .optional fun o => ?_
  cases o with
  | none => exact .pure
  | some equals => exact .bind (h.expression _ _) fun _ => .pure

theorem varList_agrees : Agrees R (n + 1) (varList inner) (varList inner') :=
  .expect_bind fun _ => .bind (commaList_agrees (decl_agrees h)) fun _ => .pure

theorem forInit_agrees : Agrees R n (forInit inner) (forInit inner') := by
  refine .bind .peekKind fun k => ?_
  split
  · exact .bind (varList_agrees h).mono fun _ => .pure
  · exact .bind (expressions_agrees h) fun _ => .pure

omit h in
theorem atForIn_agrees : Agrees R n atForIn atForIn := by
  refine .lookAhead (.bind .next fun first => ?_)
  dsimp only
  split
  · refine .bind .next fun name => ?_
    split
    · exact .bind .next fun _ => .pure
    · exact .pure
  · refine .bind .pure fun name => ?_
    split
    · exact .bind .next fun _ => .pure
    · exact .pure

theorem forStatement_agrees : Agrees R (n + 1) (forStatement inner) (forStatement inner') := by
  have hblock : Agrees R n (block inner) (block inner') := (block_agrees h).mono
  refine .expect_bind fun keyword => .bind .expect fun opening => .bind atForIn_agrees fun keys => ?_
  split
  · exact .bind .optional fun _ => .bind .expect fun _ => .bind .expect fun _ =>
      .bind (h.expression _ _) fun _ => .bind .expect fun _ => .bind hblock fun _ => .pure
  · exact .bind (forInit_agrees h) fun _ => .bind .expect fun _ =>
      .bind (expressions_agrees h) fun _ => .bind .expect fun _ =>
      .bind (expressions_agrees h) fun _ => .bind .expect fun _ => .bind hblock fun _ => .pure

omit h in
theorem jump_agrees {w : Word} : Agrees R n (jump w) (jump w) :=
  .bind .expect fun _ => .bind .optional fun _ => .bind .expect fun _ => .pure

theorem returnStatement_agrees : Agrees R (n + 1) (returnStatement inner) (returnStatement inner') := by
  refine .expect_bind fun keyword => .bind .peekKind fun k => ?_
  split
  · exact .bind .expect fun _ => .pure
  · exact .bind (h.expression _ _) fun _ => .bind .expect fun _ => .pure

theorem throwStatement_agrees : Agrees R (n + 1) (throwStatement inner) (throwStatement inner') :=
  .expect_bind fun _ => .bind (h.expression _ _) fun _ => .bind .expect fun _ => .pure

theorem varStatement_agrees : Agrees R (n + 1) (varStatement inner) (varStatement inner') :=
  .bind (varList_agrees h) fun _ => .bind .expect fun _ => .pure

theorem functionStatement_agrees : Agrees R (n + 1) (functionStatement inner) (functionStatement inner') :=
  .bind .expect fun _ => .bind .expect fun _ => .bind (functionRest_agrees h) fun _ => .pure

theorem clauseHead_agrees : Agrees R (n + 1) (clauseHead inner) (clauseHead inner') := by
  refine .bind .peek fun t => ?_
  split
  · exact .next_bind fun _ => .bind (h.expression _ _) fun _ => .pure
  split
  · exact .bind .next fun _ => .pure
  · exact .throw

theorem clause_agrees : Agrees R n (clause inner) (clause inner') :=
  .bind (clauseHead_agrees h).mono fun _ => .bind .expect fun _ =>
    .bind (many_agrees h.statement) fun _ => .pure

theorem switchStatement_agrees : Agrees R (n + 1) (switchStatement inner) (switchStatement inner') :=
  .expect_bind fun _ => .bind .expect fun _ => .bind (h.expression _ _) fun _ => .bind .expect fun _ =>
    .bind .expect fun _ => .bind (many_agrees (clause_agrees h)) fun _ => .bind .expect fun _ => .pure

omit h in
theorem pragmaItem_agrees {groups : Bool} : Agrees R n (pragmaItem groups) (pragmaItem groups) := by
  refine .bind .optional fun o => ?_
  cases o with
  | none => exact .bind .expect fun _ => .pure
  | some colon =>
      dsimp only
      split
      · exact .bind .expect fun _ => .pure
      · exact .throw

omit h in
theorem pragma_agrees {groups : Bool} : Agrees R n (pragma groups) (pragma groups) :=
  .bind .next fun _ => .bind (commaList_agrees pragmaItem_agrees) fun _ => .bind .expect fun _ => .pure

theorem labeledBody_agrees : Agrees R n (labeledBody inner) (labeledBody inner') := by
  refine .bind .peek fun t => ?_
  split
  case h_1 | h_2 | h_3 => exact h.statement
  case h_4 => exact .throw

omit h in
/-- The expression of an expression statement begins where the statement does, so the inner parsers are asked
    for it where as much is left. -/
theorem expressionStatement_agrees (h : InnerAgrees R n (n + 1) inner inner') :
    Agrees R (n + 1) (expressionStatement inner) (expressionStatement inner') := by
  have hinner : InnerAgrees R n n inner inner' := ⟨h.statement, fun c s => (h.expression c s).mono⟩
  refine .bind (h.expression _ _) fun e => ?_
  split
  · refine .optional_bind ?_ fun colon => ?_
    · exact .bind .expect fun _ => .pure
    · exact .bind (labeledBody_agrees hinner) fun _ => .pure
  · exact .bind .expect fun _ => .pure

omit h in
/-- To read a statement where at most `n + 1` characters are left, the inner parsers are asked for statements where
    at most `n` are. -/
theorem statement_agrees (h : InnerAgrees R n (n + 1) inner inner') :
    Agrees R (n + 1) (statement inner) (statement inner') := by
  have hinner : InnerAgrees R n n inner inner' := ⟨h.statement, fun c s => (h.expression c s).mono⟩
  refine .bind .peekKind fun k => ?_
  split
  case h_1 => exact conditional_agrees hinner
  case h_2 => exact .bind (guarded_agrees hinner) fun _ => .pure
  case h_3 => exact forStatement_agrees hinner
  case h_4 | h_5 => exact jump_agrees
  case h_6 => exact returnStatement_agrees hinner
  case h_7 => exact throwStatement_agrees hinner
  case h_8 => exact varStatement_agrees hinner
  case h_9 => exact functionStatement_agrees hinner
  case h_10 => exact switchStatement_agrees hinner
  case h_11 | h_12 => exact .bind pragma_agrees fun _ => .pure
  case h_13 => exact .bind (block_agrees hinner) fun _ => .pure
  case h_14 => exact .bind .next fun _ => .pure
  case h_15 => exact expressionStatement_agrees h

end Productions

/-! ## Programs -/

theorem tooDeep_agrees : Agrees R n (tooDeep (α := α)) tooDeep := .bind .peek fun _ => .throw

/-- The parsers of a level answer alike whatever scanner they read from. -/
theorem level_agrees (limit n : Nat) : InnerAgrees R n n (level limit) (level limit) := by
  induction limit generalizing n with
  | zero => exact ⟨tooDeep_agrees, fun _ _ => tooDeep_agrees⟩
  | succ limit ih =>
      -- A statement may hand over to an expression without taking a token, so expressions have to agree for one
      -- number more.
      have hinner : InnerAgrees R n (n + 1) (level limit) (level limit) :=
        ⟨(ih n).statement, (ih (n + 1)).expression⟩
      exact ⟨(statement_agrees hinner).mono, fun _ _ => (expression_agrees (ih n)).mono⟩

theorem program_agrees (limit : Nat) (preamble : String) :
    Agrees R n (program limit preamble) (program limit preamble) :=
  .bind (many_agrees (level_agrees limit n).statement) fun _ => .bind .expect fun _ => .pure

end Respell.Parser
