import Respell.Proofs.Parse.Lossless
import Respell.Proofs.Parse.Simulation

/-!
# Parsing without a limit

The parsers of a nesting level are built from those of the level inside it, and the innermost level refuses
everything. A text of some length has no use for more than so many levels, since every second level takes a
token: from then on, further levels change nothing. So at each place one can take the parsers of a level
that is high enough for what is left of the text. These parsers have no limit, and are built from
themselves by the same productions.
-/

namespace Respell

open Text

namespace Parser

variable {α : Type} {n : Nat}

/-! ## Places with little left -/

/-- The same place, with at most `n` characters left. -/
def Near (n : Nat) (p q : Place) : Prop := p = q ∧ p.rest.length ≤ n

theorem length_of_next {p q : Place} {t : Token} (h : next p = .ok (t, q)) :
    q.rest.length ≤ p.rest.length - 1 := by
  have ht : Taken p t q := .scanned h
  by_cases hk : t.kind = .endOfFile
  · have hrest := (Reading.single ht).length_le
    rw [ht.endOfFile hk] at hrest ⊢
    exact hrest
  · have hlt := ht.length_lt hk
    omega

/-- A parser answers like itself; what it leaves is near if it is not more than the number. -/
theorem alike_of_length {x : Parser α} {p : Place} (h : ∀ {a q}, x p = .ok (a, q) → q.rest.length ≤ n) :
    Alike (Near n) (x p) (x p) := by
  cases hrun : x p with
  | error f => exact .fault f
  | ok result =>
      obtain ⟨a, q⟩ := result
      exact .result a ⟨rfl, h hrun⟩

instance : Simulation Near where
  succ h := ⟨h.1, Nat.le_succ_of_le h.2⟩
  remaining h := congrArg Scanner.remaining h.1
  next {n p _} h := by
    obtain ⟨rfl, hp⟩ := h
    refine alike_of_length (x := next) fun hnext => ?_
    have := length_of_next hnext
    omega
  peek {n p _} h := by
    obtain ⟨rfl, hp⟩ := h
    refine alike_of_length (x := peek) fun hpeek => ?_
    obtain ⟨rfl, _⟩ := peek_ok hpeek
    exact hp
  quoted {n p _} h := by
    obtain ⟨rfl, hp⟩ := h
    exact alike_of_length (x := quoted) fun hquoted =>
      Nat.le_trans (Reading.single (.quoted hquoted)).length_le hp

theorem Alike.eq {x y : Except Fault (α × Place)} (h : Alike (Near n) x y) : x = y := by
  cases h with
  | fault f => rfl
  | result a hnear => rw [hnear.1]

/-- Parsers that agree answer the same where at most `n` characters are left. -/
theorem Agrees.same {x y : Parser α} (h : Agrees Near n x y) {p : Place} (hp : p.rest.length ≤ n) :
    x p = y p :=
  (h.alike (Nat.le_refl _) ⟨rfl, hp⟩).eq

/-- Where they answer the same and leave no more than there was, parsers agree. -/
theorem agrees_of_same {x y : Parser α} (hsame : ∀ {p : Place}, p.rest.length ≤ n → x p = y p)
    (hx : ∀ {p q a}, x p = .ok (a, q) → q.rest.length ≤ p.rest.length) : Agrees Near n x y := by
  constructor
  rintro m p _ hm ⟨rfl, hp⟩
  rw [← hsame (Nat.le_trans hp hm)]
  exact alike_of_length fun hrun => Nat.le_trans (hx hrun) hp

/-! ## Levels -/

theorem length_of_level_statement {m : Nat} {p q : Place} {s : Stmt}
    (h : (level m).statement p = .ok (s, q)) : q.rest.length ≤ p.rest.length :=
  ((level_reads m).statement h).length_le

theorem length_of_level_expression {m : Nat} {colon : Colon} {threshold : Precedence} {p q : Place}
    {e : Expr} (h : (level m).expression colon threshold p = .ok (e, q)) :
    q.rest.length ≤ p.rest.length :=
  ((level_reads m).expression h).length_le

/-- At the end of the text no expression begins, and no inner parser is asked. -/
theorem expression_of_nil (inner : Inner) (colon : Colon) (threshold : Precedence) (offset : Nat) :
    expression inner colon threshold ⟨offset, []⟩ =
      .error (Token.fault ⟨.endOfFile, "", offset, ""⟩ .invalidExpression []) := rfl

/-- At the end of the text a statement fails as an expression does. -/
theorem statement_of_nil {inner : Inner} {offset : Nat} {f : Fault}
    (h : inner.expression .free .lowest ⟨offset, []⟩ = .error f) :
    statement inner ⟨offset, []⟩ = .error f := by
  have hrun : statement inner ⟨offset, []⟩ = expressionStatement inner ⟨offset, []⟩ := rfl
  rw [hrun]
  exact bind_of_error h

/-- Every second level takes a token, so levels that exceed twice the length of the text answer alike. -/
theorem levels_agree (k : Nat) :
    (∀ n m, 2 * k + 1 ≤ n → 2 * k + 1 ≤ m → ∀ colon threshold,
      Agrees Near k ((level n).expression colon threshold) ((level m).expression colon threshold)) ∧
    (∀ n m, 2 * k + 2 ≤ n → 2 * k + 2 ≤ m → Agrees Near k (level n).statement (level m).statement) := by
  induction k with
  | zero =>
      have hexpression (n : Nat) (hn : 1 ≤ n) (colon : Colon) (threshold : Precedence) (offset : Nat) :
          (level n).expression colon threshold (⟨offset, []⟩ : Place) =
            .error (Token.fault ⟨.endOfFile, "", offset, ""⟩ .invalidExpression []) := by
        obtain ⟨n, rfl⟩ := Nat.exists_eq_add_of_le' hn
        exact expression_of_nil _ _ _ _
      have hstatement (n : Nat) (hn : 2 ≤ n) (offset : Nat) : (level n).statement (⟨offset, []⟩ : Place) =
            .error (Token.fault ⟨.endOfFile, "", offset, ""⟩ .invalidExpression []) := by
        obtain ⟨n, rfl⟩ := Nat.exists_eq_add_of_le' hn
        exact statement_of_nil (hexpression (n + 1) (Nat.le_add_left _ _) _ _ _)
      have hnil {p : Place} (hp : p.rest.length ≤ 0) : p = ⟨p.offset, []⟩ := by
        rw [← List.eq_nil_of_length_eq_zero (Nat.le_zero.mp hp)]
      constructor
      · intro n m hn hm colon threshold
        refine agrees_of_same (fun hp => ?_) length_of_level_expression
        rw [hnil hp, hexpression n hn, hexpression m hm]
      · intro n m hn hm
        refine agrees_of_same (fun hp => ?_) length_of_level_statement
        rw [hnil hp, hstatement n hn, hstatement m hm]
  | succ k ih =>
      have hexpression : ∀ n m, 2 * (k + 1) + 1 ≤ n → 2 * (k + 1) + 1 ≤ m → ∀ colon threshold,
          Agrees Near (k + 1) ((level n).expression colon threshold)
            ((level m).expression colon threshold) := by
        intro n m hn hm colon threshold
        obtain ⟨n, rfl⟩ := Nat.exists_eq_add_of_le' (Nat.le_trans (Nat.le_add_left 1 _) hn)
        obtain ⟨m, rfl⟩ := Nat.exists_eq_add_of_le' (Nat.le_trans (Nat.le_add_left 1 _) hm)
        exact expression_agrees ⟨ih.2 n m (by omega) (by omega), ih.1 n m (by omega) (by omega)⟩
      refine ⟨hexpression, ?_⟩
      intro n m hn hm
      obtain ⟨n, rfl⟩ := Nat.exists_eq_add_of_le' (Nat.le_trans (Nat.le_add_left 1 _) hn)
      obtain ⟨m, rfl⟩ := Nat.exists_eq_add_of_le' (Nat.le_trans (Nat.le_add_left 1 _) hm)
      exact statement_agrees
        ⟨ih.2 n m (by omega) (by omega), hexpression n m (by omega) (by omega)⟩

/-! ## No limit -/

/-- The parsers without a limit: at each place, those of a level that what is left of the text cannot
    exhaust. -/
def unlimited : Inner where
  statement p := (level (2 * p.rest.length + 2)).statement p
  expression colon threshold p := (level (2 * p.rest.length + 2)).expression colon threshold p

theorem unlimited_expression_eq (colon : Colon) (threshold : Precedence) (p : Place) :
    unlimited.expression colon threshold p =
      (level (2 * p.rest.length + 2)).expression colon threshold p := by
  rw [unlimited]

theorem unlimited_statement_eq (p : Place) :
    unlimited.statement p = (level (2 * p.rest.length + 2)).statement p := by
  rw [unlimited]

theorem unlimited_expression {k n : Nat} (hn : 2 * k + 1 ≤ n) (colon : Colon) (threshold : Precedence) :
    Agrees Near k (unlimited.expression colon threshold) ((level n).expression colon threshold) := by
  refine agrees_of_same ?_ ?_
  · intro p hp
    have hagrees := (levels_agree p.rest.length).1 (2 * p.rest.length + 2) n (by omega) (by omega)
    rw [unlimited_expression_eq]
    exact (hagrees colon threshold).same (Nat.le_refl _)
  · intro p q e h
    rw [unlimited_expression_eq] at h
    exact length_of_level_expression h

theorem unlimited_statement {k n : Nat} (hn : 2 * k + 2 ≤ n) :
    Agrees Near k unlimited.statement (level n).statement := by
  refine agrees_of_same ?_ ?_
  · intro p hp
    have hagrees := (levels_agree p.rest.length).2 (2 * p.rest.length + 2) n (by omega) (by omega)
    rw [unlimited_statement_eq]
    exact hagrees.same (Nat.le_refl _)
  · intro p q s h
    rw [unlimited_statement_eq] at h
    exact length_of_level_statement h

/-- The parsers without a limit are their own inner parsers: they are the productions of the grammar, each
    of which may use all of them. -/
theorem unlimited_eq : unlimited = ⟨statement unlimited, expression unlimited⟩ := by
  have hexpression (colon : Colon) (threshold : Precedence) (p : Place) :
      unlimited.expression colon threshold p = expression unlimited colon threshold p := by
    obtain ⟨offset, rest⟩ := p
    cases rest with
    | nil => rw [expression_of_nil]; rfl
    | cons c cs =>
        have hinner : InnerAgrees Near cs.length cs.length unlimited (level (2 * (c :: cs).length + 1)) := by
          rw [List.length_cons]
          exact ⟨unlimited_statement (by omega), unlimited_expression (by omega)⟩
        exact ((expression_agrees hinner).same (Nat.le_refl _)).symm
  have hstatement (p : Place) : unlimited.statement p = statement unlimited p := by
    obtain ⟨offset, rest⟩ := p
    cases rest with
    | nil => rw [statement_of_nil ((hexpression _ _ _).trans (expression_of_nil _ _ _ _))]; rfl
    | cons c cs =>
        have hinner : InnerAgrees Near cs.length (cs.length + 1) unlimited
            (level (2 * (c :: cs).length + 1)) := by
          rw [List.length_cons]
          exact ⟨unlimited_statement (by omega), unlimited_expression (by omega)⟩
        exact ((statement_agrees hinner).same (Nat.le_refl _)).symm
  calc unlimited = ⟨unlimited.statement, unlimited.expression⟩ := rfl
    _ = ⟨statement unlimited, expression unlimited⟩ := by
        rw [funext hstatement, funext fun c => funext fun s => funext (hexpression c s)]

/-- The statements and the end of a program of any nesting. -/
def programUnlimited (preamble : String) : Parser Program := do
  let body ← many (fun k => k = .endOfFile) unlimited.statement
  let endOfFile ← expect .endOfFile
  return ⟨preamble, body, endOfFile⟩

theorem programUnlimited_agrees {limit : Nat} (preamble : String) (hn : 2 * n + 2 ≤ limit) :
    Agrees Near n (programUnlimited preamble) (program limit preamble) :=
  .bind (many_agrees (unlimited_statement hn)) fun _ => .bind .expect fun _ => .pure

end Parser

/-- The program with this text, if it is one, however deeply it nests. -/
def parseProgramUnlimited (source : List Char) : Except Fault Program :=
  let (preamble, p) := scanTrivia (.start source)
  (Parser.programUnlimited preamble p).map Prod.fst

/-- A limit that the length of the text keeps out of reach is no limit. -/
theorem parseProgramUnlimited_eq {source : List Char} {limit : Nat} (h : 2 * source.length + 2 ≤ limit) :
    parseProgramUnlimited source = parseProgramWithin limit source := by
  have hlength : (scanTrivia (.start source)).2.rest.length ≤ source.length := by
    have hrest := congrArg List.length (toList_scanTrivia (.start source))
    rw [List.length_append] at hrest
    exact Nat.le_trans (Nat.le_add_left _ _) (Nat.le_of_eq hrest)
  unfold parseProgramUnlimited parseProgramWithin
  exact congrArg (Except.map Prod.fst) ((Parser.programUnlimited_agrees _ h).same hlength)

end Respell
