import Respell.Proofs.Parse.Grouping

/-!
# Elementary expressions

Expressions of constants, names, operators, groups, calls, indices, members and arrays. They hold no
function, so no brace and no arrow, and what their tokens are is known from the kinds of their nodes.
-/

namespace Respell

open Respell.Parser

mutual

/-- The expression is built from constants and names by operators, groups, calls, indices, members and
    arrays, and its tokens are of the kinds their places ask for. -/
def Expr.isElementary : Expr → Bool
  | .head h => h.isElementary
  | .suffix leading s => leading.isElementary && s.isElementary

/-- The head is a constant, a name, a unary operation, an array or a group. -/
def Head.isElementary : Head → Bool
  | .literal t => isConstant t.kind
  | .ident t => t.kind = .identifier
  | .unary operator operand => isPrefixOperator operator.kind && operand.isElementary
  | .array elements => elements.isElementary .openBracket .closeBracket
  | .group opening inner closing =>
    opening.kind = .punct .openParen && inner.isElementary && closing.kind = .punct .closeParen
  | _ => false

/-- The suffix is any but the one for prototypes. -/
def Suffix.isElementary : Suffix → Bool
  | .binary operator right => (Precedence.ofKind? operator.kind).isSome && right.isElementary
  | .ternary question consequent colon alternate =>
    question.kind = .punct .question && consequent.isElementary && colon.kind = .punct .colon &&
      alternate.isElementary
  | .call arguments => arguments.isElementary .openParen .closeParen
  | .invoke member arguments =>
    member.dot.kind = .punct .dot && (member.name.kind = .identifier || member.name.kind.isWord) &&
      arguments.isElementary .openParen .closeParen
  | .index opening inner closing =>
    opening.kind = .punct .openBracket && inner.isElementary && closing.kind = .punct .closeBracket
  | .property member =>
    member.dot.kind = .punct .dot && (member.name.kind = .identifier || member.name.kind.isWord)
  | .prototype _ _ => false

/-- The items of the list are elementary, and it stands between these delimiters. -/
def Enclosed.isElementary (o c : Punct) : Enclosed → Bool
  | ⟨opening, items, closing⟩ =>
    opening.kind = .punct o && exprsElementary items && closing.kind = .punct c

/-- All items are elementary, with commas between them. -/
def exprsElementary : Separated Expr → Bool
  | .nil => true
  | .one e => e.isElementary
  | .more e comma es => e.isElementary && comma.kind = .punct .comma && exprsElementary es

end

mutual

/-- No brace opens in an elementary expression. -/
theorem Expr.openBrace_notMem : (e : Expr) → e.isElementary = true →
    ∀ t ∈ e.tokens, t.kind ≠ .punct .openBrace
  | .head h, he => h.openBrace_notMem he
  | .suffix leading s, he => by
      obtain ⟨hleading, hs⟩ := Bool.and_eq_true_iff.mp he
      exact List.forall_mem_append.mpr ⟨leading.openBrace_notMem hleading, s.openBrace_notMem hs⟩

theorem Head.openBrace_notMem : (h : Head) → h.isElementary = true →
    ∀ t ∈ h.tokens, t.kind ≠ .punct .openBrace
  | .literal t, he => by
      refine List.forall_mem_singleton.mpr ?_
      intro hk
      rw [Head.isElementary, hk] at he
      cases he
  | .ident t, he => by
      refine List.forall_mem_singleton.mpr ?_
      simp_all [Head.isElementary]
  | .unary operator operand, he => by
      obtain ⟨hoperator, hoperand⟩ := Bool.and_eq_true_iff.mp he
      refine List.forall_mem_cons.mpr ⟨?_, operand.openBrace_notMem hoperand⟩
      intro hk
      rw [hk] at hoperator
      cases hoperator
  | .array elements, he => elements.openBrace_notMem (by decide) (by decide) he
  | .group opening inner closing, he => by
      simp only [Head.isElementary, Bool.and_eq_true, decide_eq_true_eq] at he
      obtain ⟨⟨ho, hinner⟩, hc⟩ := he
      simpa [Head.tokens, or_imp, forall_and, ho, hc] using inner.openBrace_notMem hinner
  | .pass _ _, he => by cases he
  | .rest _ _, he => by cases he
  | .construct _ _ _, he => by cases he
  | .object _ _ _, he => by cases he
  | .function _, he => by cases he
  | .arrow _ _ _, he => by cases he
  | .simpleArrow _ _, he => by cases he

theorem Suffix.openBrace_notMem : (s : Suffix) → s.isElementary = true →
    ∀ t ∈ s.tokens, t.kind ≠ .punct .openBrace
  | .binary operator right, he => by
      obtain ⟨hoperator, hright⟩ := Bool.and_eq_true_iff.mp he
      refine List.forall_mem_cons.mpr ⟨?_, right.openBrace_notMem hright⟩
      intro hk
      rw [hk] at hoperator
      cases hoperator
  | .ternary question consequent colon alternate, he => by
      simp only [Suffix.isElementary, Bool.and_eq_true, decide_eq_true_eq] at he
      obtain ⟨⟨⟨hquestion, hconsequent⟩, hcolon⟩, halternate⟩ := he
      have hbranches := And.intro (consequent.openBrace_notMem hconsequent)
        (alternate.openBrace_notMem halternate)
      simpa [Suffix.tokens, or_imp, forall_and, hquestion, hcolon] using hbranches
  | .call arguments, he => arguments.openBrace_notMem (by decide) (by decide) he
  | .invoke member arguments, he => by
      simp only [Suffix.isElementary, Bool.and_eq_true, Bool.or_eq_true, decide_eq_true_eq] at he
      obtain ⟨⟨hdot, hname⟩, hargs⟩ := he
      have hargs := arguments.openBrace_notMem (by decide) (by decide) hargs
      have hmember : ∀ t ∈ member.tokens, t.kind ≠ .punct .openBrace := by
        rcases hname with hname | hname <;> grind [Member.tokens, Kind.isWord]
      exact List.forall_mem_append.mpr ⟨hmember, hargs⟩
  | .index opening inner closing, he => by
      simp only [Suffix.isElementary, Bool.and_eq_true, decide_eq_true_eq] at he
      obtain ⟨⟨ho, hinner⟩, hc⟩ := he
      simpa [Suffix.tokens, or_imp, forall_and, ho, hc] using inner.openBrace_notMem hinner
  | .property member, he => by
      simp only [Suffix.isElementary, Bool.and_eq_true, Bool.or_eq_true, decide_eq_true_eq] at he
      obtain ⟨hdot, hname⟩ := he
      rcases hname with hname | hname <;> grind [Suffix.tokens, Member.tokens, Kind.isWord]
  | .prototype _ _, he => by cases he

theorem Enclosed.openBrace_notMem {o c : Punct} (ho : o ≠ .openBrace) (hc : c ≠ .openBrace) :
    (e : Enclosed) → e.isElementary o c = true → ∀ t ∈ e.tokens, t.kind ≠ .punct .openBrace
  | ⟨opening, items, closing⟩, he => by
      simp only [Enclosed.isElementary, Bool.and_eq_true, decide_eq_true_eq] at he
      obtain ⟨⟨hopening, hitems⟩, hclosing⟩ := he
      simpa [Enclosed.tokens, or_imp, forall_and, hopening, hclosing, ho, hc]
        using openBrace_notMem_exprs items hitems

theorem openBrace_notMem_exprs : (es : Separated Expr) → exprsElementary es = true →
    ∀ t ∈ exprsTokens es, t.kind ≠ .punct .openBrace
  | .nil, _ => by simp [exprsTokens]
  | .one e, he => e.openBrace_notMem he
  | .more e comma es, he => by
      simp only [exprsElementary, Bool.and_eq_true, decide_eq_true_eq] at he
      obtain ⟨⟨hfirst, hcomma⟩, hrest⟩ := he
      have hparts := And.intro (e.openBrace_notMem hfirst) (openBrace_notMem_exprs es hrest)
      simpa [exprsTokens, or_imp, forall_and, hcomma] using hparts

end

/-- An elementary head begins with a token that does not end a list. -/
theorem Head.tokens_eq_cons (h : Head) (he : h.isElementary = true) :
    ∃ t ts, h.tokens = t :: ts ∧ endsList t.kind = false := by
  -- The kinds that end a list are none of those that begin an elementary head.
  have hends {k : Kind} (hk : endsList k = true) :
      isConstant k = false ∧ isPrefixOperator k = false := by
    unfold endsList at hk
    split at hk
    case h_4 => cases hk
    all_goals exact ⟨rfl, rfl⟩
  cases h with
  | literal t =>
      refine ⟨t, [], rfl, Bool.eq_false_iff.mpr ?_⟩
      intro ht
      exact Bool.false_ne_true ((hends ht).1.symm.trans he)
  | ident t =>
      rw [Head.isElementary, decide_eq_true_eq] at he
      exact ⟨t, [], rfl, by rw [he]; rfl⟩
  | unary operator operand =>
      refine ⟨operator, operand.tokens, rfl, Bool.eq_false_iff.mpr ?_⟩
      intro ht
      exact Bool.false_ne_true ((hends ht).2.symm.trans (Bool.and_eq_true_iff.mp he).1)
  | array elements =>
      obtain ⟨opening, items, closing⟩ := elements
      simp only [Head.isElementary, Enclosed.isElementary, Bool.and_eq_true, decide_eq_true_eq] at he
      exact ⟨opening, _, rfl, by rw [he.1.1]; rfl⟩
  | group opening inner closing =>
      simp only [Head.isElementary, Bool.and_eq_true, decide_eq_true_eq] at he
      exact ⟨opening, _, rfl, by rw [he.1.1]; rfl⟩
  | _ => cases he

theorem Expr.tokens_eq_cons (e : Expr) (he : e.isElementary = true) :
    ∃ t ts, e.tokens = t :: ts ∧ endsList t.kind = false := by
  match e with
  | .head h => exact h.tokens_eq_cons he
  | .suffix leading s =>
      obtain ⟨t, ts, htokens, ht⟩ := leading.tokens_eq_cons (Bool.and_eq_true_iff.mp he).1
      exact ⟨t, ts ++ s.tokens, by rw [Expr.tokens, htokens]; rfl, ht⟩

/-- The first token of an elementary suffix is its operator, or a tight token. -/
theorem Suffix.tokens_eq_cons (x : Suffix) (hx : x.isElementary = true) :
    ∃ t ts, x.tokens = t :: ts ∧ Precedence.ofKind? t.kind = x.operation? ∧
      (x.operation? = none → isTight t.kind = true) ∧
      (t.kind = .punct .openParen → ∃ arguments, x = .call arguments) := by
  cases x with
  | binary operator right =>
      obtain ⟨s, hs⟩ := Option.isSome_iff_exists.mp (Bool.and_eq_true_iff.mp hx).1
      refine ⟨operator, right.tokens, rfl, rfl, ?_, ?_⟩
      · intro hnone
        rw [Suffix.operation?, hs] at hnone
        cases hnone
      · intro hk
        rw [hk] at hs
        cases hs
  | ternary question consequent colon alternate =>
      simp only [Suffix.isElementary, Bool.and_eq_true, decide_eq_true_eq] at hx
      refine ⟨question, _, rfl, ?_, ?_, ?_⟩ <;> simp [hx.1.1.1, Suffix.operation?, Precedence.ofKind?]
  | call arguments =>
      obtain ⟨opening, items, closing⟩ := arguments
      simp only [Suffix.isElementary, Enclosed.isElementary, Bool.and_eq_true, decide_eq_true_eq] at hx
      exact ⟨opening, _, rfl, by rw [hx.1.1]; rfl, by rw [hx.1.1]; intro; rfl, fun _ => ⟨_, rfl⟩⟩
  | invoke member arguments =>
      simp only [Suffix.isElementary, Bool.and_eq_true, decide_eq_true_eq] at hx
      exact ⟨member.dot, _, rfl, by rw [hx.1.1]; rfl, by rw [hx.1.1]; intro; rfl,
        by rw [hx.1.1]; intro hk; cases hk⟩
  | index opening inner closing =>
      simp only [Suffix.isElementary, Bool.and_eq_true, decide_eq_true_eq] at hx
      exact ⟨opening, _, rfl, by rw [hx.1.1]; rfl, by rw [hx.1.1]; intro; rfl,
        by rw [hx.1.1]; intro hk; cases hk⟩
  | property member =>
      simp only [Suffix.isElementary, Bool.and_eq_true, decide_eq_true_eq] at hx
      exact ⟨member.dot, _, rfl, by rw [hx.1]; rfl, by rw [hx.1]; intro; rfl,
        by rw [hx.1]; intro hk; cases hk⟩
  | prototype colons name => cases hx

mutual

/-- No elementary expression ends in an arrow function. -/
theorem Expr.endsInArrow_of_isElementary : (e : Expr) → e.isElementary = true →
    e.endsInArrow = false
  | .head h, he => h.endsInArrow_of_isElementary he
  | .suffix _ s, he => s.endsInArrow_of_isElementary (Bool.and_eq_true_iff.mp he).2

theorem Head.endsInArrow_of_isElementary : (h : Head) → h.isElementary = true →
    h.endsInArrow = false
  | .unary _ operand, he => operand.endsInArrow_of_isElementary (Bool.and_eq_true_iff.mp he).2
  | .literal _, _ => rfl
  | .ident _, _ => rfl
  | .array _, _ => rfl
  | .group _ _ _, _ => rfl
  | .pass _ _, _ => rfl
  | .rest _ _, _ => rfl
  | .construct _ _ _, _ => rfl
  | .object _ _ _, _ => rfl
  | .function _, _ => rfl
  | .arrow _ _ _, he => by cases he
  | .simpleArrow _ _, he => by cases he

theorem Suffix.endsInArrow_of_isElementary : (s : Suffix) → s.isElementary = true →
    s.endsInArrow = false
  | .binary _ right, he => right.endsInArrow_of_isElementary (Bool.and_eq_true_iff.mp he).2
  | .ternary _ _ _ alternate, he =>
    alternate.endsInArrow_of_isElementary (Bool.and_eq_true_iff.mp he).2
  | .call _, _ => rfl
  | .invoke _ _, _ => rfl
  | .index _ _ _, _ => rfl
  | .property _, _ => rfl
  | .prototype _ _, _ => rfl

end

end Respell
