import Respell.Proofs.Parse.Elementary
import Respell.Proofs.Parse.Nesting
import Respell.Token.Stream

/-!
# Grouped expressions are read back

The converse of grouping: an expression whose nodes are grouped is what its own tokens are read as. The
loop that adds suffixes has to go on at every token inside the expression and to stop at the one
after it, at every threshold. Both follow from `Settled`, which says of an expression and the place after
it what the strengths of its operators allow: it passes from an expression to its leading operand and
from a stop to the operand before it.

A parenthesised list is taken for parameters if a brace, an arrow or a free colon follows. `Follows` says
that none of them does; inside the consequent of a conditional a colon may follow, because the words
after it never look like a receiver's name and a body.
-/

namespace Respell

open Text Respell.Parser

namespace Parser

variable {inner : Inner} {colon : Colon} {threshold : Precedence} {n : Nat} {p q r : Place}

/-! ## Scanned tokens -/

/-- The scanner gives these tokens one after the other, the first at `p`, and goes on at `q`. -/
inductive Scans : Place → List Token → Place → Prop where
  | nil {p : Place} : Scans p [] p
  | cons {p q r : Place} {t : Token} {ts : List Token} :
      next p = .ok (t, q) → Scans q ts r → Scans p (t :: ts) r

namespace Scans

variable {t : Token} {ts us : List Token}

theorem split (h : Scans p (ts ++ us) r) : ∃ q, Scans p ts q ∧ Scans q us r := by
  induction ts generalizing p with
  | nil => exact ⟨p, .nil, h⟩
  | cons t ts ih =>
      cases h with
      | cons ht h =>
          obtain ⟨q, hts, hus⟩ := ih h
          exact ⟨q, .cons ht hts, hus⟩

theorem reading (h : Scans p ts q) : Reading p ts q := by
  induction h with
  | nil => exact .nil
  | cons ht _ ih => exact .cons (.scanned ht) ih

/-- The first of some tokens, and the others. -/
theorem first (h : Scans p (t :: ts) r) : ∃ q, next p = .ok (t, q) ∧ Scans q ts r := by
  cases h with
  | cons ht h => exact ⟨_, ht, h⟩

/-- The last of some tokens, and those before it. -/
theorem last (h : Scans p (ts ++ [t]) r) : ∃ q, Scans p ts q ∧ next q = .ok (t, r) := by
  obtain ⟨q, hts, h⟩ := h.split
  obtain ⟨q', ht, h⟩ := h.first
  cases h
  exact ⟨q, hts, ht⟩

end Scans

theorem readToken_never (p : Place) : readToken .never p = next p := by
  rw [next_eq]
  unfold readToken
  generalize scan p = result
  obtain ⟨found, after⟩ := result
  cases found <;> rfl

/-- A stream of tokens begins with the token that the scanner gives, and goes on after it. -/
theorem next_of_tokensFrom {t : Token} {ts : List Token} (h : (tokensFrom .never p).1 = t :: ts) :
    ∃ q, next p = .ok (t, q) ∧ (ts ≠ [] → (tokensFrom .never q).1 = ts) := by
  rw [tokensFrom, readToken_never] at h
  cases hnext : next p with
  | error f =>
      rw [hnext] at h
      cases h
  | ok result =>
      obtain ⟨u, q⟩ := result
      rw [hnext] at h
      dsimp only at h
      split at h
      · obtain ⟨rfl, hrest⟩ := List.cons.inj h
        exact ⟨q, rfl, fun _ => hrest⟩
      -- A token that takes nothing is the last one of a stream.
      · cases h
        exact ⟨q, rfl, fun hne => (hne rfl).elim⟩

theorem scans_of_tokensFrom {t : Token} {ts us : List Token}
    (h : (tokensFrom .never p).1 = ts ++ t :: us) :
    ∃ q, Scans p ts q ∧ (tokensFrom .never q).1 = t :: us := by
  induction ts generalizing p with
  | nil => exact ⟨p, .nil, h⟩
  | cons u ts ih =>
      obtain ⟨p₁, hnext, hrest⟩ := next_of_tokensFrom h
      obtain ⟨q, hts, hus⟩ := ih (hrest (by simp))
      exact ⟨q, .cons hnext hts, hus⟩

/-! ## What may follow -/

/-- No token follows that would make a list before it the parameters of a function. -/
def Follows (colon : Colon) (q : Place) : Prop :=
  ∃ t r, next q = .ok (t, r) ∧ t.kind ≠ .punct .openBrace ∧ t.kind ≠ .punct .arrow ∧
    (t.kind = .punct .colon → colon = .awaited ∧ atReceiver q = .ok (false, q))

/-- The kinds after which neither an operand nor a list goes on. -/
def isFinal (k : Kind) : Bool := endsList k || k = .punct .comma

theorem stops_of_next {t : Token} (hnext : next q = .ok (t, r)) (hk : isTight t.kind = false)
    (hprec : Precedence.ofKind? t.kind = none) : Stops threshold q := by
  refine ⟨t, r, hnext, hk, ?_⟩
  rw [hprec]
  intro s hs
  cases hs

theorem stops_of_isFinal {t : Token} (hnext : next q = .ok (t, r)) (hk : isFinal t.kind = true) :
    Stops threshold q ∧ Follows colon q := by
  have hk : t.kind = .punct .closeParen ∨ t.kind = .punct .closeBracket ∨
      t.kind = .punct .semicolon ∨ t.kind = .punct .comma := by
    revert hk
    generalize t.kind = k
    unfold isFinal endsList
    split <;> simp +contextual
  constructor
  · refine stops_of_next hnext ?_ ?_ <;> rcases hk with hk | hk | hk | hk <;> rw [hk] <;> rfl
  · refine ⟨t, r, hnext, ?_, ?_, ?_⟩ <;> rcases hk with hk | hk | hk | hk <;> rw [hk] <;> simp

/-- Words that hold no brace are no receiver's name with a body after it. -/
theorem atReceiver_eq_false {c : Token} {ts : List Token} (h : Scans q (c :: ts) r) (hts : ts ≠ [])
    (hbrace : ∀ t ∈ ts, t.kind ≠ .punct .openBrace) {after : Token} {r' : Place}
    (hafter : next r = .ok (after, r')) (hne : after.kind ≠ .punct .openBrace) :
    atReceiver q = .ok (false, q) := by
  obtain ⟨q₁, hc, h⟩ := h.first
  by_cases hcolon : c.kind = .punct .colon
  · obtain ⟨name, ts, rfl⟩ := List.exists_cons_of_ne_nil hts
    obtain ⟨q₂, hname, h⟩ := h.first
    by_cases hidentifier : name.kind = .identifier
    · -- The third word is the next one of the list, or the one after the list.
      obtain ⟨third, q₃, hthird, hne⟩ : ∃ third q₃, next q₂ = .ok (third, q₃) ∧
          third.kind ≠ .punct .openBrace := by
        cases ts with
        | nil =>
            cases h
            exact ⟨after, r', hafter, hne⟩
        | cons t ts =>
            obtain ⟨q₃, ht, _⟩ := h.first
            exact ⟨t, q₃, ht, hbrace t (by simp)⟩
      refine lookAhead_of_ok (q := q₃) ?_
      rw [bind_of_ok hc, if_pos hcolon, bind_of_ok hname, if_pos hidentifier, bind_of_ok hthird,
        decide_eq_false hne]
      rfl
    · refine lookAhead_of_ok (q := q₂) ?_
      rw [bind_of_ok hc, if_pos hcolon, bind_of_ok hname, if_neg hidentifier]
      rfl
  · refine lookAhead_of_ok (q := q₁) ?_
    rw [bind_of_ok hc, if_neg hcolon]
    rfl

/-! ## Settled expressions -/

/-- Where reading stops at a threshold, it stops at every higher one. -/
theorem Stops.of_le {s : Precedence} (h : Stops threshold q) (hle : threshold.strength ≤ s.strength) :
    Stops s q := by
  obtain ⟨t, r, hnext, htight, hweak⟩ := h
  exact ⟨t, r, hnext, htight, fun o ho => Precedence.not_binds_of_le hle (hweak o ho)⟩

/-- An expression whose operator binds is settled where reading stops. -/
theorem Settled.of_stops {e : Expr} (he : e.isElementary = true)
    (hbinds : ∀ s ∈ e.operation?, s.binds threshold = true) (hstops : Stops threshold q) :
    Settled threshold e q := by
  constructor
  · intro s hs
    exact ⟨hbinds s hs, hstops.of_le (Precedence.le_of_binds (hbinds s hs))⟩
  · intro _
    exact hstops.of_le (Precedence.le_unary threshold)
  · rw [e.endsInArrow_of_isElementary he]
    intro harrow
    cases harrow
  · intro _ t r hnext hk
    have hloose := (hstops.of_next hnext).1
    rw [hk] at hloose
    cases hloose

/-- The operator of a grouped suffix does not bind at the strength of the operand before it. -/
theorem binds_of_grouped {leading : Expr} {x : Suffix} {s s' : Precedence} (h : x.Grouped leading)
    (hx : x.operation? = some s) (hs' : leading.operation? = some s') : s.binds s' = false := by
  cases x with
  | binary operator right =>
      obtain ⟨_, s₁, hs₁, hoperands⟩ := h
      have hsame : some s = some s₁ := hx.symm.trans hs₁
      cases hsame
      split at hoperands
      · next hright => exact (Precedence.binds_eq_false_of_right hright).mpr (hoperands s' hs')
      · next hleft =>
          have hleft : s.isRightAssociative = false := by simpa using hleft
          exact (Precedence.binds_eq_false_of_left hleft).mpr (hoperands.1 s' hs')
  | ternary question consequent colon alternate =>
      cases hx
      exact (Precedence.binds_eq_false_of_right rfl).mpr (h.1 s' hs')
  | _ => cases hx

/-- What a suffix without an operator extends is a target. -/
theorem isTarget_of_grouped {leading : Expr} {x : Suffix} (h : x.Grouped leading)
    (hx : x.operation? = none) : leading.isTarget = true := by
  cases x with
  | binary operator right =>
      obtain ⟨_, s, hs, _⟩ := h
      have hnone : none = some s := hx.symm.trans hs
      cases hnone
  | ternary question consequent colon alternate => cases hx
  | call arguments => exact h.1
  | invoke member arguments => exact h
  | index opening inner closing => exact h
  | property member => exact h
  | prototype colons name => exact h

/-- If an expression is settled after its last suffix, then its leading operand is before that suffix. -/
theorem Settled.leading {leading : Expr} {x : Suffix} {t : Token}
    (h : Settled threshold (.suffix leading x) q) (hgrouped : (Expr.suffix leading x).Grouped)
    (hnext : next p = .ok (t, r)) (hprec : Precedence.ofKind? t.kind = x.operation?)
    (htight : x.operation? = none → isTight t.kind = true)
    (hcall : t.kind = .punct .openParen → ∃ arguments, x = .call arguments) :
    Settled threshold leading p := by
  obtain ⟨harrow, hx⟩ := hgrouped
  cases hoperation : x.operation? with
  | none =>
      have htarget := isTarget_of_grouped hx hoperation
      simp only [Expr.isTarget, Bool.and_eq_true, Option.isNone_iff_eq_none, Bool.not_eq_true'] at htarget
      obtain ⟨⟨hleading, hunary⟩, _⟩ := htarget
      constructor
      · simp [hleading]
      · simp [hunary]
      · simp [harrow]
      · intro hproperty t' r' hnext' hk
        rw [hnext] at hnext'
        cases hnext'
        obtain ⟨arguments, rfl⟩ := hcall hk
        exact Bool.false_ne_true (hx.2.symm.trans hproperty)
  | some s =>
      rw [hoperation] at hprec
      have hloose := isTight_of_ofKind? hprec
      have hstops {s' : Precedence} (hweak : s.binds s' = false) : Stops s' p := by
        refine ⟨t, r, hnext, hloose, ?_⟩
        intro o ho
        rw [hprec] at ho
        cases ho
        exact hweak
      constructor
      · intro s' hs'
        have hweak := binds_of_grouped hx hoperation hs'
        exact ⟨Precedence.binds_trans (h.operation s hoperation).1 hweak, hstops hweak⟩
      · intro _
        exact hstops (Precedence.binds_unary s)
      · simp [harrow]
      · intro _ t' r' hnext' hk
        rw [hnext] at hnext'
        cases hnext'
        rw [hk] at hloose
        cases hloose

/-! ## Reading back -/

/-- The expression is elementary, its nodes are grouped, and it nests no deeper than `n` levels. -/
structure Canonical (n : Nat) (e : Expr) : Prop where
  elementary : e.isElementary = true
  grouped : ∀ f ∈ e.subexprs, f.Grouped
  nesting : e.nesting ≤ n

/-- The parsers `inner` read every canonical expression from its tokens, up to where reading stops. -/
def ReadsBack (n : Nat) (inner : Inner) : Prop :=
  ∀ {e : Expr} {colon : Colon} {threshold : Precedence} {p q : Place}, Canonical n e →
    Scans p e.tokens q → (∀ s ∈ e.operation?, s.binds threshold = true) → Stops threshold q →
    Follows colon q → inner.expression colon threshold p = .ok (e, q)

/-- Every operator binds at the lowest threshold and in the right operand of an assignment. -/
theorem binds_of_operation? {e : Expr} {s : Precedence} (h : e.operation? = some s) :
    s.binds .lowest = true ∧ s.binds .assignment = true := by
  cases e with
  | head _ => cases h
  | suffix leading x =>
      cases x with
      | binary operator right => exact ⟨Precedence.binds_lowest h, Precedence.binds_assignment h⟩
      | ternary question consequent colon alternate =>
          cases h
          decide
      | _ => cases h

section

variable (hinner : ReadsBack n inner)
include hinner

/-- An expression before a token that ends it or its list. -/
theorem ReadsBack.item {e : Expr} {t : Token} (he : Canonical n e) (hscans : Scans p e.tokens q)
    (hnext : next q = .ok (t, r)) (hk : isFinal t.kind = true) :
    inner.expression colon .lowest p = .ok (e, q) := by
  obtain ⟨hstops, hfollows⟩ := stops_of_isFinal hnext hk
  exact hinner he hscans (fun s hs => (binds_of_operation? hs).1) hstops hfollows

theorem ReadsBack.expressions {items : Separated Expr} {t : Token}
    (he : exprsElementary items = true) (hgrouped : ∀ f ∈ exprsSubexprs items, f.Grouped)
    (hn : exprsNesting items ≤ n) (hscans : Scans p (exprsTokens items) q)
    (hnext : next q = .ok (t, r)) (hends : endsList t.kind = true) :
    Parser.expressions inner colon p = .ok (items, q) := by
  have hfinal : isFinal t.kind = true := by simp [isFinal, hends]
  have hcomma : t.kind ≠ .punct .comma := by
    intro hk
    rw [hk] at hends
    cases hends
  induction items generalizing p with
  | nil =>
      cases hscans
      exact commaList_nil hnext hends
  | one e =>
      obtain ⟨first, ts, htokens, hfirst⟩ := e.tokens_eq_cons he
      have hitem : inner.expression colon .lowest p = .ok (e, q) :=
        hinner.item ⟨he, hgrouped, hn⟩ hscans hnext hfinal
      rw [exprsTokens, htokens] at hscans
      obtain ⟨p₁, hp, _⟩ := hscans.first
      exact commaList_one hp hfirst hitem hnext hcomma
  | more e comma es ih =>
      simp only [exprsElementary, Bool.and_eq_true, decide_eq_true_eq] at he
      obtain ⟨⟨he, hkind⟩, hes⟩ := he
      obtain ⟨hgroupedFirst, hgroupedRest⟩ := List.forall_mem_append.mp hgrouped
      rw [exprsNesting, Nat.max_le] at hn
      obtain ⟨p₂, hscansFirst, hscansRest⟩ := hscans.split
      obtain ⟨p₃, hcommaNext, hscansRest⟩ := hscansRest.first
      have hitem : inner.expression colon .lowest p = .ok (e, p₂) :=
        hinner.item ⟨he, hgroupedFirst, hn.1⟩ hscansFirst hcommaNext (by rw [hkind]; rfl)
      obtain ⟨first, ts, htokens, hfirst⟩ := e.tokens_eq_cons he
      have hlt := (Taken.scanned hcommaNext).length_lt (by rw [hkind]; exact Kind.noConfusion)
      have hle := hscansFirst.reading.length_le
      rw [htokens] at hscansFirst
      obtain ⟨p₁, hp, _⟩ := hscansFirst.first
      exact commaList_more hp hfirst hitem (expect_ok_iff.mpr ⟨hcommaNext, hkind⟩) (by omega)
        (ih hes hgroupedRest hn.2 hscansRest)

theorem ReadsBack.enclosed {o c : Punct} {list : Enclosed} (he : list.isElementary o c = true)
    (hgrouped : ∀ f ∈ list.subexprs, f.Grouped) (hn : list.nesting ≤ n)
    (hscans : Scans p list.tokens q) (hends : endsList (.punct c) = true) :
    Parser.enclosed inner colon o c p = .ok (list, q) := by
  obtain ⟨opening, items, closing⟩ := list
  simp only [Enclosed.isElementary, Bool.and_eq_true, decide_eq_true_eq] at he
  obtain ⟨⟨ho, hitems⟩, hc⟩ := he
  obtain ⟨p₁, hopening, hscans⟩ := hscans.first
  obtain ⟨p₂, hscans, hclosing⟩ := hscans.last
  have hrun : Parser.expressions inner colon p₁ = .ok (items, p₂) :=
    hinner.expressions hitems hgrouped hn hscans hclosing (by rw [hc]; exact hends)
  rw [Parser.enclosed, bind_of_ok (expect_ok_iff.mpr ⟨hopening, ho⟩), bind_of_ok hrun,
    bind_of_ok (expect_ok_iff.mpr ⟨hclosing, hc⟩)]
  rfl

/-- A list of one expression that is not followed like parameters is a group. -/
theorem ReadsBack.parenthesized {opening closing : Token} {e : Expr}
    (he : (Head.group opening e closing).isElementary = true) (hgrouped : ∀ f ∈ e.subexprs, f.Grouped)
    (hn : e.nesting ≤ n) (hscans : Scans p (Head.group opening e closing).tokens q)
    (hfollows : Follows colon q) :
    Parser.parenthesized inner colon p = .ok (.group opening e closing, q) := by
  obtain ⟨after, r, hafter, hbrace, harrow, hcolon⟩ := hfollows
  have hlist : Parser.enclosed inner colon .openParen .closeParen p =
      .ok (⟨opening, .one e, closing⟩, q) := hinner.enclosed he hgrouped hn hscans rfl
  rw [Parser.parenthesized, bind_of_ok hlist, bind_of_ok (peek_of_next hafter)]
  by_cases hk : after.kind = .punct .colon
  · obtain ⟨rfl, hreceiver⟩ := hcolon hk
    rw [bind_of_ok hreceiver, if_neg hbrace, if_neg (by simp), if_neg harrow]
    rfl
  · obtain ⟨bound, hreceiver⟩ : ∃ bound, atReceiver q = .ok (bound, q) := by
      unfold atReceiver lookAhead
      split
      · exact ⟨_, rfl⟩
      · exact ⟨_, rfl⟩
    rw [bind_of_ok hreceiver, if_neg hbrace, if_neg (by simp [hk]), if_neg harrow]
    rfl

theorem ReadsBack.head {h : Head} (he : h.isElementary = true)
    (hgrouped : ∀ f ∈ (Expr.head h).subexprs, f.Grouped) (hn : h.nesting ≤ n)
    (hscans : Scans p h.tokens q) (hsettled : Settled threshold (.head h) q)
    (hfollows : Follows colon q) : Parser.head inner colon p = .ok (h, q) := by
  obtain ⟨hself, hgrouped⟩ := List.forall_mem_cons.mp hgrouped
  cases h with
  | literal t =>
      obtain ⟨p₁, hnext, hscans⟩ := hscans.first
      cases hscans
      have hk : t.kind = .number ∨ t.kind = .word .null ∨ t.kind = .word .true ∨
          t.kind = .word .false := by
        revert he
        rw [Head.isElementary]
        generalize t.kind = k
        unfold isConstant
        split <;> simp
      rw [Parser.head, bind_of_ok (peek_of_next hnext)]
      rcases hk with hk | hk | hk | hk <;> simp only [hk] <;> exact bind_of_ok hnext
  | ident t =>
      obtain ⟨p₁, hnext, hscans⟩ := hscans.first
      cases hscans
      rw [Head.isElementary, decide_eq_true_eq] at he
      rw [Parser.head, bind_of_ok (peek_of_next hnext)]
      simp only [he]
      exact bind_of_ok hnext
  | unary operator operand =>
      obtain ⟨hoperator, hoperand⟩ := Bool.and_eq_true_iff.mp he
      obtain ⟨p₁, hnext, hscans⟩ := hscans.first
      have hk : operator.kind = .punct .exclamation ∨ operator.kind = .punct .minus ∨
          operator.kind = .punct .plus ∨ operator.kind = .word .typeof ∨
          operator.kind = .word .delete := by
        revert hoperator
        generalize operator.kind = k
        unfold isPrefixOperator
        split <;> simp
      have hrun : inner.expression colon .unary p₁ = .ok (operand, q) := by
        refine hinner ⟨hoperand, hgrouped, hn⟩ hscans ?_ (hsettled.unary rfl) hfollows
        intro s hs
        rw [show operand.operation? = none from hself] at hs
        cases hs
      rw [Parser.head, bind_of_ok (peek_of_next hnext)]
      rcases hk with hk | hk | hk | hk | hk <;> simp only [hk] <;>
        rw [bind_of_ok hnext, bind_of_ok hrun] <;> rfl
  | array elements =>
      have hrun : Parser.enclosed inner colon .openBracket .closeBracket p = .ok (elements, q) :=
        hinner.enclosed he hgrouped hn hscans rfl
      obtain ⟨p₁, _, hopening, _⟩ := enclosed_ok hrun
      obtain ⟨hnext, hk⟩ := expect_ok_iff.mp hopening
      rw [Parser.head, bind_of_ok (peek_of_next hnext)]
      simp only [hk]
      exact bind_of_ok hrun
  | group opening e closing =>
      have hrun : Parser.parenthesized inner colon p = .ok (.group opening e closing, q) :=
        hinner.parenthesized he hgrouped hn hscans hfollows
      obtain ⟨p₁, hnext, _⟩ := hscans.first
      simp only [Head.isElementary, Bool.and_eq_true, decide_eq_true_eq] at he
      rw [Parser.head, bind_of_ok (peek_of_next hnext)]
      simp only [he.1.1]
      exact hrun
  | _ => cases he

/-- The right operand of a binary operator. -/
theorem ReadsBack.right {operator : Token} {leading right : Expr} {s : Precedence}
    (hs : Precedence.ofKind? operator.kind = some s)
    (hgroups : (Suffix.binary operator right).Grouped leading) (he : Canonical n right)
    (hscans : Scans p right.tokens q) (hstops : Stops s q) (hfollows : Follows colon q) :
    inner.expression colon s p = .ok (right, q) := by
  refine hinner he hscans ?_ hstops hfollows
  intro s' hs'
  obtain ⟨hquestion, s₁, hs₁, hoperands⟩ := hgroups
  have hsame : some s = some s₁ := hs.symm.trans hs₁
  cases hsame
  split at hoperands
  · next hassociative =>
      -- An operator that groups to the right and is no question mark is an assignment.
      have hassignment : s = .assignment := by
        cases s with
        | assignment => rfl
        | conditional => exact (hquestion (Precedence.eq_question_of_ofKind? hs)).elim
        | _ => cases hassociative
      subst hassignment
      exact (binds_of_operation? hs').2
  · exact Precedence.binds_of_lt (hoperands.2 s' hs')

/-- The branches of a conditional. The colon between them belongs to it, whatever the consequent is. -/
theorem ReadsBack.branches {c : Token} {leading consequent alternate : Expr} {question : Token}
    (hgroups : (Suffix.ternary question consequent c alternate).Grouped leading)
    (hconsequent : Canonical n consequent) (halternate : Canonical n alternate)
    (hc : c.kind = .punct .colon) (hscans : Scans p (consequent.tokens ++ c :: alternate.tokens) q)
    (hstops : Stops .conditional q) (hfollows : Follows colon q) :
    ∃ p₁ p₂, inner.expression .awaited .lowest p = .ok (consequent, p₁) ∧
      expect (.punct .colon) p₁ = .ok (c, p₂) ∧
      inner.expression colon .conditional p₂ = .ok (alternate, q) := by
  obtain ⟨p₁, hscansConsequent, hscans⟩ := hscans.split
  obtain ⟨p₂, hnext, hscansAlternate⟩ := hscans.first
  refine ⟨p₁, p₂, ?_, expect_ok_iff.mpr ⟨hnext, hc⟩, ?_⟩
  · have hreceiver : atReceiver p₁ = .ok (false, p₁) := by
      obtain ⟨after, r, hafter, hbrace, _⟩ := hfollows
      obtain ⟨t, ts, htokens, _⟩ := alternate.tokens_eq_cons halternate.elementary
      refine atReceiver_eq_false hscans ?_ (alternate.openBrace_notMem halternate.elementary)
        hafter hbrace
      rw [htokens]
      exact List.cons_ne_nil t ts
    refine hinner hconsequent hscansConsequent (fun s hs => (binds_of_operation? hs).1) ?_ ?_
    · exact stops_of_next hnext (by rw [hc]; rfl) (by rw [hc]; rfl)
    · refine ⟨c, p₂, hnext, ?_, ?_, ?_⟩
      · rw [hc]
        decide
      · rw [hc]
        decide
      · exact fun _ => ⟨rfl, hreceiver⟩
  · refine hinner halternate hscansAlternate ?_ hstops hfollows
    intro s' hs'
    have hle := hgroups.2 s' hs'
    revert hle
    cases s' <;> decide

omit hinner in
/-- An operator that binds begins a suffix. -/
theorem suffix?_of_operation {leading : Expr} {x : Suffix} {t : Token} {s : Precedence}
    (hnext : next p = .ok (t, r)) (hs : Precedence.ofKind? t.kind = some s)
    (hbinds : s.binds threshold = true) (hrun : operation inner colon s p = .ok (x, q)) :
    Parser.suffix? inner colon threshold leading p = .ok (some (.suffix leading x), q) := by
  rw [Parser.suffix?, bind_of_ok (peek_of_next hnext)]
  simp only [hs]
  rw [if_pos hbinds]
  exact bind_of_ok hrun

omit hinner in
/-- A dot begins a suffix at every threshold. -/
theorem suffix?_of_access {leading : Expr} {x : Suffix} {t : Token} (hnext : next p = .ok (t, r))
    (hdot : t.kind = .punct .dot) (hrun : access inner colon p = .ok (x, q)) :
    Parser.suffix? inner colon threshold leading p = .ok (some (.suffix leading x), q) := by
  rw [Parser.suffix?, bind_of_ok (peek_of_next hnext)]
  simp only [hdot, Precedence.ofKind?, Kind.isAssignment]
  exact bind_of_ok hrun

theorem ReadsBack.suffix? {leading : Expr} {x : Suffix} (he : x.isElementary = true)
    (hgroups : x.Grouped leading) (hgrouped : ∀ f ∈ x.subexprs, f.Grouped) (hn : x.nesting ≤ n)
    (hscans : Scans p x.tokens q) (hsettled : Settled threshold (.suffix leading x) q)
    (hfollows : Follows colon q) :
    Parser.suffix? inner colon threshold leading p = .ok (some (.suffix leading x), q) := by
  cases x with
  | binary operator right =>
      obtain ⟨p₁, hnext, hscans⟩ := hscans.first
      obtain ⟨hquestion, s, hs, _⟩ := id hgroups
      obtain ⟨hbinds, hstops⟩ := hsettled.operation s hs
      have hright : inner.expression colon s p₁ = .ok (right, q) :=
        hinner.right hs hgroups ⟨(Bool.and_eq_true_iff.mp he).2, hgrouped, hn⟩ hscans hstops hfollows
      refine suffix?_of_operation hnext hs hbinds ?_
      rw [operation, bind_of_ok hnext, if_neg hquestion, bind_of_ok hright]
      rfl
  | ternary question consequent c alternate =>
      simp only [Suffix.isElementary, Bool.and_eq_true, decide_eq_true_eq] at he
      obtain ⟨⟨⟨hquestion, hconsequent⟩, hc⟩, halternate⟩ := he
      obtain ⟨hgroupedConsequent, hgroupedAlternate⟩ := List.forall_mem_append.mp hgrouped
      rw [Suffix.nesting, Nat.max_le] at hn
      obtain ⟨p₁, hnext, hscans⟩ := hscans.first
      obtain ⟨hbinds, hstops⟩ := hsettled.operation .conditional rfl
      obtain ⟨p₂, p₃, hfirst, hcolon, hsecond⟩ := hinner.branches hgroups
        ⟨hconsequent, hgroupedConsequent, hn.1⟩ ⟨halternate, hgroupedAlternate, hn.2⟩ hc hscans hstops
        hfollows
      refine suffix?_of_operation hnext (by rw [hquestion]; rfl) hbinds ?_
      rw [operation, bind_of_ok hnext, if_pos hquestion, bind_of_ok hfirst, bind_of_ok hcolon,
        bind_of_ok hsecond]
      rfl
  | call arguments =>
      have hrun : Parser.enclosed inner colon .openParen .closeParen p = .ok (arguments, q) :=
        hinner.enclosed he hgrouped hn hscans rfl
      obtain ⟨p₁, _, hopening, _⟩ := enclosed_ok hrun
      obtain ⟨hnext, hk⟩ := expect_ok_iff.mp hopening
      rw [Parser.suffix?, bind_of_ok (peek_of_next hnext)]
      simp only [hk, Precedence.ofKind?, Kind.isAssignment]
      exact bind_of_ok hrun
  | invoke member arguments =>
      simp only [Suffix.isElementary, Bool.and_eq_true, decide_eq_true_eq] at he
      obtain ⟨⟨hdot, hname⟩, hargs⟩ := he
      obtain ⟨p₁, hnext, hscans⟩ := hscans.first
      obtain ⟨p₂, hnextName, hscans⟩ := hscans.first
      have harguments : Parser.enclosed inner colon .openParen .closeParen p₂ = .ok (arguments, q) :=
        hinner.enclosed hargs hgrouped hn hscans rfl
      obtain ⟨p₃, _, hopening, _⟩ := enclosed_ok harguments
      obtain ⟨hnextOpening, hk⟩ := expect_ok_iff.mp hopening
      refine suffix?_of_access hnext hdot ?_
      rw [access, bind_of_ok hnext, bind_of_ok hnextName, if_pos hname,
        bind_of_ok (peekKind_of_next hnextOpening), if_pos hk, bind_of_ok harguments]
      rfl
  | index opening position closing =>
      simp only [Suffix.isElementary, Bool.and_eq_true, decide_eq_true_eq] at he
      obtain ⟨⟨ho, hposition⟩, hc⟩ := he
      obtain ⟨p₁, hnext, hscans⟩ := hscans.first
      obtain ⟨p₂, hscans, hclosing⟩ := hscans.last
      have hrun : inner.expression colon .lowest p₁ = .ok (position, p₂) :=
        hinner.item ⟨hposition, hgrouped, hn⟩ hscans hclosing (by rw [hc]; rfl)
      rw [Parser.suffix?, bind_of_ok (peek_of_next hnext)]
      simp only [ho, Precedence.ofKind?, Kind.isAssignment]
      exact (bind_of_ok hnext).trans ((bind_of_ok hrun).trans
        (bind_of_ok (expect_ok_iff.mpr ⟨hclosing, hc⟩)))
  | property member =>
      simp only [Suffix.isElementary, Bool.and_eq_true, decide_eq_true_eq] at he
      obtain ⟨hdot, hname⟩ := he
      obtain ⟨p₁, hnext, hscans⟩ := hscans.first
      obtain ⟨_, hnextName, hscans⟩ := hscans.first
      cases hscans
      obtain ⟨after, r, hafter, _⟩ := hfollows
      have hparen := hsettled.property rfl after r hafter
      refine suffix?_of_access hnext hdot ?_
      rw [access, bind_of_ok hnext, bind_of_ok hnextName, if_pos hname,
        bind_of_ok (peekKind_of_next hafter), if_neg hparen]
      rfl
  | prototype colons name => cases he

end

/-- What begins a suffix makes no list before it the parameters of a function. -/
theorem follows_of_suffix {x : Suffix} {t : Token} (hnext : next q = .ok (t, r))
    (hprec : Precedence.ofKind? t.kind = x.operation?)
    (htight : x.operation? = none → isTight t.kind = true) : Follows colon q := by
  have hne {k : Kind} (hloose : isTight k = false) (hnone : Precedence.ofKind? k = none) :
      t.kind ≠ k := by
    rintro rfl
    rw [htight (hprec.symm.trans hnone)] at hloose
    cases hloose
  exact ⟨t, r, hnext, hne rfl rfl, hne rfl rfl, fun hcolon => (hne rfl rfl hcolon).elim⟩

/-- An expression is read by reading its head and adding its suffixes one by one. -/
theorem ReadsBack.spine (hinner : ReadsBack n inner) : (e : Expr) → {p q : Place} →
    Canonical (n + 1) e → Scans p e.tokens q → Settled threshold e q → Follows colon q →
    Parser.expression inner colon threshold p = extend (Parser.suffix? inner colon threshold) e q
  | .head h, p, q, he, hscans, hsettled, hfollows => by
      have hrun : Parser.head inner colon p = .ok (h, q) :=
        hinner.head he.elementary he.grouped (Nat.le_of_succ_le_succ he.nesting) hscans hsettled hfollows
      rw [Parser.expression, bind_of_ok hrun]
  | .suffix leading x, p, q, he, hscans, hsettled, hfollows => by
      obtain ⟨helementary, hx⟩ := Bool.and_eq_true_iff.mp he.elementary
      obtain ⟨hself, hgrouped⟩ := List.forall_mem_cons.mp he.grouped
      obtain ⟨hgroupedLeading, hgroupedSuffix⟩ := List.forall_mem_append.mp hgrouped
      have hnesting := he.nesting
      rw [Expr.nesting, Nat.max_le] at hnesting
      obtain ⟨r, hscansLeading, hscansSuffix⟩ := hscans.split
      -- The first token of the suffix is where its leading operand has to be settled.
      obtain ⟨t, ts, htokens, hprec, htight, hcall⟩ := x.tokens_eq_cons hx
      have hscansTokens := hscansSuffix
      rw [htokens] at hscansTokens
      obtain ⟨r', hnext, hrest⟩ := hscansTokens.first
      have hrun : Parser.suffix? inner colon threshold leading r = .ok (some (.suffix leading x), q) :=
        hinner.suffix? hx hself.2 hgroupedSuffix (Nat.le_of_succ_le_succ hnesting.2) hscansSuffix
          hsettled hfollows
      have hlt : q.rest.length < r.rest.length := by
        have hk : t.kind ≠ .endOfFile := by
          intro hk
          rw [hk] at hprec htight
          exact Bool.false_ne_true (htight hprec.symm)
        have hfirst := (Taken.scanned hnext).length_lt hk
        have hle := hrest.reading.length_le
        omega
      rw [hinner.spine leading ⟨helementary, hgroupedLeading, hnesting.1⟩ hscansLeading
        (hsettled.leading hself hnext hprec htight hcall) (follows_of_suffix hnext hprec htight)]
      exact extend_some hrun hlt

/-- Where reading stops, a round has nothing to add. -/
theorem suffix?_of_stops {e : Expr} (h : Stops threshold q) :
    Parser.suffix? inner colon threshold e q = .ok (none, q) := by
  obtain ⟨t, r, hnext, htight, hweak⟩ := h
  rw [Parser.suffix?, bind_of_ok (peek_of_next hnext)]
  cases hprec : Precedence.ofKind? t.kind with
  | some s =>
      simp only
      rw [if_neg (by rw [hweak s hprec]; decide)]
      rfl
  | none =>
      generalize t.kind = k at htight
      simp only
      split
      case h_6 => rfl
      all_goals cases htight

/-- Every level reads back the expressions that nest in it. -/
theorem level_readsBack (n : Nat) : ReadsBack n (level n) := by
  induction n with
  | zero =>
      intro e colon threshold p q he
      have hpos := e.nesting_pos
      have hn := he.nesting
      omega
  | succ n ih =>
      intro e colon threshold p q he hscans hbinds hstops hfollows
      have hsettled := Settled.of_stops he.elementary hbinds hstops
      have hspine : (level (n + 1)).expression colon threshold p =
          extend (Parser.suffix? (level n) colon threshold) e q := ih.spine e he hscans hsettled hfollows
      rw [hspine]
      exact extend_none (suffix?_of_stops hstops)

end Parser

/-- A grouped expression of constants, names, operators, groups, calls, members and arrays that nests no
    deeper than the levels allow is what its tokens are read as, in any context, if a semicolon follows
    them; and the semicolon is not taken. In particular a parenthesised consequent is never taken for
    the parameters of a function. -/
theorem expression_of_tokens {e : Expr} {n : Nat} {colon : Colon} {p : Place} {semicolon : Token}
    {rest : List Token} (he : e.isElementary = true) (hgrouped : ∀ f ∈ e.subexprs, f.Grouped)
    (hnesting : e.nesting ≤ n) (hsemicolon : semicolon.kind = .punct .semicolon)
    (htokens : (tokensFrom .never p).1 = e.tokens ++ semicolon :: rest) :
    ∃ q, (level n).expression colon .lowest p = .ok (e, q) ∧
      (tokensFrom .never q).1 = semicolon :: rest := by
  obtain ⟨q, hscans, hrest⟩ := scans_of_tokensFrom htokens
  obtain ⟨r, hnext, _⟩ := next_of_tokensFrom hrest
  have hinner : ReadsBack n (level n) := level_readsBack n
  have hfinal : isFinal semicolon.kind = true := by
    rw [hsemicolon]
    rfl
  exact ⟨q, hinner.item ⟨he, hgrouped, hnesting⟩ hscans hnext hfinal, hrest⟩

/-- A conditional whose consequent is again a conditional, with a group before the inner colon. -/
def branchingSource : String := "c ? b ? (d) : e : -f.g(1,)[h] + [];"

/-- The tree of `branchingSource` without its semicolon. -/
def branchingExpr : Expr :=
  let inner := Expr.suffix (.head (.ident ⟨.identifier, "b", 4, " "⟩))
    (.ternary ⟨.punct .question, "?", 6, " "⟩
      (.head (.group ⟨.punct .openParen, "(", 8, ""⟩ (.head (.ident ⟨.identifier, "d", 9, ""⟩))
        ⟨.punct .closeParen, ")", 10, " "⟩))
      ⟨.punct .colon, ":", 12, " "⟩ (.head (.ident ⟨.identifier, "e", 14, " "⟩)))
  let arguments : Enclosed := ⟨⟨.punct .openParen, "(", 22, ""⟩,
    .more (.head (.literal ⟨.number, "1", 23, ""⟩)) ⟨.punct .comma, ",", 24, ""⟩ .nil,
    ⟨.punct .closeParen, ")", 25, ""⟩⟩
  let operand := Expr.suffix
    (.suffix (.head (.ident ⟨.identifier, "f", 19, ""⟩))
      (.invoke ⟨⟨.punct .dot, ".", 20, ""⟩, ⟨.identifier, "g", 21, ""⟩⟩ arguments))
    (.index ⟨.punct .openBracket, "[", 26, ""⟩ (.head (.ident ⟨.identifier, "h", 27, ""⟩))
      ⟨.punct .closeBracket, "]", 28, " "⟩)
  let sum := Expr.suffix (.head (.unary ⟨.punct .minus, "-", 18, ""⟩ operand))
    (.binary ⟨.punct .plus, "+", 30, " "⟩ (.head (.array ⟨⟨.punct .openBracket, "[", 32, ""⟩, .nil,
      ⟨.punct .closeBracket, "]", 33, ""⟩⟩)))
  .suffix (.head (.ident ⟨.identifier, "c", 0, " "⟩))
    (.ternary ⟨.punct .question, "?", 2, " "⟩ inner ⟨.punct .colon, ":", 16, " "⟩ sum)

theorem expression_of_tokens_branchingSource :
    branchingExpr.nesting = 4 ∧ ∃ q,
      (level 4).expression .free .lowest (.start branchingSource.toList) = .ok (branchingExpr, q) ∧
      (tokensFrom .never q).1 = [⟨.punct .semicolon, ";", 34, ""⟩, ⟨.endOfFile, "", 35, ""⟩] := by
  have htokens : (tokensFrom .never (.start branchingSource.toList)).1 = branchingExpr.tokens ++
      ⟨.punct .semicolon, ";", 34, ""⟩ :: [⟨.endOfFile, "", 35, ""⟩] := by decide +kernel
  exact ⟨by decide +kernel,
    expression_of_tokens (by decide) (by decide) (by decide) rfl htokens⟩

end Respell
