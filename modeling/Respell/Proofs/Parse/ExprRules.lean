import Respell.Parse.Expr
import Respell.Proofs.Parse.Combinators

/-!
# The rules of expressions

For every production, what a successful run of it did: which tokens it took, which other productions it
went through and where each began, and what it saw before it decided. Facts about parsed trees are
proved over these rules, and no other module unfolds a production.

A production with alternatives has a rule for each of them, as a constructor of a relation between the
place where it began, its result, and the place where it ended. A production that is one sequence has
a lemma that names the places in between.
-/

namespace Respell.Parser

open Text

variable {inner : Inner} {colon : Colon} {p q r : Place}

/-! ## Lists and functions -/

theorem enclosed_ok {o c : Punct} {e : Enclosed} (h : enclosed inner colon o c p = .ok (e, q)) :
    ∃ p₁ p₂, expect (.punct o) p = .ok (e.opening, p₁) ∧
      CommaRounds (inner.expression colon .lowest) p₁ e.items p₂ ∧
      expect (.punct c) p₂ = .ok (e.closing, q) := by
  rw [enclosed] at h
  simp only [bind_ok_iff, pure_ok_iff] at h
  obtain ⟨opening, p₁, ho, items, p₂, hitems, closing, p₃, hc, rfl, rfl⟩ := h
  exact ⟨p₁, p₂, ho, commaRounds_of_commaList hitems, hc⟩

theorem block_ok {b : Block} (h : block inner p = .ok (b, q)) :
    ∃ p₁ p₂, expect (.punct .openBrace) p = .ok (b.opening, p₁) ∧
      Rounds inner.statement p₁ b.body p₂ ∧ expect (.punct .closeBrace) p₂ = .ok (b.closing, q) := by
  rw [block] at h
  simp only [bind_ok_iff, pure_ok_iff] at h
  obtain ⟨opening, p₁, ho, body, p₂, hbody, closing, p₃, hc, rfl, rfl⟩ := h
  exact ⟨p₁, p₂, ho, rounds_of_many hbody, hc⟩

theorem asParams_ok {list : Enclosed} {before : Token} {params : Params}
    (h : asParams list before p = .ok (params, q)) :
    q = p ∧ ∃ items, list.items.map? Expr.toParam? = some items ∧
      params = ⟨list.opening, items, list.closing⟩ := by
  rw [asParams] at h
  cases hitems : list.items.map? Expr.toParam? with
  | none =>
      simp only [hitems] at h
      exact (throw_ok_iff.mp h).elim
  | some items =>
      simp only [hitems] at h
      obtain ⟨rfl, rfl⟩ := pure_ok_iff.mp h
      exact ⟨rfl, items, rfl, rfl⟩

/-- A receiver's name was read after its colon, or no colon stands here. -/
theorem receiver_ok {o : Option Receiver} (h : receiver p = .ok (o, q)) :
    (∃ named p₁, o = some named ∧ expect (.punct .colon) p = .ok (named.colon, p₁) ∧
        expect .identifier p₁ = .ok (named.name, q)) ∨ (o = none ∧ q = p) := by
  rw [receiver, bind_ok_iff] at h
  obtain ⟨o', p₁, hcolon, h⟩ := h
  rcases optional_ok hcolon with ⟨c, rfl, hc⟩ | ⟨rfl, rfl, _⟩
  · simp only [bind_ok_iff, pure_ok_iff] at h
    obtain ⟨name, p₂, hname, rfl, rfl⟩ := h
    exact .inl ⟨⟨c, name⟩, p₁, rfl, hc, hname⟩
  · obtain ⟨rfl, rfl⟩ := pure_ok_iff.mp h
    exact .inr ⟨rfl, rfl⟩

theorem finishFunction_ok {keyword name : Option Token} {list : Enclosed} {named : Option Receiver}
    {f : Func} (h : finishFunction inner keyword name list named p = .ok (f, q)) :
    ∃ items body, list.items.map? Expr.toParam? = some items ∧ block inner p = .ok (body, q) ∧
      f = ⟨keyword, name, ⟨list.opening, items, list.closing⟩, named, body⟩ := by
  rw [finishFunction] at h
  simp only [bind_ok_iff, pure_ok_iff] at h
  obtain ⟨brace, p₁, hbrace, params, p₂, hparams, body, p₃, hbody, rfl, rfl⟩ := h
  obtain ⟨rfl, _⟩ := expectPeek_ok hbrace
  obtain ⟨rfl, items, hitems, rfl⟩ := asParams_ok hparams
  exact ⟨items, body, hitems, hbody, rfl⟩

theorem functionRest_ok {keyword name : Option Token} {f : Func}
    (h : functionRest inner colon keyword name p = .ok (f, q)) :
    ∃ list p₁ named p₂, enclosed inner colon .openParen .closeParen p = .ok (list, p₁) ∧
      receiver p₁ = .ok (named, p₂) ∧ finishFunction inner keyword name list named p₂ = .ok (f, q) := by
  rw [functionRest] at h
  simp only [bind_ok_iff] at h
  obtain ⟨list, p₁, hlist, named, p₂, hnamed, h⟩ := h
  exact ⟨list, p₁, named, p₂, hlist, hnamed, h⟩

/-! ## Heads -/

/-- What a parenthesised list was taken for, and what decided it. -/
inductive ParenRule (inner : Inner) (colon : Colon) (p : Place) : Head → Place → Prop where
  | function {list : Enclosed} {after : Token} {p₁ p₂ q : Place} {f : Func} :
      enclosed inner colon .openParen .closeParen p = .ok (list, p₁) →
      next p₁ = .ok (after, p₂) → after.kind = .punct .openBrace →
      finishFunction inner none none list none p₁ = .ok (f, q) →
      ParenRule inner colon p (.function f) q
  | bound {list : Enclosed} {after : Token} {p₁ p₂ p₃ q : Place} {ahead : Bool}
      {named : Option Receiver} {f : Func} :
      enclosed inner colon .openParen .closeParen p = .ok (list, p₁) →
      next p₁ = .ok (after, p₂) → after.kind = .punct .colon →
      atReceiver p₁ = .ok (ahead, p₁) → (colon = .free ∨ ahead = true) →
      receiver p₁ = .ok (named, p₃) → finishFunction inner none none list named p₃ = .ok (f, q) →
      ParenRule inner colon p (.function f) q
  | arrow {list : Enclosed} {items : Separated Param} {sign : Token} {body : Expr}
      {p₁ p₂ q : Place} :
      enclosed inner colon .openParen .closeParen p = .ok (list, p₁) →
      list.items.map? Expr.toParam? = some items → expect (.punct .arrow) p₁ = .ok (sign, p₂) →
      inner.expression colon .lowest p₂ = .ok (body, q) →
      ParenRule inner colon p (.arrow ⟨list.opening, items, list.closing⟩ sign body) q
  | group {list : Enclosed} {after : Token} {e : Expr} {p₁ p₂ : Place} {ahead : Bool} :
      enclosed inner colon .openParen .closeParen p = .ok (list, p₁) → list.items = .one e →
      next p₁ = .ok (after, p₂) → atReceiver p₁ = .ok (ahead, p₁) →
      after.kind ≠ .punct .openBrace → after.kind ≠ .punct .arrow →
      ¬(after.kind = .punct .colon ∧ (colon = .free ∨ ahead = true)) →
      ParenRule inner colon p (.group list.opening e list.closing) p₁

theorem parenthesized_ok {h : Head} (hrun : parenthesized inner colon p = .ok (h, q)) :
    ParenRule inner colon p h q := by
  rw [parenthesized] at hrun
  simp only [bind_ok_iff] at hrun
  obtain ⟨list, p₁, hlist, after, p₂, hafter, ahead, p₃, hahead, hrun⟩ := hrun
  obtain ⟨rfl, p₄, hnext⟩ := peek_ok hafter
  obtain rfl := lookAhead_ok hahead
  -- Each test that fails is kept: a group is what is left when all three have failed.
  split at hrun
  · next hbrace =>
      simp only [bind_ok_iff, pure_ok_iff] at hrun
      obtain ⟨f, _, hf, rfl, rfl⟩ := hrun
      exact .function hlist hnext hbrace hf
  · next hbrace =>
      split at hrun
      · next hcolon =>
          simp only [bind_ok_iff, pure_ok_iff] at hrun
          obtain ⟨named, p₅, hnamed, f, _, hf, rfl, rfl⟩ := hrun
          exact .bound hlist hnext hcolon.1 hahead hcolon.2 hnamed hf
      · next hcolon =>
          split at hrun
          · next harrow =>
              simp only [bind_ok_iff, pure_ok_iff] at hrun
              obtain ⟨params, _, hparams, sign, p₆, hsign, body, _, hbody, rfl, rfl⟩ := hrun
              obtain ⟨rfl, items, hitems, rfl⟩ := asParams_ok hparams
              exact .arrow hlist hitems (expect_of_seen hnext harrow hsign) hbody
          · next harrow =>
              generalize hitems : list.items = items at hrun
              split at hrun
              · obtain ⟨rfl, rfl⟩ := pure_ok_iff.mp hrun
                exact .group hlist hitems hnext hahead hbrace harrow hcolon
              · exact (throw_ok_iff.mp hrun).elim

theorem member_ok {m : Member} (h : member p = .ok (m, q)) :
    ∃ p₁, expect (.punct .dot) p = .ok (m.dot, p₁) ∧ expect .identifier p₁ = .ok (m.name, q) := by
  rw [member] at h
  simp only [bind_ok_iff, pure_ok_iff] at h
  obtain ⟨dot, p₁, hdot, name, p₂, hname, rfl, rfl⟩ := h
  exact ⟨p₁, hdot, hname⟩

/-- A key is a name, or the string that a quotation mark begins. -/
theorem key_ok {t : Token} (h : key p = .ok (t, q)) :
    expect .identifier p = .ok (t, q) ∨
      ∃ mark r, next p = .ok (mark, r) ∧
        (mark.kind = .punct .doubleQuote ∨ mark.kind = .punct .singleQuote) ∧
        quoted p = .ok (t, q) := by
  rw [key, bind_ok_iff] at h
  obtain ⟨mark, p₁, hpeek, h⟩ := h
  obtain ⟨rfl, r, hnext⟩ := peek_ok hpeek
  generalize hk : mark.kind = k at h
  split at h
  · exact .inl (expect_of_seen hnext hk h)
  · exact .inr ⟨mark, r, hnext, .inl hk, h⟩
  · exact .inr ⟨mark, r, hnext, .inr hk, h⟩
  · exact (throw_ok_iff.mp h).elim

theorem entry_ok {e : Entry} (h : entry inner colon p = .ok (e, q)) :
    ∃ p₁ p₂, key p = .ok (e.key, p₁) ∧ expect (.punct .colon) p₁ = .ok (e.colon, p₂) ∧
      inner.expression colon .lowest p₂ = .ok (e.value, q) := by
  rw [entry] at h
  simp only [bind_ok_iff, pure_ok_iff] at h
  obtain ⟨k, p₁, hk, c, p₂, hc, value, p₃, hvalue, rfl, rfl⟩ := h
  exact ⟨p₁, p₂, hk, hc, hvalue⟩

/-- The kinds of the literals that are single tokens. -/
def isConstant : Kind → Bool
  | .number | .word .null | .word .true | .word .false => true
  | _ => false

/-- The kinds of the operators before an operand. -/
def isPrefixOperator : Kind → Bool
  | .punct .exclamation | .punct .minus | .punct .plus | .word .typeof | .word .delete => true
  | _ => false

/-- How a head was read. -/
inductive HeadRule (inner : Inner) (colon : Colon) (p : Place) : Head → Place → Prop where
  | constant {t : Token} {q : Place} :
      next p = .ok (t, q) → isConstant t.kind = true → HeadRule inner colon p (.literal t) q
  | quoted {mark t : Token} {r q : Place} :
      next p = .ok (mark, r) → mark.kind.isQuote = true → Parser.quoted p = .ok (t, q) →
      HeadRule inner colon p (.literal t) q
  | ident {t : Token} {q : Place} :
      expect .identifier p = .ok (t, q) → HeadRule inner colon p (.ident t) q
  | pass {mark : Token} {handler : Option Token} {p₁ q : Place} :
      expect (.punct .atSign) p = .ok (mark, p₁) → optional .identifier p₁ = .ok (handler, q) →
      HeadRule inner colon p (.pass mark handler) q
  | array {elements : Enclosed} {q : Place} :
      enclosed inner colon .openBracket .closeBracket p = .ok (elements, q) →
      HeadRule inner colon p (.array elements) q
  | object {opening closing : Token} {entries : Separated Entry} {p₁ p₂ q : Place} :
      expect (.punct .openBrace) p = .ok (opening, p₁) →
      CommaRounds (entry inner colon) p₁ entries p₂ →
      expect (.punct .closeBrace) p₂ = .ok (closing, q) →
      HeadRule inner colon p (.object opening entries closing) q
  | construct {keyword first : Token} {members : List Member} {arguments : Enclosed}
      {p₁ p₂ p₃ q : Place} :
      expect (.word .new) p = .ok (keyword, p₁) → expect .identifier p₁ = .ok (first, p₂) →
      Rounds member p₂ members p₃ →
      enclosed inner colon .openParen .closeParen p₃ = .ok (arguments, q) →
      HeadRule inner colon p (.construct keyword ⟨first, members⟩ arguments) q
  | unary {operator : Token} {operand : Expr} {p₁ q : Place} :
      next p = .ok (operator, p₁) → isPrefixOperator operator.kind = true →
      inner.expression colon .unary p₁ = .ok (operand, q) →
      HeadRule inner colon p (.unary operator operand) q
  | paren {h : Head} {q : Place} : ParenRule inner colon p h q → HeadRule inner colon p h q
  | simpleArrow {sign : Token} {body : Expr} {p₁ q : Place} :
      expect (.punct .arrow) p = .ok (sign, p₁) →
      inner.expression colon .lowest p₁ = .ok (body, q) →
      HeadRule inner colon p (.simpleArrow sign body) q
  | function {keyword : Token} {name : Option Token} {f : Func} {p₁ p₂ q : Place} :
      expect (.word .function) p = .ok (keyword, p₁) → optional .identifier p₁ = .ok (name, p₂) →
      functionRest inner colon (some keyword) name p₂ = .ok (f, q) →
      HeadRule inner colon p (.function f) q

theorem object_ok {h : Head} (hrun : object inner colon p = .ok (h, q)) :
    HeadRule inner colon p h q := by
  rw [object] at hrun
  simp only [bind_ok_iff, pure_ok_iff] at hrun
  obtain ⟨opening, p₁, ho, entries, p₂, hentries, closing, p₃, hc, rfl, rfl⟩ := hrun
  exact .object ho (commaRounds_of_commaList hentries) hc

theorem construct_ok {h : Head} (hrun : construct inner colon p = .ok (h, q)) :
    HeadRule inner colon p h q := by
  rw [construct] at hrun
  simp only [bind_ok_iff, pure_ok_iff] at hrun
  obtain ⟨keyword, p₁, hk, first, p₂, hfirst, members, p₃, hmembers, arguments, p₄, hargs, rfl, rfl⟩ := hrun
  exact .construct hk hfirst (rounds_of_many hmembers) hargs

theorem head_ok {h : Head} (hrun : head inner colon p = .ok (h, q)) : HeadRule inner colon p h q := by
  rw [head, bind_ok_iff] at hrun
  obtain ⟨t, p', hpeek, hrun⟩ := hrun
  obtain ⟨rfl, r, hnext⟩ := peek_ok hpeek
  generalize hk : t.kind = k at hrun
  -- One case for each kind that `head` lists: the four constants first, then a name, the four marks
  -- that begin a literal, and from `h_10` on the forms in the order of `HeadRule`.
  split at hrun
  case h_1 | h_2 | h_3 | h_4 =>
    simp only [bind_ok_iff, pure_ok_iff] at hrun
    obtain ⟨s, _, hs, rfl, rfl⟩ := hrun
    have hexpect := expect_of_seen hnext hk hs
    exact .constant hs (by rw [kind_of_expect hexpect]; rfl)
  case h_5 =>
    simp only [bind_ok_iff, pure_ok_iff] at hrun
    obtain ⟨s, _, hs, rfl, rfl⟩ := hrun
    exact .ident (expect_of_seen hnext hk hs)
  case h_6 | h_7 | h_8 | h_9 =>
    simp only [bind_ok_iff, pure_ok_iff] at hrun
    obtain ⟨s, _, hs, rfl, rfl⟩ := hrun
    exact .quoted hnext (by rw [hk]; rfl) hs
  case h_10 =>
    simp only [bind_ok_iff, pure_ok_iff] at hrun
    obtain ⟨mark, p₁, hmark, handler, _, hhandler, rfl, rfl⟩ := hrun
    exact .pass (expect_of_seen hnext hk hmark) hhandler
  case h_11 =>
    simp only [bind_ok_iff, pure_ok_iff] at hrun
    obtain ⟨elements, _, helements, rfl, rfl⟩ := hrun
    exact .array helements
  case h_12 => exact object_ok hrun
  case h_13 => exact construct_ok hrun
  case h_14 | h_15 | h_16 | h_17 | h_18 =>
    simp only [bind_ok_iff, pure_ok_iff] at hrun
    obtain ⟨operator, p₁, hoperator, operand, _, hoperand, rfl, rfl⟩ := hrun
    have hexpect := expect_of_seen hnext hk hoperator
    exact .unary hoperator (by rw [kind_of_expect hexpect]; rfl) hoperand
  case h_19 => exact .paren (parenthesized_ok hrun)
  case h_20 =>
    simp only [bind_ok_iff, pure_ok_iff] at hrun
    obtain ⟨sign, p₁, hsign, body, _, hbody, rfl, rfl⟩ := hrun
    exact .simpleArrow (expect_of_seen hnext hk hsign) hbody
  case h_21 =>
    simp only [bind_ok_iff, pure_ok_iff] at hrun
    obtain ⟨keyword, p₁, hkeyword, name, p₂, hname, f, _, hf, rfl, rfl⟩ := hrun
    exact .function (expect_of_seen hnext hk hkeyword) hname hf
  case h_22 => exact (throw_ok_iff.mp hrun).elim

/-! ## Suffixes -/

theorem eq_ident_of_bareName? {e : Expr} {name : Token} (h : e.bareName? = some name) :
    e = .head (.ident name) := by
  unfold Expr.bareName? at h
  split at h
  · cases h
    rfl
  · cases h

/-- How a suffix was read. The operators are those of one strength. -/
inductive SuffixRule (inner : Inner) (colon : Colon) (p : Place) : Suffix → Place → Prop where
  | binary {operator : Token} {right : Expr} {s : Precedence} {p₁ q : Place} :
      next p = .ok (operator, p₁) → Precedence.ofKind? operator.kind = some s →
      operator.kind ≠ .punct .question → inner.expression colon s p₁ = .ok (right, q) →
      SuffixRule inner colon p (.binary operator right) q
  | ternary {question colonToken : Token} {consequent alternate : Expr} {s : Precedence}
      {p₁ p₂ p₃ q : Place} :
      expect (.punct .question) p = .ok (question, p₁) →
      Precedence.ofKind? question.kind = some s →
      inner.expression .awaited .lowest p₁ = .ok (consequent, p₂) →
      expect (.punct .colon) p₂ = .ok (colonToken, p₃) →
      inner.expression colon s p₃ = .ok (alternate, q) →
      SuffixRule inner colon p (.ternary question consequent colonToken alternate) q
  | call {arguments : Enclosed} {q : Place} :
      enclosed inner colon .openParen .closeParen p = .ok (arguments, q) →
      SuffixRule inner colon p (.call arguments) q
  | invoke {dot name : Token} {arguments : Enclosed} {p₁ p₂ q : Place} :
      expect (.punct .dot) p = .ok (dot, p₁) → next p₁ = .ok (name, p₂) →
      (name.kind = .identifier ∨ name.kind.isWord = true) →
      enclosed inner colon .openParen .closeParen p₂ = .ok (arguments, q) →
      SuffixRule inner colon p (.invoke ⟨dot, name⟩ arguments) q
  | property {dot name after : Token} {p₁ q r : Place} :
      expect (.punct .dot) p = .ok (dot, p₁) → next p₁ = .ok (name, q) →
      (name.kind = .identifier ∨ name.kind.isWord = true) →
      next q = .ok (after, r) → after.kind ≠ .punct .openParen →
      SuffixRule inner colon p (.property ⟨dot, name⟩) q
  | index {opening closing : Token} {position : Expr} {p₁ p₂ q : Place} :
      expect (.punct .openBracket) p = .ok (opening, p₁) →
      inner.expression colon .lowest p₁ = .ok (position, p₂) →
      expect (.punct .closeBracket) p₂ = .ok (closing, q) →
      SuffixRule inner colon p (.index opening position closing) q
  | prototype {colons : Token} {name : Option Token} {p₁ q : Place} :
      expect (.punct .doubleColon) p = .ok (colons, p₁) →
      optional .identifier p₁ = .ok (name, q) →
      SuffixRule inner colon p (.prototype colons name) q

theorem operation_ok {t : Token} {s : Precedence} {x : Suffix} (hnext : next p = .ok (t, r))
    (hs : Precedence.ofKind? t.kind = some s) (hrun : operation inner colon s p = .ok (x, q)) :
    SuffixRule inner colon p x q := by
  rw [operation, bind_ok_iff] at hrun
  obtain ⟨operator, p₁, hoperator, hrun⟩ := hrun
  obtain ⟨rfl, rfl⟩ : operator = t ∧ p₁ = r := by
    rw [hnext] at hoperator
    cases hoperator
    exact ⟨rfl, rfl⟩
  split at hrun
  · next hquestion =>
      simp only [bind_ok_iff, pure_ok_iff] at hrun
      obtain ⟨consequent, p₂, hconsequent, c, p₃, hc, alternate, _, halternate, rfl, rfl⟩ := hrun
      exact .ternary (expect_ok_iff.mpr ⟨hnext, hquestion⟩) hs hconsequent hc halternate
  · next hquestion =>
      simp only [bind_ok_iff, pure_ok_iff] at hrun
      obtain ⟨right, _, hright, rfl, rfl⟩ := hrun
      exact .binary hnext hs hquestion hright

theorem access_ok {t : Token} {x : Suffix} (hnext : next p = .ok (t, r))
    (hk : t.kind = .punct .dot) (hrun : access inner colon p = .ok (x, q)) :
    SuffixRule inner colon p x q := by
  rw [access] at hrun
  simp only [bind_ok_iff] at hrun
  obtain ⟨dot, p₁, hdot, name, p₂, hname, hrun⟩ := hrun
  have hdot' : expect (.punct .dot) p = .ok (dot, p₁) := expect_of_seen hnext hk hdot
  split at hrun
  · next hkind =>
      have hkind' : name.kind = .identifier ∨ name.kind.isWord = true := by simpa using hkind
      obtain ⟨k, p₃, hpeek, hrun⟩ := bind_ok_iff.mp hrun
      obtain ⟨rfl, after, _, hafter, rfl⟩ := peekKind_ok hpeek
      split at hrun
      · simp only [bind_ok_iff, pure_ok_iff] at hrun
        obtain ⟨arguments, _, harguments, rfl, rfl⟩ := hrun
        exact .invoke hdot' hname hkind' harguments
      · next hparen =>
          obtain ⟨rfl, rfl⟩ := pure_ok_iff.mp hrun
          exact .property hdot' hname hkind' hafter hparen
  · exact (throw_ok_iff.mp hrun).elim

/-- The kinds that begin a suffix which is no operator, or make a name a rest parameter. -/
def isTight : Kind → Bool
  | .punct .dot | .punct .openParen | .punct .openBracket | .punct .doubleColon
  | .punct .ellipsis => true
  | _ => false

/-- One round of reading suffixes: the expression grew by a suffix or became a rest parameter, or
    nothing here extends it. -/
inductive RoundRule (inner : Inner) (colon : Colon) (threshold : Precedence) (e : Expr) (p : Place) :
    Option Expr → Place → Prop where
  | operator {t : Token} {s : Precedence} {x : Suffix} {q r : Place} :
      next p = .ok (t, r) → Precedence.ofKind? t.kind = some s → s.binds threshold = true →
      SuffixRule inner colon p x q → RoundRule inner colon threshold e p (some (.suffix e x)) q
  | tight {t : Token} {x : Suffix} {q r : Place} :
      next p = .ok (t, r) → Precedence.ofKind? t.kind = none →
      SuffixRule inner colon p x q → RoundRule inner colon threshold e p (some (.suffix e x)) q
  | rest {name dots : Token} {q : Place} :
      e = .head (.ident name) → expect (.punct .ellipsis) p = .ok (dots, q) →
      RoundRule inner colon threshold e p (some (.head (.rest name dots))) q
  | weak {t : Token} {s : Precedence} {r : Place} :
      next p = .ok (t, r) → Precedence.ofKind? t.kind = some s → s.binds threshold = false →
      RoundRule inner colon threshold e p none p
  | stop {t : Token} {r : Place} :
      next p = .ok (t, r) → Precedence.ofKind? t.kind = none → isTight t.kind = false →
      RoundRule inner colon threshold e p none p

theorem suffix?_ok {threshold : Precedence} {e : Expr} {o : Option Expr}
    (hrun : suffix? inner colon threshold e p = .ok (o, q)) :
    RoundRule inner colon threshold e p o q := by
  rw [suffix?, bind_ok_iff] at hrun
  obtain ⟨t, p', hpeek, hrun⟩ := hrun
  obtain ⟨rfl, r, hnext⟩ := peek_ok hpeek
  cases hprec : Precedence.ofKind? t.kind with
  | some s =>
      simp only [hprec] at hrun
      split at hrun
      · next hbinds =>
          simp only [bind_ok_iff, pure_ok_iff] at hrun
          obtain ⟨x, _, hx, rfl, rfl⟩ := hrun
          exact .operator hnext hprec hbinds (operation_ok hnext hprec hx)
      · next hbinds =>
          obtain ⟨rfl, rfl⟩ := pure_ok_iff.mp hrun
          exact .weak hnext hprec (by simpa using hbinds)
  | none =>
      simp only [hprec] at hrun
      generalize hk : t.kind = k at hrun
      split at hrun
      case h_1 =>
        simp only [bind_ok_iff, pure_ok_iff] at hrun
        obtain ⟨x, _, hx, rfl, rfl⟩ := hrun
        exact .tight hnext hprec (access_ok hnext hk hx)
      case h_2 =>
        simp only [bind_ok_iff, pure_ok_iff] at hrun
        obtain ⟨arguments, _, harguments, rfl, rfl⟩ := hrun
        exact .tight hnext hprec (.call harguments)
      case h_3 =>
        simp only [bind_ok_iff, pure_ok_iff] at hrun
        obtain ⟨opening, p₁, ho, position, p₂, hposition, closing, _, hc, rfl, rfl⟩ := hrun
        exact .tight hnext hprec (.index (expect_of_seen hnext hk ho) hposition hc)
      case h_4 =>
        simp only [bind_ok_iff, pure_ok_iff] at hrun
        obtain ⟨colons, p₁, hcolons, name, _, hname, rfl, rfl⟩ := hrun
        exact .tight hnext hprec (.prototype (expect_of_seen hnext hk hcolons) hname)
      -- Three dots are taken after a name only, and replace the expression instead of extending it.
      case h_5 =>
        obtain ⟨dots, p₁, hdots, hrun⟩ := bind_ok_iff.mp hrun
        cases hname : e.bareName? with
        | none =>
            simp only [hname] at hrun
            exact (throw_ok_iff.mp hrun).elim
        | some name =>
            simp only [hname] at hrun
            obtain ⟨rfl, rfl⟩ := pure_ok_iff.mp hrun
            exact .rest (eq_ident_of_bareName? hname) (expect_of_seen hnext hk hdots)
      case h_6 =>
        obtain ⟨rfl, rfl⟩ := pure_ok_iff.mp hrun
        refine .stop hnext hprec ?_
        rw [hk]
        unfold isTight
        split <;> simp_all

theorem expression_ok {threshold : Precedence} {e : Expr}
    (h : expression inner colon threshold p = .ok (e, q)) :
    ∃ first p₁, HeadRule inner colon p first p₁ ∧
      Growth (suffix? inner colon threshold) (.head first) p₁ e q := by
  rw [expression, bind_ok_iff] at h
  obtain ⟨first, p₁, hfirst, h⟩ := h
  exact ⟨first, p₁, head_ok hfirst, growth_of_extend h⟩

end Respell.Parser
