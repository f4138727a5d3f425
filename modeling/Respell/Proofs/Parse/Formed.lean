import Respell.Proofs.Parse.Lossless

/-!
# Every token is of the kind its place asks for

The fields of a tree are tokens of any kind as far as types go. In a tree that was parsed, each of
them is what its name says, as the scanner gave it: a comma is a comma, a closing brace a closing brace,
a declared name an identifier. `Formed` says so for every kind of tree, and for parsed trees it is
proved from the rules of the productions, level by level.
-/

namespace Respell

open Text Respell.Parser

/-! ## Formed trees -/

/-- The token is what the scanner gives somewhere for a token of the kind. -/
def Token.Scanned (t : Token) (k : Kind) : Prop := ∃ p q : Place, expect k p = .ok (t, q)

/-- The token is a literal that was read from its opening mark on. -/
def Token.Quoted (t : Token) : Prop :=
  ∃ (p q : Place) (mark : Token) (r : Place), next p = .ok (mark, r) ∧ mark.kind.isQuote = true ∧ quoted p = .ok (t, q)

/-- The token is a name or a string, as the key of an object is. -/
def Token.IsKey (t : Token) : Prop := t.Scanned .identifier ∨ (t.Quoted ∧ t.kind = .string)

/-- The items are formed, and what separates them are commas. -/
def Separated.Formed {α : Type} (f : α → Prop) : Separated α → Prop
  | .nil => True
  | .one a => f a
  | .more a comma rest => f a ∧ comma.Scanned (.punct .comma) ∧ rest.Formed f

/-- A dot with a name after it. -/
def Member.Formed (m : Member) : Prop := m.dot.Scanned (.punct .dot) ∧ m.name.Scanned .identifier

/-- A dot with a name or a reserved word after it. -/
def Member.FormedWord (m : Member) : Prop :=
  m.dot.Scanned (.punct .dot) ∧ m.name.Scanned m.name.kind ∧
    (m.name.kind = .identifier ∨ m.name.kind.isWord = true)

/-- A name, and members that are names. -/
def DottedName.Formed (d : DottedName) : Prop :=
  d.first.Scanned .identifier ∧ ∀ m ∈ d.members, m.Formed

/-- The parts of a formal parameter. -/
def Param.Formed : Param → Prop
  | .plain name => name.Scanned .identifier
  | .pass mark handler => mark.Scanned (.punct .atSign) ∧ ∀ h ∈ handler, h.Scanned .identifier
  | .rest name dots => name.Scanned .identifier ∧ dots.Scanned (.punct .ellipsis)

/-- Parameters between parentheses. -/
def Params.Formed (x : Params) : Prop :=
  x.opening.Scanned (.punct .openParen) ∧ x.items.Formed Param.Formed ∧
    x.closing.Scanned (.punct .closeParen)

/-- A colon with a name after it. -/
def Receiver.Formed (x : Receiver) : Prop :=
  x.colon.Scanned (.punct .colon) ∧ x.name.Scanned .identifier

/-- A name, or a colon with a name after it. -/
def PragmaItem.Formed : PragmaItem → Prop
  | .single name => name.Scanned .identifier
  | .group colon name => colon.Scanned (.punct .colon) ∧ name.Scanned .identifier

/-- A word of the given kind, the items, and a semicolon. -/
def Pragma.Formed (x : Pragma) (k : Kind) : Prop :=
  x.keyword.Scanned k ∧ x.items.Formed PragmaItem.Formed ∧ x.semicolon.Scanned (.punct .semicolon)

mutual

/-- The parts of an expression. -/
def Expr.Formed : Expr → Prop
  | .head h => h.Formed
  | .suffix leading s => leading.Formed ∧ s.Formed

/-- The parts of a head. -/
def Head.Formed : Head → Prop
  | .literal t => (isConstant t.kind = true ∧ t.Scanned t.kind) ∨ t.Quoted
  | .ident t => t.Scanned .identifier
  | .pass mark handler => mark.Scanned (.punct .atSign) ∧ ∀ h ∈ handler, h.Scanned .identifier
  | .rest name dots => name.Scanned .identifier ∧ dots.Scanned (.punct .ellipsis)
  | .unary operator operand =>
    (isPrefixOperator operator.kind = true ∧ operator.Scanned operator.kind) ∧ operand.Formed
  | .construct keyword callee arguments =>
    keyword.Scanned (.word .new) ∧ callee.Formed ∧ arguments.Formed .openParen .closeParen
  | .array elements => elements.Formed .openBracket .closeBracket
  | .object opening entries closing =>
    opening.Scanned (.punct .openBrace) ∧ entriesFormed entries ∧
      closing.Scanned (.punct .closeBrace)
  | .group opening inner closing =>
    opening.Scanned (.punct .openParen) ∧ inner.Formed ∧ closing.Scanned (.punct .closeParen)
  | .function f => f.Formed
  | .arrow params sign body => params.Formed ∧ sign.Scanned (.punct .arrow) ∧ body.Formed
  | .simpleArrow sign body => sign.Scanned (.punct .arrow) ∧ body.Formed

/-- The parts of a suffix. -/
def Suffix.Formed : Suffix → Prop
  | .binary operator right =>
    ((∃ s, Precedence.ofKind? operator.kind = some s) ∧ operator.kind ≠ .punct .question ∧
      operator.Scanned operator.kind) ∧ right.Formed
  | .ternary question consequent colon alternate =>
    question.Scanned (.punct .question) ∧ consequent.Formed ∧ colon.Scanned (.punct .colon) ∧
      alternate.Formed
  | .call arguments => arguments.Formed .openParen .closeParen
  | .invoke member arguments => member.FormedWord ∧ arguments.Formed .openParen .closeParen
  | .index opening inner closing =>
    opening.Scanned (.punct .openBracket) ∧ inner.Formed ∧ closing.Scanned (.punct .closeBracket)
  | .property member => member.FormedWord
  | .prototype colons name =>
    colons.Scanned (.punct .doubleColon) ∧ ∀ n ∈ name, n.Scanned .identifier

/-- Expressions between two delimiters. -/
def Enclosed.Formed : Enclosed → Punct → Punct → Prop
  | ⟨opening, items, closing⟩, o, c =>
    opening.Scanned (.punct o) ∧ exprsFormed items ∧ closing.Scanned (.punct c)

/-- A comma list of expressions. -/
def exprsFormed : Separated Expr → Prop
  | .nil => True
  | .one e => e.Formed
  | .more e comma es => e.Formed ∧ comma.Scanned (.punct .comma) ∧ exprsFormed es

/-- The entries of an object: each key is a name or a string. -/
def entriesFormed : Separated Entry → Prop
  | .nil => True
  | .one ⟨key, colon, value⟩ =>
    key.IsKey ∧ colon.Scanned (.punct .colon) ∧ value.Formed
  | .more ⟨key, colon, value⟩ comma es =>
    (key.IsKey ∧ colon.Scanned (.punct .colon) ∧ value.Formed) ∧
      comma.Scanned (.punct .comma) ∧ entriesFormed es

/-- The parts of a function. -/
def Func.Formed : Func → Prop
  | ⟨keyword, name, params, receiver, body⟩ =>
    (∀ k ∈ keyword, k.Scanned (.word .function)) ∧ (∀ n ∈ name, n.Scanned .identifier) ∧
      params.Formed ∧ (∀ r ∈ receiver, r.Formed) ∧ body.Formed

/-- Statements between braces. -/
def Block.Formed : Block → Prop
  | ⟨opening, body, closing⟩ =>
    opening.Scanned (.punct .openBrace) ∧ stmtsFormed body ∧ closing.Scanned (.punct .closeBrace)

/-- The statements of a list. -/
def stmtsFormed : List Stmt → Prop
  | [] => True
  | s :: ss => s.Formed ∧ stmtsFormed ss

/-- The parts of a statement. -/
def Stmt.Formed : Stmt → Prop
  | .expr value semicolon => value.Formed ∧ semicolon.Scanned (.punct .semicolon)
  | .empty semicolon => semicolon.Scanned (.punct .semicolon)
  | .conditional first others => first.Formed .if ∧ others.Formed
  | .while loop => loop.Formed .while
  | .for keyword opening init first test second update closing body =>
    keyword.Scanned (.word .for) ∧ opening.Scanned (.punct .openParen) ∧ init.Formed ∧
      first.Scanned (.punct .semicolon) ∧ exprsFormed test ∧ second.Scanned (.punct .semicolon) ∧
      exprsFormed update ∧ closing.Scanned (.punct .closeParen) ∧ body.Formed
  | .forIn keyword opening var name inWord object closing body =>
    keyword.Scanned (.word .for) ∧ opening.Scanned (.punct .openParen) ∧
      (∀ v ∈ var, v.Scanned (.word .var)) ∧
      name.Scanned .identifier ∧ inWord.Scanned (.word .in) ∧ object.Formed ∧
      closing.Scanned (.punct .closeParen) ∧ body.Formed
  | .jump keyword label semicolon =>
    (keyword.Scanned (.word .break) ∨ keyword.Scanned (.word .continue)) ∧
      (∀ l ∈ label, l.Scanned .identifier) ∧ semicolon.Scanned (.punct .semicolon)
  | .return keyword none semicolon =>
    keyword.Scanned (.word .return) ∧ semicolon.Scanned (.punct .semicolon)
  | .return keyword (some value) semicolon =>
    keyword.Scanned (.word .return) ∧ value.Formed ∧ semicolon.Scanned (.punct .semicolon)
  | .throw keyword value semicolon =>
    keyword.Scanned (.word .throw) ∧ value.Formed ∧ semicolon.Scanned (.punct .semicolon)
  | .vars list semicolon => list.Formed ∧ semicolon.Scanned (.punct .semicolon)
  | .function f => f.keyword.isSome = true ∧ f.name.isSome = true ∧ f.Formed
  | .labeled label colon body =>
    label.Scanned .identifier ∧ colon.Scanned (.punct .colon) ∧ body.Formed
  | .switch keyword opening subject closing openBrace clauses closeBrace =>
    keyword.Scanned (.word .switch) ∧ opening.Scanned (.punct .openParen) ∧ subject.Formed ∧
      closing.Scanned (.punct .closeParen) ∧ openBrace.Scanned (.punct .openBrace) ∧
      clausesFormed clauses ∧ closeBrace.Scanned (.punct .closeBrace)
  | .block b => b.Formed
  | .include p => p.Formed .includePragma
  | .declare p => p.Formed .declarePragma

/-- A word, a test in parentheses, and a block. -/
def Guarded.Formed : Guarded → Word → Prop
  | ⟨keyword, opening, test, closing, body⟩, w =>
    keyword.Scanned (.word w) ∧ opening.Scanned (.punct .openParen) ∧ test.Formed ∧
      closing.Scanned (.punct .closeParen) ∧ body.Formed

/-- The branches after the first one. -/
def Ladder.Formed : Ladder → Prop
  | .done => True
  | .otherwise keyword body => keyword.Scanned (.word .else) ∧ body.Formed
  | .branch keyword next others => keyword.Scanned (.word .else) ∧ next.Formed .if ∧ others.Formed

/-- The first part of a `for` head. -/
def ForInit.Formed : ForInit → Prop
  | .exprs items => exprsFormed items
  | .vars list => list.Formed

/-- The word `var`, and the names it declares. -/
def VarList.Formed : VarList → Prop
  | ⟨keyword, items⟩ => keyword.Scanned (.word .var) ∧ declsFormed items

/-- A comma list of declared names. -/
def declsFormed : Separated Decl → Prop
  | .nil => True
  | .one d => d.Formed
  | .more d comma ds => d.Formed ∧ comma.Scanned (.punct .comma) ∧ declsFormed ds

/-- A declared name, with its initial value after `=`. -/
def Decl.Formed : Decl → Prop
  | ⟨name, none⟩ => name.Scanned .identifier
  | ⟨name, some (equals, value)⟩ =>
    name.Scanned .identifier ∧ equals.Scanned (.punct .assign) ∧ value.Formed

/-- The clauses of a switch. -/
def clausesFormed : List Clause → Prop
  | [] => True
  | ⟨keyword, none, colon, body⟩ :: cs =>
    (keyword.Scanned (.word .default) ∧ colon.Scanned (.punct .colon) ∧ stmtsFormed body) ∧
      clausesFormed cs
  | ⟨keyword, some test, colon, body⟩ :: cs =>
    (keyword.Scanned (.word .case) ∧ test.Formed ∧ colon.Scanned (.punct .colon) ∧
      stmtsFormed body) ∧ clausesFormed cs

end

/-- The statements of a program, and the token at its end. -/
def Program.Formed (x : Program) : Prop := stmtsFormed x.body ∧ x.endOfFile.Scanned .endOfFile

/-! ## Lists of formed trees -/

theorem stmtsFormed_iff (ss : List Stmt) : stmtsFormed ss ↔ ∀ s ∈ ss, s.Formed := by
  induction ss with
  | nil => simp [stmtsFormed]
  | cons s ss ih => rw [stmtsFormed, ih, List.forall_mem_cons]

theorem exprsFormed_iff (es : Separated Expr) : exprsFormed es ↔ es.Formed Expr.Formed := by
  induction es with
  | nil => rfl
  | one e => rfl
  | more e comma es ih => rw [exprsFormed, ih, Separated.Formed]

/-- A key that is a name or a string, a colon, and a value. -/
def Entry.Formed (e : Entry) : Prop :=
  e.key.IsKey ∧ e.colon.Scanned (.punct .colon) ∧ e.value.Formed

theorem entriesFormed_iff (es : Separated Entry) : entriesFormed es ↔ es.Formed Entry.Formed := by
  induction es with
  | nil => rfl
  | one e =>
      obtain ⟨key, colon, value⟩ := e
      rfl
  | more e comma es ih =>
      obtain ⟨key, colon, value⟩ := e
      rw [entriesFormed, ih]
      rfl

theorem declsFormed_iff (ds : Separated Decl) : declsFormed ds ↔ ds.Formed Decl.Formed := by
  induction ds with
  | nil => rfl
  | one d => rfl
  | more d comma ds ih => rw [declsFormed, ih, Separated.Formed]

/-- The clauses of a switch are formed one by one. -/
theorem clausesFormed_iff (cs : List Clause) : clausesFormed cs ↔ ∀ c ∈ cs, clausesFormed [c] := by
  induction cs with
  | nil => simp [clausesFormed]
  | cons c cs ih =>
      obtain ⟨keyword, test, colon, body⟩ := c
      rw [List.forall_mem_cons, ← ih]
      cases test <;> simp [clausesFormed]

/-! ## Expressions as parameters -/

theorem formed_of_toParam? {e : Expr} {x : Param} (h : e.toParam? = some x) (he : e.Formed) :
    x.Formed := by
  unfold Expr.toParam? at h
  split at h <;> cases h <;> exact he

theorem formed_of_map? {items : Separated Expr} {params : Separated Param}
    (h : items.map? Expr.toParam? = some params) (hitems : items.Formed Expr.Formed) :
    params.Formed Param.Formed := by
  induction items generalizing params with
  | nil => cases h; trivial
  | one e =>
      obtain ⟨x, hx, rfl⟩ := Option.map_eq_some_iff.mp h
      exact formed_of_toParam? hx hitems
  | more e comma items ih =>
      rw [Separated.map?] at h
      split at h
      · next x xs hx hxs =>
          cases h
          exact ⟨formed_of_toParam? hx hitems.1, hitems.2.1, ih hxs hitems.2.2⟩
      · cases h

namespace Parser

/-! ## Single tokens and loops -/

variable {α : Type} {inner : Inner} {colon : Colon} {p q r : Place}

theorem scanned_of_expect {k : Kind} {t : Token} (h : expect k p = .ok (t, q)) : t.Scanned k :=
  ⟨p, q, h⟩

theorem scanned_of_next {t : Token} (h : next p = .ok (t, q)) : t.Scanned t.kind :=
  ⟨p, q, expect_ok_iff.mpr ⟨h, rfl⟩⟩

theorem scanned_of_optional {k : Kind} {o : Option Token} (h : optional k p = .ok (o, q)) :
    ∀ t ∈ o, t.Scanned k := by
  rcases optional_ok h with ⟨t, rfl, ht⟩ | ⟨rfl, _, _⟩
  · rintro _ ⟨⟩
    exact scanned_of_expect ht
  · rintro _ ⟨⟩

theorem Rounds.forall_mem {item : Parser α} {f : α → Prop} {as : List α}
    (hitem : ∀ {p a q}, item p = .ok (a, q) → f a) (h : Rounds item p as q) : ∀ a ∈ as, f a := by
  induction h with
  | nil => simp
  | cons ha _ ih => exact List.forall_mem_cons.mpr ⟨hitem ha, ih⟩

theorem CommaRounds.formed {item : Parser α} {f : α → Prop} {items : Separated α}
    (hitem : ∀ {p a q}, item p = .ok (a, q) → f a) (h : CommaRounds item p items q) :
    items.Formed f := by
  induction h with
  | nil => trivial
  | one ha => exact hitem ha
  | more ha hc _ ih => exact ⟨hitem ha, scanned_of_expect hc, ih⟩

/-- A literal that a quotation mark begins is a string. -/
theorem kind_of_quoted {mark t : Token} (hmark : next p = .ok (mark, r))
    (hk : mark.kind = .punct .doubleQuote ∨ mark.kind = .punct .singleQuote)
    (h : quoted p = .ok (t, q)) : t.kind = .string := by
  obtain ⟨k, n, hlex, htake, _⟩ := next_ok hmark
  obtain ⟨m, _, hquoted⟩ := quoted_ok h
  rw [kind_of_takeToken htake] at hk
  rw [kind_of_takeToken hquoted]
  -- The kind of a literal depends on the character it begins with, which is the one of the mark.
  rcases hk with rfl | rfl
  · obtain ⟨rest, hrest⟩ := (lexemeAt_of_next? hlex).mark_chars
    rw [← hrest]
    rfl
  · obtain ⟨rest, hrest⟩ := (lexemeAt_of_next? hlex).mark_chars
    rw [← hrest]
    rfl

/-! ## One nesting level -/

/-- The parsers of a nesting level give formed trees. -/
abbrev InnerForms (inner : Inner) : Prop :=
  Keeps inner (fun _ s _ => s.Formed) (fun _ _ _ e _ => e.Formed)

variable (hinner : InnerForms inner)
include hinner

theorem formed_of_commaRounds {items : Separated Expr}
    (h : CommaRounds (inner.expression colon .lowest) p items q) : exprsFormed items :=
  (exprsFormed_iff items).mpr (h.formed hinner.expression)

theorem formed_of_rounds {ss : List Stmt} (h : Rounds inner.statement p ss q) : stmtsFormed ss :=
  (stmtsFormed_iff ss).mpr (h.forall_mem hinner.statement)

theorem enclosed_formed {o c : Punct} {e : Enclosed} (h : enclosed inner colon o c p = .ok (e, q)) :
    e.Formed o c := by
  obtain ⟨p₁, p₂, ho, hitems, hc⟩ := enclosed_ok h
  obtain ⟨opening, items, closing⟩ := e
  exact ⟨scanned_of_expect ho, formed_of_commaRounds hinner hitems, scanned_of_expect hc⟩

theorem block_formed {b : Block} (h : block inner p = .ok (b, q)) : b.Formed := by
  obtain ⟨p₁, p₂, ho, hbody, hc⟩ := block_ok h
  obtain ⟨opening, body, closing⟩ := b
  exact ⟨scanned_of_expect ho, formed_of_rounds hinner hbody, scanned_of_expect hc⟩

omit hinner in
theorem receiver_formed {named : Option Receiver} (h : receiver p = .ok (named, q)) :
    ∀ x ∈ named, x.Formed := by
  rcases receiver_ok h with ⟨x, p₁, rfl, hcolon, hname⟩ | ⟨rfl, _⟩
  · rintro _ ⟨⟩
    exact ⟨scanned_of_expect hcolon, scanned_of_expect hname⟩
  · rintro _ ⟨⟩

/-- A parenthesised list is formed as a list of parameters too. -/
theorem params_formed {list : Enclosed} {items : Separated Param}
    (hlist : enclosed inner colon .openParen .closeParen p = .ok (list, q))
    (hitems : list.items.map? Expr.toParam? = some items) :
    Params.Formed ⟨list.opening, items, list.closing⟩ := by
  obtain ⟨p₁, p₂, ho, hexprs, hc⟩ := enclosed_ok hlist
  exact ⟨scanned_of_expect ho, formed_of_map? hitems (hexprs.formed hinner.expression),
    scanned_of_expect hc⟩

theorem finishFunction_formed {keyword name : Option Token} {list : Enclosed}
    {named : Option Receiver} {f : Func}
    (hkeyword : ∀ k ∈ keyword, k.Scanned (.word .function))
    (hname : ∀ n ∈ name, n.Scanned .identifier)
    (hlist : enclosed inner colon .openParen .closeParen p = .ok (list, q))
    (hnamed : ∀ x ∈ named, x.Formed) {p' q' : Place}
    (h : finishFunction inner keyword name list named p' = .ok (f, q')) : f.Formed := by
  obtain ⟨items, body, hitems, hbody, rfl⟩ := finishFunction_ok h
  exact ⟨hkeyword, hname, params_formed hinner hlist hitems, hnamed, block_formed hinner hbody⟩

theorem functionRest_formed {keyword name : Option Token} {f : Func}
    (hkeyword : ∀ k ∈ keyword, k.Scanned (.word .function))
    (hname : ∀ n ∈ name, n.Scanned .identifier)
    (h : functionRest inner colon keyword name p = .ok (f, q)) : f.Formed := by
  obtain ⟨list, p₁, named, p₂, hlist, hnamed, h⟩ := functionRest_ok h
  exact finishFunction_formed hinner hkeyword hname hlist (receiver_formed hnamed) h

/-! ## Heads and suffixes -/

theorem ParenRule.formed {h : Head} (hrule : ParenRule inner colon p h q) : h.Formed := by
  cases hrule with
  | function hlist _ _ hf =>
      exact finishFunction_formed hinner (by simp) (by simp) hlist (by simp) hf
  | bound hlist _ _ _ _ hnamed hf =>
      exact finishFunction_formed hinner (by simp) (by simp) hlist (receiver_formed hnamed) hf
  | arrow hlist hitems hsign hbody =>
      exact ⟨params_formed hinner hlist hitems, scanned_of_expect hsign, hinner.expression hbody⟩
  | group hlist he _ _ _ _ _ =>
      obtain ⟨p₁, p₂, ho, hitems, hc⟩ := enclosed_ok hlist
      rw [he] at hitems
      cases hitems with
      | one he => exact ⟨scanned_of_expect ho, hinner.expression he, scanned_of_expect hc⟩

omit hinner in
theorem member_formed {m : Member} (h : member p = .ok (m, q)) : m.Formed := by
  obtain ⟨p₁, hdot, hname⟩ := member_ok h
  exact ⟨scanned_of_expect hdot, scanned_of_expect hname⟩

omit hinner in
theorem key_formed {t : Token} (h : key p = .ok (t, q)) : t.IsKey := by
  rcases key_ok h with hname | ⟨mark, r, hmark, hk, hquoted⟩
  · exact .inl (scanned_of_expect hname)
  · have hquote : mark.kind.isQuote = true := by
      rcases hk with hk | hk <;> rw [hk] <;> rfl
    exact .inr ⟨⟨p, q, mark, r, hmark, hquote, hquoted⟩, kind_of_quoted hmark hk hquoted⟩

theorem entry_formed {e : Entry} (h : entry inner colon p = .ok (e, q)) : e.Formed := by
  obtain ⟨p₁, p₂, hkey, hcolon, hvalue⟩ := entry_ok h
  exact ⟨key_formed hkey, scanned_of_expect hcolon, hinner.expression hvalue⟩

theorem HeadRule.formed {h : Head} (hrule : HeadRule inner colon p h q) : h.Formed := by
  cases hrule with
  | constant ht hk => exact .inl ⟨hk, scanned_of_next ht⟩
  | quoted hmark hk ht => exact .inr ⟨p, q, _, _, hmark, hk, ht⟩
  | ident ht => exact scanned_of_expect ht
  | pass hmark hhandler => exact ⟨scanned_of_expect hmark, scanned_of_optional hhandler⟩
  | array helements => exact enclosed_formed hinner helements
  | object ho hentries hc =>
      have hentries := (entriesFormed_iff _).mpr (hentries.formed (entry_formed hinner))
      exact ⟨scanned_of_expect ho, hentries, scanned_of_expect hc⟩
  | construct hk hfirst hmembers hargs =>
      exact ⟨scanned_of_expect hk, ⟨scanned_of_expect hfirst, hmembers.forall_mem member_formed⟩,
        enclosed_formed hinner hargs⟩
  | unary ht hk hoperand => exact ⟨⟨hk, scanned_of_next ht⟩, hinner.expression hoperand⟩
  | paren hrule => exact hrule.formed hinner
  | simpleArrow hsign hbody => exact ⟨scanned_of_expect hsign, hinner.expression hbody⟩
  | function hk hname hf =>
      have hkeyword := scanned_of_expect hk
      exact functionRest_formed hinner (by simpa using hkeyword) (scanned_of_optional hname) hf

theorem SuffixRule.formed {s : Suffix} (hrule : SuffixRule inner colon p s q) : s.Formed := by
  cases hrule with
  | binary ht hs hquestion hright =>
      exact ⟨⟨⟨_, hs⟩, hquestion, scanned_of_next ht⟩, hinner.expression hright⟩
  | ternary hquestion _ hconsequent hcolon halternate =>
      exact ⟨scanned_of_expect hquestion, hinner.expression hconsequent, scanned_of_expect hcolon,
        hinner.expression halternate⟩
  | call hargs => exact enclosed_formed hinner hargs
  | invoke hdot ht hname hargs =>
      exact ⟨⟨scanned_of_expect hdot, scanned_of_next ht, hname⟩, enclosed_formed hinner hargs⟩
  | property hdot ht hname _ _ => exact ⟨scanned_of_expect hdot, scanned_of_next ht, hname⟩
  | index ho hposition hc =>
      exact ⟨scanned_of_expect ho, hinner.expression hposition, scanned_of_expect hc⟩
  | prototype hcolons hname => exact ⟨scanned_of_expect hcolons, scanned_of_optional hname⟩

theorem RoundRule.formed {threshold : Precedence} {e e' : Expr} (he : e.Formed)
    (hrule : RoundRule inner colon threshold e p (some e') q) : e'.Formed := by
  cases hrule with
  | operator _ _ _ hsuffix => exact ⟨he, hsuffix.formed hinner⟩
  | tight _ _ hsuffix => exact ⟨he, hsuffix.formed hinner⟩
  | rest hname hdots =>
      subst hname
      exact ⟨he, scanned_of_expect hdots⟩

theorem Growth.formed {threshold : Precedence} {e e' : Expr} (he : e.Formed)
    (h : Growth (suffix? inner colon threshold) e p e' q) : e'.Formed := by
  induction h with
  | refl => exact he
  | stop _ => exact he
  | step hround _ ih => exact ih ((suffix?_ok hround).formed hinner he)

theorem expression_formed {threshold : Precedence} {e : Expr}
    (h : expression inner colon threshold p = .ok (e, q)) : e.Formed := by
  obtain ⟨first, p₁, hfirst, hgrowth⟩ := expression_ok h
  have hhead : (Expr.head first).Formed := hfirst.formed hinner
  exact Growth.formed hinner hhead hgrowth

/-! ## Statements -/

theorem guarded_formed {w : Word} {g : Guarded} (h : guarded inner w p = .ok (g, q)) :
    g.Formed w := by
  obtain ⟨p₁, p₂, p₃, p₄, hk, ho, htest, hc, hbody⟩ := guarded_ok h
  obtain ⟨keyword, opening, test, closing, body⟩ := g
  exact ⟨scanned_of_expect hk, scanned_of_expect ho, hinner.expression htest, scanned_of_expect hc,
    block_formed hinner hbody⟩

theorem LadderRule.formed {l : Ladder} (hrule : LadderRule inner p l q) : l.Formed := by
  induction hrule with
  | done => trivial
  | otherwise hk hbody => exact ⟨scanned_of_expect hk, block_formed hinner hbody⟩
  | branch hk hnext _ ih => exact ⟨scanned_of_expect hk, guarded_formed hinner hnext, ih⟩

theorem decl_formed {d : Decl} (h : decl inner p = .ok (d, q)) : d.Formed := by
  obtain ⟨p₁, hname, hinit⟩ := decl_ok h
  obtain ⟨name, init⟩ := d
  rcases hinit with ⟨equals, value, p₂, rfl, hequals, hvalue⟩ | ⟨rfl, rfl⟩
  · exact ⟨scanned_of_expect hname, scanned_of_expect hequals, hinner.expression hvalue⟩
  · exact scanned_of_expect hname

theorem varList_formed {l : VarList} (h : varList inner p = .ok (l, q)) : l.Formed := by
  obtain ⟨p₁, hk, hitems⟩ := varList_ok h
  obtain ⟨keyword, items⟩ := l
  exact ⟨scanned_of_expect hk, (declsFormed_iff items).mpr (hitems.formed (decl_formed hinner))⟩

theorem ForInitRule.formed {i : ForInit} (hrule : ForInitRule inner p i q) : i.Formed := by
  cases hrule with
  | vars hlist => exact varList_formed hinner hlist
  | exprs hitems => exact formed_of_commaRounds hinner hitems

theorem clause_formed {c : Clause} (h : clause inner p = .ok (c, q)) : clausesFormed [c] := by
  obtain ⟨p₁, p₂, hhead, hcolon, hbody⟩ := clause_ok h
  obtain ⟨keyword, test, colon, body⟩ := c
  have hbody := formed_of_rounds hinner hbody
  cases hhead with
  | case hk htest =>
      exact ⟨⟨scanned_of_expect hk, hinner.expression htest, scanned_of_expect hcolon, hbody⟩,
        trivial⟩
  | default hk => exact ⟨⟨scanned_of_expect hk, scanned_of_expect hcolon, hbody⟩, trivial⟩

omit hinner in
theorem pragmaItem_formed {groups : Bool} {i : PragmaItem} (h : pragmaItem groups p = .ok (i, q)) :
    i.Formed := by
  cases pragmaItem_ok h with
  | group _ hcolon hname => exact ⟨scanned_of_expect hcolon, scanned_of_expect hname⟩
  | single hname => exact scanned_of_expect hname

omit hinner in
theorem pragma_formed {groups : Bool} {x : Pragma} {k : Kind} (hk : x.keyword.kind = k)
    (h : pragma groups p = .ok (x, q)) : x.Formed k := by
  obtain ⟨p₁, p₂, hword, hitems, hs⟩ := pragma_ok h
  exact ⟨⟨p, p₁, expect_ok_iff.mpr ⟨hword, hk⟩⟩, hitems.formed pragmaItem_formed,
    scanned_of_expect hs⟩

theorem StmtRule.formed {s : Stmt} (hrule : StmtRule inner p s q) : s.Formed := by
  cases hrule with
  | expr _ _ hvalue hs => exact ⟨hinner.expression hvalue, scanned_of_expect hs⟩
  | labeled _ _ hlabel hcolon hbody =>
      -- What is formed is the expression that is a bare name, which says the same about the label.
      exact ⟨hinner.expression hlabel, scanned_of_expect hcolon, hinner.statement hbody⟩
  | empty hs => exact scanned_of_expect hs
  | conditional hfirst hothers => exact ⟨guarded_formed hinner hfirst, hothers.formed hinner⟩
  | «while» hloop => exact guarded_formed hinner hloop
  | «for» hk ho hinit hfirst htest hsecond hupdate hc hbody =>
      exact ⟨scanned_of_expect hk, scanned_of_expect ho, hinit.formed hinner,
        scanned_of_expect hfirst, formed_of_commaRounds hinner htest, scanned_of_expect hsecond,
        formed_of_commaRounds hinner hupdate, scanned_of_expect hc, block_formed hinner hbody⟩
  | forIn hk ho hvar hname hin hobject hc hbody =>
      exact ⟨scanned_of_expect hk, scanned_of_expect ho, scanned_of_optional hvar,
        scanned_of_expect hname, scanned_of_expect hin, hinner.expression hobject,
        scanned_of_expect hc, block_formed hinner hbody⟩
  | jump hw hk hlabel hs =>
      refine ⟨?_, scanned_of_optional hlabel, scanned_of_expect hs⟩
      rcases hw with rfl | rfl
      · exact .inl (scanned_of_expect hk)
      · exact .inr (scanned_of_expect hk)
  | returnNothing hk hs => exact ⟨scanned_of_expect hk, scanned_of_expect hs⟩
  | «return» hk hvalue hs =>
      exact ⟨scanned_of_expect hk, hinner.expression hvalue, scanned_of_expect hs⟩
  | throw hk hvalue hs =>
      exact ⟨scanned_of_expect hk, hinner.expression hvalue, scanned_of_expect hs⟩
  | vars hlist hs => exact ⟨varList_formed hinner hlist, scanned_of_expect hs⟩
  | function hk hname hf =>
      have hformed := functionRest_formed hinner (by simpa using scanned_of_expect hk)
        (by simpa using scanned_of_expect hname) hf
      -- The function has the keyword and the name that were handed to `functionRest`.
      obtain ⟨list, p₁, named, p₂, _, _, hfinish⟩ := functionRest_ok hf
      obtain ⟨items, body, _, _, rfl⟩ := finishFunction_ok hfinish
      exact ⟨rfl, rfl, hformed⟩
  | switch hk ho hsubject hc hob hclauses hcb =>
      have hclauses := (clausesFormed_iff _).mpr (hclauses.forall_mem (clause_formed hinner))
      exact ⟨scanned_of_expect hk, scanned_of_expect ho, hinner.expression hsubject,
        scanned_of_expect hc, scanned_of_expect hob, hclauses, scanned_of_expect hcb⟩
  | block hb => exact block_formed hinner hb
  | «include» hk hx => exact pragma_formed hk hx
  | declare hk hx => exact pragma_formed hk hx

omit hinner in
/-- On every level, the parsers give formed trees. -/
theorem level_forms (n : Nat) : InnerForms (level n) := by
  refine level_keeps ?_ ?_ n
  · intro n p s q hinner hrule
    exact hrule.formed hinner
  · intro n colon threshold p e q hinner h
    exact expression_formed hinner h

end Parser

/-- In a program that was parsed, every token is of the kind its place asks for. -/
theorem parseProgramWithin_formed {limit : Nat} {source : List Char} {x : Program}
    (h : parseProgramWithin limit source = .ok x) : x.Formed := by
  obtain ⟨q, hrun⟩ := program_of_parse h
  obtain ⟨p₁, _, hbody, hend⟩ := Parser.program_ok hrun
  exact ⟨Parser.formed_of_rounds (Parser.level_forms limit) hbody, Parser.scanned_of_expect hend⟩

end Respell
