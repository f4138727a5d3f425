import Respell.Proofs.Output.Separation
import Respell.Proofs.Parse.ReplayRules

/-!
# The tokens of a formed tree in a row

What the grammar says about tokens that follow each other. Each token of a tree is one that the scanner gives
or a literal, and none is the end of the file. A slash that divides stands before an operand, and no operand
begins with a star, so a slash never makes a comment with the token after it. No statement begins with `else`, and
every statement ends with a semicolon or a brace.
-/

namespace Respell

open Text

/-! ## Proper sequences -/

/-- The token is one that the scanner gives, but not the end of the file, or a literal. -/
def Token.Genuine (t : Token) : Prop := (∃ k, t.Scanned k ∧ k ≠ .endOfFile) ∨ t.Quoted

/-- Kinds of tokens that begin neither an operand nor a statement. -/
def innerKinds : List Kind := .word .else :: starKinds

/-- The first token may begin an operand or a statement. -/
def Begins (ts : List Token) : Prop := ∃ t us, ts = t :: us ∧ t.Genuine ∧ t.kind ∉ innerKinds

/-- The tokens are genuine, and what follows a slash begins as an operand does. -/
inductive Proper : List Token → Prop where
  | nil : Proper []
  | cons {t : Token} {ts : List Token} :
      t.Genuine → (t.kind = .punct .slash → Begins ts) → Proper ts → Proper (t :: ts)

/-- The kinds of tokens that may not stand before just anything. -/
def slashKinds : List Kind := [.punct .slash, .endOfFile]

theorem Begins.append {ts : List Token} (h : Begins ts) (us : List Token) : Begins (ts ++ us) := by
  obtain ⟨t, vs, rfl, ht, hk⟩ := h
  exact ⟨t, vs ++ us, rfl, ht, hk⟩

theorem Proper.append {ts us : List Token} (h : Proper ts) (h' : Proper us) : Proper (ts ++ us) := by
  induction h with
  | nil => exact h'
  | cons ht hslash _ ih => exact .cons ht (fun hk => (hslash hk).append us) ih

section Tokens

variable {t : Token} {k : Kind} {ts : List Token}

theorem Token.Scanned.cons_proper (h : t.Scanned k) (hk : slashKinds.contains k = false)
    (hts : Proper ts) : Proper (t :: ts) := by
  refine .cons (.inl ⟨k, h, ?_⟩) (fun hslash => ?_) hts
  · rintro rfl
    cases hk
  · rw [h.kind] at hslash
    rw [hslash] at hk
    cases hk

theorem Token.Scanned.proper (h : t.Scanned k) (hk : slashKinds.contains k = false) :
    Proper [t] := h.cons_proper hk .nil

theorem Token.Quoted.cons_proper (h : t.Quoted) (hts : Proper ts) : Proper (t :: ts) := by
  refine .cons (.inr h) (fun hslash => ?_) hts
  obtain ⟨c, _, _, _, hk⟩ := h.head
  rw [hk, Quoted.kind] at hslash
  split at hslash <;> cases hslash

theorem Token.IsKey.cons_proper (h : t.IsKey) (hts : Proper ts) : Proper (t :: ts) := by
  rcases h with hname | ⟨hstring, _⟩
  · exact hname.cons_proper rfl hts
  · exact hstring.cons_proper hts

theorem proper_option {o : Option Token} (h : ∀ t ∈ o, t.Scanned k)
    (hk : slashKinds.contains k = false) : Proper o.toList := by
  cases o with
  | none => exact .nil
  | some t => exact (h t rfl).proper hk

theorem Token.Scanned.begins (h : t.Scanned k) (hk : innerKinds.contains k = false) : Begins (t :: ts) := by
  have hnone : k ∉ innerKinds := by
    intro hmem
    rw [List.contains_iff_mem.mpr hmem] at hk
    cases hk
  refine ⟨t, ts, rfl, .inl ⟨k, h, ?_⟩, by rw [h.kind]; exact hnone⟩
  rintro rfl
  cases hk

theorem Token.Quoted.begins (h : t.Quoted) : Begins (t :: ts) := by
  refine ⟨t, ts, rfl, .inr h, ?_⟩
  obtain ⟨c, _, _, _, hk⟩ := h.head
  rw [hk, Quoted.kind]
  split <;> decide

theorem Begins.head_ne_star (h : Begins ts) :
    ∃ t us c cs, ts = t :: us ∧ t.text.toList = c :: cs ∧ c ≠ '*' := by
  obtain ⟨t, us, rfl, ht, hk⟩ := h
  rcases ht with ⟨k, hscanned, _⟩ | hquoted
  · have hstar : k ∉ starKinds := by
      intro hmem
      rw [hscanned.kind] at hk
      exact hk (List.mem_cons_of_mem _ hmem)
    obtain ⟨c, cs, htext, hc⟩ := hscanned.head_ne_star hstar
    exact ⟨t, us, c, cs, rfl, htext, hc⟩
  · obtain ⟨c, cs, htext, hc, _⟩ := hquoted.head
    refine ⟨t, us, c, cs, rfl, htext, ?_⟩
    rintro rfl
    exact absurd hc (by decide)

theorem Proper.genuine (h : Proper (t :: ts)) : t.Genuine := by
  cases h with
  | cons ht _ _ => exact ht

theorem Proper.forall_genuine (h : Proper ts) : ∀ t ∈ ts, t.Genuine := by
  induction h with
  | nil => exact List.forall_mem_nil _
  | cons ht _ _ ih => exact List.forall_mem_cons.mpr ⟨ht, ih⟩

theorem Proper.begins (h : Proper (t :: ts)) (hk : t.kind = .punct .slash) : Begins ts := by
  cases h with
  | cons _ hslash _ => exact hslash hk

theorem Proper.tail (h : Proper (t :: ts)) : Proper ts := by
  cases h with
  | cons _ _ hts => exact hts

end Tokens

/-! ## Parts without trees inside -/

/-- A class of kinds without some others. -/
theorem contains_eq_false {f : Kind → Bool} {k : Kind} {ks : List Kind} (hnone : ∀ k ∈ ks, f k = false)
    (hk : f k = true) : ks.contains k = false := by
  refine Bool.eq_false_iff.mpr (fun hmem => ?_)
  rw [hnone k (List.contains_iff_mem.mp hmem)] at hk
  cases hk

theorem Separated.proper {α : Type} {f : α → Prop} {tok : α → List Token}
    (hitem : ∀ a, f a → Proper (tok a)) (items : Separated α) (h : items.Formed f) :
    Proper (items.tokens tok) := by
  induction items with
  | nil => exact .nil
  | one a => exact hitem a h
  | more a comma items ih => exact (hitem a h.1).append (h.2.1.cons_proper rfl (ih h.2.2))

theorem Member.proper {m : Member} (h : m.Formed) : Proper m.tokens := h.1.cons_proper rfl (h.2.proper rfl)

theorem Member.properWord {m : Member} (h : m.FormedWord) : Proper m.tokens := by
  refine h.1.cons_proper rfl (h.2.1.proper ?_)
  rcases h.2.2 with hname | hword
  · rw [hname]
    rfl
  · exact contains_eq_false (by decide) hword

theorem DottedName.proper {d : DottedName} (h : d.Formed) : Proper d.tokens := by
  have hmembers {ms : List Member} (hms : ∀ m ∈ ms, m.Formed) : Proper (ms.flatMap Member.tokens) := by
    induction ms with
    | nil => exact .nil
    | cons m ms ih =>
        obtain ⟨hm, hms⟩ := List.forall_mem_cons.mp hms
        exact (Member.proper hm).append (ih hms)
  exact h.1.cons_proper rfl (hmembers h.2)

theorem Param.proper (x : Param) (h : x.Formed) : Proper x.tokens := by
  cases x with
  | plain name => exact Token.Scanned.proper h rfl
  | pass mark handler => exact h.1.cons_proper rfl (proper_option h.2 rfl)
  | rest name dots => exact h.1.cons_proper rfl (h.2.proper rfl)

theorem Params.proper {x : Params} (h : x.Formed) : Proper x.tokens :=
  h.1.cons_proper rfl ((Separated.proper Param.proper x.items h.2.1).append (h.2.2.proper rfl))

theorem PragmaItem.proper (x : PragmaItem) (h : x.Formed) : Proper x.tokens := by
  cases x with
  | single name => exact Token.Scanned.proper h rfl
  | group colon name => exact h.1.cons_proper rfl (h.2.proper rfl)

theorem Pragma.proper {x : Pragma} {k : Kind} (h : x.Formed k)
    (hk : slashKinds.contains k = false) : Proper x.tokens :=
  h.1.cons_proper hk ((Separated.proper PragmaItem.proper x.items h.2.1).append (h.2.2.proper rfl))

theorem operator_proper {operator : Token} {ts : List Token} {s : Precedence}
    (hprec : Precedence.ofKind? operator.kind = some s) (h : operator.Scanned operator.kind)
    (hbegins : Begins ts) (hts : Proper ts) : Proper (operator :: ts) := by
  refine .cons (.inl ⟨_, h, ?_⟩) (fun _ => hbegins) hts
  intro hk
  rw [hk] at hprec
  cases hprec

/-! ## How expressions begin -/

theorem Enclosed.begins {e : Enclosed} {o c : Punct} (he : e.Formed o c)
    (ho : innerKinds.contains (.punct o) = false) : Begins e.tokens := by
  obtain ⟨opening, items, closing⟩ := e
  exact he.1.begins ho

theorem Func.begins {f : Func} (hf : f.Formed) : Begins f.tokens := by
  obtain ⟨keyword, name, params, receiver, body⟩ := f
  cases keyword with
  | some keyword => exact (hf.1 keyword rfl).begins rfl
  | none =>
      cases name with
      | some name => exact (hf.2.1 name rfl).begins rfl
      | none => exact hf.2.2.1.1.begins rfl

theorem Head.begins {x : Head} (hx : x.Formed) : Begins x.tokens := by
  cases x with
  | literal t =>
      rcases hx with ⟨hconstant, ht⟩ | hquoted
      · exact ht.begins (contains_eq_false (by decide) hconstant)
      · exact hquoted.begins
  | ident t => exact Token.Scanned.begins hx rfl
  | pass mark handler => exact hx.1.begins rfl
  | rest name dots => exact hx.1.begins rfl
  | unary operator operand => exact hx.1.2.begins (contains_eq_false (by decide) hx.1.1)
  | construct keyword callee arguments => exact hx.1.begins rfl
  | array elements => exact Enclosed.begins hx rfl
  | object opening entries closing => exact hx.1.begins rfl
  | group opening inner closing => exact hx.1.begins rfl
  | function f => exact Func.begins hx
  | arrow params sign body => exact hx.1.1.begins rfl
  | simpleArrow sign body => exact hx.1.begins rfl

theorem Expr.begins : ∀ (e : Expr), e.Formed → Begins e.tokens
  | .head _, he => Head.begins he
  | .suffix leading s, he => (Expr.begins leading he.1).append s.tokens

/-! ## Trees -/

mutual

theorem Expr.proper : ∀ e : Expr, e.Formed → Proper e.tokens
  | .head h, hf => Head.proper h hf
  | .suffix leading s, hf => (Expr.proper leading hf.1).append (Suffix.proper s hf.2)

theorem Head.proper : ∀ h : Head, h.Formed → Proper h.tokens
  | .literal t, hf => by
    rcases hf with ⟨hconstant, ht⟩ | hquoted
    · exact ht.proper (contains_eq_false (by decide) hconstant)
    · exact hquoted.cons_proper .nil
  | .ident t, hf => Token.Scanned.proper hf rfl
  | .pass mark handler, hf => hf.1.cons_proper rfl (proper_option hf.2 rfl)
  | .rest name dots, hf => hf.1.cons_proper rfl (hf.2.proper rfl)
  | .unary operator operand, hf =>
    hf.1.2.cons_proper (contains_eq_false (by decide) hf.1.1) (Expr.proper operand hf.2)
  | .construct keyword callee arguments, hf =>
    hf.1.cons_proper rfl ((DottedName.proper hf.2.1).append (Enclosed.proper arguments hf.2.2 rfl rfl))
  | .array elements, hf => Enclosed.proper elements hf rfl rfl
  | .object opening entries closing, hf =>
    hf.1.cons_proper rfl ((entries_proper entries hf.2.1).append (hf.2.2.proper rfl))
  | .group opening inner closing, hf =>
    hf.1.cons_proper rfl ((Expr.proper inner hf.2.1).append (hf.2.2.proper rfl))
  | .function f, hf => Func.proper f hf
  | .arrow params sign body, hf =>
    (Params.proper hf.1).append (hf.2.1.cons_proper rfl (Expr.proper body hf.2.2))
  | .simpleArrow sign body, hf => hf.1.cons_proper rfl (Expr.proper body hf.2)

theorem Suffix.proper : ∀ s : Suffix, s.Formed → Proper s.tokens
  | .binary operator right, hf => by
    obtain ⟨⟨⟨s, hprec⟩, _, hoperator⟩, hright⟩ := hf
    exact operator_proper hprec hoperator (right.begins hright) (Expr.proper right hright)
  | .ternary question consequent colon alternate, hf =>
    hf.1.cons_proper rfl ((Expr.proper consequent hf.2.1).append
      (hf.2.2.1.cons_proper rfl (Expr.proper alternate hf.2.2.2)))
  | .call arguments, hf => Enclosed.proper arguments hf rfl rfl
  | .invoke member arguments, hf =>
    (Member.properWord hf.1).append (Enclosed.proper arguments hf.2 rfl rfl)
  | .index opening inner closing, hf =>
    hf.1.cons_proper rfl ((Expr.proper inner hf.2.1).append (hf.2.2.proper rfl))
  | .property member, hf => Member.properWord hf
  | .prototype colons name, hf => hf.1.cons_proper rfl (proper_option hf.2 rfl)

theorem Enclosed.proper : ∀ (e : Enclosed) {o c : Punct}, e.Formed o c →
    slashKinds.contains (.punct o) = false → slashKinds.contains (.punct c) = false → Proper e.tokens
  | ⟨_, items, _⟩, _, _, hf, ho, hc =>
    hf.1.cons_proper ho ((exprs_proper items hf.2.1).append (hf.2.2.proper hc))

theorem exprs_proper : ∀ es : Separated Expr, exprsFormed es → Proper (exprsTokens es)
  | .nil, _ => .nil
  | .one e, hf => Expr.proper e hf
  | .more e _ es, hf => (Expr.proper e hf.1).append (hf.2.1.cons_proper rfl (exprs_proper es hf.2.2))

theorem entries_proper : ∀ es : Separated Entry, entriesFormed es → Proper (entriesTokens es)
  | .nil, _ => .nil
  | .one ⟨_, _, value⟩, hf =>
    hf.1.cons_proper (hf.2.1.cons_proper rfl (Expr.proper value hf.2.2))
  | .more ⟨_, _, value⟩ _ es, hf =>
    hf.1.1.cons_proper (hf.1.2.1.cons_proper rfl ((Expr.proper value hf.1.2.2).append
      (hf.2.1.cons_proper rfl (entries_proper es hf.2.2))))

theorem Func.proper : ∀ f : Func, f.Formed → Proper f.tokens
  | ⟨keyword, name, params, receiver, body⟩, hf => by
    obtain ⟨hkeyword, hname, hparams, hreceiver, hbody⟩ := hf
    have hnamed : Proper (receiverTokens receiver) := by
      cases receiver with
      | none => exact .nil
      | some r => exact (hreceiver r rfl).1.cons_proper rfl ((hreceiver r rfl).2.proper rfl)
    exact ((((proper_option hkeyword rfl).append (proper_option hname rfl)).append
      (Params.proper hparams)).append hnamed).append (Block.proper body hbody)

theorem Block.proper : ∀ b : Block, b.Formed → Proper b.tokens
  | ⟨_, body, _⟩, hf => hf.1.cons_proper rfl ((stmts_proper body hf.2.1).append (hf.2.2.proper rfl))

theorem stmts_proper : ∀ ss : List Stmt, stmtsFormed ss → Proper (stmtsTokens ss)
  | [], _ => .nil
  | s :: ss, hf => (Stmt.proper s hf.1).append (stmts_proper ss hf.2)

theorem Stmt.proper : ∀ s : Stmt, s.Formed → Proper s.tokens
  | .expr value semicolon, hf => (Expr.proper value hf.1).append (hf.2.proper rfl)
  | .empty semicolon, hf => Token.Scanned.proper hf rfl
  | .conditional first others, hf => (Guarded.proper first hf.1).append (Ladder.proper others hf.2)
  | .while loop, hf => Guarded.proper loop hf
  | .for keyword opening init first test second update closing body, hf => by
    obtain ⟨hk, ho, hinit, hfirst, htest, hsecond, hupdate, hc, hbody⟩ := hf
    exact hk.cons_proper rfl (ho.cons_proper rfl ((ForInit.proper init hinit).append (hfirst.cons_proper rfl
      ((exprs_proper test htest).append (hsecond.cons_proper rfl ((exprs_proper update hupdate).append
        (hc.cons_proper rfl (Block.proper body hbody))))))))
  | .forIn keyword opening var name inWord object closing body, hf => by
    obtain ⟨hk, ho, hvar, hname, hin, hobject, hc, hbody⟩ := hf
    exact hk.cons_proper rfl (ho.cons_proper rfl ((proper_option hvar rfl).append (hname.cons_proper rfl
      (hin.cons_proper rfl ((Expr.proper object hobject).append
        (hc.cons_proper rfl (Block.proper body hbody)))))))
  | .jump keyword label semicolon, hf => by
    obtain ⟨hk, hlabel, hsemi⟩ := hf
    have hrest : Proper (label.toList ++ [semicolon]) := (proper_option hlabel rfl).append (hsemi.proper rfl)
    rcases hk with hbreak | hcontinue
    · exact hbreak.cons_proper rfl hrest
    · exact hcontinue.cons_proper rfl hrest
  | .return keyword none semicolon, hf => hf.1.cons_proper rfl (hf.2.proper rfl)
  | .return keyword (some value) semicolon, hf =>
    hf.1.cons_proper rfl ((Expr.proper value hf.2.1).append (hf.2.2.proper rfl))
  | .throw keyword value semicolon, hf =>
    hf.1.cons_proper rfl ((Expr.proper value hf.2.1).append (hf.2.2.proper rfl))
  | .vars list semicolon, hf => (VarList.proper list hf.1).append (hf.2.proper rfl)
  | .function f, hf => Func.proper f hf.2.2
  | .labeled label colon body, hf => hf.1.cons_proper rfl (hf.2.1.cons_proper rfl (Stmt.proper body hf.2.2))
  | .switch keyword opening subject closing openBrace clauses closeBrace, hf => by
    obtain ⟨hk, ho, hsubject, hc, hob, hclauses, hcb⟩ := hf
    exact hk.cons_proper rfl (ho.cons_proper rfl ((Expr.proper subject hsubject).append
      (hc.cons_proper rfl (hob.cons_proper rfl ((clauses_proper clauses hclauses).append (hcb.proper rfl))))))
  | .block b, hf => Block.proper b hf
  | .include p, hf => Pragma.proper hf rfl
  | .declare p, hf => Pragma.proper hf rfl

theorem Guarded.proper : ∀ (x : Guarded) {w : Word}, x.Formed w → Proper x.tokens
  | ⟨_, _, test, _, body⟩, _, hf =>
    hf.1.cons_proper rfl (hf.2.1.cons_proper rfl ((Expr.proper test hf.2.2.1).append
      (hf.2.2.2.1.cons_proper rfl (Block.proper body hf.2.2.2.2))))

theorem Ladder.proper : ∀ l : Ladder, l.Formed → Proper l.tokens
  | .done, _ => .nil
  | .otherwise _ body, hf => hf.1.cons_proper rfl (Block.proper body hf.2)
  | .branch _ next others, hf =>
    hf.1.cons_proper rfl ((Guarded.proper next hf.2.1).append (Ladder.proper others hf.2.2))

theorem ForInit.proper : ∀ i : ForInit, i.Formed → Proper i.tokens
  | .exprs items, hf => exprs_proper items hf
  | .vars list, hf => VarList.proper list hf

theorem VarList.proper : ∀ l : VarList, l.Formed → Proper l.tokens
  | ⟨_, items⟩, hf => hf.1.cons_proper rfl (decls_proper items hf.2)

theorem decls_proper : ∀ ds : Separated Decl, declsFormed ds → Proper (declsTokens ds)
  | .nil, _ => .nil
  | .one d, hf => Decl.proper d hf
  | .more d _ ds, hf => (Decl.proper d hf.1).append (hf.2.1.cons_proper rfl (decls_proper ds hf.2.2))

theorem Decl.proper : ∀ d : Decl, d.Formed → Proper d.tokens
  | ⟨_, none⟩, hf => Token.Scanned.proper hf rfl
  | ⟨_, some (_, value)⟩, hf => hf.1.cons_proper rfl (hf.2.1.cons_proper rfl (Expr.proper value hf.2.2))

theorem clauses_proper : ∀ cs : List Clause, clausesFormed cs → Proper (clausesTokens cs)
  | [], _ => .nil
  | ⟨_, none, _, body⟩ :: cs, hf =>
    hf.1.1.cons_proper rfl (hf.1.2.1.cons_proper rfl ((stmts_proper body hf.1.2.2).append
      (clauses_proper cs hf.2)))
  | ⟨_, some test, _, body⟩ :: cs, hf =>
    hf.1.1.cons_proper rfl ((Expr.proper test hf.1.2.1).append (hf.1.2.2.1.cons_proper rfl
      ((stmts_proper body hf.1.2.2.2).append (clauses_proper cs hf.2))))

end

/-! ## How statements begin and end -/

theorem Guarded.begins {x : Guarded} {w : Word} (hf : x.Formed w)
    (hw : innerKinds.contains (.word w) = false) : Begins x.tokens := by
  obtain ⟨keyword, opening, test, closing, body⟩ := x
  exact hf.1.begins hw

theorem Stmt.begins {s : Stmt} (hf : s.Formed) : Begins s.tokens := by
  cases s with
  | expr value semicolon => exact (value.begins hf.1).append _
  | empty semicolon => exact Token.Scanned.begins hf rfl
  | conditional first others => exact (Guarded.begins hf.1 rfl).append _
  | «while» loop => exact Guarded.begins hf rfl
  | «for» => exact hf.1.begins rfl
  | forIn => exact hf.1.begins rfl
  | jump keyword label semicolon =>
      rcases hf.1 with hbreak | hcontinue
      · exact hbreak.begins rfl
      · exact hcontinue.begins rfl
  | «return» keyword value semicolon =>
      cases value with
      | none => exact hf.1.begins rfl
      | some value => exact hf.1.begins rfl
  | throw => exact hf.1.begins rfl
  | vars list semicolon =>
      obtain ⟨keyword, items⟩ := list
      exact hf.1.1.begins rfl
  | function f => exact Func.begins hf.2.2
  | labeled => exact hf.1.begins rfl
  | «switch» => exact hf.1.begins rfl
  | block b =>
      obtain ⟨opening, body, closing⟩ := b
      exact hf.1.begins rfl
  | «include» p => exact hf.1.begins rfl
  | declare p => exact hf.1.begins rfl

/-- The last token, if there is one, is one with which statements end. -/
def Concludes (ts : List Token) : Prop := ∀ t ∈ ts.getLast?, Parser.endsStatement t.kind = true

theorem Concludes.append {us : List Token} (h : Concludes us) (hus : us ≠ []) (ts : List Token) :
    Concludes (ts ++ us) := by
  intro t ht
  rw [List.getLast?_append, Option.or_of_isSome (List.getLast?_isSome.mpr hus)] at ht
  exact h t ht

theorem Concludes.cons {us : List Token} (h : Concludes us) (hus : us ≠ []) (t : Token) :
    Concludes (t :: us) := h.append hus [t]

theorem concludes_mark {t : Token} {m : Punct} (h : t.Scanned (.punct m))
    (hm : Parser.endsStatement (.punct m) = true) (ts : List Token) : Concludes (ts ++ [t]) := by
  intro u hu
  rw [List.getLast?_concat] at hu
  cases hu
  rw [h.kind]
  exact hm

theorem Block.concludes {b : Block} (hf : b.Formed) : Concludes b.tokens := by
  obtain ⟨opening, body, closing⟩ := b
  exact concludes_mark hf.2.2 rfl (opening :: stmtsTokens body)

theorem Block.tokens_ne_nil (b : Block) : b.tokens ≠ [] := by
  cases b
  simp [Block.tokens]

theorem Func.concludes {f : Func} (hf : f.Formed) : Concludes f.tokens := by
  obtain ⟨keyword, name, params, receiver, body⟩ := f
  exact (Block.concludes hf.2.2.2.2).append body.tokens_ne_nil _

theorem Guarded.concludes {x : Guarded} {w : Word} (hf : x.Formed w) : Concludes x.tokens := by
  obtain ⟨keyword, opening, test, closing, body⟩ := x
  have hlast : Concludes (closing :: body.tokens) :=
    (Block.concludes hf.2.2.2.2).cons body.tokens_ne_nil closing
  exact hlast.append (List.cons_ne_nil _ _) (keyword :: opening :: test.tokens)

theorem Pragma.concludes {x : Pragma} {k : Kind} (hf : x.Formed k) : Concludes x.tokens :=
  concludes_mark hf.2.2 rfl (x.keyword :: x.items.tokens PragmaItem.tokens)

theorem Ladder.concludes (l : Ladder) (hf : l.Formed) : Concludes l.tokens := by
  match l with
  | .done => exact fun t ht => nomatch ht
  | .otherwise keyword body => exact (Block.concludes hf.2).cons body.tokens_ne_nil keyword
  | .branch keyword next others =>
      have hnext : Concludes (keyword :: next.tokens) :=
        (Guarded.concludes hf.2.1).cons next.tokens_ne_nil keyword
      have hothers := others.concludes hf.2.2
      rw [Ladder.tokens, ← List.cons_append]
      by_cases hnil : others.tokens = []
      · rw [hnil, List.append_nil]
        exact hnext
      · exact hothers.append hnil _

theorem Stmt.concludes (s : Stmt) (hf : s.Formed) : Concludes s.tokens := by
  match s with
  | .expr value semicolon => exact concludes_mark hf.2 rfl _
  | .empty semicolon => exact concludes_mark hf rfl []
  | .conditional first others =>
      rw [Stmt.tokens]
      by_cases hnil : others.tokens = []
      · rw [hnil, List.append_nil]
        exact Guarded.concludes hf.1
      · exact (others.concludes hf.2).append hnil _
  | .while loop => exact Guarded.concludes hf
  | .for keyword opening init first test second update closing body =>
      obtain ⟨_, _, _, _, _, _, _, _, hbody⟩ := hf
      have hupdate : Concludes (exprsTokens update ++ closing :: body.tokens) :=
        ((Block.concludes hbody).cons body.tokens_ne_nil closing).append (List.cons_ne_nil _ _) _
      have htest : Concludes (exprsTokens test ++ second :: (exprsTokens update ++ closing :: body.tokens)) :=
        (hupdate.cons (by simp) second).append (List.cons_ne_nil _ _) _
      exact (htest.cons (by simp) first).append (List.cons_ne_nil _ _) (keyword :: opening :: init.tokens)
  | .forIn keyword opening var name inWord object closing body =>
      obtain ⟨_, _, _, _, _, _, _, hbody⟩ := hf
      have hobject : Concludes (object.tokens ++ closing :: body.tokens) :=
        ((Block.concludes hbody).cons body.tokens_ne_nil closing).append (List.cons_ne_nil _ _) _
      exact ((hobject.cons (by simp) inWord).cons (List.cons_ne_nil _ _) name).append
        (List.cons_ne_nil _ _) (keyword :: opening :: var.toList)
  | .jump keyword label semicolon => exact concludes_mark hf.2.2 rfl (keyword :: label.toList)
  | .return keyword none semicolon => exact concludes_mark hf.2 rfl [keyword]
  | .return keyword (some value) semicolon => exact concludes_mark hf.2.2 rfl (keyword :: value.tokens)
  | .throw keyword value semicolon => exact concludes_mark hf.2.2 rfl (keyword :: value.tokens)
  | .vars list semicolon => exact concludes_mark hf.2 rfl _
  | .function f => exact Func.concludes hf.2.2
  | .labeled label colon body =>
      exact (body.concludes hf.2.2).append body.tokens_ne_nil [label, colon]
  | .switch keyword opening subject closing openBrace clauses closeBrace =>
      obtain ⟨_, _, _, _, _, _, hclose⟩ := hf
      have hlast : Concludes (clausesTokens clauses ++ [closeBrace]) := concludes_mark hclose rfl _
      exact ((hlast.cons (by simp) openBrace).cons (List.cons_ne_nil _ _) closing).append
        (List.cons_ne_nil _ _) (keyword :: opening :: subject.tokens)
  | .block b => exact Block.concludes hf
  | .include p => exact Pragma.concludes hf
  | .declare p => exact Pragma.concludes hf

theorem stmts_conclude (ss : List Stmt) (hf : stmtsFormed ss) : Concludes (stmtsTokens ss) := by
  induction ss with
  | nil => exact fun t ht => nomatch ht
  | cons s ss ih =>
      rw [stmtsTokens]
      by_cases hnil : stmtsTokens ss = []
      · rw [hnil, List.append_nil]
        exact s.concludes hf.1
      · exact (ih hf.2).append hnil _

end Respell
