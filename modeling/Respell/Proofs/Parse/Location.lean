import Respell.Proofs.Parse.Limit

/-!
# Where faults are found

While a program is read, its text is cut into tokens one after the other. A fault that a parser stops with is about
the lexeme at one of the places between them: one that was looked at, one that was taken and then found
wanting, or a place where no lexeme begins. And where a parser succeeds, every token of its tree stands
at such a place, so that faults found later are about lexemes too.

`Ends` is a postcondition for a run, with that rule for faults built in. It has a rule for each way in which
parsers are combined, and the productions follow from these one by one.
-/

namespace Respell

open Text Respell.Parser

/-! ## Cutting a text -/

/-- The marks that open a string. No token of a program is one: strings are read from their mark on. -/
def Kind.opensString : Kind → Bool
  | .punct .doubleQuote | .punct .singleQuote => true
  | _ => false

/-- The token is cut off at `p`, and the text goes on at `q`: as the scanner gives it, or as the literal
    that a mark opens. A mark for strings always opens a literal, and a slash may. -/
inductive Cut (p : Place) (t : Token) (q : Place) : Prop where
  | scanned (h : next p = .ok (t, q)) (hk : t.kind.opensString = false)
  | literal {mark : Token} {r : Place} (hmark : next p = .ok (mark, r)) (hk : mark.kind.isQuote = true)
      (h : quoted p = .ok (t, q))

/-- The text from `o` up to a place is cut into tokens. -/
inductive Cuts (o : Place) : List Token → Place → Prop where
  | nil : Cuts o [] o
  | concat {ts : List Token} {t : Token} {p q : Place} : Cuts o ts p → Cut p t q → Cuts o (ts ++ [t]) q

/-- The place is one between tokens, if the text is cut from `o` on. -/
def Reached (o p : Place) : Prop := ∃ ts, Cuts o ts p

/-- The token is what begins at the place: a lexeme of the scanner, whether the dialect refuses it or not,
    or the literal that a mark there opens. -/
inductive Token.StandsAt (t : Token) (p : Place) : Prop where
  | lexeme {k : Kind} {n : Nat} {q : Place} (h : Lexeme.next? p.rest = some (k, n))
      (ht : takeToken p k n = (t, q))
  | literal {mark : Token} {r q : Place} (hmark : next p = .ok (mark, r)) (hk : mark.kind.isQuote = true)
      (ht : quoted p = .ok (t, q))

/-- The token stands at a place between tokens. -/
def Seen (o : Place) (t : Token) : Prop := ∃ p, Reached o p ∧ t.StandsAt p

/-- All of the tokens stand at places between tokens. -/
def AllSeen (o : Place) (ts : List Token) : Prop := ∀ t ∈ ts, Seen o t

/-- The fault is about what begins at the place, or says that nothing does. -/
inductive Fault.Marks (f : Fault) (p : Place) : Prop where
  | token {t : Token} (ht : t.StandsAt p) (hspan : f.span = t.span) (hm : f.message ≠ .invalidToken)
  | invalid (h : Lexeme.next? p.rest = none) (hf : f = invalidToken p)

/-- The fault is about a place between tokens. -/
def Fault.Found (o : Place) (f : Fault) : Prop := ∃ p, Reached o p ∧ f.Marks p

/-- The text is refused for its grammar, at a place between tokens. -/
structure Refused (o : Place) (f : Fault) : Prop where
  found : f.Found o
  stage : f.message.stage = .grammar

section Places

variable {o p q r : Place} {t : Token} {ts us : List Token}

theorem Reached.step (h : Reached o p) (hcut : Cut p t q) : Reached o q := by
  obtain ⟨ts, hts⟩ := h
  exact ⟨_, hts.concat hcut⟩

theorem AllSeen.nil : AllSeen o [] := fun _ h => by cases h

theorem AllSeen.append (h : AllSeen o ts) (h' : AllSeen o us) : AllSeen o (ts ++ us) := by
  intro t ht
  rcases List.mem_append.mp ht with ht | ht
  · exact h t ht
  · exact h' t ht

theorem Seen.single (h : Seen o t) : AllSeen o [t] := by
  intro u hu
  rw [List.mem_singleton.mp hu]
  exact h

theorem seen_of_next (hp : Reached o p) (h : next p = .ok (t, q)) : Seen o t := by
  obtain ⟨k, n, hlex, htake, _⟩ := next_ok h
  exact ⟨p, hp, .lexeme hlex htake⟩

/-- A fault at a token that was seen. -/
theorem Seen.refused (h : Seen o t) {m : Message} {args : List String} (hm : (m == .invalidToken) = false)
    (hstage : m.stage = .grammar) : Refused o (t.fault m args) := by
  obtain ⟨p, hp, ht⟩ := h
  exact ⟨⟨p, hp, .token ht rfl (beq_eq_false_iff_ne.mp hm)⟩, hstage⟩

/-- A token of a kind that the dialect refuses is refused where it stands. -/
theorem refused_of_refusal? {f : Fault} (h : Seen o t) (hf : t.refusal? = some f) : Refused o f := by
  unfold Token.refusal? at hf
  split at hf <;> cases hf <;> exact h.refused rfl rfl

/-- Where the scanner stops, it is about what begins there, or about nothing that does. -/
theorem refused_of_next {f : Fault} (hp : Reached o p) (h : next p = .error f) : Refused o f := by
  rw [next_eq, scan] at h
  cases hlex : Lexeme.next? p.rest with
  | none =>
      simp only [hlex] at h
      cases h
      exact ⟨⟨p, hp, .invalid hlex rfl⟩, rfl⟩
  | some found =>
      obtain ⟨kind, n⟩ := found
      simp only [hlex] at h
      cases hrefusal : (takeToken p kind n).1.refusal? with
      | none => simp [hrefusal] at h
      | some g =>
          simp only [hrefusal] at h
          cases h
          exact refused_of_refusal? ⟨p, hp, .lexeme hlex rfl⟩ hrefusal

end Places

namespace Parser

/-! ## Runs -/

/-- A run that succeeds ends as `Q` says, and one that fails is refused at a place between tokens. -/
structure Ends {α : Type} (o : Place) (run : Except Fault (α × Place)) (Q : α → Place → Prop) : Prop where
  ok {a : α} {q : Place} : run = .ok (a, q) → Q a q
  error {f : Fault} : run = .error f → Refused o f

/-- The place is reached, and the tokens of the result were seen on the way. -/
structure Reads {α : Type} (o : Place) (tokens : α → List Token) (a : α) (q : Place) : Prop where
  reached : Reached o q
  seen : AllSeen o (tokens a)

section Runs

variable {α β : Type} {o p q r : Place} {Q : α → Place → Prop} {R : β → Place → Prop}

namespace Ends

theorem pure {a : α} (h : Q a p) : Ends o ((pure a : Parser α) p) Q where
  ok hrun := by
    obtain ⟨rfl, rfl⟩ := pure_ok_iff.mp hrun
    exact h
  error hrun := by cases hrun

theorem throw {f : Fault} (h : Refused o f) : Ends o ((throw f : Parser α) p) Q where
  ok hrun := (throw_ok_iff.mp hrun).elim
  error hrun := by
    cases hrun
    exact h

theorem bind {x : Parser α} {f : α → Parser β} (hx : Ends o (x p) Q)
    (hf : ∀ a q, Q a q → Ends o (f a q) R) : Ends o ((x >>= f) p) R := by
  cases hrun : x p with
  | error e =>
      rw [bind_of_error hrun]
      exact ⟨fun h => (by cases h), fun h => (by cases h; exact hx.error hrun)⟩
  | ok result =>
      obtain ⟨a, q⟩ := result
      rw [bind_of_ok hrun]
      exact hf a q (hx.ok hrun)

/-- A sequence of results with places, as the loops are written. -/
theorem seq {x : Except Fault (α × Place)} {f : α × Place → Except Fault (β × Place)} (hx : Ends o x Q)
    (hf : ∀ a q, Q a q → Ends o (f (a, q)) R) : Ends o (x >>= f) R := by
  cases x with
  | error e => exact ⟨fun h => (by cases h), fun h => (by cases h; exact hx.error rfl)⟩
  | ok result =>
      obtain ⟨a, q⟩ := result
      exact hf a q (hx.ok rfl)

/-- A result that ends a loop. -/
theorem done {a : α} (h : Q a q) : Ends o (Except.ok (a, q)) Q where
  ok hrun := by
    cases hrun
    exact h
  error hrun := by cases hrun

end Ends

/-! ## Single tokens -/

variable {t : Token} {k : Kind}

/-- Taking a token that was looked at. -/
theorem take_ends (hp : Reached o p) (hnext : next p = .ok (t, r)) (hk : t.kind.opensString = false) :
    Ends o (next p) fun u q => u = t ∧ Reads o (fun u : Token => [u]) u q := by
  rw [hnext]
  exact .done ⟨rfl, hp.step (.scanned hnext hk), (seen_of_next hp hnext).single⟩

/-- Taking any token: it is seen, but cut off only if it opens no string. -/
theorem next_ends (hp : Reached o p) :
    Ends o (next p) fun t q => Seen o t ∧ (t.kind.opensString = false → Reached o q) where
  ok h := ⟨seen_of_next hp h, fun hk => hp.step (.scanned h hk)⟩
  error := refused_of_next hp

theorem peek_ends (hp : Reached o p) : Ends o (peek p) fun t q => q = p ∧ ∃ r, next p = .ok (t, r) where
  ok := peek_ok
  error := by
    intro f h
    refine refused_of_next hp ?_
    rw [peek_eq] at h
    rw [next_eq]
    split at h
    · cases h
    · cases h
      rfl

/-- Looking at a token first. -/
theorem Ends.peek_bind {f : Token → Parser β} (hp : Reached o p)
    (hf : ∀ t r, next p = .ok (t, r) → Ends o (f t p) R) : Ends o ((peek >>= f) p) R := by
  refine (peek_ends hp).bind ?_
  rintro t q ⟨rfl, r, hnext⟩
  exact hf t r hnext

theorem peekKind_ends (hp : Reached o p) :
    Ends o (peekKind p) fun k q => q = p ∧ ∃ t r, next p = .ok (t, r) ∧ t.kind = k :=
  .peek_bind hp fun t r hnext => .pure ⟨rfl, t, r, hnext, rfl⟩

theorem Ends.peekKind_bind {f : Kind → Parser β} (hp : Reached o p)
    (hf : ∀ t r, next p = .ok (t, r) → Ends o (f t.kind p) R) : Ends o ((peekKind >>= f) p) R := by
  refine (peekKind_ends hp).bind ?_
  rintro _ q ⟨rfl, t, r, hnext, rfl⟩
  exact hf t r hnext

/-- Taking a token that was looked at, with something after it. -/
theorem Ends.take_bind {f : Token → Parser β} (hp : Reached o p) (hnext : next p = .ok (t, r))
    (hk : t.kind.opensString = false)
    (hf : ∀ q, Reads o (fun u : Token => [u]) t q → Ends o (f t q) R) : Ends o ((next >>= f) p) R := by
  refine (take_ends hp hnext hk).bind ?_
  rintro _ q ⟨rfl, ht⟩
  exact hf q ht

theorem expect_ends (hp : Reached o p) (hk : k.opensString = false) :
    Ends o (expect k p) (Reads o fun t : Token => [t]) := by
  refine (next_ends hp).bind ?_
  rintro t q ⟨hseen, hreached⟩
  split
  · next heq => exact .pure ⟨hreached (by rw [heq]; exact hk), hseen.single⟩
  · exact .throw (hseen.refused rfl rfl)

theorem expectPeek_ends (hp : Reached o p) : Ends o (expectPeek k p) fun t q => q = p ∧ Seen o t := by
  refine .peek_bind hp fun t r hnext => ?_
  split
  · exact .pure ⟨rfl, seen_of_next hp hnext⟩
  · exact .throw ((seen_of_next hp hnext).refused rfl rfl)

theorem optional_ends (hp : Reached o p) (hk : k.opensString = false) :
    Ends o (optional k p) (Reads o Option.toList) := by
  refine .peekKind_bind hp fun t r hnext => ?_
  split
  · next heq => exact .take_bind hp hnext (by rw [heq]; exact hk) fun q ht => .pure ⟨ht.reached, ht.seen⟩
  · exact .pure ⟨hp, .nil⟩

theorem lookAhead_ends {test : Parser Bool} : Ends o (lookAhead test p) fun _ q => q = p where
  ok := lookAhead_ok
  error := by
    intro f h
    unfold lookAhead at h
    split at h <;> cases h

/-- A literal from its mark on. One that does not end is refused at its mark. -/
theorem quoted_ends (hp : Reached o p) (hnext : next p = .ok (t, r)) (hk : t.kind.isQuote = true) :
    Ends o (quoted p) (Reads o fun t : Token => [t]) where
  ok h := ⟨hp.step (.literal hnext hk h), Seen.single ⟨p, hp, .literal hnext hk h⟩⟩
  error := by
    intro f h
    have hseen := seen_of_next hp hnext
    rw [next_eq] at hnext
    rw [quoted_eq] at h
    split at hnext
    · cases hnext
      next hscan =>
        rw [hscan] at h
        unfold readQuoted at h
        cases hlen : Quoted.length? p.rest with
        | some n => simp [hlen] at h
        | none =>
            simp only [hlen] at h
            cases h
            refine hseen.refused ?_ ?_ <;> (unfold Quoted.runaway; split) <;> rfl
    · cases hnext

end Runs

/-! ## Loops -/

section Loops

variable {α : Type} {o p : Place} {tokens : α → List Token} {item : Parser α} {ends : Kind → Bool}

theorem many_ends (hitem : ∀ {p}, Reached o p → Ends o (item p) (Reads o tokens)) (hp : Reached o p) :
    Ends o (many ends item p) (Reads o fun as => as.flatMap tokens) := by
  fun_induction many ends item p with
  | case1 p ih =>
    refine (peekKind_ends hp).seq fun k q hq => ?_
    obtain ⟨rfl, _⟩ := hq
    dsimp only
    split
    · exact .done ⟨hp, .nil⟩
    refine (hitem hp).seq fun a q ha => ?_
    dsimp only
    split
    · next hlt =>
        refine (ih q hlt ha.reached).seq fun as r has => ?_
        exact .done ⟨has.reached, ha.seen.append has.seen⟩
    · refine .done ⟨ha.reached, ?_⟩
      simpa using ha.seen

theorem commaList_ends (hitem : ∀ {p}, Reached o p → Ends o (item p) (Reads o tokens)) (hp : Reached o p) :
    Ends o (commaList ends item p) (Reads o fun items => items.tokens tokens) := by
  fun_induction commaList ends item p with
  | case1 p ih =>
    refine (peekKind_ends hp).seq fun k q hq => ?_
    obtain ⟨rfl, _⟩ := hq
    dsimp only
    split
    · exact .done ⟨hp, .nil⟩
    refine (hitem hp).seq fun a q ha => ?_
    refine (optional_ends ha.reached rfl).seq fun comma r hcomma => ?_
    cases comma with
    | none => exact .done ⟨hcomma.reached, ha.seen⟩
    | some comma =>
        dsimp only
        split
        · next hlt =>
            refine (ih r hlt hcomma.reached).seq fun items s hitems => ?_
            exact .done ⟨hitems.reached, ha.seen.append (hcomma.seen.append hitems.seen)⟩
        · exact .done ⟨hcomma.reached, ha.seen.append hcomma.seen⟩

/-- The tokens of an extended value, if there is one. -/
def optionTokens (tokens : α → List Token) (x : Option α) : List Token := (x.map tokens).getD []

theorem extend_ends {round : α → Parser (Option α)}
    (hround : ∀ {a p}, Reached o p → AllSeen o (tokens a) →
      Ends o (round a p) (Reads o (optionTokens tokens))) {a : α} (hp : Reached o p)
    (ha : AllSeen o (tokens a)) : Ends o (extend round a p) (Reads o tokens) := by
  fun_induction extend round a p with
  | case1 a p ih =>
    refine (hround hp ha).seq fun x q hx => ?_
    cases x with
    | none => exact .done ⟨hx.reached, ha⟩
    | some b =>
        dsimp only
        split
        · next hlt => exact ih b q hlt hx.reached hx.seen
        · exact .done ⟨hx.reached, hx.seen⟩

end Loops

/-! ## Functions and heads -/

/-- The inner parsers end as they should. -/
structure InnerLocates (o : Place) (inner : Inner) : Prop where
  statement {p : Place} : Reached o p → Ends o (inner.statement p) (Reads o Stmt.tokens)
  expression (colon : Colon) (threshold : Precedence) {p : Place} :
    Reached o p → Ends o (inner.expression colon threshold p) (Reads o Expr.tokens)

section Productions

variable {o p : Place} {inner : Inner} {colon : Colon} (hinner : InnerLocates o inner)
include hinner

theorem expressions_ends (hp : Reached o p) :
    Ends o (expressions inner colon p) (Reads o exprsTokens) := by
  rw [funext exprsTokens_eq]
  exact commaList_ends (hinner.expression colon .lowest) hp

theorem enclosed_ends {a c : Punct} (ha : Kind.opensString (.punct a) = false)
    (hc : Kind.opensString (.punct c) = false) (hp : Reached o p) :
    Ends o (enclosed inner colon a c p) (Reads o Enclosed.tokens) := by
  refine (expect_ends hp ha).bind fun opening p₁ h₁ => ?_
  refine (expressions_ends hinner h₁.reached).bind fun items p₂ h₂ => ?_
  refine (expect_ends h₂.reached hc).bind fun closing p₃ h₃ => ?_
  exact .pure ⟨h₃.reached, h₁.seen.append (h₂.seen.append h₃.seen)⟩

theorem block_ends (hp : Reached o p) : Ends o (block inner p) (Reads o Block.tokens) := by
  refine (expect_ends hp rfl).bind fun opening p₁ h₁ => ?_
  refine (many_ends hinner.statement h₁.reached).bind fun body p₂ h₂ => ?_
  refine (expect_ends h₂.reached rfl).bind fun closing p₃ h₃ => ?_
  refine .pure ⟨h₃.reached, ?_⟩
  rw [Block.tokens_eq, stmtsTokens_eq]
  exact h₁.seen.append (h₂.seen.append h₃.seen)

omit hinner in
/-- A list that cannot be parameters is refused at the token that made it a list of parameters. -/
theorem asParams_ends {list : Enclosed} {before : Token} (hlist : AllSeen o list.tokens)
    (hbefore : Seen o before) :
    Ends o (asParams list before p) fun params q => q = p ∧ AllSeen o params.tokens := by
  unfold asParams
  cases hitems : list.items.map? Expr.toParam? with
  | none => exact .throw (hbefore.refused rfl rfl)
  | some items =>
      refine .pure ⟨rfl, ?_⟩
      rw [tokens_of_params hitems]
      exact hlist

omit hinner in
theorem receiver_ends (hp : Reached o p) : Ends o (receiver p) (Reads o receiverTokens) := by
  refine (optional_ends hp rfl).bind fun colon p₁ h₁ => ?_
  cases colon with
  | none => exact .pure ⟨h₁.reached, .nil⟩
  | some colon =>
      refine (expect_ends h₁.reached rfl).bind fun name p₂ h₂ => ?_
      exact .pure ⟨h₂.reached, h₁.seen.append h₂.seen⟩

theorem finishFunction_ends {keyword name : Option Token} {list : Enclosed} {named : Option Receiver}
    (hkeyword : AllSeen o keyword.toList) (hname : AllSeen o name.toList) (hlist : AllSeen o list.tokens)
    (hnamed : AllSeen o (receiverTokens named)) (hp : Reached o p) :
    Ends o (finishFunction inner keyword name list named p) (Reads o Func.tokens) := by
  refine (expectPeek_ends hp).bind ?_
  rintro brace _ ⟨rfl, hbrace⟩
  refine (asParams_ends hlist hbrace).bind ?_
  rintro params _ ⟨rfl, hparams⟩
  refine (block_ends hinner hp).bind fun body p₁ h₁ => ?_
  exact .pure ⟨h₁.reached, (((hkeyword.append hname).append hparams).append hnamed).append h₁.seen⟩

theorem functionRest_ends {keyword name : Option Token} (hkeyword : AllSeen o keyword.toList)
    (hname : AllSeen o name.toList) (hp : Reached o p) :
    Ends o (functionRest inner colon keyword name p) (Reads o Func.tokens) := by
  refine (enclosed_ends hinner rfl rfl hp).bind fun list p₁ h₁ => ?_
  refine (receiver_ends h₁.reached).bind fun named p₂ h₂ => ?_
  exact finishFunction_ends hinner hkeyword hname h₁.seen h₂.seen h₂.reached

theorem parenthesized_ends (hp : Reached o p) :
    Ends o (parenthesized inner colon p) (Reads o Head.tokens) := by
  refine (enclosed_ends hinner rfl rfl hp).bind fun list p₁ h₁ => ?_
  refine .peek_bind h₁.reached fun after r hnext => ?_
  have hafter := seen_of_next h₁.reached hnext
  refine lookAhead_ends.bind ?_
  rintro bound _ rfl
  split
  · refine (finishFunction_ends hinner .nil .nil h₁.seen .nil h₁.reached).bind fun f p₂ h₂ => ?_
    exact .pure ⟨h₂.reached, h₂.seen⟩
  split
  · refine (receiver_ends h₁.reached).bind fun named p₂ h₂ => ?_
    refine (finishFunction_ends hinner .nil .nil h₁.seen h₂.seen h₂.reached).bind fun f p₃ h₃ => ?_
    exact .pure ⟨h₃.reached, h₃.seen⟩
  split
  · next hk =>
      refine (asParams_ends h₁.seen hafter).bind ?_
      rintro params _ ⟨rfl, hparams⟩
      refine .take_bind h₁.reached hnext (by rw [hk]; rfl) fun p₂ h₂ => ?_
      refine (hinner.expression _ _ h₂.reached).bind fun body p₃ h₃ => ?_
      exact .pure ⟨h₃.reached, hparams.append (h₂.seen.append h₃.seen)⟩
  generalize hitems : list.items = items
  split
  · refine .pure ⟨h₁.reached, ?_⟩
    have hseen := h₁.seen
    rw [Enclosed.tokens_eq, hitems] at hseen
    exact hseen
  · exact .throw (hafter.refused rfl rfl)

omit hinner in
theorem member_ends (hp : Reached o p) : Ends o (member p) (Reads o Member.tokens) := by
  refine (expect_ends hp rfl).bind fun dot p₁ h₁ => ?_
  refine (expect_ends h₁.reached rfl).bind fun name p₂ h₂ => ?_
  exact .pure ⟨h₂.reached, h₁.seen.append h₂.seen⟩

theorem construct_ends (hp : Reached o p) : Ends o (construct inner colon p) (Reads o Head.tokens) := by
  refine (expect_ends hp rfl).bind fun keyword p₁ h₁ => ?_
  refine (expect_ends h₁.reached rfl).bind fun first p₂ h₂ => ?_
  refine (many_ends member_ends h₂.reached).bind fun members p₃ h₃ => ?_
  refine (enclosed_ends hinner rfl rfl h₃.reached).bind fun arguments p₄ h₄ => ?_
  exact .pure ⟨h₄.reached, h₁.seen.append ((h₂.seen.append h₃.seen).append h₄.seen)⟩

omit hinner in
theorem key_ends (hp : Reached o p) : Ends o (key p) (Reads o fun t : Token => [t]) := by
  refine .peek_bind hp fun t r hnext => ?_
  have hseen := seen_of_next hp hnext
  generalize hk : t.kind = k
  split
  · refine ⟨fun h => ?_, (next_ends hp).error⟩
    exact ((take_ends hp hnext (by rw [hk]; rfl)).ok h).2
  · exact quoted_ends hp hnext (by rw [hk]; rfl)
  · exact quoted_ends hp hnext (by rw [hk]; rfl)
  · exact .throw (hseen.refused rfl rfl)

theorem entry_ends (hp : Reached o p) : Ends o (entry inner colon p) (Reads o Entry.tokens) := by
  refine (key_ends hp).bind fun k p₁ h₁ => ?_
  refine (expect_ends h₁.reached rfl).bind fun c p₂ h₂ => ?_
  refine (hinner.expression _ _ h₂.reached).bind fun value p₃ h₃ => ?_
  exact .pure ⟨h₃.reached, h₁.seen.append (h₂.seen.append h₃.seen)⟩

theorem object_ends (hp : Reached o p) : Ends o (object inner colon p) (Reads o Head.tokens) := by
  refine (expect_ends hp rfl).bind fun opening p₁ h₁ => ?_
  refine (commaList_ends (entry_ends hinner) h₁.reached).bind fun entries p₂ h₂ => ?_
  refine (expect_ends h₂.reached rfl).bind fun closing p₃ h₃ => ?_
  refine .pure ⟨h₃.reached, ?_⟩
  rw [Head.tokens, entriesTokens_eq]
  exact h₁.seen.append (h₂.seen.append h₃.seen)

theorem head_ends (hp : Reached o p) : Ends o (head inner colon p) (Reads o Head.tokens) := by
  refine .peek_bind hp fun t r hnext => ?_
  have hseen := seen_of_next hp hnext
  generalize hk : t.kind = k
  -- The cases are those of `head`, in its order.
  split
  case h_1 | h_2 | h_3 | h_4 | h_5 =>
    exact .take_bind hp hnext (by rw [hk]; rfl) fun q h₁ => .pure ⟨h₁.reached, h₁.seen⟩
  case h_6 | h_7 | h_8 | h_9 =>
    exact (quoted_ends hp hnext (by rw [hk]; rfl)).bind fun s q h₁ => .pure ⟨h₁.reached, h₁.seen⟩
  case h_10 =>
    refine .take_bind hp hnext (by rw [hk]; rfl) fun p₁ h₁ => ?_
    refine (optional_ends h₁.reached rfl).bind fun handler p₂ h₂ => ?_
    exact .pure ⟨h₂.reached, h₁.seen.append h₂.seen⟩
  case h_11 =>
    exact (enclosed_ends hinner rfl rfl hp).bind fun elements q h₁ => .pure ⟨h₁.reached, h₁.seen⟩
  case h_12 => exact object_ends hinner hp
  case h_13 => exact construct_ends hinner hp
  case h_14 | h_15 | h_16 | h_17 | h_18 =>
    refine .take_bind hp hnext (by rw [hk]; rfl) fun p₁ h₁ => ?_
    refine (hinner.expression _ _ h₁.reached).bind fun operand p₂ h₂ => ?_
    exact .pure ⟨h₂.reached, h₁.seen.append h₂.seen⟩
  case h_19 => exact parenthesized_ends hinner hp
  case h_20 =>
    refine .take_bind hp hnext (by rw [hk]; rfl) fun p₁ h₁ => ?_
    refine (hinner.expression _ _ h₁.reached).bind fun body p₂ h₂ => ?_
    exact .pure ⟨h₂.reached, h₁.seen.append h₂.seen⟩
  case h_21 =>
    refine .take_bind hp hnext (by rw [hk]; rfl) fun p₁ h₁ => ?_
    refine (optional_ends h₁.reached rfl).bind fun name p₂ h₂ => ?_
    have hkeyword : AllSeen o (some t).toList := h₁.seen
    refine (functionRest_ends hinner hkeyword h₂.seen h₂.reached).bind fun f p₃ h₃ => ?_
    exact .pure ⟨h₃.reached, h₃.seen⟩
  case h_22 => exact .throw (hseen.refused rfl rfl)

/-! ## Suffixes -/

omit hinner in
/-- No operator opens a string. -/
theorem opensString_of_ofKind? {k : Kind} {s : Precedence} (h : Precedence.ofKind? k = some s) :
    k.opensString = false := by
  unfold Kind.opensString
  split <;> first | rfl | cases h

omit hinner in
theorem opensString_of_word {k : Kind} (h : (decide (k = .identifier) || k.isWord) = true) :
    k.opensString = false := by
  unfold Kind.opensString
  split <;> first | rfl | cases h

theorem operation_ends {s : Precedence} {t : Token} {r : Place} (hp : Reached o p)
    (hnext : next p = .ok (t, r)) (hk : t.kind.opensString = false) :
    Ends o (operation inner colon s p) (Reads o Suffix.tokens) := by
  refine .take_bind hp hnext hk fun p₁ h₁ => ?_
  split
  · refine (hinner.expression _ _ h₁.reached).bind fun consequent p₂ h₂ => ?_
    refine (expect_ends h₂.reached rfl).bind fun c p₃ h₃ => ?_
    refine (hinner.expression _ _ h₃.reached).bind fun alternate p₄ h₄ => ?_
    exact .pure ⟨h₄.reached, h₁.seen.append (h₂.seen.append (h₃.seen.append h₄.seen))⟩
  · refine (hinner.expression _ _ h₁.reached).bind fun right p₂ h₂ => ?_
    exact .pure ⟨h₂.reached, h₁.seen.append h₂.seen⟩

theorem access_ends {t : Token} {r : Place} (hp : Reached o p) (hnext : next p = .ok (t, r))
    (hk : t.kind.opensString = false) : Ends o (access inner colon p) (Reads o Suffix.tokens) := by
  refine .take_bind hp hnext hk fun p₁ h₁ => ?_
  -- What follows the dot is taken before it is known to be a name.
  refine (next_ends h₁.reached).bind ?_
  rintro name p₂ ⟨hname, hreached⟩
  split
  · next hword =>
      have h₂ := hreached (opensString_of_word hword)
      refine .peekKind_bind h₂ fun u r' _ => ?_
      split
      · refine (enclosed_ends hinner rfl rfl h₂).bind fun arguments p₃ h₃ => ?_
        exact .pure ⟨h₃.reached, (h₁.seen.append hname.single).append h₃.seen⟩
      · exact .pure ⟨h₂, h₁.seen.append hname.single⟩
  · exact .throw (hname.refused rfl rfl)

theorem suffix?_ends {threshold : Precedence} {e : Expr} (hp : Reached o p) (he : AllSeen o e.tokens) :
    Ends o (suffix? inner colon threshold e p) (Reads o (optionTokens Expr.tokens)) := by
  refine .peek_bind hp fun t r hnext => ?_
  cases hprec : Precedence.ofKind? t.kind with
  | some s =>
      dsimp only
      split
      · refine (operation_ends hinner hp hnext (opensString_of_ofKind? hprec)).bind fun x q h₁ => ?_
        exact .pure ⟨h₁.reached, he.append h₁.seen⟩
      · exact .pure ⟨hp, .nil⟩
  | none =>
      generalize hk : t.kind = k
      split
      case h_1 =>
        refine (access_ends hinner hp hnext (by rw [hk]; rfl)).bind fun x q h₁ => ?_
        exact .pure ⟨h₁.reached, he.append h₁.seen⟩
      case h_2 =>
        refine (enclosed_ends hinner rfl rfl hp).bind fun arguments q h₁ => ?_
        exact .pure ⟨h₁.reached, he.append h₁.seen⟩
      case h_3 =>
        refine .take_bind hp hnext (by rw [hk]; rfl) fun p₁ h₁ => ?_
        refine (hinner.expression _ _ h₁.reached).bind fun position p₂ h₂ => ?_
        refine (expect_ends h₂.reached rfl).bind fun closing p₃ h₃ => ?_
        exact .pure ⟨h₃.reached, he.append (h₁.seen.append (h₂.seen.append h₃.seen))⟩
      case h_4 =>
        refine .take_bind hp hnext (by rw [hk]; rfl) fun p₁ h₁ => ?_
        refine (optional_ends h₁.reached rfl).bind fun name p₂ h₂ => ?_
        exact .pure ⟨h₂.reached, he.append (h₁.seen.append h₂.seen)⟩
      case h_5 =>
        refine .take_bind hp hnext (by rw [hk]; rfl) fun p₁ h₁ => ?_
        cases hname : e.bareName? with
        | some name =>
            refine .pure ⟨h₁.reached, ?_⟩
            rw [eq_ident_of_bareName? hname] at he
            exact he.append h₁.seen
        | none => exact .throw ((h₁.seen t (List.mem_singleton.mpr rfl)).refused rfl rfl)
      case h_6 => exact .pure ⟨hp, .nil⟩

theorem expression_ends {threshold : Precedence} (hp : Reached o p) :
    Ends o (expression inner colon threshold p) (Reads o Expr.tokens) := by
  refine (head_ends hinner hp).bind fun h p₁ h₁ => ?_
  exact extend_ends (suffix?_ends hinner) h₁.reached h₁.seen

/-! ## Statements -/

theorem guarded_ends {w : Word} (hp : Reached o p) : Ends o (guarded inner w p) (Reads o Guarded.tokens) := by
  refine (expect_ends hp rfl).bind fun keyword p₁ h₁ => ?_
  refine (expect_ends h₁.reached rfl).bind fun opening p₂ h₂ => ?_
  refine (hinner.expression _ _ h₂.reached).bind fun test p₃ h₃ => ?_
  refine (expect_ends h₃.reached rfl).bind fun closing p₄ h₄ => ?_
  refine (block_ends hinner h₄.reached).bind fun body p₅ h₅ => ?_
  exact .pure ⟨h₅.reached, h₁.seen.append (h₂.seen.append (h₃.seen.append (h₄.seen.append h₅.seen)))⟩

theorem ladder_ends (hp : Reached o p) : Ends o (ladder inner p) (Reads o Ladder.tokens) := by
  fun_induction ladder inner p with
  | case1 p ih =>
    refine (optional_ends hp rfl).seq fun keyword q h₁ => ?_
    cases keyword with
    | none => exact .done ⟨h₁.reached, .nil⟩
    | some keyword =>
        refine (peekKind_ends h₁.reached).seq fun k q' hq' => ?_
        obtain ⟨rfl, _⟩ := hq'
        dsimp only
        split
        · refine (guarded_ends hinner h₁.reached).seq fun next r h₂ => ?_
          dsimp only
          split
          · next hlt =>
              refine (ih r hlt h₂.reached).seq fun others s h₃ => ?_
              exact .done ⟨h₃.reached, h₁.seen.append (h₂.seen.append h₃.seen)⟩
          · exact .done ⟨h₂.reached, h₁.seen.append (h₂.seen.append .nil)⟩
        · refine (block_ends hinner h₁.reached).seq fun body r h₂ => ?_
          exact .done ⟨h₂.reached, h₁.seen.append h₂.seen⟩

theorem conditional_ends (hp : Reached o p) : Ends o (conditional inner p) (Reads o Stmt.tokens) := by
  refine (guarded_ends hinner hp).bind fun first p₁ h₁ => ?_
  refine Ends.bind (x := ladder inner) (ladder_ends hinner h₁.reached) fun others p₂ h₂ => ?_
  exact .pure ⟨h₂.reached, h₁.seen.append h₂.seen⟩

theorem decl_ends (hp : Reached o p) : Ends o (decl inner p) (Reads o Decl.tokens) := by
  refine (expect_ends hp rfl).bind fun name p₁ h₁ => ?_
  refine (optional_ends h₁.reached rfl).bind fun equals p₂ h₂ => ?_
  cases equals with
  | none => exact .pure ⟨h₂.reached, h₁.seen⟩
  | some equals =>
      refine (hinner.expression _ _ h₂.reached).bind fun value p₃ h₃ => ?_
      exact .pure ⟨h₃.reached, h₁.seen.append (h₂.seen.append h₃.seen)⟩

theorem varList_ends (hp : Reached o p) : Ends o (varList inner p) (Reads o VarList.tokens) := by
  refine (expect_ends hp rfl).bind fun keyword p₁ h₁ => ?_
  refine (commaList_ends (decl_ends hinner) h₁.reached).bind fun items p₂ h₂ => ?_
  refine .pure ⟨h₂.reached, ?_⟩
  rw [VarList.tokens, declsTokens_eq]
  exact h₁.seen.append h₂.seen

theorem forInit_ends (hp : Reached o p) : Ends o (forInit inner p) (Reads o ForInit.tokens) := by
  refine .peekKind_bind hp fun t r _ => ?_
  split
  · exact (varList_ends hinner hp).bind fun list q h₁ => .pure ⟨h₁.reached, h₁.seen⟩
  · exact (expressions_ends hinner hp).bind fun items q h₁ => .pure ⟨h₁.reached, h₁.seen⟩

theorem forStatement_ends (hp : Reached o p) : Ends o (forStatement inner p) (Reads o Stmt.tokens) := by
  refine (expect_ends hp rfl).bind fun keyword p₁ h₁ => ?_
  refine (expect_ends h₁.reached rfl).bind fun opening p₂ h₂ => ?_
  refine lookAhead_ends.bind ?_
  rintro isForIn _ rfl
  split
  · refine (optional_ends h₂.reached rfl).bind fun var p₃ h₃ => ?_
    refine (expect_ends h₃.reached rfl).bind fun name p₄ h₄ => ?_
    refine (expect_ends h₄.reached rfl).bind fun inWord p₅ h₅ => ?_
    refine (hinner.expression _ _ h₅.reached).bind fun object p₆ h₆ => ?_
    refine (expect_ends h₆.reached rfl).bind fun closing p₇ h₇ => ?_
    refine (block_ends hinner h₇.reached).bind fun body p₈ h₈ => ?_
    exact .pure ⟨h₈.reached, h₁.seen.append (h₂.seen.append (h₃.seen.append (h₄.seen.append
      (h₅.seen.append (h₆.seen.append (h₇.seen.append h₈.seen))))))⟩
  · refine (forInit_ends hinner h₂.reached).bind fun init p₃ h₃ => ?_
    refine (expect_ends h₃.reached rfl).bind fun first p₄ h₄ => ?_
    refine (expressions_ends hinner h₄.reached).bind fun test p₅ h₅ => ?_
    refine (expect_ends h₅.reached rfl).bind fun second p₆ h₆ => ?_
    refine (expressions_ends hinner h₆.reached).bind fun update p₇ h₇ => ?_
    refine (expect_ends h₇.reached rfl).bind fun closing p₈ h₈ => ?_
    refine (block_ends hinner h₈.reached).bind fun body p₉ h₉ => ?_
    exact .pure ⟨h₉.reached, h₁.seen.append (h₂.seen.append (h₃.seen.append (h₄.seen.append
      (h₅.seen.append (h₆.seen.append (h₇.seen.append (h₈.seen.append h₉.seen)))))))⟩

omit hinner in
theorem jump_ends {w : Word} (hp : Reached o p) : Ends o (jump w p) (Reads o Stmt.tokens) := by
  refine (expect_ends hp rfl).bind fun keyword p₁ h₁ => ?_
  refine (optional_ends h₁.reached rfl).bind fun label p₂ h₂ => ?_
  refine (expect_ends h₂.reached rfl).bind fun semicolon p₃ h₃ => ?_
  exact .pure ⟨h₃.reached, h₁.seen.append (h₂.seen.append h₃.seen)⟩

theorem returnStatement_ends (hp : Reached o p) :
    Ends o (returnStatement inner p) (Reads o Stmt.tokens) := by
  refine (expect_ends hp rfl).bind fun keyword p₁ h₁ => ?_
  refine .peekKind_bind h₁.reached fun t r _ => ?_
  split
  · refine (expect_ends h₁.reached rfl).bind fun semicolon p₂ h₂ => ?_
    exact .pure ⟨h₂.reached, h₁.seen.append h₂.seen⟩
  · refine (hinner.expression _ _ h₁.reached).bind fun value p₂ h₂ => ?_
    refine (expect_ends h₂.reached rfl).bind fun semicolon p₃ h₃ => ?_
    exact .pure ⟨h₃.reached, h₁.seen.append (h₂.seen.append h₃.seen)⟩

theorem throwStatement_ends (hp : Reached o p) : Ends o (throwStatement inner p) (Reads o Stmt.tokens) := by
  refine (expect_ends hp rfl).bind fun keyword p₁ h₁ => ?_
  refine (hinner.expression _ _ h₁.reached).bind fun value p₂ h₂ => ?_
  refine (expect_ends h₂.reached rfl).bind fun semicolon p₃ h₃ => ?_
  exact .pure ⟨h₃.reached, h₁.seen.append (h₂.seen.append h₃.seen)⟩

theorem varStatement_ends (hp : Reached o p) : Ends o (varStatement inner p) (Reads o Stmt.tokens) := by
  refine (varList_ends hinner hp).bind fun list p₁ h₁ => ?_
  refine (expect_ends h₁.reached rfl).bind fun semicolon p₂ h₂ => ?_
  exact .pure ⟨h₂.reached, h₁.seen.append h₂.seen⟩

theorem functionStatement_ends (hp : Reached o p) :
    Ends o (functionStatement inner p) (Reads o Stmt.tokens) := by
  refine (expect_ends hp rfl).bind fun keyword p₁ h₁ => ?_
  refine (expect_ends h₁.reached rfl).bind fun name p₂ h₂ => ?_
  have hkeyword : AllSeen o (some keyword).toList := h₁.seen
  have hname : AllSeen o (some name).toList := h₂.seen
  refine (functionRest_ends hinner hkeyword hname h₂.reached).bind fun f p₃ h₃ => ?_
  exact .pure ⟨h₃.reached, h₃.seen⟩

theorem clauseHead_ends (hp : Reached o p) :
    Ends o (clauseHead inner p) (Reads o fun x => x.1 :: optionTokens Expr.tokens x.2) := by
  refine .peek_bind hp fun t r hnext => ?_
  have hseen := seen_of_next hp hnext
  split
  · next hk =>
      refine .take_bind hp hnext (by rw [hk]; rfl) fun p₁ h₁ => ?_
      refine (hinner.expression _ _ h₁.reached).bind fun test p₂ h₂ => ?_
      exact .pure ⟨h₂.reached, h₁.seen.append h₂.seen⟩
  split
  · next hk =>
      refine .take_bind hp hnext (by rw [hk]; rfl) fun p₁ h₁ => ?_
      exact .pure ⟨h₁.reached, h₁.seen⟩
  · exact .throw (hseen.refused rfl rfl)

theorem clause_ends (hp : Reached o p) : Ends o (clause inner p) (Reads o Clause.tokens) := by
  refine (clauseHead_ends hinner hp).bind ?_
  rintro ⟨keyword, test⟩ p₁ h₁
  refine (expect_ends h₁.reached rfl).bind fun c p₂ h₂ => ?_
  refine (many_ends hinner.statement h₂.reached).bind fun body p₃ h₃ => ?_
  refine .pure ⟨h₃.reached, ?_⟩
  rw [Clause.tokens, stmtsTokens_eq]
  exact h₁.seen.append (h₂.seen.append h₃.seen)

theorem switchStatement_ends (hp : Reached o p) :
    Ends o (switchStatement inner p) (Reads o Stmt.tokens) := by
  refine (expect_ends hp rfl).bind fun keyword p₁ h₁ => ?_
  refine (expect_ends h₁.reached rfl).bind fun opening p₂ h₂ => ?_
  refine (hinner.expression _ _ h₂.reached).bind fun subject p₃ h₃ => ?_
  refine (expect_ends h₃.reached rfl).bind fun closing p₄ h₄ => ?_
  refine (expect_ends h₄.reached rfl).bind fun openBrace p₅ h₅ => ?_
  refine (many_ends (clause_ends hinner) h₅.reached).bind fun clauses p₆ h₆ => ?_
  refine (expect_ends h₆.reached rfl).bind fun closeBrace p₇ h₇ => ?_
  refine .pure ⟨h₇.reached, ?_⟩
  rw [Stmt.tokens, clausesTokens_eq]
  exact h₁.seen.append (h₂.seen.append (h₃.seen.append (h₄.seen.append (h₅.seen.append
    (h₆.seen.append h₇.seen)))))

omit hinner in
/-- A group where only names may stand is refused at its colon, which was taken. -/
theorem pragmaItem_ends {groups : Bool} (hp : Reached o p) :
    Ends o (pragmaItem groups p) (Reads o PragmaItem.tokens) := by
  refine (optional_ends hp rfl).bind fun colon p₁ h₁ => ?_
  cases colon with
  | none =>
      refine (expect_ends h₁.reached rfl).bind fun name p₂ h₂ => ?_
      exact .pure ⟨h₂.reached, h₂.seen⟩
  | some colon =>
      dsimp only
      split
      · refine (expect_ends h₁.reached rfl).bind fun name p₂ h₂ => ?_
        exact .pure ⟨h₂.reached, h₁.seen.append h₂.seen⟩
      · exact .throw ((h₁.seen colon (List.mem_singleton.mpr rfl)).refused rfl rfl)

omit hinner in
theorem pragma_ends {groups : Bool} {t : Token} {r : Place} (hp : Reached o p) (hnext : next p = .ok (t, r))
    (hk : t.kind.opensString = false) : Ends o (pragma groups p) (Reads o Pragma.tokens) := by
  refine .take_bind hp hnext hk fun p₁ h₁ => ?_
  refine (commaList_ends pragmaItem_ends h₁.reached).bind fun items p₂ h₂ => ?_
  refine (expect_ends h₂.reached rfl).bind fun semicolon p₃ h₃ => ?_
  exact .pure ⟨h₃.reached, h₁.seen.append (h₂.seen.append h₃.seen)⟩

theorem labeledBody_ends (hp : Reached o p) : Ends o (labeledBody inner p) (Reads o Stmt.tokens) := by
  refine .peek_bind hp fun t r hnext => ?_
  have hseen := seen_of_next hp hnext
  generalize t.kind = k
  split
  case h_1 | h_2 | h_3 => exact hinner.statement hp
  case h_4 => exact .throw (hseen.refused rfl rfl)

theorem expressionStatement_ends (hp : Reached o p) :
    Ends o (expressionStatement inner p) (Reads o Stmt.tokens) := by
  refine (hinner.expression _ _ hp).bind fun e p₁ h₁ => ?_
  cases hlabel : e.bareName? with
  | none =>
      refine (expect_ends h₁.reached rfl).bind fun semicolon p₂ h₂ => ?_
      exact .pure ⟨h₂.reached, h₁.seen.append h₂.seen⟩
  | some label =>
      refine (optional_ends h₁.reached rfl).bind fun colon p₂ h₂ => ?_
      cases colon with
      | none =>
          refine (expect_ends h₂.reached rfl).bind fun semicolon p₃ h₃ => ?_
          exact .pure ⟨h₃.reached, h₁.seen.append h₃.seen⟩
      | some colon =>
          refine (labeledBody_ends hinner h₂.reached).bind fun body p₃ h₃ => ?_
          refine .pure ⟨h₃.reached, ?_⟩
          have hseen := h₁.seen
          rw [eq_ident_of_bareName? hlabel] at hseen
          exact hseen.append (h₂.seen.append h₃.seen)

theorem statement_ends (hp : Reached o p) : Ends o (statement inner p) (Reads o Stmt.tokens) := by
  refine .peekKind_bind hp fun t r hnext => ?_
  generalize hk : t.kind = k
  split
  case h_1 => exact conditional_ends hinner hp
  case h_2 => exact (guarded_ends hinner hp).bind fun loop q h₁ => .pure ⟨h₁.reached, h₁.seen⟩
  case h_3 => exact forStatement_ends hinner hp
  case h_4 | h_5 => exact jump_ends hp
  case h_6 => exact returnStatement_ends hinner hp
  case h_7 => exact throwStatement_ends hinner hp
  case h_8 => exact varStatement_ends hinner hp
  case h_9 => exact functionStatement_ends hinner hp
  case h_10 => exact switchStatement_ends hinner hp
  case h_11 | h_12 =>
    refine (pragma_ends hp hnext (by rw [hk]; rfl)).bind fun x q h₁ => ?_
    exact .pure ⟨h₁.reached, h₁.seen⟩
  case h_13 => exact (block_ends hinner hp).bind fun b q h₁ => .pure ⟨h₁.reached, h₁.seen⟩
  case h_14 => exact .take_bind hp hnext (by rw [hk]; rfl) fun q h₁ => .pure ⟨h₁.reached, h₁.seen⟩
  case h_15 => exact expressionStatement_ends hinner hp

end Productions

/-! ## Programs -/

theorem tooDeep_ends {α : Type} {o p : Place} {Q : α → Place → Prop} (hp : Reached o p) :
    Ends o ((tooDeep : Parser α) p) Q :=
  .peek_bind hp fun _ _ hnext => .throw ((seen_of_next hp hnext).refused rfl rfl)

theorem level_locates (o : Place) (n : Nat) : InnerLocates o (level n) := by
  induction n with
  | zero => exact ⟨tooDeep_ends, fun _ _ => tooDeep_ends⟩
  | succ n ih => exact ⟨statement_ends ih, fun _ _ => expression_ends ih⟩

theorem program_ends {o p : Place} {limit : Nat} {preamble : String} (hp : Reached o p) :
    Ends o (program limit preamble p) (Reads o Program.tokens) := by
  refine (many_ends (level_locates o limit).statement hp).bind fun body p₁ h₁ => ?_
  refine (expect_ends h₁.reached rfl).bind fun endOfFile p₂ h₂ => ?_
  refine .pure ⟨h₂.reached, ?_⟩
  rw [Program.tokens, stmtsTokens_eq]
  exact h₁.seen.append h₂.seen

end Parser

theorem refused_of_parse {limit : Nat} {source : List Char} {f : Fault}
    (h : parseProgramWithin limit source = .error f) : Refused (firstPlace source) f := by
  have hends : Parser.Ends (firstPlace source)
      (program limit (scanTrivia (.start source)).1 (firstPlace source)) (Reads _ Program.tokens) :=
    program_ends ⟨[], .nil⟩
  change (program limit (scanTrivia (.start source)).1 (firstPlace source)).map Prod.fst = .error f at h
  cases hrun : program limit (scanTrivia (.start source)).1 (firstPlace source) with
  | ok result =>
      rw [hrun] at h
      cases h
  | error g =>
      rw [hrun] at h
      cases h
      exact hends.error hrun

theorem allSeen_of_parse {limit : Nat} {source : List Char} {x : Program}
    (h : parseProgramWithin limit source = .ok x) : AllSeen (firstPlace source) x.tokens := by
  obtain ⟨q, hrun⟩ := program_of_parse h
  exact ((program_ends ⟨[], .nil⟩).ok hrun).seen

end Respell
