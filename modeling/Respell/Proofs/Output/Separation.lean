import Respell.Proofs.Output.Inserted

/-!
# Lexemes stay apart in the output

The output of an accepted program, scanned again, gives the lexemes that were written, each in its place,
exactly if none of them fuses with what comes after it. This is proved tree by tree: whatever is written for a
tree is accounted for, if what is written after it is, and may stand after what the source has before it.

Expressions and statements differ in what may follow them. An expression is an operand, so what follows ends
it (`Closing`). After a statement anything may come that begins as it does in the source (`Opening`). After a
delimiter anything at all may come (`Finishing`).
-/

namespace Respell

open Text

/-! ## How expressions begin -/

section Starts

variable {p q : Place} {t : Token} {tail : List Piece}

/-- The kinds of lexemes that begin with a star or have no text. -/
def starKinds : List Kind := [.punct .asterisk, .punct .timesAssign, .endOfFile]

theorem Token.Scanned.head_ne_star {k : Kind} (h : t.Scanned k) (hk : k ∉ starKinds) :
    ∃ c cs, t.text.toList = c :: cs ∧ c ≠ '*' := by
  have hpart (hword : k.isWordLike = true) : ∃ c cs, t.text.toList = c :: cs ∧ c ≠ '*' := by
    obtain ⟨c, cs, htext, hc⟩ := h.head_part hword
    refine ⟨c, cs, htext, ?_⟩
    rintro rfl
    exact absurd hc (by decide)
  obtain ⟨cs, n, hlex, htext⟩ := h.lexemeAt
  cases hlex with
  | number => exact hpart rfl
  | word => exact hpart rfl
  | identifier => exact hpart rfl
  | endOfFile => exact (hk (by decide)).elim
  | @mark cs m hm =>
      rw [h.text_punct]
      revert hk
      cases m <;> first
        | exact fun _ => ⟨_, _, rfl, by decide⟩
        | exact fun hk => absurd (by decide) hk
  | includePragma hp =>
      rw [htext, ← List.prefix_iff_eq_take.mp hp]
      exact ⟨_, _, rfl, by decide⟩
  | declarePragma hp =>
      rw [htext, ← List.prefix_iff_eq_take.mp hp]
      exact ⟨_, _, rfl, by decide⟩

theorem Taken.starts (h : Taken p t q) (tail : List Piece) (htext : ∃ c cs, t.text.toList = c :: cs ∧ c ≠ '*') :
    Starts p (t.replay tail) := by
  obtain ⟨c, cs, htext, hc⟩ := htext
  obtain ⟨hp, htail⟩ := h.head_replay tail htext
  intro d hd
  cases htail.symm.trans hd
  refine ⟨hc, ?_⟩
  rintro rfl
  exact hp

theorem Token.Scanned.starts {k : Kind} (hk : t.Scanned k) (hstar : k ∉ starKinds) {ts : List Token}
    (h : Sited p (t :: ts) q) (tail : List Piece) : Starts p (t.replay tail) := by
  obtain ⟨r, ht, _⟩ := h.uncons
  exact ht.starts tail (hk.head_ne_star hstar)

theorem functionWord_starts (p : Place) (tail : List Piece) : Starts p (functionWord tail) := by
  have hhead : (chars (functionWord tail)).head? = some 'f' := by
    rw [functionWord, chars_added]
    rfl
  intro c hc
  cases hhead.symm.trans hc
  exact ⟨by decide, fun hslash => absurd hslash (by decide)⟩

theorem Enclosed.starts {e : Enclosed} {o c : Punct} (he : e.Formed o c) (ho : .punct o ∉ starKinds)
    (h : Sited p e.tokens q) : Starts p (e.pieces tail) := by
  obtain ⟨opening, items, closing⟩ := e
  exact he.1.starts ho h _

theorem Func.starts {f : Func} (hf : f.Formed) (h : Sited p f.tokens q) : Starts p (f.pieces tail) := by
  obtain ⟨keyword, name, params, receiver, ⟨opening, body, closing⟩⟩ := f
  cases keyword with
  | none => exact functionWord_starts p _
  | some k => exact (hf.1 k rfl).starts (by decide) h _

theorem Head.starts {x : Head} (hx : x.Formed) (h : Sited p x.tokens q) : Starts p (x.pieces tail) := by
  have hkinds {f : Kind → Bool} {k : Kind} (hnone : ∀ k ∈ starKinds, f k = false) (hk : f k = true) :
      k ∉ starKinds := fun hmem => nomatch (hnone k hmem).symm.trans hk
  cases x with
  | literal t =>
      rcases hx with ⟨hconstant, ht⟩ | hquoted
      · exact ht.starts (hkinds (by decide) hconstant) h _
      · obtain ⟨c, cs, htext, hc, _⟩ := hquoted.head
        refine h.single.starts _ ⟨c, cs, htext, ?_⟩
        rintro rfl
        exact absurd hc (by decide)
  | ident t => exact Token.Scanned.starts hx (by decide) h _
  | pass mark handler => exact hx.1.starts (by decide) h _
  | rest name dots => exact hx.1.starts (by decide) h _
  | unary operator operand => exact hx.1.2.starts (hkinds (by decide) hx.1.1) h _
  | construct keyword callee arguments => exact hx.1.starts (by decide) h _
  | array elements => exact Enclosed.starts hx (by decide) h
  | object opening entries closing => exact hx.1.starts (by decide) h _
  | group opening inner closing => exact hx.1.starts (by decide) h _
  | function f => exact Func.starts hx h
  | arrow params sign body => exact functionWord_starts p _
  | simpleArrow sign body => exact functionWord_starts p _

/-- An expression begins with its leftmost head. -/
theorem Expr.starts : ∀ (e : Expr) (tail : List Piece) {p q : Place}, e.Formed → Sited p e.tokens q →
    Starts p (e.pieces tail)
  | .head _, _, _, _, he, h => Head.starts he h
  | .suffix leading x, tail, _, _, he, h => by
    obtain ⟨r, hleading, _⟩ := h.split
    exact Expr.starts leading (x.pieces tail) he.1 hleading

end Starts

/-! ## Trees -/

mutual

theorem Expr.carries : ∀ (e : Expr) (tail : List Piece), e.Formed →
    Carries Opening e.tokens (e.pieces tail) Closing tail
  | .head h, tail, hf => Head.carries h tail hf
  | .suffix leading x, tail, hf => (Expr.carries leading _ hf.1).append (Suffix.carries x tail hf.2)

theorem Head.carries : ∀ (h : Head) (tail : List Piece), h.Formed →
    Carries Opening h.tokens (h.pieces tail) Closing tail
  | .literal t, tail, hf => by
    rcases hf with ⟨hconstant, ht⟩ | hquoted
    · refine ht.operand ?_
      unfold Parser.isConstant at hconstant
      split at hconstant <;> first | (next hk => rw [hk]; rfl) | cases hconstant
    · exact hquoted.literal
  | .ident t, tail, hf => Token.Scanned.operand hf rfl
  | .pass mark none, tail, hf =>
    fun _ _ hs hc => (hf.1.mark (by decide) (by decide) hs hc.opening).opening
  | .pass mark (some handler), tail, hf =>
    (Carries.cons (hf.1.mark (by decide) (by decide)) ((hf.2 handler rfl).operand rfl)).opening
  | .rest name dots, tail, hf => rest_carries hf.1 hf.2
  | .unary operator operand, tail, hf =>
    .cons (unary_carries hf.1.1 hf.1.2) (Expr.carries operand tail hf.2)
  | .construct keyword callee arguments, tail, hf =>
    .cons hf.1.reserved ((DottedName.carries hf.2.1).append
      (Enclosed.carries arguments tail hf.2.2 (by decide) (by decide)).before_closing)
  | .array elements, tail, hf =>
    (Enclosed.carries elements tail hf (by decide) (by decide)).before_closing.opening
  | .object opening entries closing, tail, hf => by
    have hentries := entriesPieces_carries entries (closing.replay tail) hf.2.1
      (hf.2.2.inert_final (by decide) _)
    exact (Carries.cons (hf.1.final (by decide))
      (hentries.finishing.append (hf.2.2.final (by decide)))).before_closing.opening
  | .group opening inner closing, tail, hf =>
    (Carries.cons (hf.1.final (by decide)) ((Expr.carries inner _ hf.2.1).finishing.append
      (hf.2.2.final (by decide)))).before_closing.opening
  | .function f, tail, hf => (Func.carries f tail hf).before_closing
  | .arrow params sign body, tail, hf => arrow_carries hf.1 (Expr.carries body _ hf.2.2)
  | .simpleArrow sign body, tail, hf => simpleArrow_carries (Expr.carries body _ hf.2)

theorem Suffix.carries : ∀ (x : Suffix) (tail : List Piece), x.Formed →
    Carries Closing x.tokens (x.pieces tail) Closing tail
  | .binary operator right, tail, hf => by
    intro p q h hc
    obtain ⟨⟨⟨s, hprec⟩, _, hoperator⟩, hright⟩ := hf
    obtain ⟨r, hop, hs⟩ := h.uncons
    -- How the right operand begins matters after a slash only.
    exact operatorPieces_closing hprec hoperator h.trimmed hop (right.starts tail hright hs)
      (Expr.carries right tail hright hs hc)
  | .ternary question consequent colon alternate, tail, hf =>
    .cons (hf.1.mark (by decide) (by decide)) ((Expr.carries consequent _ hf.2.1).append
      (.cons (hf.2.2.1.mark (by decide) (by decide)) (Expr.carries alternate tail hf.2.2.2)))
  | .call arguments, tail, hf =>
    (Enclosed.carries arguments tail hf (by decide) (by decide)).before_closing
  | .invoke member arguments, tail, hf =>
    (Member.carries hf.1).append
      (Enclosed.carries arguments tail hf.2 (by decide) (by decide)).before_closing
  | .index opening inner closing, tail, hf =>
    (Carries.cons (hf.1.final (by decide)) ((Expr.carries inner _ hf.2.1).finishing.append
      (hf.2.2.final (by decide)))).before_closing
  | .property _, _, hf => Member.carries hf
  | .prototype colons name, tail, hf => prototypePieces_carries hf.1 hf.2

theorem Enclosed.carries : ∀ (e : Enclosed) (tail : List Piece) {o c : Punct}, e.Formed o c →
    o ∈ finalMarks → c ∈ finalMarks → Carries Closing e.tokens (e.pieces tail) Finishing tail
  | ⟨_, items, _⟩, _, _, _, hf, ho, hc =>
    .cons (hf.1.final ho) ((exprsPieces_carries items _ hf.2.1).finishing.append (hf.2.2.final hc))

theorem exprsPieces_carries : ∀ (es : Separated Expr) (tail : List Piece), exprsFormed es →
    Carries Opening (exprsTokens es) (exprsPieces es tail) Closing tail
  | .nil, _, _ => .nil fun _ hc => hc.opening
  | .one e, tail, hf => Expr.carries e tail hf
  | .more e comma es, tail, hf =>
    (Expr.carries e _ hf.1).append
      (.cons (hf.2.1.final (by decide)) (exprsPieces_carries es tail hf.2.2).finishing)

theorem entriesPieces_carries : ∀ (es : Separated Entry) (tail : List Piece), entriesFormed es →
    Inert (chars tail) → Carries Opening (entriesTokens es) (entriesPieces es tail) Closing tail
  | .nil, _, _, _ => .nil fun _ hc => hc.opening
  | .one ⟨key, colon, value⟩, tail, hf, _ =>
    .cons hf.1.carries (.cons (hf.2.1.mark (by decide) (by decide)) (Expr.carries value tail hf.2.2))
  | .more ⟨key, colon, value⟩ comma es, tail, hf, hinert => by
    obtain ⟨⟨hkey, hcolon, hvalue⟩, hcomma, hes⟩ := hf
    have hentry (rest : List Piece) : Carries Opening (key :: colon :: value.tokens)
        (key.replay (colon.replay (value.pieces rest))) Closing rest :=
      .cons hkey.carries (.cons (hcolon.mark (by decide) (by decide)) (Expr.carries value rest hvalue))
    have hentries := entriesPieces_carries es tail hes hinert
    by_cases hnil : es = .nil
    -- The comma goes, and the closing brace ends the value.
    · subst hnil
      have hdropped : Carries Closing [comma] (.gap comma.trailing :: tail) Closing tail := by
        intro p q h hc
        exact ⟨h.single.gap hc.2.ne_nil hc.1,
          .inert (h.rest_ne_nil hc.2.ne_nil) (h.single.inert_gap hinert)⟩
      exact (hentry (.gap comma.trailing :: tail)).append hdropped
    · rw [entriesPieces_more hnil]
      exact (hentry _).append (.cons (hcomma.final (by decide)) hentries.finishing)

theorem Func.carries : ∀ (f : Func) (tail : List Piece), f.Formed →
    Carries Opening f.tokens (f.pieces tail) Finishing tail
  | ⟨keyword, name, params, receiver, ⟨opening, body, closing⟩⟩, tail, hf => by
    intro p q h hfin
    obtain ⟨_, _, hparams, hreceiver, hopening, hbody, hclosing⟩ := id hf
    obtain ⟨p₁, hhead, h⟩ := h.split
    have hp₁ : p₁.rest ≠ [] := by
      obtain ⟨_, ho, _⟩ := h.uncons
      exact ho.rest_ne_nil (by rw [hopening.kind]; rintro ⟨⟩)
    obtain ⟨p₂, ho, h⟩ := h.uncons
    have hstmts := ((stmtsPieces_carries body _ hbody).finishing.append
      (hclosing.final (by decide)).opening) h hfin
    -- What is inserted stands between the opening brace and its trivia.
    have hprologue := prologue_accounted hparams.2.1 hreceiver (ho.accounted_gap hstmts)
    exact Func.opening_opening hf hhead hp₁ (hopening.accounted_final (by decide) hprologue)

theorem Block.carries : ∀ (b : Block) (tail : List Piece), b.Formed →
    Carries Closing b.tokens (b.pieces tail) Finishing tail
  | ⟨opening, body, closing⟩, tail, hf =>
    .cons (hf.1.final (by decide)) ((stmtsPieces_carries body _ hf.2.1).finishing.append
      (hf.2.2.final (by decide)).opening)

theorem stmtsPieces_carries : ∀ (ss : List Stmt) (tail : List Piece), stmtsFormed ss →
    Carries Opening (stmtsTokens ss) (stmtsPieces ss tail) Opening tail
  | [], _, _ => .nil fun _ ho => ho
  | s :: ss, tail, hf => (Stmt.carries s _ hf.1).append (stmtsPieces_carries ss tail hf.2)

theorem Stmt.carries : ∀ (s : Stmt) (tail : List Piece), s.Formed →
    Carries Opening s.tokens (s.pieces tail) Opening tail
  | .expr value semicolon, tail, hf =>
    ((Expr.carries value _ hf.1).append (hf.2.final (by decide))).before_opening
  | .empty semicolon, tail, hf => (Token.Scanned.final hf (by decide)).opening.before_opening
  | .conditional first others, tail, hf =>
    (Guarded.carries first _ hf.1).append (Ladder.carries others tail hf.2).finishing
  | .while loop, tail, hf => (Guarded.carries loop tail hf).before_opening
  | .for keyword opening init first test second update closing body, tail, hf => by
    obtain ⟨hkeyword, hopening, hinit, hfirst, htest, hsecond, hupdate, hclosing, hbody⟩ := hf
    have hblock := Carries.cons (hclosing.final (by decide)) (Block.carries body tail hbody).opening.finishing
    have hupdates := Carries.cons (hsecond.final (by decide))
      ((exprsPieces_carries update _ hupdate).append hblock).finishing
    have htests := Carries.cons (hfirst.final (by decide))
      ((exprsPieces_carries test _ htest).append hupdates).finishing
    have hparen := Carries.cons (hopening.final (by decide))
      ((ForInit.carries init _ hinit).append htests).finishing
    exact (Carries.cons hkeyword.reserved hparen.opening).before_opening
  | .forIn keyword opening var name inWord object closing body, tail, hf => by
    obtain ⟨hkeyword, hopening, hvar, hname, hin, hobject, hclosing, hbody⟩ := hf
    have hblock := Carries.cons (hclosing.final (by decide)) (Block.carries body tail hbody).opening.finishing
    have hof := Carries.cons (hin.wordOperator (by decide)) ((Expr.carries object _ hobject).append hblock)
    have hnamed := Carries.cons (hname.operand rfl) hof
    have hdeclared : Carries Opening (var.toList ++ name :: inWord :: (object.tokens ++ closing :: body.tokens))
        (replay? var (name.replay (inWord.replay (object.pieces (closing.replay (body.pieces tail))))))
        Finishing tail := by
      cases var with
      | none => exact hnamed
      | some v => exact .cons (hvar v rfl).reserved hnamed
    exact (Carries.cons hkeyword.reserved
      (Carries.cons (hopening.final (by decide)) hdeclared.finishing).opening).before_opening
  | .jump keyword label semicolon, tail, hf => by
    obtain ⟨hkeyword, hlabel, hsemicolon⟩ := hf
    have hend : Carries Closing [semicolon] (semicolon.replay tail) Finishing tail :=
      hsemicolon.final (by decide)
    have hrest : Carries Opening (label.toList ++ [semicolon]) (replay? label (semicolon.replay tail))
        Finishing tail := by
      cases label with
      | none => exact hend.opening
      | some l => exact .cons ((hlabel l rfl).operand rfl) hend
    rcases hkeyword with hkeyword | hkeyword
    · exact (Carries.cons hkeyword.reserved hrest).before_opening
    · exact (Carries.cons hkeyword.reserved hrest).before_opening
  | .return keyword none semicolon, tail, hf =>
    (Carries.cons hf.1.reserved (hf.2.final (by decide)).opening).before_opening
  | .return keyword (some value) semicolon, tail, hf =>
    (Carries.cons hf.1.reserved
      ((Expr.carries value _ hf.2.1).append (hf.2.2.final (by decide)))).before_opening
  | .throw keyword value semicolon, tail, hf =>
    (Carries.cons hf.1.reserved
      ((Expr.carries value _ hf.2.1).append (hf.2.2.final (by decide)))).before_opening
  | .vars list semicolon, tail, hf =>
    ((VarList.carries list _ hf.1).append (hf.2.final (by decide))).before_opening
  | .function f, tail, hf => (Func.carries f tail hf.2.2).before_opening
  | .labeled label colon body, tail, hf =>
    .cons (hf.1.operand rfl) (.cons (hf.2.1.mark (by decide) (by decide)) (Stmt.carries body tail hf.2.2))
  | .switch keyword opening subject closing openBrace clauses closeBrace, tail, hf => by
    obtain ⟨hkeyword, hopening, hsubject, hclosing, hopenBrace, hclauses, hcloseBrace⟩ := hf
    have hend : Carries Closing [closeBrace] (closeBrace.replay tail) Finishing tail :=
      hcloseBrace.final (by decide)
    have hbraces := Carries.cons (hopenBrace.final (by decide))
      ((clausesPieces_carries clauses _ hclauses).append hend.opening).finishing
    have hbody := Carries.cons (hclosing.final (by decide)) hbraces.opening.finishing
    have hparen := Carries.cons (hopening.final (by decide))
      ((Expr.carries subject _ hsubject).append hbody).finishing
    exact (Carries.cons hkeyword.reserved hparen.opening).before_opening
  | .block b, tail, hf => (Block.carries b tail hf).opening.before_opening
  | .include x, tail, hf => (Pragma.carries hf (by decide)).before_opening
  | .declare x, tail, hf => (Pragma.carries hf (by decide)).before_opening

theorem Guarded.carries : ∀ (g : Guarded) (tail : List Piece) {w : Word}, g.Formed w →
    Carries Opening g.tokens (g.pieces tail) Finishing tail
  | ⟨keyword, opening, test, closing, body⟩, tail, _, hf => by
    obtain ⟨hkeyword, hopening, htest, hclosing, hbody⟩ := hf
    have hblock := Carries.cons (hclosing.final (by decide)) (Block.carries body tail hbody).opening.finishing
    have hparen := Carries.cons (hopening.final (by decide))
      ((Expr.carries test _ htest).append hblock).finishing
    exact .cons hkeyword.reserved hparen.opening

theorem Ladder.carries : ∀ (l : Ladder) (tail : List Piece), l.Formed →
    Carries Opening l.tokens (l.pieces tail) Opening tail
  | .done, _, _ => .nil fun _ ho => ho
  | .otherwise _ body, tail, hf =>
    (Carries.cons hf.1.reserved (Block.carries body tail hf.2).opening).before_opening
  | .branch _ next others, tail, hf =>
    .cons hf.1.reserved ((Guarded.carries next _ hf.2.1).append (Ladder.carries others tail hf.2.2).finishing)

theorem ForInit.carries : ∀ (i : ForInit) (tail : List Piece), i.Formed →
    Carries Opening i.tokens (i.pieces tail) Closing tail
  | .exprs items, tail, hf => exprsPieces_carries items tail hf
  | .vars list, tail, hf => VarList.carries list tail hf

theorem VarList.carries : ∀ (l : VarList) (tail : List Piece), l.Formed →
    Carries Opening l.tokens (l.pieces tail) Closing tail
  | ⟨_, items⟩, tail, hf => .cons hf.1.reserved (declsPieces_carries items tail hf.2)

theorem declsPieces_carries : ∀ (ds : Separated Decl) (tail : List Piece), declsFormed ds →
    Carries Opening (declsTokens ds) (declsPieces ds tail) Closing tail
  | .nil, _, _ => .nil fun _ hc => hc.opening
  | .one d, tail, hf => Decl.carries d tail hf
  | .more d comma ds, tail, hf =>
    (Decl.carries d _ hf.1).append
      (.cons (hf.2.1.final (by decide)) (declsPieces_carries ds tail hf.2.2).finishing)

theorem Decl.carries : ∀ (d : Decl) (tail : List Piece), d.Formed →
    Carries Opening d.tokens (d.pieces tail) Closing tail
  | ⟨name, none⟩, tail, hf => Token.Scanned.operand hf rfl
  | ⟨name, some (equals, value)⟩, tail, hf =>
    .cons (hf.1.operand rfl) (.cons (hf.2.1.mark (by decide) (by decide)) (Expr.carries value tail hf.2.2))

theorem clausesPieces_carries : ∀ (cs : List Clause) (tail : List Piece), clausesFormed cs →
    Carries Opening (clausesTokens cs) (clausesPieces cs tail) Opening tail
  | [], _, _ => .nil fun _ ho => ho
  | ⟨keyword, none, colon, body⟩ :: cs, tail, hf =>
    .cons hf.1.1.reserved (Carries.cons (hf.1.2.1.mark (by decide) (by decide))
      ((stmtsPieces_carries body _ hf.1.2.2).append (clausesPieces_carries cs tail hf.2))).opening
  | ⟨keyword, some test, colon, body⟩ :: cs, tail, hf =>
    .cons hf.1.1.reserved ((Expr.carries test _ hf.1.2.1).append
      (.cons (hf.1.2.2.1.mark (by decide) (by decide))
        ((stmtsPieces_carries body _ hf.1.2.2.2).append (clausesPieces_carries cs tail hf.2))))

end

/-! ## Programs -/

/-- The end of the file is written as nothing. -/
theorem endOfFile_opening {p q : Place} {t : Token} (hk : t.Scanned .endOfFile) (h : Taken p t q) :
    Opening p (t.replay []) := by
  have hp := h.endOfFile hk.kind
  have hnil := h.rest_eq.symm.trans hp
  rw [List.append_eq_nil_iff, List.append_eq_nil_iff] at hnil
  obtain ⟨htext, htrailing, hq⟩ := hnil
  have htouch : touches (t.replay []) = false := touches_token (by rw [hk.kind]; rfl) _
  refine ⟨h.accounted hk.isQuoted ?_ htouch ?_ ⟨.nil, fun _ => rfl⟩, .done hp ?_⟩
  · rw [hk.kind, htrailing]
    rfl
  · rw [htext, htrailing]
    exact Trivia.length_nil
  · rw [chars_replay, htext, htrailing]
    rfl

/-- All that is written for a program is accounted for. -/
theorem Program.accounted {limit : Nat} {source : List Char} {x : Program}
    (h : parseProgramWithin limit source = .ok x) : Accounted x.pieces := by
  obtain ⟨hbody, heof⟩ := parseProgramWithin_formed h
  obtain ⟨hpreamble, q, hreading, _⟩ := parseProgramWithin_reading h
  have hsited : Sited (scanTrivia (.start source)).2 x.tokens q := ⟨Trivia.length_drop_length source, hreading⟩
  obtain ⟨r, hstmts, hend⟩ := hsited.split
  have hopening := stmtsPieces_carries x.body _ hbody hstmts (endOfFile_opening heof hend.single)
  -- The preamble is all the trivia that the source begins with.
  refine hopening.finishing.gap ?_
  rw [hpreamble, toList_scanTrivia, scanTrivia, Place.toList_text, List.length_take_of_le (Trivia.length_le _)]

/-- Scanning the output again, with literals where literals were written, gives the lexemes that were written,
    each in its place. -/
def Program.Rescans (x : Program) : Prop :=
  rescan (literals x.pieces) (scanTrivia (.start x.output.toList)).2 = some (lexemesFrom 0 x.pieces)

instance (x : Program) : Decidable x.Rescans :=
  inferInstanceAs (Decidable (_ = some (lexemesFrom 0 x.pieces)))

/-- The lexemes of an accepted program stay apart in the output, unless the keyword of a function is written
    right after a reserved word, an operator that is a word stands right after a prototype, or a regular
    expression begins a comment that text written after it closes. -/
theorem rescans_iff {file source out : String} (hshort : source.utf8ByteSize < UInt32.size)
    (h : Engine.compile file source = .ok out) :
    ∃ x helpers, Engine.analyze source = .ok (x, helpers) ∧ out = x.output ++ helperText helpers ∧
      (x.Rescans ↔ fuses x.pieces = false) := by
  obtain ⟨x, helpers, hengine, hrun, hout⟩ := Engine.compile_ok hshort h
  obtain ⟨hparse, _⟩ := analyze_ok hrun
  exact ⟨x, helpers, hengine, hout, rescan_eq_iff (Program.accounted hparse) (toList_join x.pieces)⟩

/-- A source with next to no blanks, in which a regular expression begins like a comment. -/
def packedSource : String :=
  "#declare $;var g=(x)->x==1,r=/*=/g,o=\x7bk:->_,'l':1.5,\x7d;//c\n" ++
    "g.m((@,n,z...):me\x7breturn -g::b/-r!=g:: instanceof o;\x7d);"

theorem rescans_iff_packedSource :
    packedSource.utf8ByteSize < UInt32.size ∧
      ∃ out x helpers, Engine.compile "packed" packedSource = .ok out ∧
        Engine.analyze packedSource = .ok (x, helpers) ∧ out = x.output ++ helperText helpers ∧
        (lexemesFrom 0 x.pieces).length = 101 ∧ x.Rescans := by
  have hshort : packedSource.utf8ByteSize < UInt32.size := by decide +kernel
  have hrun : (analyze packedSource).toOption.map
      (fun r => (fuses r.1.pieces, (lexemesFrom 0 r.1.pieces).length)) = some (false, 101) := by
    decide +kernel
  obtain ⟨⟨y, names⟩, hanalyze, hvalues⟩ := ok_of_toOption hrun
  obtain ⟨hfuses, hcount⟩ := Prod.mk.inj hvalues
  have hcompile := Engine.compile_of_analyze hshort "packed" hanalyze
  obtain ⟨x, helpers, hengine, hout, hrescans⟩ := rescans_iff hshort hcompile
  rw [Engine.analyze_eq hshort, hanalyze] at hengine
  cases hengine
  exact ⟨hshort, _, y, names, hcompile, (Engine.analyze_eq hshort).trans hanalyze, hout, hcount,
    hrescans.mpr hfuses⟩

/-- A source with a function that has no keyword right after a reserved word. -/
def abuttingSource : String := "function f() \x7b return(x) -> x; \x7d"

/-- The reserved word and the keyword that is written after it are read as one name. -/
theorem not_rescans_abuttingSource :
    ∃ x, analyze abuttingSource = .ok (x, []) ∧
      x.output = "function f() \x7b returnfunction (x) \x7b return x; \x7d; \x7d" ∧ ¬ x.Rescans := by
  have hrun : (analyze abuttingSource).toOption.map (fun r => (r.1.output, r.2, decide r.1.Rescans)) = some
      ("function f() \x7b returnfunction (x) \x7b return x; \x7d; \x7d", [], false) := by
    decide +kernel
  obtain ⟨⟨x, helpers⟩, hx, hvalues⟩ := ok_of_toOption hrun
  obtain ⟨hout, hrest⟩ := Prod.mk.inj hvalues
  obtain ⟨rfl, hrescans⟩ := Prod.mk.inj hrest
  exact ⟨x, hx, hout, of_decide_eq_false hrescans⟩

end Respell
