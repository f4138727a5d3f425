import Respell.Proofs.Output.Operands
import Respell.Proofs.Parse.Statements

/-!
# Signs side by side

The dialect has no marks `++` and `--`: it reads two signs, of which the second begins the operand of the
first. A sign is written with its trivia as it stands, so the two are written apart if and only if they stand
apart in the source; side by side they are read as one mark in JavaScript. Signs come next to each other
in no other way.
-/

namespace Respell

open Text Respell.Parser

/-! ## Signs that are applied to signs -/

/-- The kinds of the signs. -/
def Kind.isSign : Kind → Bool
  | .punct .plus | .punct .minus => true
  | _ => false

/-- The operator before an operand, with the operand. -/
def Head.applied? : Head → Option (Token × Expr)
  | .unary operator operand => some (operator, operand)
  | _ => none

/-- The operator between two operands, with the right one. -/
def Suffix.applied? : Suffix → Option (Token × Expr)
  | .binary operator right => some (operator, right)
  | _ => none

/-- The operator that an expression applies to the operand after it, with that operand. -/
def Expr.applied? : Expr → Option (Token × Expr)
  | .head h => h.applied?
  | .suffix _ s => s.applied?

/-- Two signs of one kind, the second of which begins the operand of the first. -/
def Expr.signs? (e : Expr) : Option (Token × Token) :=
  match e.applied? with
  | none => none
  | some (t, operand) =>
    match operand.lead with
    | .unary u _ => if t.kind.isSign ∧ u.kind = t.kind then some (t, u) else none
    | _ => none

theorem Expr.signs?_eq_some {e : Expr} {t u : Token} : e.signs? = some (t, u) ↔
    ∃ operand inner, e.applied? = some (t, operand) ∧ operand.lead = .unary u inner ∧
      t.kind.isSign = true ∧ u.kind = t.kind := by
  unfold Expr.signs?
  constructor
  · intro h
    split at h
    · cases h
    · next s operand happlied =>
        split at h
        · next v inner hlead =>
            split at h
            · next hsign =>
                cases h
                exact ⟨operand, inner, happlied, hlead, hsign⟩
            · cases h
        · cases h
  · rintro ⟨operand, inner, happlied, hlead, hsign⟩
    rw [happlied]
    dsimp only
    rw [hlead]
    exact if_pos hsign

/-- All pairs of signs of one kind that the program applies one to the other. -/
def Program.signs (x : Program) : List (Token × Token) := x.subexprs.filterMap Expr.signs?

/-- The tokens are written next to each other, with this text between them. -/
def Neighbours (ps : List Piece) (t u : Token) (between : String) : Prop :=
  ∃ before gaps rest, ps = before ++ .token t :: (gaps ++ .token u :: rest) ∧
    (∀ g ∈ gaps, g.isGap = true) ∧ Piece.join gaps = between

/-- Signs of one kind are never written side by side. -/
def Program.SignsApart (x : Program) : Prop :=
  ∀ t u between, t.kind.isSign = true → u.kind = t.kind → Neighbours x.pieces t u between → between ≠ ""

/-! ## Tokens that are no signs -/

theorem Kind.eq_of_isSign {k : Kind} (h : k.isSign = true) : k = .punct .plus ∨ k = .punct .minus := by
  unfold Kind.isSign at h
  split at h
  · exact .inl rfl
  · exact .inr rfl
  · cases h

/-- None of the tokens is a sign. -/
def NoSigns (ts : List Token) : Prop := ∀ t ∈ ts, t.kind.isSign = false

theorem Token.Scanned.not_sign {t : Token} {k : Kind} (h : t.Scanned k) (hk : k.isSign = false) :
    t.kind.isSign = false := by
  rw [h.kind, hk]

theorem Token.Quoted.not_sign {t : Token} (h : t.Quoted) : t.kind.isSign = false := by
  obtain ⟨c, cs, _, _, hkind⟩ := h.head
  rw [hkind, Quoted.kind]
  split <;> rfl

theorem Token.IsKey.not_sign {t : Token} (h : t.IsKey) : t.kind.isSign = false := by
  rcases h with hname | ⟨hquoted, _⟩
  · exact hname.not_sign rfl
  · exact hquoted.not_sign

/-- Kinds of which neither sign is one. -/
theorem Kind.not_sign {k : Kind} {f : Kind → Bool} (hk : f k = true) (hplus : f (.punct .plus) = false)
    (hminus : f (.punct .minus) = false) : k.isSign = false := by
  apply Bool.eq_false_iff.mpr
  intro hsign
  rcases Kind.eq_of_isSign hsign with rfl | rfl
  · cases hplus.symm.trans hk
  · cases hminus.symm.trans hk

theorem Head.literal_not_sign {t : Token} (h : (Head.literal t).Formed) : t.kind.isSign = false := by
  rcases h with ⟨hconstant, _⟩ | hquoted
  · exact Kind.not_sign hconstant rfl rfl
  · exact hquoted.not_sign

theorem Member.FormedWord.name_not_sign {m : Member} (h : m.FormedWord) : m.name.kind.isSign = false := by
  rcases h.2.2 with hname | hword
  · rw [hname]
    rfl
  · exact Kind.not_sign hword rfl rfl

namespace NoSigns

variable {ts us : List Token}

theorem nil : NoSigns [] := List.forall_mem_nil _

theorem cons {t : Token} {k : Kind} (ht : t.Scanned k) (hk : k.isSign = false) (h : NoSigns ts) :
    NoSigns (t :: ts) :=
  List.forall_mem_cons.mpr ⟨ht.not_sign hk, h⟩

theorem append (h : NoSigns ts) (h' : NoSigns us) : NoSigns (ts ++ us) :=
  List.forall_mem_append.mpr ⟨h, h'⟩

theorem toList {o : Option Token} {k : Kind} (h : ∀ t ∈ o, t.Scanned k) (hk : k.isSign = false) :
    NoSigns o.toList := by
  intro t ht
  exact (h t (Option.mem_toList.mp ht)).not_sign hk

theorem separated {α : Type} {tokens : α → List Token} {f : α → Prop} {items : Separated α}
    (hitem : ∀ a, f a → NoSigns (tokens a)) (h : items.Formed f) : NoSigns (items.tokens tokens) := by
  induction items with
  | nil => exact .nil
  | one a => exact hitem a h
  | more a comma rest ih => exact (hitem a h.1).append (.cons h.2.1 rfl (ih h.2.2))

theorem param (x : Param) (h : x.Formed) : NoSigns x.tokens := by
  cases x with
  | plain name => exact .cons h rfl .nil
  | pass mark handler => exact .cons h.1 rfl (.toList h.2 rfl)
  | rest name dots => exact .cons h.1 rfl (.cons h.2 rfl .nil)

theorem params {x : Params} (h : x.Formed) : NoSigns x.tokens :=
  .cons h.1 rfl ((separated param h.2.1).append (.cons h.2.2 rfl .nil))

theorem receiver {o : Option Receiver} (h : ∀ x ∈ o, x.Formed) : NoSigns (receiverTokens o) := by
  cases o with
  | none => exact .nil
  | some x => exact .cons (h x rfl).1 rfl (.cons (h x rfl).2 rfl .nil)

theorem pragmaItem (x : PragmaItem) (h : x.Formed) : NoSigns x.tokens := by
  cases x with
  | single name => exact .cons h rfl .nil
  | group colon name => exact .cons h.1 rfl (.cons h.2 rfl .nil)

theorem pragma {x : Pragma} {k : Kind} (h : x.Formed k) (hk : k.isSign = false) : NoSigns x.tokens :=
  .cons h.1 hk ((separated pragmaItem h.2.1).append (.cons h.2.2 rfl .nil))

end NoSigns

/-! ## Signs before their operands -/

section

variable {A : Token → Expr → Prop}

/-- Some pieces are put before `tail`, and each sign among them stands before its trivia and an operand of it. -/
inductive Signed (A : Token → Expr → Prop) : List Piece → List Piece → Prop where
  | refl {tail : List Piece} : Signed A tail tail
  | cons {p : Piece} {ps tail : List Piece} :
      (∀ t, p = .token t → t.kind.isSign = true →
        ∃ operand rest, A t operand ∧ ps = .gap t.trailing :: operand.pieces rest) →
      Signed A ps tail → Signed A (p :: ps) tail

namespace Signed

variable {ps mid tail : List Piece}

/-- A piece that is no token of the source may be put before anything. -/
theorem other {p : Piece} (hp : ∀ t, p ≠ .token t) (h : Signed A ps tail) : Signed A (p :: ps) tail :=
  .cons (fun t ht => absurd ht (hp t)) h

theorem gap (text : String) (h : Signed A ps tail) : Signed A (.gap text :: ps) tail := by
  refine h.other ?_
  rintro _ ⟨⟩

theorem added (text : String) (h : Signed A ps tail) : Signed A (.added text :: ps) tail := by
  refine h.other ?_
  rintro _ ⟨⟩

theorem respelt (t : Token) (text : String) (h : Signed A ps tail) :
    Signed A (.respelt t text :: .gap t.trailing :: ps) tail := by
  refine (h.gap _).other ?_
  rintro _ ⟨⟩

theorem token {t : Token} (ht : t.kind.isSign = false) (h : Signed A ps tail) :
    Signed A (.token t :: ps) tail := by
  refine .cons ?_ h
  rintro _ ⟨⟩ hsign
  rw [ht] at hsign
  cases hsign

theorem replay {t : Token} (ht : t.kind.isSign = false) (h : Signed A ps tail) :
    Signed A (t.replay ps) tail := token ht (h.gap _)

theorem scanned {t : Token} {k : Kind} (ht : t.Scanned k) (hk : k.isSign = false) (h : Signed A ps tail) :
    Signed A (t.replay ps) tail := h.replay (ht.not_sign hk)

theorem scanned? {o : Option Token} {k : Kind} (ho : ∀ t ∈ o, t.Scanned k) (hk : k.isSign = false)
    (h : Signed A ps tail) : Signed A (replay? o ps) tail := by
  cases o with
  | none => exact h
  | some t => exact h.scanned (ho t rfl) hk

/-- An operator may be put before an operand of it. -/
theorem operator {t : Token} {operand : Expr} {rest : List Piece} (ht : A t operand)
    (h : Signed A (operand.pieces rest) tail) : Signed A (t.replay (operand.pieces rest)) tail := by
  refine .cons ?_ (h.gap _)
  rintro _ ⟨⟩ _
  exact ⟨operand, rest, ht, rfl⟩

/-- What lays out tokens that are no signs may be put before anything. -/
theorem laid {ts us : List Token} {n : Nat} (hlaid : Laid ts us n ps mid) (hts : NoSigns ts)
    (h : Signed A mid tail) : Signed A ps tail := by
  induction hlaid with
  | nil => exact h
  | append _ _ ih ih' =>
      obtain ⟨hts, hus⟩ := List.forall_mem_append.mp hts
      exact ih hts (ih' hus h)
  | gap _ => exact h.gap _
  | added _ _ => exact h.added _
  | token _ _ ih => exact token (hts _ List.mem_cons_self) (ih .nil (h.gap _))
  | bare _ _ => exact token (hts _ List.mem_cons_self) h
  | respelt _ _ => exact h.respelt _ _
  | dropped _ => exact h.gap _
  | lost _ => exact h

end Signed

section Parts

variable {ps tail : List Piece} (h : Signed A ps tail)
include h

theorem functionWord_signed : Signed A (functionWord ps) tail := .added _ (.gap _ h)

theorem closeArrow_signed : Signed A (closeArrow ps) tail := .added _ (.gap _ (.added _ h))

theorem arrowParamsPieces_signed {xs : Separated Param} (hxs : xs.Formed Param.Formed) :
    Signed A (arrowParamsPieces xs ps) tail := by
  have hfirst {x : Param} (hx : x.Formed) : x.firstToken.kind.isSign = false := by
    cases x with
    | plain name => exact hx.not_sign rfl
    | pass mark handler => exact hx.1.not_sign rfl
    | rest name dots => exact hx.1.not_sign rfl
  induction xs with
  | nil => exact h
  | one x => exact h.replay (hfirst hxs)
  | more x comma xs ih => exact .replay (hfirst hxs.1) (.scanned hxs.2.1 rfl (ih hxs.2.2))

theorem Func.opening_signed {f : Func} (hkeyword : ∀ k ∈ f.keyword, k.Scanned (.word .function))
    (hname : ∀ n ∈ f.name, n.Scanned .identifier) (hparams : f.params.Formed)
    (hreceiver : ∀ r ∈ f.receiver, r.Formed) : Signed A (f.opening ps) tail := by
  have hwords := (NoSigns.toList hkeyword rfl).append (NoSigns.toList hname rfl)
  have htokens := (hwords.append (.params hparams)).append (.receiver hreceiver)
  exact .laid (Func.opening_laid hkeyword hname hparams hreceiver ps) htokens h

theorem Member.signed {m : Member} (hm : m.FormedWord) : Signed A (m.pieces ps) tail :=
  .scanned hm.1 rfl (.replay hm.name_not_sign h)

theorem DottedName.signed {d : DottedName} (hd : d.Formed) : Signed A (d.pieces ps) tail := by
  obtain ⟨first, members⟩ := d
  refine .scanned hd.1 rfl ?_
  have hmembers := hd.2
  induction members with
  | nil => exact h
  | cons m ms ih =>
      obtain ⟨hm, hms⟩ := List.forall_mem_cons.mp hmembers
      exact .scanned hm.1 rfl (.scanned hm.2 rfl (ih ⟨hd.1, hms⟩ hms))

theorem prototypePieces_signed (colons : Token) {name : Option Token} (hname : ∀ n ∈ name, n.Scanned .identifier) :
    Signed A (prototypePieces colons name ps) tail := by
  refine .added _ (.added _ (.gap _ ?_))
  cases name with
  | none => exact h
  | some n => exact .added _ (.scanned (hname n rfl) rfl h)

end Parts

/-! ## Trees -/

/-- What the expressions apply is allowed. -/
abbrev AllApplied (A : Token → Expr → Prop) (es : List Expr) : Prop :=
  ∀ e ∈ es, ∀ t operand, e.applied? = some (t, operand) → A t operand

mutual

theorem Expr.signed {ps tail : List Piece} (h : Signed A ps tail) :
    ∀ e : Expr, e.Formed → AllApplied A e.subexprs → Signed A (e.pieces ps) tail
  | .head x, hf, ha => by
    obtain ⟨hself, hparts⟩ := List.forall_mem_cons.mp ha
    exact x.signed h hf hself hparts
  | .suffix leading s, hf, ha => by
    obtain ⟨hself, hparts⟩ := List.forall_mem_cons.mp ha
    obtain ⟨hleading, hs⟩ := List.forall_mem_append.mp hparts
    exact leading.signed (s.signed h hf.2 hself hs) hf.1 hleading

theorem Head.signed {ps tail : List Piece} (h : Signed A ps tail) :
    ∀ x : Head, x.Formed → (∀ t operand, x.applied? = some (t, operand) → A t operand) →
      AllApplied A x.subexprs → Signed A (x.pieces ps) tail
  | .literal _, hf, _, _ => h.replay (Head.literal_not_sign hf)
  | .ident _, hf, _, _ => h.scanned hf rfl
  | .pass _ _, hf, _, _ => .scanned hf.1 rfl (.scanned? hf.2 rfl h)
  | .rest _ _, hf, _, _ => .scanned hf.1 rfl (.scanned hf.2 rfl h)
  | .unary _ operand, hf, hself, ha => .operator (hself _ _ rfl) (operand.signed h hf.2 ha)
  | .construct _ _ arguments, hf, _, ha =>
    .scanned hf.1 rfl (DottedName.signed (arguments.signed h rfl rfl hf.2.2 ha) hf.2.1)
  | .array elements, hf, _, ha => elements.signed h rfl rfl hf ha
  | .object _ entries _, hf, _, ha =>
    .scanned hf.1 rfl (entriesPieces_signed (.scanned hf.2.2 rfl h) entries hf.2.1 ha)
  | .group _ inner _, hf, _, ha => .scanned hf.1 rfl (inner.signed (.scanned hf.2.2 rfl h) hf.2.1 ha)
  | .function f, hf, _, ha => f.signed h hf ha
  | .arrow _ _ body, hf, _, ha =>
    have hbody := body.signed (closeArrow_signed h) hf.2.2 ha
    have hopen := Signed.added "\x7b" (.gap _ (.added "return" (hbody.gap " ")))
    functionWord_signed (.scanned hf.1.1 rfl
      (arrowParamsPieces_signed (.scanned hf.1.2.2 rfl hopen) hf.1.2.1))
  | .simpleArrow _ body, hf, _, ha =>
    have hbody := body.signed (closeArrow_signed h) hf.2 ha
    have hopen := Signed.added "\x7b" (.gap _ (.added "return" (hbody.gap " ")))
    functionWord_signed (.added _ (.added _ (.added _ (hopen.gap " "))))

theorem Suffix.signed {ps tail : List Piece} (h : Signed A ps tail) :
    ∀ s : Suffix, s.Formed → (∀ t operand, s.applied? = some (t, operand) → A t operand) →
      AllApplied A s.subexprs → Signed A (s.pieces ps) tail
  | .binary operator right, hf, hself, ha => by
    have hright := right.signed h hf.2 ha
    rw [Suffix.pieces, operatorPieces]
    split
    · exact hright.respelt _ _
    · exact hright.respelt _ _
    · exact .operator (hself _ _ rfl) hright
  | .ternary _ consequent _ alternate, hf, _, ha => by
    obtain ⟨hconsequent, halternate⟩ := List.forall_mem_append.mp ha
    have hrest := Signed.scanned hf.2.2.1 rfl (alternate.signed h hf.2.2.2 halternate)
    exact .scanned hf.1 rfl (consequent.signed hrest hf.2.1 hconsequent)
  | .call arguments, hf, _, ha => arguments.signed h rfl rfl hf ha
  | .invoke _ arguments, hf, _, ha => Member.signed (arguments.signed h rfl rfl hf.2 ha) hf.1
  | .index _ inner _, hf, _, ha => .scanned hf.1 rfl (inner.signed (.scanned hf.2.2 rfl h) hf.2.1 ha)
  | .property _, hf, _, _ => Member.signed h hf
  | .prototype colons _, hf, _, _ => prototypePieces_signed h colons hf.2

theorem Enclosed.signed {ps tail : List Piece} (h : Signed A ps tail) {o c : Punct}
    (ho : (Kind.punct o).isSign = false) (hc : (Kind.punct c).isSign = false) :
    ∀ e : Enclosed, e.Formed o c → AllApplied A e.subexprs → Signed A (e.pieces ps) tail
  | ⟨_, items, _⟩, hf, ha => .scanned hf.1 ho (exprsPieces_signed (.scanned hf.2.2 hc h) items hf.2.1 ha)

theorem exprsPieces_signed {ps tail : List Piece} (h : Signed A ps tail) :
    ∀ es : Separated Expr, exprsFormed es → AllApplied A (exprsSubexprs es) → Signed A (exprsPieces es ps) tail
  | .nil, _, _ => h
  | .one e, hf, ha => e.signed h hf ha
  | .more e _ es, hf, ha => by
    obtain ⟨he, hes⟩ := List.forall_mem_append.mp ha
    exact e.signed (.scanned hf.2.1 rfl (exprsPieces_signed h es hf.2.2 hes)) hf.1 he

theorem entriesPieces_signed {ps tail : List Piece} (h : Signed A ps tail) :
    ∀ es : Separated Entry, entriesFormed es → AllApplied A (entriesSubexprs es) →
      Signed A (entriesPieces es ps) tail
  | .nil, _, _ => h
  | .one ⟨_, _, value⟩, hf, ha => .replay hf.1.not_sign (.scanned hf.2.1 rfl (value.signed h hf.2.2 ha))
  | .more ⟨key, colon, value⟩ comma es, hf, ha => by
    obtain ⟨hvalue, hes⟩ := List.forall_mem_append.mp ha
    have hrest := entriesPieces_signed h es hf.2.2 hes
    obtain ⟨⟨hkey, hcolon, hf⟩, hcomma, _⟩ := hf
    by_cases hnil : es = .nil
    · subst hnil
      exact .replay hkey.not_sign (.scanned hcolon rfl (value.signed (h.gap _) hf hvalue))
    · rw [entriesPieces_more hnil]
      exact .replay hkey.not_sign (.scanned hcolon rfl (value.signed (.scanned hcomma rfl hrest) hf hvalue))

theorem Func.signed {ps tail : List Piece} (h : Signed A ps tail) :
    ∀ f : Func, f.Formed → AllApplied A f.subexprs → Signed A (f.pieces ps) tail
  | ⟨_, _, _, _, ⟨opening, body, _⟩⟩, hf, ha => by
    obtain ⟨hkeyword, hname, hparams, hreceiver, hopening, hbody, hclosing⟩ := hf
    have hstmts := stmtsPieces_signed (.scanned hclosing rfl h) body hbody ha
    have hprologue := Signed.laid (prologue_laid hparams.2.1 hreceiver _) .nil (hstmts.gap opening.trailing)
    exact Func.opening_signed (.token (hopening.not_sign rfl) hprologue) hkeyword hname hparams hreceiver

theorem Block.signed {ps tail : List Piece} (h : Signed A ps tail) :
    ∀ b : Block, b.Formed → AllApplied A b.subexprs → Signed A (b.pieces ps) tail
  | ⟨_, body, _⟩, hf, ha => .scanned hf.1 rfl (stmtsPieces_signed (.scanned hf.2.2 rfl h) body hf.2.1 ha)

theorem stmtsPieces_signed {ps tail : List Piece} (h : Signed A ps tail) :
    ∀ ss : List Stmt, stmtsFormed ss → AllApplied A (stmtsSubexprs ss) → Signed A (stmtsPieces ss ps) tail
  | [], _, _ => h
  | s :: ss, hf, ha => by
    obtain ⟨hs, hss⟩ := List.forall_mem_append.mp ha
    exact s.signed (stmtsPieces_signed h ss hf.2 hss) hf.1 hs

theorem Stmt.signed {ps tail : List Piece} (h : Signed A ps tail) :
    ∀ s : Stmt, s.Formed → AllApplied A s.subexprs → Signed A (s.pieces ps) tail
  | .expr value _, hf, ha => value.signed (.scanned hf.2 rfl h) hf.1 ha
  | .empty _, hf, _ => h.scanned hf rfl
  | .conditional first others, hf, ha => by
    obtain ⟨hfirst, hothers⟩ := List.forall_mem_append.mp ha
    exact first.signed (others.signed h hf.2 hothers) hf.1 hfirst
  | .while loop, hf, ha => loop.signed h hf ha
  | .for _ _ init _ test _ update _ body, hf, ha => by
    obtain ⟨hkeyword, hopening, hinit, hfirst, htest, hsecond, hupdate, hclosing, hbody⟩ := hf
    obtain ⟨ha, habody⟩ := List.forall_mem_append.mp ha
    obtain ⟨ha, haupdate⟩ := List.forall_mem_append.mp ha
    obtain ⟨hainit, hatest⟩ := List.forall_mem_append.mp ha
    have hblock := Signed.scanned hclosing rfl (body.signed h hbody habody)
    have hupdates := Signed.scanned hsecond rfl (exprsPieces_signed hblock update hupdate haupdate)
    have htests := Signed.scanned hfirst rfl (exprsPieces_signed hupdates test htest hatest)
    exact .scanned hkeyword rfl (.scanned hopening rfl (init.signed htests hinit hainit))
  | .forIn _ _ _ _ _ object _ body, hf, ha => by
    obtain ⟨hkeyword, hopening, hvar, hname, hin, hobject, hclosing, hbody⟩ := hf
    obtain ⟨haobject, habody⟩ := List.forall_mem_append.mp ha
    have hblock := Signed.scanned hclosing rfl (body.signed h hbody habody)
    have hrange := Signed.scanned hin rfl (object.signed hblock hobject haobject)
    exact .scanned hkeyword rfl (.scanned hopening rfl (.scanned? hvar rfl (.scanned hname rfl hrange)))
  | .jump _ _ _, hf, _ => by
    have hlabel := Signed.scanned? hf.2.1 rfl (.scanned hf.2.2 rfl h)
    rcases hf.1 with hword | hword
    · exact .scanned hword rfl hlabel
    · exact .scanned hword rfl hlabel
  | .return _ none _, hf, _ => .scanned hf.1 rfl (.scanned hf.2 rfl h)
  | .return _ (some value) _, hf, ha => .scanned hf.1 rfl (value.signed (.scanned hf.2.2 rfl h) hf.2.1 ha)
  | .throw _ value _, hf, ha => .scanned hf.1 rfl (value.signed (.scanned hf.2.2 rfl h) hf.2.1 ha)
  | .vars list _, hf, ha => list.signed (.scanned hf.2 rfl h) hf.1 ha
  | .function f, hf, ha => f.signed h hf.2.2 ha
  | .labeled _ _ body, hf, ha => .scanned hf.1 rfl (.scanned hf.2.1 rfl (body.signed h hf.2.2 ha))
  | .switch _ _ subject _ _ clauses _, hf, ha => by
    obtain ⟨hkeyword, hopening, hsubject, hclosing, hopenBrace, hclauses, hcloseBrace⟩ := hf
    obtain ⟨hasubject, haclauses⟩ := List.forall_mem_append.mp ha
    have hbraces := Signed.scanned hopenBrace rfl
      (clausesPieces_signed (.scanned hcloseBrace rfl h) clauses hclauses haclauses)
    exact .scanned hkeyword rfl (.scanned hopening rfl
      (subject.signed (.scanned hclosing rfl hbraces) hsubject hasubject))
  | .block b, hf, ha => b.signed h hf ha
  | .include _, hf, _ => .laid (Pragma.laid hf _) (.pragma hf rfl) h
  | .declare _, hf, _ => .laid (Pragma.laid hf _) (.pragma hf rfl) h

theorem Guarded.signed {ps tail : List Piece} (h : Signed A ps tail) {w : Word} :
    ∀ g : Guarded, g.Formed w → AllApplied A g.subexprs → Signed A (g.pieces ps) tail
  | ⟨_, _, test, _, body⟩, hf, ha => by
    obtain ⟨htest, hbody⟩ := List.forall_mem_append.mp ha
    have hblock := Signed.scanned hf.2.2.2.1 rfl (body.signed h hf.2.2.2.2 hbody)
    exact .scanned hf.1 rfl (.scanned hf.2.1 rfl (test.signed hblock hf.2.2.1 htest))

theorem Ladder.signed {ps tail : List Piece} (h : Signed A ps tail) :
    ∀ l : Ladder, l.Formed → AllApplied A l.subexprs → Signed A (l.pieces ps) tail
  | .done, _, _ => h
  | .otherwise _ body, hf, ha => .scanned hf.1 rfl (body.signed h hf.2 ha)
  | .branch _ next others, hf, ha => by
    obtain ⟨hnext, hothers⟩ := List.forall_mem_append.mp ha
    exact .scanned hf.1 rfl (next.signed (others.signed h hf.2.2 hothers) hf.2.1 hnext)

theorem ForInit.signed {ps tail : List Piece} (h : Signed A ps tail) :
    ∀ i : ForInit, i.Formed → AllApplied A i.subexprs → Signed A (i.pieces ps) tail
  | .exprs items, hf, ha => exprsPieces_signed h items hf ha
  | .vars list, hf, ha => list.signed h hf ha

theorem VarList.signed {ps tail : List Piece} (h : Signed A ps tail) :
    ∀ l : VarList, l.Formed → AllApplied A l.subexprs → Signed A (l.pieces ps) tail
  | ⟨_, items⟩, hf, ha => .scanned hf.1 rfl (declsPieces_signed h items hf.2 ha)

theorem declsPieces_signed {ps tail : List Piece} (h : Signed A ps tail) :
    ∀ ds : Separated Decl, declsFormed ds → AllApplied A (declsSubexprs ds) → Signed A (declsPieces ds ps) tail
  | .nil, _, _ => h
  | .one d, hf, ha => d.signed h hf ha
  | .more d _ ds, hf, ha => by
    obtain ⟨hd, hds⟩ := List.forall_mem_append.mp ha
    exact d.signed (.scanned hf.2.1 rfl (declsPieces_signed h ds hf.2.2 hds)) hf.1 hd

theorem Decl.signed {ps tail : List Piece} (h : Signed A ps tail) :
    ∀ d : Decl, d.Formed → AllApplied A d.subexprs → Signed A (d.pieces ps) tail
  | ⟨_, none⟩, hf, _ => h.scanned hf rfl
  | ⟨_, some (_, value)⟩, hf, ha => .scanned hf.1 rfl (.scanned hf.2.1 rfl (value.signed h hf.2.2 ha))

theorem clausesPieces_signed {ps tail : List Piece} (h : Signed A ps tail) :
    ∀ cs : List Clause, clausesFormed cs → AllApplied A (clausesSubexprs cs) →
      Signed A (clausesPieces cs ps) tail
  | [], _, _ => h
  | ⟨_, none, _, body⟩ :: cs, hf, ha => by
    obtain ⟨hbody, hcs⟩ := List.forall_mem_append.mp ha
    have hstmts := stmtsPieces_signed (clausesPieces_signed h cs hf.2 hcs) body hf.1.2.2 hbody
    exact .scanned hf.1.1 rfl (.scanned hf.1.2.1 rfl hstmts)
  | ⟨_, some test, _, body⟩ :: cs, hf, ha => by
    obtain ⟨ha, hcs⟩ := List.forall_mem_append.mp ha
    obtain ⟨htest, hbody⟩ := List.forall_mem_append.mp ha
    have hstmts := stmtsPieces_signed (clausesPieces_signed h cs hf.2 hcs) body hf.1.2.2.2 hbody
    exact .scanned hf.1.1 rfl (test.signed (.scanned hf.1.2.2.1 rfl hstmts) hf.1.2.1 htest)

end

theorem Program.signed {x : Program} (hx : x.Formed) (ha : AllApplied A x.subexprs) : Signed A x.pieces [] :=
  .gap _ (stmtsPieces_signed (.scanned hx.2 rfl .refl) x.body hx.1 ha)

/-- After a sign among the pieces come its trivia and an operand of it. -/
theorem Signed.operand {ps tail before rest : List Piece} {t : Token} (h : Signed A ps tail) (htail : tail = [])
    (hsign : t.kind.isSign = true) (hps : ps = before ++ .token t :: rest) :
    ∃ operand more, A t operand ∧ rest = .gap t.trailing :: operand.pieces more := by
  induction h generalizing before with
  | refl =>
      subst htail
      exact absurd hps (by simp)
  | cons hp _ ih =>
      cases before with
      | nil =>
          cases hps
          exact hp t rfl hsign
      | cons q before =>
          cases hps
          exact ih htail rfl

end

/-! ## What operands begin with -/

/-- An operand begins with a sign only if the sign is an operator there. -/
theorem Head.unary_of_pieces {x : Head} (hf : x.Formed) {u : Token} (hu : u.kind.isSign = true)
    {tail rest : List Piece} (h : x.pieces tail = .token u :: rest) : ∃ inner, x = .unary u inner := by
  have hother {t : Token} {ps : List Piece} (ht : t.kind.isSign = false)
      (heq : Piece.token t :: ps = .token u :: rest) : False := by
    cases heq
    rw [ht] at hu
    cases hu
  cases x with
  | literal t => exact (hother (Head.literal_not_sign hf) h).elim
  | ident t => exact (hother (hf.not_sign rfl) h).elim
  | pass mark handler => exact (hother (hf.1.not_sign rfl) h).elim
  | rest name dots => exact (hother (hf.1.not_sign rfl) h).elim
  | unary operator operand =>
      cases h
      exact ⟨operand, rfl⟩
  | construct keyword callee arguments => exact (hother (hf.1.not_sign rfl) h).elim
  | array elements =>
      obtain ⟨opening, items, closing⟩ := elements
      exact (hother (hf.1.not_sign rfl) h).elim
  | object opening entries closing => exact (hother (hf.1.not_sign rfl) h).elim
  | group opening inner closing => exact (hother (hf.1.not_sign rfl) h).elim
  | function f =>
      obtain ⟨keyword, name, params, receiver, ⟨opening, body, closing⟩⟩ := f
      cases keyword with
      | none => cases h
      | some keyword => exact (hother ((hf.1 keyword rfl).not_sign rfl) h).elim
  | arrow params sign body => cases h
  | simpleArrow sign body => cases h

theorem Expr.lead_of_pieces {e : Expr} (hf : e.Formed) {u : Token} (hu : u.kind.isSign = true)
    {tail rest : List Piece} (h : e.pieces tail = .token u :: rest) : ∃ inner, e.lead = .unary u inner := by
  match e with
  | .head x => exact x.unary_of_pieces hf hu h
  | .suffix leading s => exact leading.lead_of_pieces hf.1 hu h

theorem Expr.pieces_of_lead {u : Token} {inner : Expr} :
    ∀ {e : Expr}, e.lead = .unary u inner → ∀ tail, ∃ rest, e.pieces tail = .token u :: rest
  | .head x, h, tail => by
    cases h
    exact ⟨_, rfl⟩
  | .suffix leading s, h, tail => pieces_of_lead (e := leading) h (s.pieces tail)

/-! ## Neighbours -/

theorem Expr.eq_of_applied? {e operand : Expr} {t : Token} (h : e.applied? = some (t, operand)) :
    e = .head (.unary t operand) ∨ ∃ leading, e = .suffix leading (.binary t operand) := by
  cases e with
  | head x =>
      cases x with
      | unary operator right =>
          cases h
          exact .inl rfl
      | _ => cases h
  | suffix leading s =>
      cases s with
      | binary operator right =>
          cases h
          exact .inr ⟨leading, rfl⟩
      | _ => cases h

/-- What an expression applies is written before the operand. -/
theorem Expr.applied_suffix {e : Expr} {t : Token} {operand : Expr} (h : e.applied? = some (t, operand))
    (ht : t.kind.isSign = true) (tail : List Piece) :
    ∃ more, t.replay (operand.pieces more) <:+ e.pieces tail := by
  refine ⟨tail, ?_⟩
  rcases eq_of_applied? h with rfl | ⟨leading, rfl⟩
  · exact List.suffix_refl _
  · have hoperator : operatorPieces t (operand.pieces tail) = t.replay (operand.pieces tail) := by
      rcases Kind.eq_of_isSign ht with hkind | hkind
      · rw [operatorPieces, hkind]
      · rw [operatorPieces, hkind]
    rw [← hoperator]
    exact (leading.puts _).unsevered.suffix

theorem Expr.Formed.applied {e : Expr} (he : e.Formed) {t : Token} {operand : Expr}
    (h : e.applied? = some (t, operand)) : operand.Formed := by
  rcases eq_of_applied? h with rfl | ⟨leading, rfl⟩
  · exact he.2
  · exact he.2.2

theorem Piece.join_gap (text : String) : Piece.join [.gap text] = text := by
  rw [Piece.join, List.map_singleton, String.join_cons]
  exact String.append_empty

/-- Between a sign and what its operand begins with stands nothing but the trivia of the sign. -/
theorem gaps_before_operand {gaps rest more : List Piece} {u : Token} {text : String} {operand : Expr}
    (hgaps : ∀ g ∈ gaps, g.isGap = true)
    (h : gaps ++ .token u :: rest = .gap text :: operand.pieces more) :
    Piece.join gaps = text ∧ operand.pieces more = .token u :: rest := by
  obtain ⟨p, ps, hpieces, hp⟩ := operand.pieces_beginsLexeme more
  match gaps with
  | [] => cases h
  | [g] =>
      obtain ⟨rfl, hrest⟩ := List.cons.inj h
      exact ⟨Piece.join_gap text, hrest.symm⟩
  | g :: g' :: gaps =>
      -- A second gap would be what the operand begins with.
      obtain ⟨rfl, hrest⟩ := List.cons.inj h
      rw [hpieces] at hrest
      obtain ⟨rfl, _⟩ := List.cons.inj hrest
      rw [hgaps g' (List.mem_cons_of_mem _ List.mem_cons_self)] at hp
      cases hp

section

variable {limit : Nat} {source : List Char} {x : Program} (h : parseProgramWithin limit source = .ok x)
include h

theorem formed_of_mem_subexprs {e : Expr} (he : e ∈ x.subexprs) : e.Formed := by
  obtain ⟨last, _, hread⟩ := exists_allRead h
  obtain ⟨colon, after, hstands⟩ := x.holds_of_mem_subexprs he
  exact (hread _ hstands).formed

/-- Two signs of one kind are written next to each other exactly if one is applied to the other, with what
    the source has between them. -/
theorem neighbours_iff {t u : Token} (ht : t.kind.isSign = true) (hu : u.kind = t.kind) (between : String) :
    Neighbours x.pieces t u between ↔ (t, u) ∈ x.signs ∧ between = t.trailing := by
  constructor
  · rintro ⟨before, gaps, rest, hps, hgaps, hjoin⟩
    have hsigned : Signed (fun t operand => ∃ e ∈ x.subexprs, e.applied? = some (t, operand)) x.pieces [] :=
      Program.signed (parseProgramWithin_formed h) fun e he _ _ happlied => ⟨e, he, happlied⟩
    obtain ⟨operand, more, ⟨e, he, happlied⟩, heq⟩ := hsigned.operand rfl ht hps
    obtain ⟨htext, hpieces⟩ := gaps_before_operand hgaps heq
    have hformed : operand.Formed := (formed_of_mem_subexprs h he).applied happlied
    obtain ⟨inner, hlead⟩ := operand.lead_of_pieces hformed (by rw [hu, ht]) hpieces
    refine ⟨List.mem_filterMap.mpr ⟨e, he, ?_⟩, hjoin.symm.trans htext⟩
    exact Expr.signs?_eq_some.mpr ⟨operand, inner, happlied, hlead, ht, hu⟩
  · rintro ⟨hmem, rfl⟩
    obtain ⟨e, he, hsigns⟩ := List.mem_filterMap.mp hmem
    obtain ⟨operand, inner, happlied, hlead, _⟩ := Expr.signs?_eq_some.mp hsigns
    obtain ⟨colon, after, hstands⟩ := x.holds_of_mem_subexprs he
    obtain ⟨tail, hwritten⟩ := hstands.written
    obtain ⟨more, hsuffix⟩ := Expr.applied_suffix happlied ht tail
    obtain ⟨rest, hpieces⟩ := Expr.pieces_of_lead hlead more
    obtain ⟨before, hps⟩ := hsuffix.trans hwritten
    refine ⟨before, [.gap t.trailing], rest, ?_, List.forall_mem_singleton.mpr rfl, Piece.join_gap _⟩
    rw [← hps, Token.replay, hpieces]
    rfl

theorem signsApart_iff_trailing : x.SignsApart ↔ ∀ p ∈ x.signs, p.1.trailing ≠ "" := by
  constructor
  · rintro hapart ⟨t, u⟩ hmem
    obtain ⟨e, _, hsigns⟩ := List.mem_filterMap.mp hmem
    obtain ⟨_, _, _, _, ht, hu⟩ := Expr.signs?_eq_some.mp hsigns
    exact hapart t u t.trailing ht hu ((neighbours_iff h ht hu _).mpr ⟨hmem, rfl⟩)
  · intro hall t u between ht hu hnext
    obtain ⟨hmem, rfl⟩ := (neighbours_iff h ht hu between).mp hnext
    exact hall _ hmem

end

/-- For every source that is accepted, two signs of one kind are next to each other in the output exactly if
    one of them was read as an operator on an operand that begins with the other, and then what stands between
    them is what the source has there. So signs are written apart if and only if no sign of the source has the
    sign of its operand right after it. -/
theorem signsApart_iff {file source out : String} (h : compile file source = .ok out) :
    ∃ x helpers, analyze source = .ok (x, helpers) ∧ out = x.output ++ helperText helpers ∧
      (∀ t u between, t.kind.isSign = true → u.kind = t.kind →
        (Neighbours x.pieces t u between ↔ (t, u) ∈ x.signs ∧ between = t.trailing)) ∧
      (x.SignsApart ↔ ∀ p ∈ x.signs, p.1.trailing ≠ "") := by
  obtain ⟨x, helpers, hrun, hout⟩ := compile_ok h
  have hparse := (analyze_ok hrun).1
  exact ⟨x, helpers, hrun, hout, fun t u between ht hu => neighbours_iff hparse ht hu between,
    signsApart_iff_trailing hparse⟩

/-- A source with signs before signs, at several depths, all of them apart. -/
def apartSource : String :=
  "var f = (x) -> [x + +x * 2, - /**/-x];\nfunction g(y) \x7b return y -\n- -f(y) + -y; \x7d"

theorem signsApart_iff_apartSource :
    ∃ out x helpers, compile "apart" apartSource = .ok out ∧ analyze apartSource = .ok (x, helpers) ∧
      out = x.output ++ helperText helpers ∧ x.signs.length = 4 ∧ x.SignsApart := by
  have hrun : (analyze apartSource).toOption.map (fun r => (r.1.signs.length,
      r.1.signs.all fun p => p.1.trailing != "")) = some (4, true) := by
    decide +kernel
  obtain ⟨⟨y, names⟩, hanalyze, hvalues⟩ := ok_of_toOption hrun
  obtain ⟨hlength, htrailing⟩ := Prod.mk.inj hvalues
  have hcompile := compile_of_analyze "apart" hanalyze
  obtain ⟨x, helpers, hanalyze', hout, _, hapart⟩ := signsApart_iff hcompile
  rw [hanalyze] at hanalyze'
  cases hanalyze'
  refine ⟨_, y, names, hcompile, hanalyze, hout, hlength, hapart.mpr ?_⟩
  intro p hp
  exact bne_iff_ne.mp (List.all_eq_true.mp htrailing p hp)

/-- A source with a sign right before the sign of its operand. -/
def joinedSource : String := "var x = 1;\nvar y = --x;\n"

/-- The two signs are written side by side, as they stand. -/
theorem not_signsApart_joinedSource :
    ∃ x, analyze joinedSource = .ok (x, []) ∧ x.output = joinedSource ∧ ¬x.SignsApart := by
  have hrun : (analyze joinedSource).toOption.map (fun r => ((r.1.output, r.2),
      r.1.signs.any fun p => p.1.trailing == "")) = some ((joinedSource, []), true) := by
    decide +kernel
  obtain ⟨⟨x, helpers⟩, hx, hvalues⟩ := ok_of_toOption hrun
  obtain ⟨hout, hjoined⟩ := Prod.mk.inj hvalues
  obtain ⟨hout, rfl⟩ := Prod.mk.inj hout
  refine ⟨x, hx, hout, ?_⟩
  intro hapart
  obtain ⟨p, hp, hempty⟩ := List.any_eq_true.mp hjoined
  exact (signsApart_iff_trailing (analyze_ok hx).1).mp hapart p hp (beq_iff_eq.mp hempty)

end Respell
