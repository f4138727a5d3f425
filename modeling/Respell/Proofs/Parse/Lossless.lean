import Respell.Proofs.Engine.Parse
import Respell.Proofs.Parse.StmtRules
import Respell.Tree.Tokens

/-!
# Parsing loses nothing

Every production takes the tokens that its tree owns, all of them and in order, from where it began up
to where it ended. The invariant is a `Reading` of the tree's tokens; it is carried through each
production by concatenating the readings of its parts, and through the nesting levels by induction.

A list that was read as expressions and then taken for parameters keeps its tokens, and so does a name
that three dots make a rest parameter.
-/

namespace Respell

open Text

/-! ## Lists of tokens as sums -/

theorem stmtsTokens_eq (ss : List Stmt) : stmtsTokens ss = ss.flatMap Stmt.tokens := by
  induction ss with
  | nil => rfl
  | cons s ss ih => rw [stmtsTokens, ih, List.flatMap_cons]

/-- The tokens of a clause. -/
def Clause.tokens (c : Clause) : List Token :=
  c.keyword :: ((c.test.map Expr.tokens).getD [] ++ c.colon :: stmtsTokens c.body)

theorem clausesTokens_eq (cs : List Clause) : clausesTokens cs = cs.flatMap Clause.tokens := by
  induction cs with
  | nil => rfl
  | cons c cs ih =>
      obtain ⟨keyword, test, colon, body⟩ := c
      cases test <;> simp [clausesTokens, Clause.tokens, ih]

theorem exprsTokens_eq (es : Separated Expr) : exprsTokens es = es.tokens Expr.tokens := by
  induction es with
  | nil => rfl
  | one e => rfl
  | more e comma es ih => rw [exprsTokens, ih, Separated.tokens]

/-- The tokens of an object entry. -/
def Entry.tokens (e : Entry) : List Token := e.key :: e.colon :: e.value.tokens

theorem entriesTokens_eq (es : Separated Entry) : entriesTokens es = es.tokens Entry.tokens := by
  induction es with
  | nil => rfl
  | one e => cases e; rfl
  | more e comma es ih =>
      obtain ⟨key, colon, value⟩ := e
      rw [entriesTokens, ih]
      rfl

theorem Enclosed.tokens_eq (e : Enclosed) :
    e.tokens = e.opening :: (exprsTokens e.items ++ [e.closing]) := by
  cases e; rfl

theorem Block.tokens_eq (b : Block) :
    b.tokens = b.opening :: (stmtsTokens b.body ++ [b.closing]) := by
  cases b; rfl

theorem declsTokens_eq (ds : Separated Decl) : declsTokens ds = ds.tokens Decl.tokens := by
  induction ds with
  | nil => rfl
  | one d => rfl
  | more d comma ds ih => rw [declsTokens, ih, Separated.tokens]

/-- The tokens of a receiver's name, if there is one. -/
def receiverTokens (named : Option Receiver) : List Token := (named.map Receiver.tokens).getD []

/-! ## Expressions as parameters -/

theorem tokens_of_toParam? {e : Expr} {x : Param} (h : e.toParam? = some x) : x.tokens = e.tokens := by
  unfold Expr.toParam? at h
  split at h <;> cases h <;> rfl

theorem tokens_of_map? {items : Separated Expr} {params : Separated Param}
    (h : items.map? Expr.toParam? = some params) :
    params.tokens Param.tokens = items.tokens Expr.tokens := by
  induction items generalizing params with
  | nil => cases h; rfl
  | one e =>
      obtain ⟨x, hx, rfl⟩ := Option.map_eq_some_iff.mp h
      exact tokens_of_toParam? hx
  | more e comma items ih =>
      rw [Separated.map?] at h
      split at h
      · next x xs hx hxs =>
          cases h
          rw [Separated.tokens, Separated.tokens, tokens_of_toParam? hx, ih hxs]
      · cases h

/-- A list that was read as expressions has the same tokens as parameters. -/
theorem tokens_of_params {list : Enclosed} {items : Separated Param}
    (h : list.items.map? Expr.toParam? = some items) :
    Params.tokens ⟨list.opening, items, list.closing⟩ = list.tokens := by
  rw [Params.tokens, tokens_of_map? h, ← exprsTokens_eq, Enclosed.tokens_eq]

namespace Parser

/-! ## Single tokens and loops -/

variable {α : Type} {inner : Inner} {colon : Colon} {p q r : Place}

theorem reading_of_optional {k : Kind} {o : Option Token} (h : optional k p = .ok (o, q)) :
    Reading p o.toList q := by
  rcases optional_ok h with ⟨t, rfl, ht⟩ | ⟨rfl, rfl, _⟩
  · exact .single (taken_of_expect ht)
  · exact .nil

theorem Rounds.reading {item : Parser α} {f : α → List Token} {as : List α}
    (hitem : ∀ {p a q}, item p = .ok (a, q) → Reading p (f a) q) (h : Rounds item p as q) :
    Reading p (as.flatMap f) q := by
  induction h with
  | nil => exact .nil
  | cons ha _ ih => exact (hitem ha).append ih

theorem CommaRounds.reading {item : Parser α} {f : α → List Token} {items : Separated α}
    (hitem : ∀ {p a q}, item p = .ok (a, q) → Reading p (f a) q) (h : CommaRounds item p items q) :
    Reading p (items.tokens f) q := by
  induction h with
  | nil => exact .nil
  | one ha => exact hitem ha
  | more ha hc _ ih => exact (hitem ha).append (.cons (taken_of_expect hc) ih)

/-! ## One nesting level -/

/-- The parsers of a nesting level read the tokens of their trees. -/
abbrev InnerReads (inner : Inner) : Prop :=
  Keeps inner (fun p s q => Reading p s.tokens q) (fun _ _ p e q => Reading p e.tokens q)

variable (hinner : InnerReads inner)
include hinner

theorem reading_of_commaRounds {items : Separated Expr}
    (h : CommaRounds (inner.expression colon .lowest) p items q) :
    Reading p (exprsTokens items) q := by
  rw [exprsTokens_eq]
  exact h.reading hinner.expression

theorem enclosed_reading {o c : Punct} {e : Enclosed} (h : enclosed inner colon o c p = .ok (e, q)) :
    Reading p e.tokens q := by
  obtain ⟨p₁, p₂, ho, hitems, hc⟩ := enclosed_ok h
  rw [Enclosed.tokens_eq]
  exact .cons (taken_of_expect ho)
    ((reading_of_commaRounds hinner hitems).append (.single (taken_of_expect hc)))

theorem reading_of_rounds {ss : List Stmt} (h : Rounds inner.statement p ss q) :
    Reading p (stmtsTokens ss) q := by
  rw [stmtsTokens_eq]
  exact h.reading hinner.statement

theorem block_reading {b : Block} (h : block inner p = .ok (b, q)) : Reading p b.tokens q := by
  obtain ⟨p₁, p₂, ho, hbody, hc⟩ := block_ok h
  rw [Block.tokens_eq]
  exact .cons (taken_of_expect ho)
    ((reading_of_rounds hinner hbody).append (.single (taken_of_expect hc)))

omit hinner in
theorem receiver_reading {named : Option Receiver} (h : receiver p = .ok (named, q)) :
    Reading p (receiverTokens named) q := by
  rcases receiver_ok h with ⟨x, p₁, rfl, hcolon, hname⟩ | ⟨rfl, rfl⟩
  · exact .cons (taken_of_expect hcolon) (.single (taken_of_expect hname))
  · exact .nil

/-- The parameters, the receiver and the body of a function, in the order in which they were read. -/
theorem finishFunction_reading {keyword name : Option Token} {list : Enclosed}
    {named : Option Receiver} {f : Func} {p₁ p₂ : Place}
    (hlist : enclosed inner colon .openParen .closeParen p = .ok (list, p₁))
    (hnamed : Reading p₁ (receiverTokens named) p₂)
    (h : finishFunction inner keyword name list named p₂ = .ok (f, q)) :
    ∃ ts, f.tokens = keyword.toList ++ name.toList ++ ts ∧ Reading p ts q := by
  obtain ⟨items, body, hitems, hbody, rfl⟩ := finishFunction_ok h
  have hreading := ((enclosed_reading hinner hlist).append hnamed).append (block_reading hinner hbody)
  -- The keyword and the name were read before `p`, so the reading is of the tokens after them.
  refine ⟨_, ?_, hreading⟩
  rw [Func.tokens, tokens_of_params hitems]
  simp [receiverTokens]

theorem functionRest_reading {keyword name : Option Token} {f : Func}
    (h : functionRest inner colon keyword name p = .ok (f, q)) :
    ∃ ts, f.tokens = keyword.toList ++ name.toList ++ ts ∧ Reading p ts q := by
  obtain ⟨list, p₁, named, p₂, hlist, hnamed, h⟩ := functionRest_ok h
  exact finishFunction_reading hinner hlist (receiver_reading hnamed) h

/-! ## Heads and suffixes -/

theorem ParenRule.reading {h : Head} (hrule : ParenRule inner colon p h q) : Reading p h.tokens q := by
  cases hrule with
  | function hlist _ _ hf =>
      obtain ⟨ts, hts, hreading⟩ := finishFunction_reading hinner hlist .nil hf
      rw [Head.tokens, hts]
      exact hreading
  | bound hlist _ _ _ _ hnamed hf =>
      obtain ⟨ts, hts, hreading⟩ := finishFunction_reading hinner hlist (receiver_reading hnamed) hf
      rw [Head.tokens, hts]
      exact hreading
  | @arrow list items sign body p₁ p₂ _ hlist hitems hsign hbody =>
      rw [Head.tokens, tokens_of_params hitems]
      exact (enclosed_reading hinner hlist).append
        (.cons (taken_of_expect hsign) (hinner.expression hbody))
  | @group list _ e _ _ _ hlist he =>
      -- The group was read as a list, of which it is the only item.
      have hreading := enclosed_reading hinner hlist
      rw [Enclosed.tokens_eq, he] at hreading
      exact hreading

omit hinner in
theorem member_reading {m : Member} (h : member p = .ok (m, q)) : Reading p m.tokens q := by
  obtain ⟨p₁, hdot, hname⟩ := member_ok h
  exact .cons (taken_of_expect hdot) (.single (taken_of_expect hname))

omit hinner in
theorem key_taken {t : Token} (h : key p = .ok (t, q)) : Taken p t q := by
  rcases key_ok h with hname | ⟨_, _, _, _, hquoted⟩
  · exact taken_of_expect hname
  · exact .quoted hquoted

theorem entry_reading {e : Entry} (h : entry inner colon p = .ok (e, q)) : Reading p e.tokens q := by
  obtain ⟨p₁, p₂, hkey, hcolon, hvalue⟩ := entry_ok h
  exact .cons (key_taken hkey) (.cons (taken_of_expect hcolon) (hinner.expression hvalue))

theorem HeadRule.reading {h : Head} (hrule : HeadRule inner colon p h q) : Reading p h.tokens q := by
  cases hrule with
  | constant ht _ => exact .single (.scanned ht)
  | quoted _ _ ht => exact .single (.quoted ht)
  | ident ht => exact .single (taken_of_expect ht)
  | pass hmark hhandler => exact .cons (taken_of_expect hmark) (reading_of_optional hhandler)
  | array helements => exact enclosed_reading hinner helements
  | object ho hentries hc =>
      rw [Head.tokens, entriesTokens_eq]
      exact .cons (taken_of_expect ho)
        ((hentries.reading (entry_reading hinner)).append (.single (taken_of_expect hc)))
  | construct hk hfirst hmembers hargs =>
      have hcallee := Reading.cons (taken_of_expect hfirst) (hmembers.reading member_reading)
      exact .cons (taken_of_expect hk) (hcallee.append (enclosed_reading hinner hargs))
  | unary hoperator _ hoperand => exact .cons (.scanned hoperator) (hinner.expression hoperand)
  | paren hrule => exact hrule.reading hinner
  | simpleArrow hsign hbody => exact .cons (taken_of_expect hsign) (hinner.expression hbody)
  | function hk hname hf =>
      obtain ⟨ts, hts, hreading⟩ := functionRest_reading hinner hf
      rw [Head.tokens, hts]
      exact ((Reading.single (taken_of_expect hk)).append (reading_of_optional hname)).append hreading

theorem SuffixRule.reading {s : Suffix} (hrule : SuffixRule inner colon p s q) :
    Reading p s.tokens q := by
  cases hrule with
  | binary hoperator _ _ hright => exact .cons (.scanned hoperator) (hinner.expression hright)
  | ternary hquestion _ hconsequent hcolon halternate =>
      exact .cons (taken_of_expect hquestion) ((hinner.expression hconsequent).append
        (.cons (taken_of_expect hcolon) (hinner.expression halternate)))
  | call hargs => exact enclosed_reading hinner hargs
  | invoke hdot hname _ hargs =>
      exact .cons (taken_of_expect hdot) (.cons (.scanned hname) (enclosed_reading hinner hargs))
  | property hdot hname _ _ _ => exact .cons (taken_of_expect hdot) (.single (.scanned hname))
  | index ho hposition hc =>
      exact .cons (taken_of_expect ho)
        ((hinner.expression hposition).append (.single (taken_of_expect hc)))
  | prototype hcolons hname => exact .cons (taken_of_expect hcolons) (reading_of_optional hname)

/-- A round of suffixes keeps the tokens that were read before it and adds those it takes. -/
theorem RoundRule.reading {threshold : Precedence} {e e' : Expr} {p₀ : Place}
    (he : Reading p₀ e.tokens p) (hrule : RoundRule inner colon threshold e p (some e') q) :
    Reading p₀ e'.tokens q := by
  cases hrule with
  | operator _ _ _ hsuffix => exact he.append (hsuffix.reading hinner)
  | tight _ _ hsuffix => exact he.append (hsuffix.reading hinner)
  | rest hname hdots =>
      subst hname
      exact he.append (.single (taken_of_expect hdots))

theorem Growth.reading {threshold : Precedence} {e e' : Expr} {p₀ : Place}
    (he : Reading p₀ e.tokens p)
    (h : Growth (suffix? inner colon threshold) e p e' q) : Reading p₀ e'.tokens q := by
  induction h with
  | refl => exact he
  | stop hround =>
      cases suffix?_ok hround with
      | weak => exact he
      | stop => exact he
  | step hround _ ih => exact ih ((suffix?_ok hround).reading hinner he)

theorem expression_reading {threshold : Precedence} {e : Expr}
    (h : expression inner colon threshold p = .ok (e, q)) : Reading p e.tokens q := by
  obtain ⟨first, p₁, hfirst, hgrowth⟩ := expression_ok h
  have hhead : Reading p (Expr.head first).tokens p₁ := hfirst.reading hinner
  exact Growth.reading hinner hhead hgrowth

/-! ## Statements -/

theorem guarded_reading {w : Word} {g : Guarded} (h : guarded inner w p = .ok (g, q)) :
    Reading p g.tokens q := by
  obtain ⟨p₁, p₂, p₃, p₄, hk, ho, htest, hc, hbody⟩ := guarded_ok h
  obtain ⟨keyword, opening, test, closing, body⟩ := g
  exact .cons (taken_of_expect hk) (.cons (taken_of_expect ho)
    ((hinner.expression htest).append (.cons (taken_of_expect hc) (block_reading hinner hbody))))

theorem LadderRule.reading {l : Ladder} (hrule : LadderRule inner p l q) : Reading p l.tokens q := by
  induction hrule with
  | done => exact .nil
  | otherwise hk hbody => exact .cons (taken_of_expect hk) (block_reading hinner hbody)
  | branch hk hnext _ ih => exact .cons (taken_of_expect hk) ((guarded_reading hinner hnext).append ih)

theorem decl_reading {d : Decl} (h : decl inner p = .ok (d, q)) : Reading p d.tokens q := by
  obtain ⟨p₁, hname, hinit⟩ := decl_ok h
  obtain ⟨name, init⟩ := d
  rcases hinit with ⟨equals, value, p₂, rfl, hequals, hvalue⟩ | ⟨rfl, rfl⟩
  · exact .cons (taken_of_expect hname) (.cons (taken_of_expect hequals) (hinner.expression hvalue))
  · exact .single (taken_of_expect hname)

theorem varList_reading {l : VarList} (h : varList inner p = .ok (l, q)) : Reading p l.tokens q := by
  obtain ⟨p₁, hk, hitems⟩ := varList_ok h
  obtain ⟨keyword, items⟩ := l
  rw [VarList.tokens, declsTokens_eq]
  exact .cons (taken_of_expect hk) (hitems.reading (decl_reading hinner))

theorem ForInitRule.reading {i : ForInit} (hrule : ForInitRule inner p i q) :
    Reading p i.tokens q := by
  cases hrule with
  | vars hlist => exact varList_reading hinner hlist
  | exprs hitems => exact reading_of_commaRounds hinner hitems

theorem clause_reading {c : Clause} (h : clause inner p = .ok (c, q)) : Reading p c.tokens q := by
  obtain ⟨p₁, p₂, hhead, hcolon, hbody⟩ := clause_ok h
  obtain ⟨keyword, test, colon, body⟩ := c
  have hrest := Reading.cons (taken_of_expect hcolon) (reading_of_rounds hinner hbody)
  cases hhead with
  | case hk htest => exact .cons (taken_of_expect hk) ((hinner.expression htest).append hrest)
  | default hk => exact .cons (taken_of_expect hk) hrest

omit hinner in
theorem pragmaItem_reading {groups : Bool} {i : PragmaItem} (h : pragmaItem groups p = .ok (i, q)) :
    Reading p i.tokens q := by
  cases pragmaItem_ok h with
  | group _ hcolon hname => exact .cons (taken_of_expect hcolon) (.single (taken_of_expect hname))
  | single hname => exact .single (taken_of_expect hname)

omit hinner in
theorem pragma_reading {groups : Bool} {x : Pragma} (h : pragma groups p = .ok (x, q)) :
    Reading p x.tokens q := by
  obtain ⟨p₁, p₂, hk, hitems, hs⟩ := pragma_ok h
  exact .cons (.scanned hk) ((hitems.reading pragmaItem_reading).append (.single (taken_of_expect hs)))

theorem StmtRule.reading {s : Stmt} (hrule : StmtRule inner p s q) : Reading p s.tokens q := by
  cases hrule with
  | expr _ _ hvalue hs => exact (hinner.expression hvalue).append (.single (taken_of_expect hs))
  | labeled _ _ hlabel hcolon hbody =>
      -- The label was read as an expression that turned out to be a bare name.
      exact (hinner.expression hlabel).append
        (.cons (taken_of_expect hcolon) (hinner.statement hbody))
  | empty hs => exact .single (taken_of_expect hs)
  | conditional hfirst hothers => exact (guarded_reading hinner hfirst).append (hothers.reading hinner)
  | «while» hloop => exact guarded_reading hinner hloop
  | «for» hk ho hinit hfirst htest hsecond hupdate hc hbody =>
      have hblock := Reading.cons (taken_of_expect hc) (block_reading hinner hbody)
      have hthird := Reading.cons (taken_of_expect hsecond)
        ((reading_of_commaRounds hinner hupdate).append hblock)
      have hsecond := Reading.cons (taken_of_expect hfirst)
        ((reading_of_commaRounds hinner htest).append hthird)
      exact .cons (taken_of_expect hk)
        (.cons (taken_of_expect ho) ((hinit.reading hinner).append hsecond))
  | forIn hk ho hvar hname hin hobject hc hbody =>
      have hblock := Reading.cons (taken_of_expect hc) (block_reading hinner hbody)
      have hrange := Reading.cons (taken_of_expect hname)
        (.cons (taken_of_expect hin) ((hinner.expression hobject).append hblock))
      exact .cons (taken_of_expect hk)
        (.cons (taken_of_expect ho) ((reading_of_optional hvar).append hrange))
  | jump _ hk hlabel hs =>
      exact .cons (taken_of_expect hk)
        ((reading_of_optional hlabel).append (.single (taken_of_expect hs)))
  | returnNothing hk hs => exact .cons (taken_of_expect hk) (.single (taken_of_expect hs))
  | «return» hk hvalue hs =>
      exact .cons (taken_of_expect hk)
        ((hinner.expression hvalue).append (.single (taken_of_expect hs)))
  | throw hk hvalue hs =>
      exact .cons (taken_of_expect hk)
        ((hinner.expression hvalue).append (.single (taken_of_expect hs)))
  | vars hlist hs => exact (varList_reading hinner hlist).append (.single (taken_of_expect hs))
  | function hk hname hf =>
      obtain ⟨ts, hts, hreading⟩ := functionRest_reading hinner hf
      rw [Stmt.tokens, hts]
      exact .cons (taken_of_expect hk) (.cons (taken_of_expect hname) hreading)
  | switch hk ho hsubject hc hob hclauses hcb =>
      have hbraces := Reading.cons (taken_of_expect hob)
        ((hclauses.reading (clause_reading hinner)).append (.single (taken_of_expect hcb)))
      rw [Stmt.tokens, clausesTokens_eq]
      exact .cons (taken_of_expect hk) (.cons (taken_of_expect ho)
        ((hinner.expression hsubject).append (.cons (taken_of_expect hc) hbraces)))
  | block hb => exact block_reading hinner hb
  | «include» _ hx => exact pragma_reading hx
  | declare _ hx => exact pragma_reading hx

omit hinner in
/-- On every level, the parsers read the tokens of their trees. -/
theorem level_reads (n : Nat) : InnerReads (level n) := by
  refine level_keeps ?_ ?_ n
  · intro n p s q hinner hrule
    exact hrule.reading hinner
  · intro n colon threshold p e q hinner h
    exact expression_reading hinner h

end Parser

/-! ## Programs -/

variable {limit : Nat} {x : Program}

theorem program_of_parse {source : List Char} (h : parseProgramWithin limit source = .ok x) :
    ∃ q, Parser.program limit (scanTrivia (.start source)).1 (scanTrivia (.start source)).2 =
      .ok (x, q) := by
  unfold parseProgramWithin at h
  cases hrun : Parser.program limit (scanTrivia (.start source)).1 (scanTrivia (.start source)).2 with
  | error f => simp [hrun, Except.map] at h
  | ok result =>
      obtain ⟨y, q⟩ := result
      obtain rfl : y = x := by simpa [hrun, Except.map] using h
      exact ⟨q, rfl⟩

/-- The tokens of a program were read from the end of its preamble to the end of its text. -/
theorem parseProgramWithin_reading {source : List Char}
    (h : parseProgramWithin limit source = .ok x) :
    x.preamble = (scanTrivia (.start source)).1 ∧
      ∃ q, Reading (scanTrivia (.start source)).2 x.tokens q ∧ q.rest = [] := by
  obtain ⟨q, hrun⟩ := program_of_parse h
  obtain ⟨p₁, hpreamble, hbody, hend⟩ := Parser.program_ok hrun
  have htaken := Parser.taken_of_expect hend
  have hreading := Parser.reading_of_rounds (Parser.level_reads limit) hbody
  refine ⟨hpreamble, q, hreading.append (.single htaken), ?_⟩
  -- The end of the file is an empty token, so nothing follows the place where it was taken.
  have hrest := htaken.rest
  rw [htaken.endOfFile (Parser.kind_of_expect hend)] at hrest
  exact (List.append_eq_nil_iff.mp hrest.symm).2

theorem toList_scanTrivia (p : Place) :
    (scanTrivia p).1.toList ++ (scanTrivia p).2.rest = p.rest :=
  text_append_rest p _

theorem offset_scanTrivia (p : Place) :
    (scanTrivia p).2.offset = p.offset + (scanTrivia p).1.utf8ByteSize := by
  rw [← byteLength_toList]
  simp [scanTrivia]

/-- A program spells its source. -/
theorem source_of_parse {source : String} (h : parseProgramWithin limit source.toList = .ok x) :
    x.preamble ++ String.join (x.tokens.map Token.source) = source := by
  obtain ⟨hpreamble, q, hreading, hq⟩ := parseProgramWithin_reading h
  have htokens := hreading.rest
  rw [hq, List.append_nil] at htokens
  apply String.toList_injective
  rw [String.toList_append, ← htokens, hpreamble, toList_scanTrivia]
  rfl

/-- The position of a token is the length of the text before it, as far as 32 bits can tell. -/
theorem pos_of_parse {source : List Char} (h : parseProgramWithin limit source = .ok x)
    {before after : List Token} {t : Token} (ht : x.tokens = before ++ t :: after) :
    t.pos = .ofNat (x.preamble ++ String.join (before.map Token.source)).utf8ByteSize := by
  obtain ⟨hpreamble, q, hreading, _⟩ := parseProgramWithin_reading h
  rw [ht] at hreading
  rw [hreading.pos, offset_scanTrivia, hpreamble, String.utf8ByteSize_append]
  simp [Place.start]

/-- In a text shorter than 4 GiB the position of a token is the length of the text before it. -/
theorem toNat_pos_of_parse {source : String} (hshort : source.utf8ByteSize < UInt32.size)
    (h : parseProgramWithin limit source.toList = .ok x) {before after : List Token} {t : Token}
    (ht : x.tokens = before ++ t :: after) :
    t.pos.toNat = (x.preamble ++ String.join (before.map Token.source)).utf8ByteSize := by
  have hsource := congrArg String.utf8ByteSize (source_of_parse h)
  rw [ht, List.map_append, String.join_append, ← String.append_assoc, String.utf8ByteSize_append] at hsource
  rw [pos_of_parse h ht, UInt32.toNat_ofNat_of_lt' (by omega)]

/-- A program spells its source with its preamble and its tokens in their order, and every token knows
    how many bytes stand before it. -/
theorem parse_lossless {source : String} (hshort : source.utf8ByteSize < UInt32.size)
    (h : Engine.parse source.toList = .ok x) :
    x.preamble ++ String.join (x.tokens.map Token.source) = source ∧
      ∀ before t after, x.tokens = before ++ t :: after →
        t.pos.toNat = (x.preamble ++ String.join (before.map Token.source)).utf8ByteSize := by
  rw [Engine.parse_eq (by rwa [byteLength_toList])] at h
  exact ⟨source_of_parse h, fun _ _ _ ht => toNat_pos_of_parse hshort h ht⟩

/-- A result whose image under `f` is known is a success. -/
theorem ok_of_toOption {ε α β : Type} {e : Except ε α} {f : α → β} {b : β}
    (h : e.toOption.map f = some b) : ∃ a, e = .ok a ∧ f a = b := by
  cases e with
  | error _ => cases h
  | ok a => exact ⟨a, rfl, Option.some.inj h⟩

/-- What a result that is no success failed with. -/
def failure? {ε α : Type} : Except ε α → Option ε
  | .ok _ => none
  | .error e => some e

theorem error_of_failure? {ε α : Type} {x : Except ε α} {e : ε} (h : failure? x = some e) : x = .error e := by
  cases x with
  | ok a => cases h
  | error e' => rw [Option.some.inj h]

/-- A source whose lists are taken for parameters, whose literals are read again from their opening
    marks, and whose branches form a ladder. -/
def crowdedSource : String :=
  "// é\nvar f = (@h, a, b...) : me \x7b return a /= /[\\/]=x/g ? (b) : -> _::c; \x7d;\n" ++
    "if (f) \x7b \x7d else if (g == 1) \x7b for (k in f) \x7b \x7d \x7d else \x7b ; \x7d /* end */"

theorem parse_lossless_crowdedSource :
    crowdedSource.utf8ByteSize < UInt32.size ∧
      ∃ x, Engine.parse crowdedSource.toList = .ok x ∧ x.tokens.length = 59 ∧
        x.preamble ++ String.join (x.tokens.map Token.source) = crowdedSource ∧
        ∀ before t after, x.tokens = before ++ t :: after →
          t.pos.toNat = (x.preamble ++ String.join (before.map Token.source)).utf8ByteSize := by
  have hshort : crowdedSource.utf8ByteSize < UInt32.size := by decide +kernel
  have hrun : (Engine.parse crowdedSource.toList).toOption.map (·.tokens.length) = some 59 := by
    decide +kernel
  obtain ⟨x, hx, hlength⟩ := ok_of_toOption hrun
  exact ⟨hshort, x, hx, hlength, parse_lossless hshort hx⟩

end Respell
