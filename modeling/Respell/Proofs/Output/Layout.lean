import Respell.Proofs.Output.Standard
import Respell.Proofs.Scope.Rule

/-!
# How pieces lay out tokens

The pieces of a tree go through its tokens in order. Each token is replayed with its trivia, or spelt
otherwise and followed by its trivia, or left out with its trivia kept; what is added holds no line feed.
One token loses its trivia: the mark of a passed error before the name of its handler. Lexeme by lexeme,
what is written are the tokens of the desugared tree: the pieces are written in one go from left to right,
while desugaring rewrites the tree from the inside out.

`Laid` records both, and is proved for each kind of tree from its parts. What it says about lines and about
lexemes is then proved once, over the ways in which a token can be laid out, and not over the forms of
trees.
-/

namespace Respell

open Text

/-! ## Laying out tokens -/

/-- The token of the source that a piece stands for. -/
def Piece.token? : Piece → Option Token
  | .token t => some t
  | .respelt t _ => some t
  | .added _ => none
  | .gap _ => none

/-- The lexeme that a piece writes. Blanks and comments are none. -/
def Piece.lexeme? : Piece → Option String
  | .token t => some t.text
  | .respelt _ text => some text
  | .added text => some text
  | .gap _ => none

/-- The pieces up to `tail` lay out the tokens `ts` of the source, write the tokens `us`, which are
    standard, and lose this number of line feeds. -/
inductive Laid : List Token → List Token → Nat → List Piece → List Piece → Prop where
  | nil {tail : List Piece} : Laid [] [] 0 tail tail
  | append {ts ts' us us' : List Token} {m n : Nat} {ps mid tail : List Piece} :
      Laid ts us m ps mid → Laid ts' us' n mid tail → Laid (ts ++ ts') (us ++ us') (m + n) ps tail
  /-- Blanks or a comment are added. -/
  | gap {text : String} {tail : List Piece} :
      lineFeeds text = 0 → Laid [] [] 0 (.gap text :: tail) tail
  /-- A token is added. -/
  | added {u : Token} {tail : List Piece} :
      u.Standard → lineFeeds u.text = 0 → Laid [] [u] 0 (.added u.text :: tail) tail
  /-- A token is replayed. Something may be added before its trivia. -/
  | token {t : Token} {us : List Token} {ps tail : List Piece} :
      t.Standard → Laid [] us 0 ps (.gap t.trailing :: tail) → Laid [t] (t :: us) 0 (.token t :: ps) tail
  /-- A token is replayed without its trivia, which is no more than spacing. -/
  | bare {t : Token} {tail : List Piece} :
      t.Standard → lineFeeds t.trailing = 0 → Laid [t] [t] 0 (.token t :: tail) tail
  | respelt {t u : Token} {tail : List Piece} :
      u.Standard → lineFeeds u.text = lineFeeds t.text →
      Laid [t] [u] 0 (.respelt t u.text :: .gap t.trailing :: tail) tail
  /-- A token is left out and its trivia is kept. -/
  | dropped {t : Token} {tail : List Piece} :
      lineFeeds t.text = 0 → Laid [t] [] 0 (.gap t.trailing :: tail) tail
  /-- A token is left out with its trivia. -/
  | lost {t : Token} {tail : List Piece} :
      lineFeeds t.text = 0 → Laid [t] [] (lineFeeds t.trailing) tail tail

namespace Laid

variable {ts ts' us us' : List Token} {n : Nat} {ps mid tail : List Piece} {t u : Token} {k : Kind}

theorem lexemes (h : Laid ts us n ps tail) :
    ps.filterMap Piece.lexeme? = us.map Token.text ++ tail.filterMap Piece.lexeme? := by
  induction h with
  | append _ _ ih ih' => rw [ih, ih', List.map_append, List.append_assoc]
  | token _ _ ih => exact congrArg (_ :: ·) ih
  | _ => rfl

theorem standard (h : Laid ts us n ps tail) : ∀ u ∈ us, u.Standard := by
  induction h with
  | nil | gap _ | dropped _ | lost _ => exact List.forall_mem_nil _
  | append _ _ ih ih' => exact List.forall_mem_append.mpr ⟨ih, ih'⟩
  | token ht _ ih => exact List.forall_mem_cons.mpr ⟨ht, ih⟩
  | added hu _ | respelt hu _ | bare hu _ => exact List.forall_mem_singleton.mpr hu

theorem replay (ht : t.Scanned k) (hk : k ∉ dialectKinds) (tail : List Piece) :
    Laid [t] [t] 0 (t.replay tail) tail :=
  .token (ht.standard hk) .nil

theorem replay? {o : Option Token} (ho : ∀ t ∈ o, t.Scanned k) (hk : k ∉ dialectKinds)
    (tail : List Piece) : Laid o.toList o.toList 0 (Respell.replay? o tail) tail := by
  cases o with
  | none => exact .nil
  | some t => exact replay (ho t rfl) hk tail

/-- What loses nothing can be put in front. -/
theorem front (h : Laid ts us 0 ps mid) (h' : Laid ts' us' n mid tail) :
    Laid (ts ++ ts') (us ++ us') n ps tail := by
  have happend := h.append h'
  rwa [Nat.zero_add] at happend

/-- A replayed token can be put in front. -/
theorem cons (ht : t.Scanned k) (hk : k ∉ dialectKinds) (h : Laid ts us n ps tail) :
    Laid (t :: ts) (t :: us) n (t.replay ps) tail :=
  (replay ht hk ps).front h

/-- Blanks can be put in front. -/
theorem skip {text : String} (htext : lineFeeds text = 0) (h : Laid ts us n ps tail) :
    Laid ts us n (.gap text :: ps) tail :=
  (gap htext).front h

/-- A generated token can be put in front. -/
theorem add {text : String} (htext : u.text = text) (hu : u.Standard) (hfeeds : lineFeeds text = 0)
    (h : Laid ts us n ps tail) : Laid ts (u :: us) n (.added text :: ps) tail := by
  subst htext
  exact (added hu hfeeds).front h

/-- A token can be left out in front. -/
theorem drop (ht : lineFeeds t.text = 0) (h : Laid ts us n ps tail) :
    Laid (t :: ts) us n (.gap t.trailing :: ps) tail :=
  (dropped ht).front h

end Laid

/-! ## What is lost -/

/-- The line feeds that a parameter loses: those between an `@` and the name of its handler. -/
def Param.lost : Param → Nat
  | .pass mark (some _) => lineFeeds mark.trailing
  | _ => 0

def paramsLost : List Param → Nat
  | [] => 0
  | p :: ps => p.lost + paramsLost ps

theorem paramsLost_append (ps qs : List Param) :
    paramsLost (ps ++ qs) = paramsLost ps + paramsLost qs := by
  induction ps with
  | nil => exact (Nat.zero_add _).symm
  | cons p ps ih => rw [List.cons_append, paramsLost, paramsLost, ih, Nat.add_assoc]

/-- The parameters that stand at a site. Those of an arrow are plain, so only functions count. -/
def Site.params : Site → List Param
  | .function _ f _ => f.params.items.items
  | .reference _ _ | .arrow _ _ | .declaration _ _ | .pragma _ _ | .stray _ => []

/-- The line feeds that a tree with these sites loses. -/
def lostLines (sites : List Site) : Nat := paramsLost (sites.flatMap Site.params)

theorem lostLines_append (as bs : List Site) :
    lostLines (as ++ bs) = lostLines as + lostLines bs := by
  rw [lostLines, List.flatMap_append, paramsLost_append]
  rfl

theorem lostLines_cons (s : Site) (ss : List Site) :
    lostLines (s :: ss) = paramsLost s.params + lostLines ss := by
  rw [lostLines, List.flatMap_cons, paramsLost_append]
  rfl

/-! ## Tokens without line feeds -/

theorem Token.Scanned.lineFeeds_text {t : Token} {k : Kind} (h : t.Scanned k) :
    lineFeeds t.text = 0 := by
  obtain ⟨p, q, h⟩ := h
  exact lineFeeds_of_next (Parser.expect_ok_iff.mp h).1

theorem lineFeeds_of_isSpacing {text : String} (h : isSpacing text = true) : lineFeeds text = 0 := by
  rw [lineFeeds_eq_zero]
  intro hmem
  have hall := List.all_eq_true.mp h _ hmem
  exact absurd hall (by decide)

/-! ## Parameters -/

theorem Param.laid {x : Param} (hx : x.Formed) (tail : List Piece) :
    Laid x.tokens x.desugar.tokens x.lost (x.pieces tail) tail := by
  cases x with
  | plain name => exact .replay hx (by decide) tail
  | pass mark handler =>
      cases handler with
      | none => exact .add rfl (by decide) rfl (.dropped hx.1.lineFeeds_text)
      | some h =>
          -- Only the trivia of the handler is written; that of the mark before it is lost.
          have hhandler : Laid [h] [] 0 (.gap h.trailing :: tail) tail :=
            .dropped (hx.2 h rfl).lineFeeds_text
          exact .add rfl (by decide) rfl ((Laid.lost hx.1.lineFeeds_text).append hhandler)
  | rest name dots => exact .cons hx.1 (by decide) (.dropped hx.2.lineFeeds_text)

theorem paramsPieces_laid {items : Separated Param} (h : items.Formed Param.Formed)
    (tail : List Piece) :
    Laid (items.tokens Param.tokens) ((items.map Param.desugar).tokens Param.tokens)
      (paramsLost items.items) (paramsPieces items tail) tail := by
  induction items with
  | nil => exact .nil
  | one x => exact Param.laid h tail
  | more x comma items ih =>
      rw [Separated.items, paramsLost]
      exact (Param.laid h.1 _).append (.cons h.2.1 (by decide) (ih h.2.2))

/-- The parameters of an arrow are plain, so each is its first token. -/
theorem arrowParamsPieces_laid {items : Separated Param} (h : items.Formed Param.Formed)
    (hplain : ∀ x ∈ items.items, ∃ name, x = .plain name) (tail : List Piece) :
    Laid (items.tokens Param.tokens) ((items.map Param.desugar).tokens Param.tokens) 0
      (arrowParamsPieces items tail) tail := by
  induction items with
  | nil => exact .nil
  | one x =>
      obtain ⟨name, rfl⟩ := hplain x List.mem_cons_self
      exact .replay h (by decide) tail
  | more x comma items ih =>
      obtain ⟨name, rfl⟩ := hplain x List.mem_cons_self
      exact .cons h.1 (by decide) (.cons h.2.1 (by decide)
        (ih h.2.2 fun y hy => hplain y (List.mem_cons_of_mem _ hy)))

/-- A passed error is one of the parameters. -/
theorem mem_of_passed? {ps : List Param} {handler : Option Token} (h : passed? ps = some handler) :
    ∃ mark, .pass mark handler ∈ ps := by
  induction ps with
  | nil => cases h
  | cons x ps ih =>
      rcases Option.or_eq_some_iff.mp h with h | ⟨_, h⟩
      · obtain ⟨mark, hmem⟩ := ih h
        exact ⟨mark, List.mem_cons_of_mem _ hmem⟩
      · cases x with
        | pass mark handler' =>
            cases h
            exact ⟨mark, List.mem_cons_self⟩
        | plain name => cases h
        | rest name dots => cases h

/-- Collected arguments are one of the parameters. -/
theorem mem_of_collected? {ps : List Param} {index n : Nat} {name : Token}
    (h : collected? index ps = some (name, n)) : ∃ dots, .rest name dots ∈ ps := by
  induction ps generalizing index with
  | nil => cases h
  | cons x ps ih =>
      rcases Option.or_eq_some_iff.mp h with h | ⟨_, h⟩
      · obtain ⟨dots, hmem⟩ := ih h
        exact ⟨dots, List.mem_cons_of_mem _ hmem⟩
      · cases x with
        | rest name' dots =>
            cases h
            exact ⟨dots, List.mem_cons_self⟩
        | plain name => cases h
        | pass mark handler => cases h

theorem Separated.Formed.of_mem {α : Type} {f : α → Prop} {items : Separated α} (h : items.Formed f) :
    ∀ a ∈ items.items, f a := by
  induction items with
  | nil => simp [Separated.items]
  | one a => exact List.forall_mem_singleton.mpr h
  | more a comma items ih => exact List.forall_mem_cons.mpr ⟨h.1, ih h.2.2⟩

/-! ## Statements at the beginning of a body -/

theorem errorGuard_laid {handler : Option Token} (h : ∀ t ∈ handler, t.Scanned .identifier)
    (tail : List Piece) : Laid [] (guardStmt handler).tokens 0 (errorGuard handler tail) tail := by
  unfold errorGuard
  cases handler with
  | none =>
      change Laid [] [Word.token .if, Punct.openParen.token, errorToken, Punct.closeParen.token,
        Punct.openBrace.token, Word.token .throw, errorToken, Punct.semicolon.token,
        Punct.closeBrace.token] 0 _ tail
      repeat first
        | exact .nil
        | refine .skip rfl ?_
        | refine .add (by decide) (by decide) rfl ?_
  | some t =>
      change Laid [] [Word.token .if, Punct.openParen.token, errorToken, Punct.closeParen.token,
        Punct.openBrace.token, t, Punct.openParen.token, errorToken, Punct.closeParen.token,
        Punct.semicolon.token, Word.token .return, Punct.semicolon.token, Punct.closeBrace.token] 0 _ tail
      repeat first
        | exact .nil
        | refine .skip rfl ?_
        | refine .add (by decide) (by decide) rfl ?_
        | refine .add rfl ((h t rfl).standard (by decide)) (h t rfl).lineFeeds_text ?_

theorem receiverVar_laid {x : Receiver} (h : x.Formed) (tail : List Piece) :
    Laid [] (receiverStmt x).tokens 0 (receiverVar x tail) tail := by
  unfold receiverVar
  change Laid [] [Word.token .var, x.name, Punct.assign.token, Word.token .this,
    Punct.semicolon.token] 0 _ tail
  repeat first
    | exact .nil
    | refine .skip rfl ?_
    | refine .add (by decide) (by decide) rfl ?_
    | refine .add rfl (h.2.standard (by decide)) h.2.lineFeeds_text ?_

theorem restSlice_laid {name : Token} (h : name.Scanned .identifier) (index : Nat) (tail : List Piece) :
    Laid [] (sliceStmt name index).tokens 0 (restSlice name index tail) tail := by
  unfold restSlice
  change Laid [] [name, Punct.assign.token, Punct.openBracket.token, Punct.closeBracket.token,
    Punct.dot.token, nameToken "slice", Punct.dot.token, nameToken "call", Punct.openParen.token,
    nameToken "arguments", Punct.comma.token, generated .number (toString index),
    Punct.closeParen.token, Punct.semicolon.token] 0 _ tail
  repeat first
    | exact .nil
    | refine .skip rfl ?_
    | refine .add (by decide) (by decide) rfl ?_
    | refine .add rfl (h.standard (by decide)) h.lineFeeds_text ?_
    | refine .add rfl (standard_toString index) (lineFeeds_toString index) ?_

/-- Where errors are passed first, the guards of all parameters are that of the last passed error. -/
theorem guards_eq {ps : List Param} (h : ∀ mark handler, .pass mark handler ∉ ps.tail) :
    ps.filterMap Param.guard? = (passed? ps).toList.map guardStmt := by
  cases ps with
  | nil => rfl
  | cons p ps =>
      have hpassed : passed? ps = none := by
        cases hpassed : passed? ps with
        | none => rfl
        | some handler =>
            obtain ⟨mark, hmem⟩ := mem_of_passed? hpassed
            exact (h mark handler hmem).elim
      have hguards : ps.filterMap Param.guard? = [] := by
        refine List.filterMap_eq_nil_iff.mpr ?_
        intro q hq
        cases q with
        | plain name => rfl
        | rest name dots => rfl
        | pass mark handler => exact (h mark handler hq).elim
      have hone : [p].filterMap Param.guard? = (passed? [p]).toList.map guardStmt := by cases p <;> rfl
      have hsplit : (p :: ps).filterMap Param.guard? = [p].filterMap Param.guard? := by
        rw [← List.singleton_append, List.filterMap_append, hguards, List.append_nil]
      have hfirst : passed? (p :: ps) = passed? [p] := congrArg (Option.or · _) hpassed
      rw [hsplit, hone, hfirst]

/-- Where remaining arguments come last, the statements for all parameters are that for the last. -/
theorem sliceStmts_eq {ps : List Param} (h : ∀ name dots, .rest name dots ∉ ps.dropLast)
    (index : Nat) :
    sliceStmts index ps = ((collected? index ps).map fun r => sliceStmt r.1 r.2).toList := by
  induction ps generalizing index with
  | nil => rfl
  | cons p ps ih =>
      cases ps with
      | nil => cases p <;> rfl
      | cons q ps =>
          rw [List.dropLast_cons_cons] at h
          have hrest := ih (fun name dots hmem => h name dots (List.mem_cons_of_mem _ hmem)) (index + 1)
          have hskip : sliceStmts index (p :: q :: ps) = sliceStmts (index + 1) (q :: ps) ∧
              collected? index (p :: q :: ps) = collected? (index + 1) (q :: ps) := by
            cases p with
            | plain name => exact ⟨rfl, Option.or_none⟩
            | pass mark handler => exact ⟨rfl, Option.or_none⟩
            | rest name dots => exact (h name dots List.mem_cons_self).elim
          rw [hskip.1, hskip.2, hrest]

theorem stmtsTokens_append (ss us : List Stmt) :
    stmtsTokens (ss ++ us) = stmtsTokens ss ++ stmtsTokens us := by
  simp only [stmtsTokens_eq, List.flatMap_append]

/-- The statements that are written at the beginning of a body: one for the last passed error, one for the
    receiver, and one for the last of the parameters that collect arguments. -/
def writtenPrologue (ps : List Param) (receiver : Option Receiver) : List Stmt :=
  (passed? ps).toList.map guardStmt ++ receiver.toList.map receiverStmt ++
    ((collected? 0 ps).map fun r => sliceStmt r.1 r.2).toList

/-- Where the parameters are in their places, these are the desugared statements. -/
theorem prologueStmts_eq {ps : List Param} (h : ParamsPlaced ps) (receiver : Option Receiver) :
    prologueStmts ps receiver = writtenPrologue ps receiver := by
  rw [prologueStmts, guards_eq h.1, sliceStmts_eq h.2, writtenPrologue]

theorem prologue_laid {items : Separated Param} {receiver : Option Receiver}
    (hitems : items.Formed Param.Formed) (hreceiver : ∀ x ∈ receiver, x.Formed) (tail : List Piece) :
    Laid [] (stmtsTokens (writtenPrologue items.items receiver)) 0
      (prologue items.items receiver tail) tail := by
  have hsingle (s : Stmt) : stmtsTokens [s] = s.tokens := List.append_nil _
  rw [writtenPrologue, stmtsTokens_append, stmtsTokens_append, List.append_assoc]
  unfold prologue
  extract_lets slices receivers
  have hslices : Laid [] (stmtsTokens ((collected? 0 items.items).map fun r => sliceStmt r.1 r.2).toList)
      0 slices tail := by
    unfold slices
    split
    · next name index hcollected =>
        obtain ⟨dots, hmem⟩ := mem_of_collected? hcollected
        rw [hcollected, Option.map_some, Option.toList_some, hsingle]
        exact restSlice_laid (hitems.of_mem _ hmem).1 index tail
    · next hcollected =>
        rw [hcollected]
        exact .nil
  have hreceivers : Laid [] (stmtsTokens (receiver.toList.map receiverStmt) ++
      stmtsTokens ((collected? 0 items.items).map fun r => sliceStmt r.1 r.2).toList)
        0 receivers tail := by
    cases receiver with
    | none => exact hslices
    | some a =>
        rw [Option.toList_some, List.map_singleton, hsingle]
        exact (receiverVar_laid (hreceiver a rfl) _).front hslices
  cases hpassed : passed? items.items with
  | none => exact hreceivers
  | some handler =>
      obtain ⟨mark, hmem⟩ := mem_of_passed? hpassed
      rw [Option.toList_some, List.map_singleton, hsingle]
      exact (errorGuard_laid (hitems.of_mem _ hmem).2 _).front hreceivers

/-! ## Heads and bodies of functions -/

/-- A token that is left out loses nothing if its trivia is spacing. -/
theorem Laid.pass {t : Token} (ht : lineFeeds t.text = 0) (hs : isSpacing t.trailing = true)
    (tail : List Piece) : Laid [t] [] 0 tail tail := by
  have hlost : Laid [t] [] (lineFeeds t.trailing) tail tail := .lost ht
  rwa [lineFeeds_of_isSpacing hs] at hlost

/-- The trivia around a receiver's name is kept, or it is spacing. -/
theorem closeParams_laid {closing : Token} (hclosing : closing.Scanned (.punct .closeParen))
    {receiver : Option Receiver} (h : ∀ x ∈ receiver, x.Formed) (tail : List Piece) :
    Laid (closing :: receiverTokens receiver) [closing] 0 (closeParams closing receiver tail) tail := by
  cases receiver with
  | none => exact .replay hclosing (by decide) tail
  | some a =>
      have hcolon := (h a rfl).1.lineFeeds_text
      have hname := (h a rfl).2.lineFeeds_text
      change Laid [closing, a.colon, a.name] [closing] 0
        (.token closing :: leftover [closing.trailing, a.colon.trailing, a.name.trailing] tail) tail
      unfold leftover
      split
      · next hall =>
          simp only [List.all_cons, List.all_nil, Bool.and_true, Bool.and_eq_true] at hall
          obtain ⟨hclosing', hcolon', hname'⟩ := hall
          -- If the three gaps are spacing, none of them or one blank is written for all of them.
          have hgone (rest : List Piece) :
              Laid [closing, a.colon, a.name] [closing] 0 (.token closing :: rest) rest :=
            (Laid.bare (hclosing.standard (by decide)) (lineFeeds_of_isSpacing hclosing')).front
              ((Laid.pass hcolon hcolon' rest).front (Laid.pass hname hname' rest))
          split
          · exact hgone tail
          · exact (hgone _).front (.gap rfl)
      · exact .cons hclosing (by decide) (.drop hcolon (.drop hname .nil))

/-- The keyword, the name, the parameters and the receiver of a function. -/
theorem Func.opening_laid {f : Func} (hkeyword : ∀ k ∈ f.keyword, k.Scanned (.word .function))
    (hname : ∀ n ∈ f.name, n.Scanned .identifier) (hparams : f.params.Formed)
    (hreceiver : ∀ x ∈ f.receiver, x.Formed) (tail : List Piece) :
    Laid (f.keyword.toList ++ f.name.toList ++ f.params.tokens ++ receiverTokens f.receiver)
      (f.keyword.getD (Word.token .function) :: (f.name.toList ++ f.params.desugar.tokens))
      (paramsLost f.params.items.items) (f.opening tail) tail := by
  have hclose := closeParams_laid hparams.2.2 hreceiver tail
  have hlist := Laid.cons hparams.1 (by decide) ((paramsPieces_laid hparams.2.1 _).append hclose)
  have hrest := (Laid.replay? hname (by decide) _).front hlist
  unfold Func.opening
  rw [List.append_assoc, List.append_assoc, Params.tokens, List.cons_append, List.append_assoc]
  cases hk : f.keyword with
  | none => exact .add rfl (by decide) rfl (.skip rfl hrest)
  | some keyword => exact .cons (hkeyword keyword hk) (by decide) hrest

/-- The body of an arrow, from its sign on, is a body that returns. -/
theorem returningBody_laid {sign : Token} (hsign : lineFeeds sign.text = 0) {value : Expr}
    {ts : List Token} {n : Nat} {ps tail : List Piece} (h : Laid ts value.tokens n ps (closeArrow tail)) :
    Laid (sign :: ts)
      (generatedBlock [.return (Word.token .return) (some value) Punct.semicolon.token]).tokens n
      (.added "\x7b" :: .gap sign.trailing :: .added "return" :: .blank :: ps) tail := by
  have hclose : Laid [] [Punct.semicolon.token, Punct.closeBrace.token] 0 (closeArrow tail) tail :=
    .add (by decide) (by decide) rfl (.skip rfl (.add (by decide) (by decide) rfl .nil))
  have hvalue := h.append hclose
  rw [List.append_nil] at hvalue
  have htokens : (generatedBlock
      [.return (Word.token .return) (some value) Punct.semicolon.token]).tokens =
        Punct.openBrace.token :: Word.token .return :: (value.tokens ++
          [Punct.semicolon.token, Punct.closeBrace.token]) := by
    simp [generatedBlock, Block.tokens, stmtsTokens, Stmt.tokens]
  rw [htokens]
  exact .add (by decide) (by decide) rfl (.drop hsign (.add rfl (by decide) rfl (.skip rfl hvalue)))

/-! ## Operators, members and pragmas -/

/-- A comparison becomes strict, and any other operator is standard. -/
theorem operatorPieces_laid {operator : Token} {s : Precedence}
    (hs : Precedence.ofKind? operator.kind = some s) (h : operator.Scanned operator.kind)
    (tail : List Piece) :
    Laid [operator] [desugarOperator operator] 0 (operatorPieces operator tail) tail := by
  have hstrict {m m' : Punct} (hk : operator.kind = .punct m) (hm : m.text ++ "=" = m'.text)
      (hm' : m'.token.Standard) (hfeeds : lineFeeds m'.text = lineFeeds m.text) :
      Laid [operator] [{ operator with kind := .punct m', text := m'.text }] 0
        (.respelt operator (operator.text ++ "=") :: .gap operator.trailing :: tail) tail := by
    rw [hk] at h
    rw [h.text_punct, hm]
    refine .respelt (u := { operator with kind := .punct m', text := m'.text }) hm' ?_
    rw [h.text_punct]
    exact hfeeds
  by_cases hequal : operator.kind = .punct .equal
  · rw [operatorPieces, desugarOperator, hequal]
    exact hstrict hequal (by decide) (by decide) rfl
  · by_cases hunequal : operator.kind = .punct .unequal
    · rw [operatorPieces, desugarOperator, hunequal]
      exact hstrict hunequal (by decide) (by decide) rfl
    · have hother : desugarOperator operator = operator ∧
          operatorPieces operator tail = operator.replay tail := by
        obtain ⟨kind, text, pos, trailing⟩ := operator
        unfold desugarOperator operatorPieces
        constructor <;> split
        · next hk => exact (hequal hk).elim
        · next hk => exact (hunequal hk).elim
        · rfl
        · next hk => exact (hequal hk).elim
        · next hk => exact (hunequal hk).elim
        · rfl
      rw [hother.1, hother.2]
      refine .replay h (notMem_dialectKinds (f := fun k =>
        (Precedence.ofKind? k).isSome && k ≠ .punct .equal && k ≠ .punct .unequal) (by decide) ?_) tail
      simp [hs, hequal, hunequal]

theorem Member.laid {m : Member} (h : m.FormedWord) (tail : List Piece) :
    Laid m.tokens m.tokens 0 (m.pieces tail) tail := by
  obtain ⟨hdot, hname, hk⟩ := h
  refine .cons hdot (by decide) (.replay hname ?_ tail)
  rcases hk with hk | hk
  · rw [hk]
    decide
  · exact notMem_dialectKinds (by decide) hk

theorem DottedName.laid {d : DottedName} (h : d.Formed) (tail : List Piece) :
    Laid d.tokens d.tokens 0 (d.pieces tail) tail := by
  have hmembers {ms : List Member} (hms : ∀ m ∈ ms, m.Formed) :
      Laid (ms.flatMap Member.tokens) (ms.flatMap Member.tokens) 0 (ms.foldr Member.pieces tail) tail := by
    induction ms with
    | nil => exact .nil
    | cons m ms ih =>
        obtain ⟨hm, hms⟩ := List.forall_mem_cons.mp hms
        exact (Laid.cons hm.1 (by decide) (.replay hm.2 (by decide) _)).front (ih hms)
  exact .cons h.1 (by decide) (hmembers h.2)

/-- A member of the prototype is a member of a member of what comes before it. -/
theorem prototypePieces_laid {colons : Token} {name : Option Token}
    (hcolons : lineFeeds colons.text = 0) (hname : ∀ n ∈ name, n.Scanned .identifier) {leading : Expr}
    {ts : List Token} {n : Nat} {ps tail : List Piece}
    (h : Laid ts leading.tokens n ps (prototypePieces colons name tail)) :
    Laid (ts ++ (colons :: name.toList)) ((Suffix.prototype colons name).desugar leading).tokens n ps
      tail := by
  have hproperty (rest : List Piece) : Laid [colons] (generatedMember "prototype").tokens 0
      (.added "." :: .added "prototype" :: .gap colons.trailing :: rest) rest :=
    .add (by decide) (by decide) rfl (.add (by decide) (by decide) rfl (.dropped hcolons))
  cases name with
  | none => exact h.append (hproperty tail)
  | some x =>
      have hmember : Laid [x] [Punct.dot.token, x] 0 (.added "." :: x.replay tail) tail :=
        .add (by decide) (by decide) rfl (.replay (hname x rfl) (by decide) tail)
      have happend := (h.append (hproperty _)).append hmember
      rwa [List.append_assoc ts] at happend

theorem PragmaItem.lineFeeds_text {x : PragmaItem} (h : x.Formed) : lineFeeds x.text = 0 := by
  cases x with
  | single name => exact Token.Scanned.lineFeeds_text h
  | group colon name =>
      rw [PragmaItem.text, lineFeeds_append, h.1.lineFeeds_text, h.2.lineFeeds_text]

theorem lineFeeds_pragmaText {items : Separated PragmaItem} (h : items.Formed PragmaItem.Formed) :
    lineFeeds (pragmaText items) = 0 := by
  induction items with
  | nil => rfl
  | one x => exact PragmaItem.lineFeeds_text h
  | more x comma items ih =>
      have hblank : lineFeeds " " = 0 := rfl
      simp only [pragmaText, lineFeeds_append, PragmaItem.lineFeeds_text h.1, h.2.1.lineFeeds_text,
        hblank, ih h.2.2]

theorem pragmaGaps_laid {items : Separated PragmaItem} (h : items.Formed PragmaItem.Formed)
    (tail : List Piece) : Laid (items.tokens PragmaItem.tokens) [] 0 (pragmaGaps items tail) tail := by
  have hitem {x : PragmaItem} (hx : x.Formed) (rest : List Piece) :
      Laid x.tokens [] 0 (x.gaps rest) rest := by
    cases x with
    | single name => exact .dropped (Token.Scanned.lineFeeds_text hx)
    | group colon name => exact .drop hx.1.lineFeeds_text (.dropped hx.2.lineFeeds_text)
  induction items with
  | nil => exact .nil
  | one x => exact hitem h tail
  | more x comma items ih => exact (hitem h.1 _).front (.drop h.2.1.lineFeeds_text (ih h.2.2))

/-- A pragma becomes a comment on one line, with the trivia of its tokens after it. -/
theorem Pragma.laid {x : Pragma} {k : Kind} (h : x.Formed k) (tail : List Piece) :
    Laid x.tokens [] 0 (x.pieces tail) tail := by
  have hcomment : lineFeeds ("/* " ++ x.keyword.text ++ " " ++ pragmaText x.items ++
      x.semicolon.text ++ " */") = 0 := by
    simp only [lineFeeds_append, h.1.lineFeeds_text, lineFeeds_pragmaText h.2.1,
      h.2.2.lineFeeds_text]
    rfl
  exact .skip hcomment (.drop h.1.lineFeeds_text
    ((pragmaGaps_laid h.2.1 _).front (.dropped h.2.2.lineFeeds_text)))

theorem Stmt.laid_pragma {s : Stmt} (h : s.isPragma = true) (hf : s.Formed) (scope : Scope)
    (standing : Standing) (tail : List Piece) :
    Laid s.tokens [] (lostLines (s.sites scope standing)) (s.pieces tail) tail := by
  obtain ⟨p, rfl | rfl⟩ := Stmt.eq_of_isPragma h <;> exact Pragma.laid hf tail

/-- No pragma is sound inside another statement. -/
theorem isPragma_of_nested {s : Stmt} {scope : Scope} (h : ∀ x ∈ s.sites scope .nested, x.Sound) :
    s.isPragma = false := by
  cases s with
  | «include» p => exact nomatch (h _ (List.mem_singleton_self _) : Standing.nested = .program)
  | declare p => exact nomatch (h _ (List.mem_singleton_self _) : Standing.nested = .program)
  | _ => rfl

/-! ## Trees -/

mutual

theorem Expr.laid : ∀ (e : Expr) (scope : Scope) (tail : List Piece), e.Formed →
    (∀ s ∈ e.sites scope, s.Sound) →
      Laid e.tokens e.desugar.tokens (lostLines (e.sites scope)) (e.pieces tail) tail
  | .head h, scope, tail, hf, hs => Head.laid h scope tail hf hs
  | .suffix leading x, scope, tail, hf, hs => by
    obtain ⟨hleading, hx⟩ := List.forall_mem_append.mp hs
    rw [Expr.sites, lostLines_append]
    exact Suffix.laid x scope tail hf.2 hx (Expr.laid leading scope _ hf.1 hleading)

theorem Head.laid : ∀ (h : Head) (scope : Scope) (tail : List Piece), h.Formed →
    (∀ s ∈ h.sites scope, s.Sound) →
      Laid h.tokens h.desugar.tokens (lostLines (h.sites scope)) (h.pieces tail) tail
  | .literal t, _, tail, hf, _ => by
    refine .token ?_ .nil
    rcases hf with ⟨hconstant, hf⟩ | hf
    · exact hf.standard (notMem_dialectKinds (by decide) hconstant)
    · exact hf.standard
  | .ident t, _, tail, hf, _ => .replay hf (by decide) tail
  | .pass mark handler, _, tail, _, hs => (List.forall_mem_singleton.mp hs).elim
  | .rest name dots, _, tail, _, hs => (List.forall_mem_singleton.mp hs).elim
  | .unary operator operand, scope, tail, hf, hs =>
    .cons hf.1.2 (notMem_dialectKinds (by decide) hf.1.1) (Expr.laid operand scope tail hf.2 hs)
  | .construct keyword callee arguments, scope, tail, hf, hs => by
    obtain ⟨_, hargs⟩ := List.forall_mem_cons.mp hs
    rw [Head.sites, lostLines_cons, Site.params, paramsLost, Nat.zero_add]
    exact .cons hf.1 (by decide) ((DottedName.laid hf.2.1 _).front
      (Enclosed.laid arguments scope tail hf.2.2 (by decide) (by decide) hargs))
  | .array elements, scope, tail, hf, hs =>
    Enclosed.laid elements scope tail hf (by decide) (by decide) hs
  | .object opening entries closing, scope, tail, hf, hs =>
    .cons hf.1 (by decide) ((entriesPieces_laid entries scope _ hf.2.1 hs).append
      (.replay hf.2.2 (by decide) tail))
  | .group opening inner closing, scope, tail, hf, hs =>
    .cons hf.1 (by decide) ((Expr.laid inner scope _ hf.2.1 hs).append (.replay hf.2.2 (by decide) tail))
  | .function f, scope, tail, hf, hs => Func.laid f scope false tail hf hs
  | .arrow params sign body, scope, tail, hf, hs => by
    obtain ⟨⟨hplain, _⟩, hbody⟩ := List.forall_mem_cons.mp hs
    have hreturn := returningBody_laid hf.2.1.lineFeeds_text
      (Expr.laid body (.arrow scope params) (closeArrow tail) hf.2.2 hbody)
    have hclose := (arrowParamsPieces_laid hf.1.2.1 hplain _).front (.cons hf.1.2.2 (by decide) hreturn)
    have htokens (value : Expr) : (returningFunc params.desugar value).tokens =
        Word.token .function :: params.opening ::
          ((params.items.map Param.desugar).tokens Param.tokens ++ params.closing ::
            (returningFunc params.desugar value).body.tokens) := by
      simp [returningFunc, Func.tokens, Params.tokens, Params.desugar]
    rw [Head.sites, lostLines_cons, Site.params, paramsLost, Nat.zero_add, Head.tokens, Params.tokens,
      List.cons_append, List.append_assoc, Head.desugar, Head.tokens, htokens]
    exact .add rfl (by decide) rfl (.skip rfl (.cons hf.1.1 (by decide) hclose))
  | .simpleArrow sign body, scope, tail, hf, hs => by
    have hreturn := returningBody_laid hf.1.lineFeeds_text
      (Expr.laid body (.simpleArrow scope) (closeArrow tail) hf.2 hs)
    exact .add (by decide) (by decide) rfl (.skip rfl (.add (by decide) (by decide) rfl
      (.add (by decide) (by decide) rfl (.add (by decide) (by decide) rfl (.skip rfl hreturn)))))

theorem Suffix.laid : ∀ (x : Suffix) (scope : Scope) (tail : List Piece), x.Formed →
    (∀ s ∈ x.sites scope, s.Sound) → ∀ {leading : Expr} {ts : List Token} {n : Nat} {ps : List Piece},
      Laid ts leading.tokens n ps (x.pieces tail) → Laid (ts ++ x.tokens) (x.desugar leading).tokens
        (n + lostLines (x.sites scope)) ps tail
  | .binary operator right, scope, tail, hf, hs, _, _, _, _, h => by
    obtain ⟨⟨⟨s, hprec⟩, _, hoperator⟩, hright⟩ := hf
    exact h.append ((operatorPieces_laid hprec hoperator _).front (Expr.laid right scope tail hright hs))
  | .ternary question consequent colon alternate, scope, tail, hf, hs, _, _, _, _, h => by
    obtain ⟨hconsequent, halternate⟩ := List.forall_mem_append.mp hs
    rw [Suffix.sites, lostLines_append]
    exact h.append (.cons hf.1 (by decide) ((Expr.laid consequent scope _ hf.2.1 hconsequent).append
      (.cons hf.2.2.1 (by decide) (Expr.laid alternate scope tail hf.2.2.2 halternate))))
  | .call arguments, scope, tail, hf, hs, _, _, _, _, h =>
    h.append (Enclosed.laid arguments scope tail hf (by decide) (by decide) hs)
  | .invoke member arguments, scope, tail, hf, hs, _, _, _, _, h =>
    h.append ((Member.laid hf.1 _).front
      (Enclosed.laid arguments scope tail hf.2 (by decide) (by decide) hs))
  | .index opening inner closing, scope, tail, hf, hs, _, _, _, _, h =>
    h.append (.cons hf.1 (by decide) ((Expr.laid inner scope _ hf.2.1 hs).append
      (.replay hf.2.2 (by decide) tail)))
  | .property member, _, tail, hf, _, _, _, _, _, h => h.append (Member.laid hf tail)
  | .prototype colons name, _, tail, hf, _, _, _, _, _, h =>
    prototypePieces_laid hf.1.lineFeeds_text hf.2 h

theorem Enclosed.laid : ∀ (e : Enclosed) (scope : Scope) (tail : List Piece) {o c : Punct},
    e.Formed o c → .punct o ∉ dialectKinds → .punct c ∉ dialectKinds →
      (∀ s ∈ e.sites scope, s.Sound) →
      Laid e.tokens e.desugar.tokens (lostLines (e.sites scope)) (e.pieces tail) tail
  | ⟨_, items, _⟩, scope, tail, _, _, hf, ho, hc, hs =>
    .cons hf.1 ho ((exprsPieces_laid items scope _ hf.2.1 hs).append (.replay hf.2.2 hc tail))

theorem exprsPieces_laid : ∀ (es : Separated Expr) (scope : Scope) (tail : List Piece),
    exprsFormed es → (∀ s ∈ exprsSites scope es, s.Sound) →
      Laid (exprsTokens es) (exprsTokens (exprsDesugar es)) (lostLines (exprsSites scope es))
        (exprsPieces es tail) tail
  | .nil, _, _, _, _ => .nil
  | .one e, scope, tail, hf, hs => Expr.laid e scope tail hf hs
  | .more e comma es, scope, tail, hf, hs => by
    obtain ⟨he, hes⟩ := List.forall_mem_append.mp hs
    rw [exprsSites, lostLines_append]
    exact (Expr.laid e scope _ hf.1 he).append
      (.cons hf.2.1 (by decide) (exprsPieces_laid es scope tail hf.2.2 hes))

theorem entriesPieces_laid : ∀ (es : Separated Entry) (scope : Scope) (tail : List Piece),
    entriesFormed es → (∀ s ∈ entriesSites scope es, s.Sound) →
      Laid (entriesTokens es) (entriesTokens (entriesDesugar es)) (lostLines (entriesSites scope es))
        (entriesPieces es tail) tail
  | .nil, _, _, _, _ => .nil
  | .one ⟨key, colon, value⟩, scope, tail, hf, hs =>
    .front (.token hf.1.standard .nil) (.cons hf.2.1 (by decide) (Expr.laid value scope tail hf.2.2 hs))
  | .more ⟨key, colon, value⟩ comma es, scope, tail, hf, hs => by
    obtain ⟨hvalue, hes⟩ := List.forall_mem_append.mp hs
    obtain ⟨⟨hkey, hcolon, hformed⟩, hcomma, hrest⟩ := hf
    have hentry (rest : List Piece) : Laid (key :: colon :: value.tokens)
        (key :: colon :: value.desugar.tokens) (lostLines (value.sites scope))
          (key.replay (colon.replay (value.pieces rest))) rest :=
      .front (.token hkey.standard .nil) (.cons hcolon (by decide)
        (Expr.laid value scope rest hformed hvalue))
    have hentries := entriesPieces_laid es scope tail hrest hes
    rw [entriesSites, lostLines_append]
    by_cases hnil : es = .nil
    -- A comma before the closing brace is left out, and its trivia stays.
    · subst hnil
      have hlast := (hentry (.gap comma.trailing :: tail)).append (.dropped hcomma.lineFeeds_text)
      rwa [List.append_nil] at hlast
    · rw [entriesPieces_more hnil, entriesDesugar_more hnil]
      exact (hentry _).append (.cons hcomma (by decide) hentries)

theorem Func.laid : ∀ (f : Func) (scope : Scope) (isDeclaration : Bool) (tail : List Piece),
    f.Formed → (∀ s ∈ f.sites scope isDeclaration, s.Sound) →
      Laid f.tokens f.desugar.tokens (lostLines (f.sites scope isDeclaration)) (f.pieces tail) tail
  | ⟨keyword, name, params, receiver, ⟨opening, body, closing⟩⟩, scope, isDeclaration, tail, hf, hs => by
    obtain ⟨⟨hplaced, _⟩, hbody⟩ := List.forall_mem_cons.mp hs
    obtain ⟨hkeyword, hname, hparams, hreceiver, hblock⟩ := hf
    have hstmts := (stmtsPieces_laid body _ .body _ hblock.2.1 hbody).append
      (.replay hblock.2.2 (by decide) tail)
    -- The prologue comes between the brace and the trivia of the brace.
    have hopening := Laid.token (hblock.1.standard (by decide)) (prologue_laid hparams.2.1 hreceiver
      (.gap opening.trailing :: stmtsPieces body (closing.replay tail)))
    have hhead := (Func.opening_laid (f := ⟨keyword, name, params, receiver, ⟨opening, body, closing⟩⟩)
      hkeyword hname hparams hreceiver _).append (hopening.front hstmts)
    have htokens : (Func.mk keyword name params receiver ⟨opening, body, closing⟩).desugar.tokens =
        keyword.getD (Word.token .function) :: (name.toList ++ params.desugar.tokens) ++
          (opening :: stmtsTokens (writtenPrologue params.items.items receiver) ++
            (stmtsTokens (stmtsDesugar body) ++ [closing])) := by
      rw [← prologueStmts_eq hplaced]
      simp [Func.desugar, Func.tokens, Block.tokens, stmtsTokens_append]
    rw [Func.sites, lostLines_cons, htokens]
    exact hhead

theorem Block.laid : ∀ (b : Block) (scope : Scope) (tail : List Piece), b.Formed →
    (∀ s ∈ b.sites scope, s.Sound) →
      Laid b.tokens b.desugar.tokens (lostLines (b.sites scope)) (b.pieces tail) tail
  | ⟨opening, body, closing⟩, scope, tail, hf, hs =>
    .cons hf.1 (by decide) ((stmtsPieces_laid body scope .nested _ hf.2.1 hs).append
      (.replay hf.2.2 (by decide) tail))

theorem stmtsPieces_laid : ∀ (ss : List Stmt) (scope : Scope) (standing : Standing)
    (tail : List Piece), stmtsFormed ss → (∀ s ∈ stmtsSites scope standing ss, s.Sound) →
      Laid (stmtsTokens ss) (stmtsTokens (stmtsDesugar ss)) (lostLines (stmtsSites scope standing ss))
        (stmtsPieces ss tail) tail
  | [], _, _, _, _, _ => .nil
  | x :: ss, scope, standing, tail, hf, hs => by
    obtain ⟨hx, hss⟩ := List.forall_mem_append.mp hs
    have hrest := stmtsPieces_laid ss scope standing tail hf.2 hss
    rw [stmtsSites, lostLines_append]
    by_cases hpragma : x.isPragma = true
    · rw [stmtsDesugar_pragma hpragma]
      exact (Stmt.laid_pragma hpragma hf.1 scope standing _).append hrest
    · have hother := Bool.eq_false_iff.mpr hpragma
      rw [stmtsDesugar_cons hother]
      exact (Stmt.laid x scope standing _ hf.1 hother hx).append hrest

theorem Stmt.laid : ∀ (x : Stmt) (scope : Scope) (standing : Standing) (tail : List Piece),
    x.Formed → x.isPragma = false → (∀ s ∈ x.sites scope standing, s.Sound) →
      Laid x.tokens x.desugar.tokens (lostLines (x.sites scope standing)) (x.pieces tail) tail
  | .expr value semicolon, scope, _, tail, hf, _, hs =>
    (Expr.laid value scope _ hf.1 hs).append (.replay hf.2 (by decide) tail)
  | .empty semicolon, _, _, tail, hf, _, _ => .replay hf (by decide) tail
  | .conditional first others, scope, _, tail, hf, _, hs => by
    obtain ⟨hfirst, hothers⟩ := List.forall_mem_append.mp hs
    rw [Stmt.sites, lostLines_append]
    exact (Guarded.laid first scope _ hf.1 (by decide) hfirst).append
      (Ladder.laid others scope tail hf.2 hothers)
  | .while loop, scope, _, tail, hf, _, hs => Guarded.laid loop scope tail hf (by decide) hs
  | .for keyword opening init first test second update closing body, scope, _, tail, hf, _, hs => by
    obtain ⟨hkeyword, hopening, hinit, hfirst, htest, hsecond, hupdate, hclosing, hbody⟩ := hf
    rw [Stmt.sites, List.forall_mem_append, List.forall_mem_append, List.forall_mem_append] at hs
    obtain ⟨⟨⟨hinit', htest'⟩, hupdate'⟩, hbody'⟩ := hs
    rw [Stmt.sites, lostLines_append, lostLines_append, lostLines_append, Nat.add_assoc,
      Nat.add_assoc]
    have hblock := Laid.cons hclosing (by decide) (Block.laid body scope tail hbody hbody')
    have hupdates := Laid.cons hsecond (by decide)
      ((exprsPieces_laid update scope _ hupdate hupdate').append hblock)
    have htests := Laid.cons hfirst (by decide)
      ((exprsPieces_laid test scope _ htest htest').append hupdates)
    exact .cons hkeyword (by decide) (.cons hopening (by decide)
      ((ForInit.laid init scope _ hinit hinit').append htests))
  | .forIn keyword opening var name inWord object closing body, scope, standing, tail, hf, _, hs => by
    obtain ⟨hkeyword, hopening, hvar, hname, hin, hobject, hclosing, hbody⟩ := hf
    -- Without a `var` the name is a use, which is a site but loses nothing.
    obtain ⟨⟨hobject', hbody'⟩, hlost⟩ : ((∀ s ∈ object.sites scope, s.Sound) ∧
        ∀ s ∈ body.sites scope, s.Sound) ∧
        lostLines ((Stmt.forIn keyword opening var name inWord object closing body).sites scope standing) =
          lostLines (object.sites scope) + lostLines (body.sites scope) := by
      cases var with
      | none =>
          refine ⟨List.forall_mem_append.mp (List.forall_mem_cons.mp hs).2, ?_⟩
          rw [Stmt.sites, lostLines_cons, Site.params, paramsLost, Nat.zero_add, lostLines_append]
      | some v => exact ⟨List.forall_mem_append.mp hs, lostLines_append _ _⟩
    rw [hlost]
    have hblock := Laid.cons hclosing (by decide) (Block.laid body scope tail hbody hbody')
    have hrange := Laid.cons hname (by decide) (.cons hin (by decide)
      ((Expr.laid object scope _ hobject hobject').append hblock))
    exact .cons hkeyword (by decide) (.cons hopening (by decide)
      ((Laid.replay? hvar (by decide) _).front hrange))
  | .jump keyword label semicolon, _, _, tail, hf, _, _ => by
    obtain ⟨hkeyword, hlabel, hsemicolon⟩ := hf
    have hrest := (Laid.replay? hlabel (by decide) _).front (.replay hsemicolon (by decide) tail)
    rcases hkeyword with hkeyword | hkeyword <;> exact .cons hkeyword (by decide) hrest
  | .return keyword none semicolon, _, _, tail, hf, _, _ =>
    .cons hf.1 (by decide) (.replay hf.2 (by decide) tail)
  | .return keyword (some value) semicolon, scope, _, tail, hf, _, hs =>
    .cons hf.1 (by decide) ((Expr.laid value scope _ hf.2.1 hs).append (.replay hf.2.2 (by decide) tail))
  | .throw keyword value semicolon, scope, _, tail, hf, _, hs =>
    .cons hf.1 (by decide) ((Expr.laid value scope _ hf.2.1 hs).append (.replay hf.2.2 (by decide) tail))
  | .vars list semicolon, scope, _, tail, hf, _, hs =>
    (VarList.laid list scope _ hf.1 hs).append (.replay hf.2 (by decide) tail)
  | .function f, scope, standing, tail, hf, _, hs => by
    rw [Stmt.sites, lostLines_cons, Site.params, paramsLost, Nat.zero_add]
    exact Func.laid f scope true tail hf.2.2 (List.forall_mem_cons.mp hs).2
  | .labeled label colon body, scope, _, tail, hf, _, hs =>
    .cons hf.1 (by decide) (.cons hf.2.1 (by decide)
      (Stmt.laid body scope .nested tail hf.2.2 (isPragma_of_nested hs) hs))
  | .switch keyword opening subject closing openBrace clauses closeBrace, scope, _, tail, hf, _, hs => by
    obtain ⟨hkeyword, hopening, hsubject, hclosing, hopen, hclauses, hclose⟩ := hf
    obtain ⟨hsubject', hclauses'⟩ := List.forall_mem_append.mp hs
    rw [Stmt.sites, lostLines_append]
    have hbraces := Laid.cons hopen (by decide)
      ((clausesPieces_laid clauses scope _ hclauses hclauses').append (.replay hclose (by decide) tail))
    exact .cons hkeyword (by decide) (.cons hopening (by decide)
      ((Expr.laid subject scope _ hsubject hsubject').append (.cons hclosing (by decide) hbraces)))
  | .block b, scope, _, tail, hf, _, hs => Block.laid b scope tail hf hs
  | .include _, _, _, _, _, hpragma, _ => by cases hpragma
  | .declare _, _, _, _, _, hpragma, _ => by cases hpragma

theorem Guarded.laid : ∀ (g : Guarded) (scope : Scope) (tail : List Piece) {w : Word}, g.Formed w →
    .word w ∉ dialectKinds → (∀ s ∈ g.sites scope, s.Sound) →
      Laid g.tokens g.desugar.tokens (lostLines (g.sites scope)) (g.pieces tail) tail
  | ⟨keyword, opening, test, closing, body⟩, scope, tail, _, hf, hw, hs => by
    obtain ⟨htest, hbody⟩ := List.forall_mem_append.mp hs
    rw [Guarded.sites, lostLines_append]
    exact .cons hf.1 hw (.cons hf.2.1 (by decide) ((Expr.laid test scope _ hf.2.2.1 htest).append
      (.cons hf.2.2.2.1 (by decide) (Block.laid body scope tail hf.2.2.2.2 hbody))))

theorem Ladder.laid : ∀ (l : Ladder) (scope : Scope) (tail : List Piece), l.Formed →
    (∀ s ∈ l.sites scope, s.Sound) →
      Laid l.tokens l.desugar.tokens (lostLines (l.sites scope)) (l.pieces tail) tail
  | .done, _, _, _, _ => .nil
  | .otherwise keyword body, scope, tail, hf, hs =>
    .cons hf.1 (by decide) (Block.laid body scope tail hf.2 hs)
  | .branch keyword next others, scope, tail, hf, hs => by
    obtain ⟨hnext, hothers⟩ := List.forall_mem_append.mp hs
    rw [Ladder.sites, lostLines_append]
    exact .cons hf.1 (by decide) ((Guarded.laid next scope _ hf.2.1 (by decide) hnext).append
      (Ladder.laid others scope tail hf.2.2 hothers))

theorem ForInit.laid : ∀ (i : ForInit) (scope : Scope) (tail : List Piece), i.Formed →
    (∀ s ∈ i.sites scope, s.Sound) →
      Laid i.tokens i.desugar.tokens (lostLines (i.sites scope)) (i.pieces tail) tail
  | .exprs items, scope, tail, hf, hs => exprsPieces_laid items scope tail hf hs
  | .vars list, scope, tail, hf, hs => VarList.laid list scope tail hf hs

theorem VarList.laid : ∀ (l : VarList) (scope : Scope) (tail : List Piece), l.Formed →
    (∀ s ∈ l.sites scope, s.Sound) →
      Laid l.tokens l.desugar.tokens (lostLines (l.sites scope)) (l.pieces tail) tail
  | ⟨keyword, items⟩, scope, tail, hf, hs =>
    .cons hf.1 (by decide) (declsPieces_laid items scope tail hf.2 hs)

theorem declsPieces_laid : ∀ (ds : Separated Decl) (scope : Scope) (tail : List Piece),
    declsFormed ds → (∀ s ∈ declsSites scope ds, s.Sound) →
      Laid (declsTokens ds) (declsTokens (declsDesugar ds)) (lostLines (declsSites scope ds))
        (declsPieces ds tail) tail
  | .nil, _, _, _, _ => .nil
  | .one d, scope, tail, hf, hs => Decl.laid d scope tail hf hs
  | .more d comma ds, scope, tail, hf, hs => by
    obtain ⟨hd, hds⟩ := List.forall_mem_append.mp hs
    rw [declsSites, lostLines_append]
    exact (Decl.laid d scope _ hf.1 hd).append
      (.cons hf.2.1 (by decide) (declsPieces_laid ds scope tail hf.2.2 hds))

theorem Decl.laid : ∀ (d : Decl) (scope : Scope) (tail : List Piece), d.Formed →
    (∀ s ∈ d.sites scope, s.Sound) →
      Laid d.tokens d.desugar.tokens (lostLines (d.sites scope)) (d.pieces tail) tail
  | ⟨name, none⟩, _, tail, hf, _ => .replay hf (by decide) tail
  | ⟨name, some (equals, value)⟩, scope, tail, hf, hs =>
    .cons hf.1 (by decide) (.cons hf.2.1 (by decide) (Expr.laid value scope tail hf.2.2 hs))

theorem clausesPieces_laid : ∀ (cs : List Clause) (scope : Scope) (tail : List Piece),
    clausesFormed cs → (∀ s ∈ clausesSites scope cs, s.Sound) →
      Laid (clausesTokens cs) (clausesTokens (clausesDesugar cs)) (lostLines (clausesSites scope cs))
        (clausesPieces cs tail) tail
  | [], _, _, _, _ => .nil
  | ⟨keyword, none, colon, body⟩ :: cs, scope, tail, hf, hs => by
    obtain ⟨hbody, hcs⟩ := List.forall_mem_append.mp hs
    rw [clausesSites, lostLines_append]
    exact .cons hf.1.1 (by decide) (.cons hf.1.2.1 (by decide)
      ((stmtsPieces_laid body scope .nested _ hf.1.2.2 hbody).append
        (clausesPieces_laid cs scope tail hf.2 hcs)))
  | ⟨keyword, some test, colon, body⟩ :: cs, scope, tail, hf, hs => by
    rw [clausesSites, List.forall_mem_append, List.forall_mem_append] at hs
    obtain ⟨⟨htest, hbody⟩, hcs⟩ := hs
    rw [clausesSites, lostLines_append, lostLines_append, Nat.add_assoc]
    have hstmts := (stmtsPieces_laid body scope .nested _ hf.1.2.2.2 hbody).append
      (clausesPieces_laid cs scope tail hf.2 hcs)
    exact .cons hf.1.1 (by decide) ((Expr.laid test scope _ hf.1.2.1 htest).append
      (.cons hf.1.2.2.1 (by decide) hstmts))

end

end Respell
