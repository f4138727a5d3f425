import Respell.Proofs.Parse.Subexprs

/-!
# Where the parts of a tree stand

What a part of a program was taken for can depend on what stands around it: on the tokens that follow it,
and on whether a conditional or a `case` waits for a colon. A spot is a part of a program together with
both. The spots of a program are reached from its statements by going from a part to the parts right inside
it, so what is true of all of them is proved for one such step.
-/

namespace Respell

open Text Respell.Parser

/-! ## Spots -/

/-- A part of a tree that is read for its own sake. -/
inductive Node where
  | expr (e : Expr)
  | stmt (s : Stmt)

/-- The tokens of the part. -/
def Node.tokens : Node → List Token
  | .expr e => e.tokens
  | .stmt s => s.tokens

/-- A part of a program where it stands: whether a conditional or a `case` around it waits for a colon, and all
    the tokens after it. -/
structure Spot where
  node : Node
  colon : Colon
  after : List Token

/-- The tokens from the spot on. -/
def Spot.tokens (s : Spot) : List Token := s.node.tokens ++ s.after

/-- The spot of an expression. -/
def Expr.spot (colon : Colon) (after : List Token) (e : Expr) : List Spot := [⟨.expr e, colon, after⟩]

/-- The spot of a statement. Nothing waits for a colon inside a statement, wherever it stands. -/
def Stmt.spot (after : List Token) (s : Stmt) : List Spot := [⟨.stmt s, .free, after⟩]

/-- The spots of the items of a comma list, given the tokens of an item and the spots in it. -/
def Separated.spots {α : Type} (tokens : α → List Token) (spots : List Token → α → List Spot)
    (after : List Token) : Separated α → List Spot
  | .nil => []
  | .one a => spots after a
  | .more a comma rest =>
    spots (comma :: (rest.tokens tokens ++ after)) a ++ rest.spots tokens spots after

/-- The spots of the items of a list without commas. -/
def listSpots {α : Type} (tokens : α → List Token) (spots : List Token → α → List Spot)
    (after : List Token) : List α → List Spot
  | [] => []
  | a :: as => spots (as.flatMap tokens ++ after) a ++ listSpots tokens spots after as

/-- The spots of a comma list of expressions. -/
def exprSpots (colon : Colon) (after : List Token) (es : Separated Expr) : List Spot :=
  es.spots Expr.tokens (Expr.spot colon) after

/-- The spots of a list of statements. -/
def stmtSpots (after : List Token) (ss : List Stmt) : List Spot :=
  listSpots Stmt.tokens Stmt.spot after ss

/-- The spots right inside a delimited list. -/
def Enclosed.spots (colon : Colon) (after : List Token) (e : Enclosed) : List Spot :=
  exprSpots colon (e.closing :: after) e.items

/-- The spots right inside a block. -/
def Block.spots (after : List Token) (b : Block) : List Spot :=
  stmtSpots (b.closing :: after) b.body

/-- The spot of the value of an entry. -/
def Entry.spots (colon : Colon) (after : List Token) (e : Entry) : List Spot :=
  e.value.spot colon after

/-- The spots right inside a head. What waits for a colon outside a function does not inside its body. -/
def Head.spots (colon : Colon) (after : List Token) : Head → List Spot
  | .literal _ => []
  | .ident _ => []
  | .pass _ _ => []
  | .rest _ _ => []
  | .unary _ operand => operand.spot colon after
  | .construct _ _ arguments => arguments.spots colon after
  | .array elements => elements.spots colon after
  | .object _ entries closing => entries.spots Entry.tokens (Entry.spots colon) (closing :: after)
  | .group _ inner closing => inner.spot colon (closing :: after)
  | .function f => f.body.spots after
  | .arrow _ _ body => body.spot colon after
  | .simpleArrow _ body => body.spot colon after

/-- The spots right inside a suffix. A conditional waits for its colon while its consequent is read. -/
def Suffix.spots (colon : Colon) (after : List Token) : Suffix → List Spot
  | .binary _ right => right.spot colon after
  | .ternary _ consequent c alternate =>
    consequent.spot .awaited (c :: (alternate.tokens ++ after)) ++ alternate.spot colon after
  | .call arguments => arguments.spots colon after
  | .invoke _ arguments => arguments.spots colon after
  | .index _ inner closing => inner.spot colon (closing :: after)
  | .property _ => []
  | .prototype _ _ => []

/-- The spots right inside an expression. -/
def Expr.spots (colon : Colon) (after : List Token) : Expr → List Spot
  | .head h => h.spots colon after
  | .suffix leading s => leading.spot colon (s.tokens ++ after) ++ s.spots colon after

/-- The spots of a test and of the block it guards. -/
def Guarded.spots (after : List Token) (g : Guarded) : List Spot :=
  g.test.spot .free (g.closing :: (g.body.tokens ++ after)) ++ g.body.spots after

/-- The spots of the branches after the first one. -/
def Ladder.spots (after : List Token) : Ladder → List Spot
  | .done => []
  | .otherwise _ body => body.spots after
  | .branch _ next others => next.spots (others.tokens ++ after) ++ others.spots after

/-- The spot of an initial value. -/
def Decl.spots (after : List Token) : Decl → List Spot
  | ⟨_, none⟩ => []
  | ⟨_, some (_, value)⟩ => value.spot .free after

/-- The spots of a `var` list. -/
def VarList.spots (after : List Token) (l : VarList) : List Spot :=
  l.items.spots Decl.tokens Decl.spots after

/-- The spots of the first part of a `for` head. -/
def ForInit.spots (after : List Token) : ForInit → List Spot
  | .exprs items => exprSpots .free after items
  | .vars list => list.spots after

/-- The spots right inside a clause. A `case` waits for its colon while its test is read. -/
def Clause.spots (after : List Token) : Clause → List Spot
  | ⟨_, none, _, body⟩ => stmtSpots after body
  | ⟨_, some test, colon, body⟩ =>
    test.spot .awaited (colon :: (stmtsTokens body ++ after)) ++ stmtSpots after body

/-- The spots right inside a statement. -/
def Stmt.spots (after : List Token) : Stmt → List Spot
  | .expr value semicolon => value.spot .free (semicolon :: after)
  | .empty _ => []
  | .conditional first others => first.spots (others.tokens ++ after) ++ others.spots after
  | .while loop => loop.spots after
  | .for _ _ init first test second update closing body =>
    let rest₃ := closing :: (body.tokens ++ after)
    let rest₂ := second :: (exprsTokens update ++ rest₃)
    let rest₁ := first :: (exprsTokens test ++ rest₂)
    init.spots rest₁ ++ exprSpots .free rest₂ test ++ exprSpots .free rest₃ update ++
      body.spots after
  | .forIn _ _ _ _ _ object closing body =>
    object.spot .free (closing :: (body.tokens ++ after)) ++ body.spots after
  | .jump _ _ _ => []
  | .return _ none _ => []
  | .return _ (some value) semicolon => value.spot .free (semicolon :: after)
  | .throw _ value semicolon => value.spot .free (semicolon :: after)
  | .vars list semicolon => list.spots (semicolon :: after)
  | .function f => f.body.spots after
  | .labeled _ _ body => body.spot after
  | .switch _ _ subject closing openBrace clauses closeBrace =>
    subject.spot .free (closing :: openBrace :: (clausesTokens clauses ++ closeBrace :: after)) ++
      listSpots Clause.tokens Clause.spots (closeBrace :: after) clauses
  | .block b => b.spots after
  | .include _ => []
  | .declare _ => []

/-- The spots right inside a spot. -/
def Spot.parts : Spot → List Spot
  | ⟨.expr e, colon, after⟩ => e.spots colon after
  | ⟨.stmt s, _, after⟩ => s.spots after

/-- A spot of the program: one of its statements, or a spot right inside another one. -/
inductive Program.Stands (x : Program) : Spot → Prop where
  | top {s : Spot} : s ∈ stmtSpots [x.endOfFile] x.body → Program.Stands x s
  | inside {s part : Spot} : Program.Stands x s → part ∈ s.parts → Program.Stands x part

/-! ## The tokens around a spot -/

/-- The part is written somewhere in `ts`, and what follows it there and then `after` is what follows it. -/
def Spot.Inside (ts after : List Token) (s : Spot) : Prop :=
  ∃ before rest, ts = before ++ (s.node.tokens ++ rest) ∧ s.after = rest ++ after

theorem Spot.Inside.trans {ts after : List Token} {s part : Spot} (h : part.Inside s.node.tokens s.after)
    (h' : s.Inside ts after) : part.Inside ts after := by
  obtain ⟨before, rest, htokens, hafter⟩ := h
  obtain ⟨before', rest', rfl, hafter'⟩ := h'
  refine ⟨before' ++ before, rest ++ rest', ?_, ?_⟩
  · simp [htokens]
  · simp [hafter, hafter']

/-- All the spots are inside. -/
def AllInside (ts after : List Token) (spots : List Spot) : Prop := ∀ s ∈ spots, s.Inside ts after

namespace AllInside

variable {α : Type} {tokens : α → List Token} {spots : List Token → α → List Spot}
  {ts us after : List Token} {ss ss' : List Spot}

theorem nil (ts after : List Token) : AllInside ts after [] := List.forall_mem_nil _

theorem append (h : AllInside ts after ss) (h' : AllInside ts after ss') :
    AllInside ts after (ss ++ ss') := List.forall_mem_append.mpr ⟨h, h'⟩

/-- Tokens before change nothing. -/
theorem before (h : AllInside us after ss) (ts : List Token) : AllInside (ts ++ us) after ss := by
  intro s hs
  obtain ⟨before, rest, rfl, hafter⟩ := h s hs
  exact ⟨ts ++ before, rest, (List.append_assoc ts before _).symm, hafter⟩

/-- The first tokens of what follows may count as inside. -/
theorem upTo (h : AllInside ts (us ++ after) ss) : AllInside (ts ++ us) after ss := by
  intro s hs
  obtain ⟨before, rest, rfl, hafter⟩ := h s hs
  refine ⟨before, rest ++ us, by simp, ?_⟩
  rw [hafter, List.append_assoc]

theorem expr (colon : Colon) (after : List Token) (e : Expr) :
    AllInside e.tokens after (e.spot colon after) :=
  List.forall_mem_singleton.mpr ⟨[], [], (List.append_nil _).symm, rfl⟩

theorem stmt (after : List Token) (s : Stmt) : AllInside s.tokens after (s.spot after) :=
  List.forall_mem_singleton.mpr ⟨[], [], (List.append_nil _).symm, rfl⟩

theorem separated (hitem : ∀ after a, AllInside (tokens a) after (spots after a)) (after : List Token)
    (items : Separated α) : AllInside (items.tokens tokens) after (items.spots tokens spots after) := by
  induction items with
  | nil => exact .nil _ _
  | one a => exact hitem after a
  | more a comma rest ih =>
      have hfirst := (hitem ((comma :: rest.tokens tokens) ++ after) a).upTo
      exact hfirst.append ((ih.before [comma]).before (tokens a))

theorem list (hitem : ∀ after a, AllInside (tokens a) after (spots after a)) (after : List Token)
    (as : List α) : AllInside (as.flatMap tokens) after (listSpots tokens spots after as) := by
  induction as with
  | nil => exact .nil _ _
  | cons a as ih =>
      rw [List.flatMap_cons]
      exact (hitem (as.flatMap tokens ++ after) a).upTo.append (ih.before (tokens a))

theorem exprs (colon : Colon) (after : List Token) (es : Separated Expr) :
    AllInside (exprsTokens es) after (exprSpots colon after es) := by
  rw [exprsTokens_eq]
  exact separated (.expr colon) after es

theorem stmts (after : List Token) (ss : List Stmt) :
    AllInside (stmtsTokens ss) after (stmtSpots after ss) := by
  rw [stmtsTokens_eq]
  exact list .stmt after ss

theorem enclosed (colon : Colon) (after : List Token) (e : Enclosed) :
    AllInside e.tokens after (e.spots colon after) := by
  rw [Enclosed.tokens_eq]
  exact (exprs colon ([e.closing] ++ after) e.items).upTo.before [e.opening]

theorem block (after : List Token) (b : Block) : AllInside b.tokens after (b.spots after) := by
  rw [Block.tokens_eq]
  exact (stmts ([b.closing] ++ after) b.body).upTo.before [b.opening]

theorem function (after : List Token) (f : Func) : AllInside f.tokens after (f.body.spots after) := by
  obtain ⟨keyword, name, params, receiver, body⟩ := f
  exact (block after body).before _

theorem entry (colon : Colon) (after : List Token) (e : Entry) :
    AllInside e.tokens after (e.spots colon after) :=
  (expr colon after e.value).before [e.key, e.colon]

theorem head (colon : Colon) (after : List Token) (h : Head) :
    AllInside h.tokens after (h.spots colon after) := by
  cases h with
  | literal t => exact .nil _ _
  | ident t => exact .nil _ _
  | pass mark handler => exact .nil _ _
  | rest name dots => exact .nil _ _
  | unary operator operand => exact (expr colon after operand).before [operator]
  | construct keyword callee arguments =>
      exact ((enclosed colon after arguments).before callee.tokens).before [keyword]
  | array elements => exact enclosed colon after elements
  | object opening entries closing =>
      rw [Head.tokens, entriesTokens_eq]
      exact (separated (entry colon) ([closing] ++ after) entries).upTo.before [opening]
  | group opening inner closing =>
      exact (expr colon ([closing] ++ after) inner).upTo.before [opening]
  | function f => exact function after f
  | arrow params sign body => exact ((expr colon after body).before [sign]).before params.tokens
  | simpleArrow sign body => exact (expr colon after body).before [sign]

theorem suffix (colon : Colon) (after : List Token) (s : Suffix) :
    AllInside s.tokens after (s.spots colon after) := by
  cases s with
  | binary operator right => exact (expr colon after right).before [operator]
  | ternary question consequent c alternate =>
      have hconsequent := (expr .awaited ((c :: alternate.tokens) ++ after) consequent).upTo
      have halternate := ((expr colon after alternate).before [c]).before consequent.tokens
      exact (hconsequent.before [question]).append (halternate.before [question])
  | call arguments => exact enclosed colon after arguments
  | invoke member arguments => exact (enclosed colon after arguments).before member.tokens
  | index opening inner closing =>
      exact (expr colon ([closing] ++ after) inner).upTo.before [opening]
  | property member => exact .nil _ _
  | prototype colons name => exact .nil _ _

theorem guarded (after : List Token) (g : Guarded) : AllInside g.tokens after (g.spots after) := by
  obtain ⟨keyword, opening, test, closing, body⟩ := g
  have htest := (expr .free ((closing :: body.tokens) ++ after) test).upTo
  have hbody := ((block after body).before [closing]).before test.tokens
  exact (htest.before [keyword, opening]).append (hbody.before [keyword, opening])

theorem ladder (after : List Token) (l : Ladder) : AllInside l.tokens after (l.spots after) := by
  cases l with
  | done => exact .nil _ _
  | otherwise keyword body => exact (block after body).before [keyword]
  | branch keyword next others =>
      have hnext := (guarded (others.tokens ++ after) next).upTo
      have hothers := (ladder after others).before next.tokens
      exact (hnext.before [keyword]).append (hothers.before [keyword])

theorem decl (after : List Token) (d : Decl) : AllInside d.tokens after (d.spots after) := by
  obtain ⟨name, init⟩ := d
  cases init with
  | none => exact .nil _ _
  | some init =>
      obtain ⟨equals, value⟩ := init
      exact (expr .free after value).before [name, equals]

theorem varList (after : List Token) (l : VarList) : AllInside l.tokens after (l.spots after) := by
  obtain ⟨keyword, items⟩ := l
  rw [VarList.tokens, declsTokens_eq]
  exact (separated decl after items).before [keyword]

theorem forInit (after : List Token) (i : ForInit) : AllInside i.tokens after (i.spots after) := by
  cases i with
  | exprs items => exact exprs .free after items
  | vars list => exact varList after list

theorem clause (after : List Token) (c : Clause) : AllInside c.tokens after (c.spots after) := by
  obtain ⟨keyword, test, colon, body⟩ := c
  cases test with
  | none => exact (stmts after body).before [keyword, colon]
  | some test =>
      have htest := (expr .awaited ((colon :: stmtsTokens body) ++ after) test).upTo
      have hbody := ((stmts after body).before [colon]).before test.tokens
      exact (htest.before [keyword]).append (hbody.before [keyword])

theorem statement (after : List Token) (s : Stmt) : AllInside s.tokens after (s.spots after) := by
  cases s with
  | expr value semicolon => exact (expr .free ([semicolon] ++ after) value).upTo
  | empty semicolon => exact .nil _ _
  | conditional first others =>
      exact (guarded (others.tokens ++ after) first).upTo.append
        ((ladder after others).before first.tokens)
  | «while» loop => exact guarded after loop
  | «for» keyword opening init first test second update closing body =>
      -- What follows each part of the head is inside the statement up to the end of the body.
      let rest₃ := closing :: body.tokens
      let rest₂ := second :: (exprsTokens update ++ rest₃)
      have hbody := (((block after body).before [closing]).before (exprsTokens update)).before [second]
      have hupdate := (exprs .free (rest₃ ++ after) update).upTo.before [second]
      have hlast := (hupdate.append hbody).before (exprsTokens test)
      have htest : AllInside (exprsTokens test ++ rest₂) after
          (exprSpots .free (rest₂ ++ after) test) := (exprs .free (rest₂ ++ after) test).upTo
      have hinit := (forInit ((first :: (exprsTokens test ++ rest₂)) ++ after) init).upTo
      have hrest := ((htest.append hlast).before [first]).before init.tokens
      have hall := (hinit.append hrest).before [keyword, opening]
      simpa [Stmt.spots, Stmt.tokens, rest₂, rest₃] using hall
  | forIn keyword opening var name inWord object closing body =>
      have hobject := (expr .free ((closing :: body.tokens) ++ after) object).upTo
      have hbody := ((block after body).before [closing]).before object.tokens
      have hall := ((hobject.append hbody).before [name, inWord]).before var.toList
      exact hall.before [keyword, opening]
  | jump keyword label semicolon => exact .nil _ _
  | «return» keyword value semicolon =>
      cases value with
      | none => exact .nil _ _
      | some value => exact (expr .free ([semicolon] ++ after) value).upTo.before [keyword]
  | throw keyword value semicolon =>
      exact (expr .free ([semicolon] ++ after) value).upTo.before [keyword]
  | vars list semicolon => exact (varList ([semicolon] ++ after) list).upTo
  | function f => exact function after f
  | labeled label colon body => exact (stmt after body).before [label, colon]
  | switch keyword opening subject closing openBrace clauses closeBrace =>
      have hclauses := (list clause ([closeBrace] ++ after) clauses).upTo.before [closing, openBrace]
      rw [← clausesTokens_eq] at hclauses
      have hsubject := (expr .free
        (closing :: openBrace :: (clausesTokens clauses ++ [closeBrace]) ++ after) subject).upTo
      have hall := (hsubject.append (hclauses.before subject.tokens)).before [keyword, opening]
      simpa [Stmt.spots, Stmt.tokens] using hall
  | block b => exact block after b
  | «include» p => exact .nil _ _
  | declare p => exact .nil _ _

theorem parts (s : Spot) : AllInside s.node.tokens s.after s.parts := by
  obtain ⟨node, colon, after⟩ := s
  cases node with
  | stmt s => exact statement after s
  | expr e =>
      cases e with
      | head h => exact head colon after h
      | suffix leading s =>
          exact (expr colon (s.tokens ++ after) leading).upTo.append
            ((suffix colon after s).before leading.tokens)

end AllInside

/-- A spot of a program is inside its statements, before its end. -/
theorem Program.Stands.inside_body {x : Program} {s : Spot} (h : x.Stands s) :
    s.Inside (stmtsTokens x.body) [x.endOfFile] := by
  induction h with
  | top hmem => exact AllInside.stmts [x.endOfFile] x.body _ hmem
  | inside _ hmem ih => exact (AllInside.parts _ _ hmem).trans ih

/-- From a spot of a program on, the tokens are the last ones of the program. -/
theorem Program.Stands.tokens_suffix {x : Program} {s : Spot} (h : x.Stands s) :
    s.tokens <:+ x.tokens := by
  obtain ⟨before, rest, hbody, hafter⟩ := h.inside_body
  refine ⟨before, ?_⟩
  rw [Program.tokens, hbody, Spot.tokens, hafter]
  simp

/-- Something follows every spot of a program. -/
theorem Program.Stands.after_ne_nil {x : Program} {s : Spot} (h : x.Stands s) : s.after ≠ [] := by
  obtain ⟨before, rest, _, hafter⟩ := h.inside_body
  simp [hafter]

/-! ## Every expression stands somewhere -/

/-- The expression stands somewhere in the program. -/
def Program.Holds (x : Program) (e : Expr) : Prop := ∃ colon after, x.Stands ⟨.expr e, colon, after⟩

/-- All the spots are spots of the program. -/
abbrev Program.StandAll (x : Program) (spots : List Spot) : Prop := ∀ s ∈ spots, x.Stands s

/-- All the expressions stand somewhere in the program. -/
abbrev Program.HoldAll (x : Program) (es : List Expr) : Prop := ∀ e ∈ es, x.Holds e

section Holds

variable {x : Program}

mutual

theorem Expr.held {colon : Colon} {after : List Token} (e : Expr)
    (h : x.StandAll (e.spot colon after)) : x.HoldAll e.subexprs := by
  have hself := List.forall_mem_singleton.mp h
  have hparts {part : Spot} (hpart : part ∈ e.spots colon after) : x.Stands part := hself.inside hpart
  cases e with
  | head first => exact List.forall_mem_cons.mpr ⟨⟨_, _, hself⟩, first.held fun _ => hparts⟩
  | suffix leading s =>
      obtain ⟨hleading, hsuffix⟩ := List.forall_mem_append.mp fun _ => hparts
      exact List.forall_mem_cons.mpr
        ⟨⟨_, _, hself⟩, List.forall_mem_append.mpr ⟨leading.held hleading, s.held hsuffix⟩⟩

theorem Head.held {colon : Colon} {after : List Token} (h : Head)
    (hs : x.StandAll (h.spots colon after)) : x.HoldAll h.subexprs := by
  cases h with
  | literal t => exact List.forall_mem_nil _
  | ident t => exact List.forall_mem_nil _
  | pass mark handler => exact List.forall_mem_nil _
  | rest name dots => exact List.forall_mem_nil _
  | unary operator operand => exact operand.held hs
  | construct keyword callee arguments => exact arguments.held hs
  | array elements => exact elements.held hs
  | object opening entries closing => exact entriesHeld entries hs
  | group opening inner closing => exact inner.held hs
  | function f => exact f.held hs
  | arrow params sign body => exact body.held hs
  | simpleArrow sign body => exact body.held hs

theorem Suffix.held {colon : Colon} {after : List Token} (s : Suffix)
    (hs : x.StandAll (s.spots colon after)) : x.HoldAll s.subexprs := by
  cases s with
  | binary operator right => exact right.held hs
  | ternary question consequent c alternate =>
      obtain ⟨hconsequent, halternate⟩ := List.forall_mem_append.mp hs
      exact List.forall_mem_append.mpr ⟨consequent.held hconsequent, alternate.held halternate⟩
  | call arguments => exact arguments.held hs
  | invoke member arguments => exact arguments.held hs
  | index opening inner closing => exact inner.held hs
  | property member => exact List.forall_mem_nil _
  | prototype colons name => exact List.forall_mem_nil _

theorem Enclosed.held {colon : Colon} {after : List Token} (e : Enclosed)
    (hs : x.StandAll (e.spots colon after)) : x.HoldAll e.subexprs := by
  obtain ⟨opening, items, closing⟩ := e
  exact exprsHeld items hs

theorem exprsHeld {colon : Colon} {after : List Token} (es : Separated Expr)
    (hs : x.StandAll (exprSpots colon after es)) : x.HoldAll (exprsSubexprs es) := by
  cases es with
  | nil => exact List.forall_mem_nil _
  | one e => exact e.held hs
  | more e comma es =>
      obtain ⟨he, hes⟩ := List.forall_mem_append.mp hs
      exact List.forall_mem_append.mpr ⟨e.held he, exprsHeld es hes⟩

theorem entriesHeld {colon : Colon} {after : List Token} (es : Separated Entry)
    (hs : x.StandAll (es.spots Entry.tokens (Entry.spots colon) after)) :
    x.HoldAll (entriesSubexprs es) := by
  cases es with
  | nil => exact List.forall_mem_nil _
  | one e =>
      obtain ⟨key, c, value⟩ := e
      exact value.held hs
  | more e comma es =>
      obtain ⟨key, c, value⟩ := e
      obtain ⟨he, hes⟩ := List.forall_mem_append.mp hs
      exact List.forall_mem_append.mpr ⟨value.held he, entriesHeld es hes⟩

theorem Func.held {after : List Token} (f : Func) (hs : x.StandAll (f.body.spots after)) :
    x.HoldAll f.subexprs := by
  obtain ⟨keyword, name, params, receiver, body⟩ := f
  exact body.held hs

theorem Block.held {after : List Token} (b : Block) (hs : x.StandAll (b.spots after)) :
    x.HoldAll b.subexprs := by
  obtain ⟨opening, body, closing⟩ := b
  exact stmtsHeld body hs

theorem stmtsHeld {after : List Token} (ss : List Stmt) (hs : x.StandAll (stmtSpots after ss)) :
    x.HoldAll (stmtsSubexprs ss) := by
  cases ss with
  | nil => exact List.forall_mem_nil _
  | cons s ss =>
      obtain ⟨hfirst, hrest⟩ := List.forall_mem_append.mp hs
      exact List.forall_mem_append.mpr ⟨s.held hfirst, stmtsHeld ss hrest⟩

theorem Stmt.held {after : List Token} (s : Stmt) (h : x.StandAll (s.spot after)) :
    x.HoldAll s.subexprs := by
  have hself := List.forall_mem_singleton.mp h
  have hs : x.StandAll (s.spots after) := fun _ hpart => hself.inside hpart
  cases s with
  | expr value semicolon => exact value.held hs
  | empty semicolon => exact List.forall_mem_nil _
  | conditional first others =>
      obtain ⟨hfirst, hothers⟩ := List.forall_mem_append.mp hs
      exact List.forall_mem_append.mpr ⟨first.held hfirst, others.held hothers⟩
  | «while» loop => exact loop.held hs
  | «for» keyword opening init first test second update closing body =>
      obtain ⟨hs, hbody⟩ := List.forall_mem_append.mp hs
      obtain ⟨hs, hupdate⟩ := List.forall_mem_append.mp hs
      obtain ⟨hinit, htest⟩ := List.forall_mem_append.mp hs
      have hhead := List.forall_mem_append.mpr ⟨init.held hinit, exprsHeld test htest⟩
      exact List.forall_mem_append.mpr
        ⟨List.forall_mem_append.mpr ⟨hhead, exprsHeld update hupdate⟩, body.held hbody⟩
  | forIn keyword opening var name inWord object closing body =>
      obtain ⟨hobject, hbody⟩ := List.forall_mem_append.mp hs
      exact List.forall_mem_append.mpr ⟨object.held hobject, body.held hbody⟩
  | jump keyword label semicolon => exact List.forall_mem_nil _
  | «return» keyword value semicolon =>
      cases value with
      | none => exact List.forall_mem_nil _
      | some value => exact value.held hs
  | throw keyword value semicolon => exact value.held hs
  | vars list semicolon => exact list.held hs
  | function f => exact f.held hs
  | labeled label c body => exact body.held hs
  | switch keyword opening subject closing openBrace clauses closeBrace =>
      obtain ⟨hsubject, hclauses⟩ := List.forall_mem_append.mp hs
      exact List.forall_mem_append.mpr ⟨subject.held hsubject, clausesHeld clauses hclauses⟩
  | block b => exact b.held hs
  | «include» p => exact List.forall_mem_nil _
  | declare p => exact List.forall_mem_nil _

theorem Guarded.held {after : List Token} (g : Guarded) (hs : x.StandAll (g.spots after)) :
    x.HoldAll g.subexprs := by
  obtain ⟨keyword, opening, test, closing, body⟩ := g
  obtain ⟨htest, hbody⟩ := List.forall_mem_append.mp hs
  exact List.forall_mem_append.mpr ⟨test.held htest, body.held hbody⟩

theorem Ladder.held {after : List Token} (l : Ladder) (hs : x.StandAll (l.spots after)) :
    x.HoldAll l.subexprs := by
  cases l with
  | done => exact List.forall_mem_nil _
  | otherwise keyword body => exact body.held hs
  | branch keyword next others =>
      obtain ⟨hnext, hothers⟩ := List.forall_mem_append.mp hs
      exact List.forall_mem_append.mpr ⟨next.held hnext, others.held hothers⟩

theorem ForInit.held {after : List Token} (i : ForInit) (hs : x.StandAll (i.spots after)) :
    x.HoldAll i.subexprs := by
  cases i with
  | exprs items => exact exprsHeld items hs
  | vars list => exact list.held hs

theorem VarList.held {after : List Token} (l : VarList) (hs : x.StandAll (l.spots after)) :
    x.HoldAll l.subexprs := by
  obtain ⟨keyword, items⟩ := l
  exact declsHeld items hs

theorem declsHeld {after : List Token} (ds : Separated Decl)
    (hs : x.StandAll (ds.spots Decl.tokens Decl.spots after)) : x.HoldAll (declsSubexprs ds) := by
  cases ds with
  | nil => exact List.forall_mem_nil _
  | one d => exact d.held hs
  | more d comma ds =>
      obtain ⟨hd, hds⟩ := List.forall_mem_append.mp hs
      exact List.forall_mem_append.mpr ⟨d.held hd, declsHeld ds hds⟩

theorem Decl.held {after : List Token} (d : Decl) (hs : x.StandAll (d.spots after)) :
    x.HoldAll d.subexprs := by
  obtain ⟨name, init⟩ := d
  cases init with
  | none => exact List.forall_mem_nil _
  | some init =>
      obtain ⟨equals, value⟩ := init
      exact value.held hs

theorem clausesHeld {after : List Token} (cs : List Clause)
    (hs : x.StandAll (listSpots Clause.tokens Clause.spots after cs)) :
    x.HoldAll (clausesSubexprs cs) := by
  cases cs with
  | nil => exact List.forall_mem_nil _
  | cons c cs =>
      obtain ⟨keyword, test, c, body⟩ := c
      obtain ⟨hclause, hclauses⟩ := List.forall_mem_append.mp hs
      cases test with
      | none => exact List.forall_mem_append.mpr ⟨stmtsHeld body hclause, clausesHeld cs hclauses⟩
      | some test =>
          obtain ⟨htest, hbody⟩ := List.forall_mem_append.mp hclause
          have hparts := List.forall_mem_append.mpr ⟨test.held htest, stmtsHeld body hbody⟩
          exact List.forall_mem_append.mpr ⟨hparts, clausesHeld cs hclauses⟩

end

end Holds

theorem Program.holds_of_mem_subexprs {x : Program} {e : Expr} (h : e ∈ x.subexprs) : x.Holds e :=
  stmtsHeld x.body (fun _ => .top) e h

end Respell
