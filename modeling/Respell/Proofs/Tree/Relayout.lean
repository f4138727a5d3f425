import Respell.Proofs.Parse.Lossless
import Respell.Proofs.Parse.Nesting

/-!
# The same tree in another layout

Two texts that differ in blanks and comments only are read as trees that differ in the positions of
their tokens and in the trivia after them, and in nothing else. A `Relayout` gives every token a new position
and new trivia; `relayout` applies it to all tokens of a tree, whose kinds and texts stay.
-/

namespace Respell

/-- New positions and new trivia for tokens. -/
structure Relayout where
  pos : Token → Text.TextPos
  trailing : Token → String

/-- The layout as it is. -/
def Relayout.id : Relayout := ⟨Token.pos, Token.trailing⟩

/-- The token in another layout. -/
def Token.relayout (g : Relayout) (t : Token) : Token :=
  { t with pos := g.pos t, trailing := g.trailing t }

@[simp] theorem Token.relayout_kind (g : Relayout) (t : Token) : (t.relayout g).kind = t.kind := rfl

@[simp] theorem Token.relayout_text (g : Relayout) (t : Token) : (t.relayout g).text = t.text := rfl

/-- A comma list in another layout, given what becomes of its items. -/
def Separated.relayout {α β : Type} (g : Relayout) (f : α → β) : Separated α → Separated β
  | .nil => .nil
  | .one a => .one (f a)
  | .more a comma rest => .more (f a) (comma.relayout g) (rest.relayout g f)

/-! ## Parts without subtrees -/

def Member.relayout (g : Relayout) (m : Member) : Member := ⟨m.dot.relayout g, m.name.relayout g⟩

def DottedName.relayout (g : Relayout) (d : DottedName) : DottedName :=
  ⟨d.first.relayout g, d.members.map (Member.relayout g)⟩

def Param.relayout (g : Relayout) : Param → Param
  | .plain name => .plain (name.relayout g)
  | .pass mark handler => .pass (mark.relayout g) (handler.map (Token.relayout g))
  | .rest name dots => .rest (name.relayout g) (dots.relayout g)

def Params.relayout (g : Relayout) (x : Params) : Params :=
  ⟨x.opening.relayout g, x.items.relayout g (Param.relayout g), x.closing.relayout g⟩

def Receiver.relayout (g : Relayout) (x : Receiver) : Receiver :=
  ⟨x.colon.relayout g, x.name.relayout g⟩

def PragmaItem.relayout (g : Relayout) : PragmaItem → PragmaItem
  | .single name => .single (name.relayout g)
  | .group colon name => .group (colon.relayout g) (name.relayout g)

def Pragma.relayout (g : Relayout) (x : Pragma) : Pragma :=
  ⟨x.keyword.relayout g, x.items.relayout g (PragmaItem.relayout g), x.semicolon.relayout g⟩

/-! ## Trees -/

mutual

/-- An expression in another layout. -/
def Expr.relayout (g : Relayout) : Expr → Expr
  | .head h => .head (h.relayout g)
  | .suffix leading s => .suffix (leading.relayout g) (s.relayout g)

/-- A head in another layout. -/
def Head.relayout (g : Relayout) : Head → Head
  | .literal t => .literal (t.relayout g)
  | .ident t => .ident (t.relayout g)
  | .pass mark handler => .pass (mark.relayout g) (handler.map (Token.relayout g))
  | .rest name dots => .rest (name.relayout g) (dots.relayout g)
  | .unary operator operand => .unary (operator.relayout g) (operand.relayout g)
  | .construct keyword callee arguments =>
    .construct (keyword.relayout g) (callee.relayout g) (arguments.relayout g)
  | .array elements => .array (elements.relayout g)
  | .object opening entries closing =>
    .object (opening.relayout g) (entriesRelayout g entries) (closing.relayout g)
  | .group opening inner closing =>
    .group (opening.relayout g) (inner.relayout g) (closing.relayout g)
  | .function f => .function (f.relayout g)
  | .arrow params sign body => .arrow (params.relayout g) (sign.relayout g) (body.relayout g)
  | .simpleArrow sign body => .simpleArrow (sign.relayout g) (body.relayout g)

/-- A suffix in another layout. -/
def Suffix.relayout (g : Relayout) : Suffix → Suffix
  | .binary operator right => .binary (operator.relayout g) (right.relayout g)
  | .ternary question consequent colon alternate =>
    .ternary (question.relayout g) (consequent.relayout g) (colon.relayout g) (alternate.relayout g)
  | .call arguments => .call (arguments.relayout g)
  | .invoke member arguments => .invoke (member.relayout g) (arguments.relayout g)
  | .index opening inner closing =>
    .index (opening.relayout g) (inner.relayout g) (closing.relayout g)
  | .property member => .property (member.relayout g)
  | .prototype colons name => .prototype (colons.relayout g) (name.map (Token.relayout g))

/-- A delimited list in another layout. -/
def Enclosed.relayout (g : Relayout) : Enclosed → Enclosed
  | ⟨opening, items, closing⟩ => ⟨opening.relayout g, exprsRelayout g items, closing.relayout g⟩

/-- A comma list of expressions in another layout. -/
def exprsRelayout (g : Relayout) : Separated Expr → Separated Expr
  | .nil => .nil
  | .one e => .one (e.relayout g)
  | .more e comma es => .more (e.relayout g) (comma.relayout g) (exprsRelayout g es)

/-- A comma list of object entries in another layout. -/
def entriesRelayout (g : Relayout) : Separated Entry → Separated Entry
  | .nil => .nil
  | .one ⟨key, colon, value⟩ => .one ⟨key.relayout g, colon.relayout g, value.relayout g⟩
  | .more ⟨key, colon, value⟩ comma es =>
    .more ⟨key.relayout g, colon.relayout g, value.relayout g⟩ (comma.relayout g)
      (entriesRelayout g es)

/-- A function in another layout. -/
def Func.relayout (g : Relayout) : Func → Func
  | ⟨keyword, name, params, receiver, body⟩ =>
    ⟨keyword.map (Token.relayout g), name.map (Token.relayout g), params.relayout g,
      receiver.map (Receiver.relayout g), body.relayout g⟩

/-- A block in another layout. -/
def Block.relayout (g : Relayout) : Block → Block
  | ⟨opening, body, closing⟩ => ⟨opening.relayout g, stmtsRelayout g body, closing.relayout g⟩

/-- A list of statements in another layout. -/
def stmtsRelayout (g : Relayout) : List Stmt → List Stmt
  | [] => []
  | s :: ss => s.relayout g :: stmtsRelayout g ss

/-- A statement in another layout. -/
def Stmt.relayout (g : Relayout) : Stmt → Stmt
  | .expr value semicolon => .expr (value.relayout g) (semicolon.relayout g)
  | .empty semicolon => .empty (semicolon.relayout g)
  | .conditional first others => .conditional (first.relayout g) (others.relayout g)
  | .while loop => .while (loop.relayout g)
  | .for keyword opening init first test second update closing body =>
    .for (keyword.relayout g) (opening.relayout g) (init.relayout g) (first.relayout g)
      (exprsRelayout g test) (second.relayout g) (exprsRelayout g update) (closing.relayout g)
      (body.relayout g)
  | .forIn keyword opening var name inWord object closing body =>
    .forIn (keyword.relayout g) (opening.relayout g) (var.map (Token.relayout g)) (name.relayout g)
      (inWord.relayout g) (object.relayout g) (closing.relayout g) (body.relayout g)
  | .jump keyword label semicolon =>
    .jump (keyword.relayout g) (label.map (Token.relayout g)) (semicolon.relayout g)
  | .return keyword none semicolon => .return (keyword.relayout g) none (semicolon.relayout g)
  | .return keyword (some value) semicolon =>
    .return (keyword.relayout g) (some (value.relayout g)) (semicolon.relayout g)
  | .throw keyword value semicolon =>
    .throw (keyword.relayout g) (value.relayout g) (semicolon.relayout g)
  | .vars list semicolon => .vars (list.relayout g) (semicolon.relayout g)
  | .function f => .function (f.relayout g)
  | .labeled label colon body => .labeled (label.relayout g) (colon.relayout g) (body.relayout g)
  | .switch keyword opening subject closing openBrace clauses closeBrace =>
    .switch (keyword.relayout g) (opening.relayout g) (subject.relayout g) (closing.relayout g)
      (openBrace.relayout g) (clausesRelayout g clauses) (closeBrace.relayout g)
  | .block b => .block (b.relayout g)
  | .include p => .include (p.relayout g)
  | .declare p => .declare (p.relayout g)

/-- A guarded block in another layout. -/
def Guarded.relayout (g : Relayout) : Guarded → Guarded
  | ⟨keyword, opening, test, closing, body⟩ =>
    ⟨keyword.relayout g, opening.relayout g, test.relayout g, closing.relayout g, body.relayout g⟩

/-- The branches after the first one in another layout. -/
def Ladder.relayout (g : Relayout) : Ladder → Ladder
  | .done => .done
  | .otherwise keyword body => .otherwise (keyword.relayout g) (body.relayout g)
  | .branch keyword next others =>
    .branch (keyword.relayout g) (next.relayout g) (others.relayout g)

/-- The first part of a `for` head in another layout. -/
def ForInit.relayout (g : Relayout) : ForInit → ForInit
  | .exprs items => .exprs (exprsRelayout g items)
  | .vars list => .vars (list.relayout g)

/-- A `var` list in another layout. -/
def VarList.relayout (g : Relayout) : VarList → VarList
  | ⟨keyword, items⟩ => ⟨keyword.relayout g, declsRelayout g items⟩

/-- A comma list of declared names in another layout. -/
def declsRelayout (g : Relayout) : Separated Decl → Separated Decl
  | .nil => .nil
  | .one d => .one (d.relayout g)
  | .more d comma ds => .more (d.relayout g) (comma.relayout g) (declsRelayout g ds)

/-- A declared name and its initial value in another layout. -/
def Decl.relayout (g : Relayout) : Decl → Decl
  | ⟨name, none⟩ => ⟨name.relayout g, none⟩
  | ⟨name, some (equals, value)⟩ => ⟨name.relayout g, some (equals.relayout g, value.relayout g)⟩

/-- The clauses of a switch in another layout. -/
def clausesRelayout (g : Relayout) : List Clause → List Clause
  | [] => []
  | ⟨keyword, none, colon, body⟩ :: cs =>
    ⟨keyword.relayout g, none, colon.relayout g, stmtsRelayout g body⟩ :: clausesRelayout g cs
  | ⟨keyword, some test, colon, body⟩ :: cs =>
    ⟨keyword.relayout g, some (test.relayout g), colon.relayout g, stmtsRelayout g body⟩ ::
      clausesRelayout g cs

end

/-- A program in another layout, with other trivia before its first token. -/
def Program.relayout (g : Relayout) (preamble : String) (x : Program) : Program :=
  ⟨preamble, stmtsRelayout g x.body, x.endOfFile.relayout g⟩

/-! ## Lists item by item -/

variable {g : Relayout}

theorem Separated.items_relayout {α β : Type} (f : α → β) (items : Separated α) :
    (items.relayout g f).items = items.items.map f := by
  induction items with
  | nil => rfl
  | one a => rfl
  | more a comma items ih => rw [Separated.relayout, Separated.items, ih]; rfl

theorem Params.items_relayout (params : Params) :
    (params.relayout g).items.items = params.items.items.map (Param.relayout g) :=
  Separated.items_relayout _ _

theorem stmtsRelayout_eq (ss : List Stmt) : stmtsRelayout g ss = ss.map (Stmt.relayout g) := by
  induction ss with
  | nil => rfl
  | cons s ss ih => rw [stmtsRelayout, ih, List.map_cons]

theorem exprsRelayout_eq (es : Separated Expr) : exprsRelayout g es = es.relayout g (Expr.relayout g) := by
  induction es with
  | nil => rfl
  | one e => rfl
  | more e comma es ih => rw [exprsRelayout, ih, Separated.relayout]

/-- An object entry in another layout. -/
def Entry.relayout (g : Relayout) (e : Entry) : Entry :=
  ⟨e.key.relayout g, e.colon.relayout g, e.value.relayout g⟩

theorem entriesRelayout_eq (es : Separated Entry) :
    entriesRelayout g es = es.relayout g (Entry.relayout g) := by
  induction es with
  | nil => rfl
  | one e => cases e; rfl
  | more e comma es ih =>
      obtain ⟨key, colon, value⟩ := e
      rw [entriesRelayout, ih]
      rfl

theorem declsRelayout_eq (ds : Separated Decl) : declsRelayout g ds = ds.relayout g (Decl.relayout g) := by
  induction ds with
  | nil => rfl
  | one d => rfl
  | more d comma ds ih => rw [declsRelayout, ih, Separated.relayout]

/-- A clause in another layout. -/
def Clause.relayout (g : Relayout) (c : Clause) : Clause :=
  ⟨c.keyword.relayout g, c.test.map (Expr.relayout g), c.colon.relayout g, stmtsRelayout g c.body⟩

theorem clausesRelayout_eq (cs : List Clause) : clausesRelayout g cs = cs.map (Clause.relayout g) := by
  induction cs with
  | nil => rfl
  | cons c cs ih =>
      obtain ⟨keyword, test, colon, body⟩ := c
      cases test with
      | none => rw [clausesRelayout, ih]; rfl
      | some test => rw [clausesRelayout, ih]; rfl

/-! ## Expressions as names and as parameters -/

theorem Expr.bareName?_relayout (e : Expr) :
    (e.relayout g).bareName? = e.bareName?.map (Token.relayout g) := by
  cases e with
  | suffix leading s => rfl
  | head h => cases h <;> rfl

theorem Expr.toParam?_relayout (e : Expr) :
    (e.relayout g).toParam? = e.toParam?.map (Param.relayout g) := by
  cases e with
  | suffix leading s => rfl
  | head h => cases h <;> rfl

theorem map?_relayout (items : Separated Expr) :
    (items.relayout g (Expr.relayout g)).map? Expr.toParam? =
      (items.map? Expr.toParam?).map (Separated.relayout g (Param.relayout g)) := by
  induction items with
  | nil => rfl
  | one e =>
      rw [Separated.relayout, Separated.map?, Expr.toParam?_relayout, Separated.map?]
      cases e.toParam? <;> rfl
  | more e comma items ih =>
      rw [Separated.relayout, Separated.map?, Expr.toParam?_relayout, ih, Separated.map?]
      cases e.toParam? with
      | none => rfl
      | some x => cases items.map? Expr.toParam? <;> rfl

/-! ## The tokens in another layout -/

theorem Separated.tokens_relayout {α β : Type} {f : α → List Token} {f' : β → List Token} {r : α → β}
    (hr : ∀ a, f' (r a) = (f a).map (Token.relayout g)) (items : Separated α) :
    (items.relayout g r).tokens f' = (items.tokens f).map (Token.relayout g) := by
  induction items with
  | nil => rfl
  | one a => exact hr a
  | more a comma items ih => simp [Separated.relayout, Separated.tokens, hr, ih]

theorem toList_map_relayout (o : Option Token) :
    (o.map (Token.relayout g)).toList = o.toList.map (Token.relayout g) := by
  cases o <;> rfl

theorem DottedName.tokens_relayout (d : DottedName) :
    (d.relayout g).tokens = d.tokens.map (Token.relayout g) := by
  have hmembers : (d.members.map (Member.relayout g)).flatMap Member.tokens =
      (d.members.flatMap Member.tokens).map (Token.relayout g) := by
    rw [List.flatMap_map, List.map_flatMap]
    rfl
  rw [DottedName.tokens, DottedName.relayout, hmembers]
  rfl

theorem Param.tokens_relayout (x : Param) : (x.relayout g).tokens = x.tokens.map (Token.relayout g) := by
  cases x with
  | plain name => rfl
  | pass mark handler => rw [Param.relayout, Param.tokens, toList_map_relayout]; rfl
  | rest name dots => rfl

theorem Params.tokens_relayout (x : Params) :
    (x.relayout g).tokens = x.tokens.map (Token.relayout g) := by
  rw [Params.tokens, Params.relayout, Separated.tokens_relayout Param.tokens_relayout]
  simp [Params.tokens]

theorem Pragma.tokens_relayout (x : Pragma) :
    (x.relayout g).tokens = x.tokens.map (Token.relayout g) := by
  have hitem (i : PragmaItem) : (i.relayout g).tokens = i.tokens.map (Token.relayout g) := by
    cases i <;> rfl
  rw [Pragma.tokens, Pragma.relayout, Separated.tokens_relayout hitem]
  simp [Pragma.tokens]

mutual

theorem Expr.tokens_relayout : ∀ e : Expr, (e.relayout g).tokens = e.tokens.map (Token.relayout g)
  | .head h => Head.tokens_relayout h
  | .suffix leading s => by
    rw [Expr.relayout, Expr.tokens, Expr.tokens_relayout leading, Suffix.tokens_relayout s, Expr.tokens,
      List.map_append]

theorem Head.tokens_relayout : ∀ h : Head, (h.relayout g).tokens = h.tokens.map (Token.relayout g)
  | .literal _ => rfl
  | .ident _ => rfl
  | .pass _ handler => by rw [Head.relayout, Head.tokens, toList_map_relayout]; rfl
  | .rest _ _ => rfl
  | .unary _ operand => by rw [Head.relayout, Head.tokens, Expr.tokens_relayout operand]; rfl
  | .construct _ callee arguments => by
    simp [Head.relayout, Head.tokens, DottedName.tokens_relayout, Enclosed.tokens_relayout arguments]
  | .array elements => Enclosed.tokens_relayout elements
  | .object _ entries _ => by
    simp [Head.relayout, Head.tokens, entriesTokens_relayout entries]
  | .group _ inner _ => by simp [Head.relayout, Head.tokens, Expr.tokens_relayout inner]
  | .function f => Func.tokens_relayout f
  | .arrow params _ body => by
    simp [Head.relayout, Head.tokens, Params.tokens_relayout, Expr.tokens_relayout body]
  | .simpleArrow _ body => by rw [Head.relayout, Head.tokens, Expr.tokens_relayout body]; rfl

theorem Suffix.tokens_relayout : ∀ s : Suffix, (s.relayout g).tokens = s.tokens.map (Token.relayout g)
  | .binary _ right => by rw [Suffix.relayout, Suffix.tokens, Expr.tokens_relayout right]; rfl
  | .ternary _ consequent _ alternate => by
    simp [Suffix.relayout, Suffix.tokens, Expr.tokens_relayout consequent,
      Expr.tokens_relayout alternate]
  | .call arguments => Enclosed.tokens_relayout arguments
  | .invoke _ arguments => by
    simp [Suffix.relayout, Suffix.tokens, Enclosed.tokens_relayout arguments, Member.tokens,
      Member.relayout]
  | .index _ inner _ => by simp [Suffix.relayout, Suffix.tokens, Expr.tokens_relayout inner]
  | .property _ => rfl
  | .prototype _ name => by rw [Suffix.relayout, Suffix.tokens, toList_map_relayout]; rfl

theorem Enclosed.tokens_relayout :
    ∀ e : Enclosed, (e.relayout g).tokens = e.tokens.map (Token.relayout g)
  | ⟨_, items, _⟩ => by simp [Enclosed.relayout, Enclosed.tokens, exprsTokens_relayout items]

theorem exprsTokens_relayout :
    ∀ es : Separated Expr, exprsTokens (exprsRelayout g es) = (exprsTokens es).map (Token.relayout g)
  | .nil => rfl
  | .one e => Expr.tokens_relayout e
  | .more e _ es => by
    simp [exprsRelayout, exprsTokens, Expr.tokens_relayout e, exprsTokens_relayout es]

theorem entriesTokens_relayout : ∀ es : Separated Entry,
    entriesTokens (entriesRelayout g es) = (entriesTokens es).map (Token.relayout g)
  | .nil => rfl
  | .one ⟨_, _, value⟩ => by
    rw [entriesRelayout, entriesTokens, Expr.tokens_relayout value]; rfl
  | .more ⟨_, _, value⟩ _ es => by
    simp [entriesRelayout, entriesTokens, Expr.tokens_relayout value, entriesTokens_relayout es]

theorem Func.tokens_relayout : ∀ f : Func, (f.relayout g).tokens = f.tokens.map (Token.relayout g)
  | ⟨_, _, _, receiver, body⟩ => by
    have hreceiver : ((receiver.map (Receiver.relayout g)).map Receiver.tokens).getD [] =
        ((receiver.map Receiver.tokens).getD []).map (Token.relayout g) := by
      cases receiver <;> rfl
    simp [Func.relayout, Func.tokens, toList_map_relayout, Params.tokens_relayout,
      Block.tokens_relayout body, hreceiver, -Option.map_map]

theorem Block.tokens_relayout : ∀ b : Block, (b.relayout g).tokens = b.tokens.map (Token.relayout g)
  | ⟨_, body, _⟩ => by simp [Block.relayout, Block.tokens, stmtsTokens_relayout body]

theorem stmtsTokens_relayout :
    ∀ ss : List Stmt, stmtsTokens (stmtsRelayout g ss) = (stmtsTokens ss).map (Token.relayout g)
  | [] => rfl
  | s :: ss => by
    rw [stmtsRelayout, stmtsTokens, Stmt.tokens_relayout s, stmtsTokens_relayout ss, stmtsTokens,
      List.map_append]

theorem Stmt.tokens_relayout : ∀ s : Stmt, (s.relayout g).tokens = s.tokens.map (Token.relayout g)
  | .expr value _ => by simp [Stmt.relayout, Stmt.tokens, Expr.tokens_relayout value]
  | .empty _ => rfl
  | .conditional first others => by
    simp [Stmt.relayout, Stmt.tokens, Guarded.tokens_relayout first, Ladder.tokens_relayout others]
  | .while loop => Guarded.tokens_relayout loop
  | .for _ _ init _ test _ update _ body => by
    simp [Stmt.relayout, Stmt.tokens, ForInit.tokens_relayout init, exprsTokens_relayout test,
      exprsTokens_relayout update, Block.tokens_relayout body]
  | .forIn _ _ _ _ _ object _ body => by
    simp [Stmt.relayout, Stmt.tokens, toList_map_relayout, Expr.tokens_relayout object,
      Block.tokens_relayout body]
  | .jump _ _ _ => by simp [Stmt.relayout, Stmt.tokens, toList_map_relayout]
  | .return _ none _ => rfl
  | .return _ (some value) _ => by simp [Stmt.relayout, Stmt.tokens, Expr.tokens_relayout value]
  | .throw _ value _ => by simp [Stmt.relayout, Stmt.tokens, Expr.tokens_relayout value]
  | .vars list _ => by simp [Stmt.relayout, Stmt.tokens, VarList.tokens_relayout list]
  | .function f => Func.tokens_relayout f
  | .labeled _ _ body => by rw [Stmt.relayout, Stmt.tokens, Stmt.tokens_relayout body]; rfl
  | .switch _ _ subject _ _ clauses _ => by
    simp [Stmt.relayout, Stmt.tokens, Expr.tokens_relayout subject, clausesTokens_relayout clauses]
  | .block b => Block.tokens_relayout b
  | .include p => Pragma.tokens_relayout p
  | .declare p => Pragma.tokens_relayout p

theorem Guarded.tokens_relayout :
    ∀ x : Guarded, (x.relayout g).tokens = x.tokens.map (Token.relayout g)
  | ⟨_, _, test, _, body⟩ => by
    simp [Guarded.relayout, Guarded.tokens, Expr.tokens_relayout test, Block.tokens_relayout body]

theorem Ladder.tokens_relayout :
    ∀ l : Ladder, (l.relayout g).tokens = l.tokens.map (Token.relayout g)
  | .done => rfl
  | .otherwise _ body => by rw [Ladder.relayout, Ladder.tokens, Block.tokens_relayout body]; rfl
  | .branch _ next others => by
    simp [Ladder.relayout, Ladder.tokens, Guarded.tokens_relayout next, Ladder.tokens_relayout others]

theorem ForInit.tokens_relayout :
    ∀ i : ForInit, (i.relayout g).tokens = i.tokens.map (Token.relayout g)
  | .exprs items => exprsTokens_relayout items
  | .vars list => VarList.tokens_relayout list

theorem VarList.tokens_relayout :
    ∀ l : VarList, (l.relayout g).tokens = l.tokens.map (Token.relayout g)
  | ⟨_, items⟩ => by rw [VarList.relayout, VarList.tokens, declsTokens_relayout items]; rfl

theorem declsTokens_relayout :
    ∀ ds : Separated Decl, declsTokens (declsRelayout g ds) = (declsTokens ds).map (Token.relayout g)
  | .nil => rfl
  | .one d => Decl.tokens_relayout d
  | .more d _ ds => by
    simp [declsRelayout, declsTokens, Decl.tokens_relayout d, declsTokens_relayout ds]

theorem Decl.tokens_relayout : ∀ d : Decl, (d.relayout g).tokens = d.tokens.map (Token.relayout g)
  | ⟨_, none⟩ => rfl
  | ⟨_, some (_, value)⟩ => by rw [Decl.relayout, Decl.tokens, Expr.tokens_relayout value]; rfl

theorem clausesTokens_relayout :
    ∀ cs : List Clause, clausesTokens (clausesRelayout g cs) = (clausesTokens cs).map (Token.relayout g)
  | [] => rfl
  | ⟨_, none, _, body⟩ :: cs => by
    simp [clausesRelayout, clausesTokens, stmtsTokens_relayout body, clausesTokens_relayout cs]
  | ⟨_, some test, _, body⟩ :: cs => by
    simp [clausesRelayout, clausesTokens, Expr.tokens_relayout test, stmtsTokens_relayout body,
      clausesTokens_relayout cs]

end

/-- The tokens of a program in another layout are its tokens in that layout, in the same order. -/
theorem Program.tokens_relayout (x : Program) (preamble : String) :
    (x.relayout g preamble).tokens = x.tokens.map (Token.relayout g) := by
  rw [Program.tokens, Program.relayout, stmtsTokens_relayout, Program.tokens, List.map_append]
  rfl

end Respell
