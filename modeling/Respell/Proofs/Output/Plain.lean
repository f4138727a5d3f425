import Respell.Proofs.Engine.Compile
import Respell.Proofs.Parse.Lossless

/-!
# Plain programs are written as they stand

A tree that holds no construct of the dialect is written by replaying its tokens, each with its
trivia. Since a program spells its source, such a program is written back unchanged.
-/

namespace Respell

/-! ## The constructs of a tree -/

/-- What the dialect has and plain JavaScript has not, or spells otherwise. -/
inductive Construct where
  /-- `==` or `!=` between two operands. -/
  | comparison
  | prototype
  /-- A comma after the last entry of an object. -/
  | trailingComma
  | passParam
  | restParam
  | receiver
  /-- A function without its keyword. -/
  | shorthand
  | arrow
  | simpleArrow
  | pragma
deriving DecidableEq, Repr

/-- The construct that an operator between two operands is. -/
def operatorConstructs (operator : Token) : List Construct :=
  match operator.kind with
  | .punct .equal | .punct .unequal => [.comparison]
  | _ => []

/-- The construct that a parameter is. -/
def Param.constructs : Param → List Construct
  | .plain _ => []
  | .pass _ _ => [.passParam]
  | .rest _ _ => [.restParam]

/-- The constructs among the parameters of a function. -/
def Params.constructs (p : Params) : List Construct := p.items.items.flatMap Param.constructs

mutual

/-- The constructs of an expression, at any depth. -/
def Expr.constructs : Expr → List Construct
  | .head h => h.constructs
  | .suffix leading s => leading.constructs ++ s.constructs

/-- The constructs of a head. An `@` or a `...` that is no parameter is written as it stands. -/
def Head.constructs : Head → List Construct
  | .literal _ => []
  | .ident _ => []
  | .pass _ _ => []
  | .rest _ _ => []
  | .unary _ operand => operand.constructs
  | .construct _ _ arguments => arguments.constructs
  | .array elements => elements.constructs
  | .object _ entries _ =>
    entriesConstructs entries ++ if entries.endsInComma then [.trailingComma] else []
  | .group _ inner _ => inner.constructs
  | .function f => f.constructs
  | .arrow params _ body => .arrow :: (params.constructs ++ body.constructs)
  | .simpleArrow _ body => .simpleArrow :: body.constructs

/-- The constructs of a suffix. -/
def Suffix.constructs : Suffix → List Construct
  | .binary operator right => operatorConstructs operator ++ right.constructs
  | .ternary _ consequent _ alternate => consequent.constructs ++ alternate.constructs
  | .call arguments => arguments.constructs
  | .invoke _ arguments => arguments.constructs
  | .index _ inner _ => inner.constructs
  | .property _ => []
  | .prototype _ _ => [.prototype]

/-- The constructs of a delimited list. -/
def Enclosed.constructs : Enclosed → List Construct
  | ⟨_, items, _⟩ => exprsConstructs items

/-- The constructs of a comma list of expressions. -/
def exprsConstructs : Separated Expr → List Construct
  | .nil => []
  | .one e => e.constructs
  | .more e _ es => e.constructs ++ exprsConstructs es

/-- The constructs of the entries of an object. -/
def entriesConstructs : Separated Entry → List Construct
  | .nil => []
  | .one ⟨_, _, value⟩ => value.constructs
  | .more ⟨_, _, value⟩ _ es => value.constructs ++ entriesConstructs es

/-- The constructs of a function. -/
def Func.constructs : Func → List Construct
  | ⟨keyword, _, params, receiver, body⟩ =>
    (if keyword.isNone then [.shorthand] else []) ++ params.constructs ++
      (if receiver.isSome then [.receiver] else []) ++ body.constructs

/-- The constructs of a block. -/
def Block.constructs : Block → List Construct
  | ⟨_, body, _⟩ => stmtsConstructs body

/-- The constructs of a list of statements. -/
def stmtsConstructs : List Stmt → List Construct
  | [] => []
  | s :: ss => s.constructs ++ stmtsConstructs ss

/-- The constructs of a statement. -/
def Stmt.constructs : Stmt → List Construct
  | .expr value _ => value.constructs
  | .empty _ => []
  | .conditional first others => first.constructs ++ others.constructs
  | .while loop => loop.constructs
  | .for _ _ init _ test _ update _ body =>
    init.constructs ++ exprsConstructs test ++ exprsConstructs update ++ body.constructs
  | .forIn _ _ _ _ _ object _ body => object.constructs ++ body.constructs
  | .jump _ _ _ => []
  | .return _ none _ => []
  | .return _ (some value) _ => value.constructs
  | .throw _ value _ => value.constructs
  | .vars list _ => list.constructs
  | .function f => f.constructs
  | .labeled _ _ body => body.constructs
  | .switch _ _ subject _ _ clauses _ => subject.constructs ++ clausesConstructs clauses
  | .block b => b.constructs
  | .include _ => [.pragma]
  | .declare _ => [.pragma]

/-- The constructs of a test and the block it guards. -/
def Guarded.constructs : Guarded → List Construct
  | ⟨_, _, test, _, body⟩ => test.constructs ++ body.constructs

/-- The constructs of the branches after the first one. -/
def Ladder.constructs : Ladder → List Construct
  | .done => []
  | .otherwise _ body => body.constructs
  | .branch _ next others => next.constructs ++ others.constructs

/-- The constructs of the first part of a `for` head. -/
def ForInit.constructs : ForInit → List Construct
  | .exprs items => exprsConstructs items
  | .vars list => list.constructs

/-- The constructs of a `var` list. -/
def VarList.constructs : VarList → List Construct
  | ⟨_, items⟩ => declsConstructs items

/-- The constructs of the initial values of declared names. -/
def declsConstructs : Separated Decl → List Construct
  | .nil => []
  | .one d => d.constructs
  | .more d _ ds => d.constructs ++ declsConstructs ds

/-- The constructs of the initial value of a declared name. -/
def Decl.constructs : Decl → List Construct
  | ⟨_, none⟩ => []
  | ⟨_, some (_, value)⟩ => value.constructs

/-- The constructs of the clauses of a switch. -/
def clausesConstructs : List Clause → List Construct
  | [] => []
  | ⟨_, none, _, body⟩ :: cs => stmtsConstructs body ++ clausesConstructs cs
  | ⟨_, some test, _, body⟩ :: cs =>
    test.constructs ++ stmtsConstructs body ++ clausesConstructs cs

end

/-- The constructs of a program. -/
def Program.constructs (x : Program) : List Construct := stmtsConstructs x.body

/-! ## Replaying -/

/-- The pieces up to `tail` are the tokens, each with its trivia. -/
def Replays (ts : List Token) (ps tail : List Piece) : Prop := ps = replayAll ts tail

namespace Replays

variable {ts us : List Token} {ps qs tail : List Piece}

theorem nothing : Replays [] tail tail := rfl

theorem cons (t : Token) (h : Replays ts ps tail) : Replays (t :: ts) (t.replay ps) tail := congrArg t.replay h

theorem single (t : Token) : Replays [t] (t.replay tail) tail := nothing.cons t

theorem append (h : Replays ts ps qs) (h' : Replays us qs tail) : Replays (ts ++ us) ps tail := by
  rw [Replays, replayAll, List.foldr_append]
  exact h.trans (congrArg (replayAll ts) h')

theorem option (o : Option Token) : Replays o.toList (replay? o tail) tail := by
  cases o <;> rfl

/-- Replayed tokens spell what they spell in the source. -/
theorem join (h : Replays ts ps tail) :
    Piece.join ps = String.join (ts.map Token.source) ++ Piece.join tail := by
  cases h
  induction ts with
  | nil => simp [replayAll]
  | cons t ts ih =>
      have hstep : Piece.join (t.replay (replayAll ts tail)) =
          t.source ++ Piece.join (replayAll ts tail) := by
        simp [Piece.join, Token.replay, Token.source, Piece.text, String.append_assoc]
      rw [show replayAll (t :: ts) tail = t.replay (replayAll ts tail) from rfl, hstep, ih, List.map_cons,
        String.join_cons, String.append_assoc]

end Replays

/-! ## Plain parts -/

section Parts

variable {tail : List Piece}

theorem operatorPieces_of_plain {operator : Token} (h : operatorConstructs operator = []) :
    operatorPieces operator tail = operator.replay tail := by
  unfold operatorConstructs at h
  unfold operatorPieces
  split at h <;> simp_all

theorem Param.replays {x : Param} (h : x.constructs = []) : Replays x.tokens (x.pieces tail) tail := by
  cases x with
  | plain name => exact .single name
  | pass mark handler => cases h
  | rest name dots => cases h

theorem paramsPieces_replays {items : Separated Param} (h : items.items.flatMap Param.constructs = []) :
    Replays (items.tokens Param.tokens) (paramsPieces items tail) tail := by
  induction items with
  | nil => exact .nothing
  | one x =>
      rw [Separated.items, List.flatMap_cons, List.append_eq_nil_iff] at h
      exact Param.replays h.1
  | more x comma items ih =>
      rw [Separated.items, List.flatMap_cons, List.append_eq_nil_iff] at h
      exact (Param.replays h.1).append ((ih h.2).cons comma)

theorem passed?_of_plain {ps : List Param} (h : ps.flatMap Param.constructs = []) :
    passed? ps = none := by
  induction ps with
  | nil => rfl
  | cons x ps ih =>
      rw [List.flatMap_cons, List.append_eq_nil_iff] at h
      cases x with
      | plain name => exact congrArg (Option.or · none) (ih h.2)
      | pass mark handler => cases h.1
      | rest name dots => exact congrArg (Option.or · none) (ih h.2)

theorem collected?_of_plain {ps : List Param} (h : ps.flatMap Param.constructs = []) (index : Nat) :
    collected? index ps = none := by
  induction ps generalizing index with
  | nil => rfl
  | cons x ps ih =>
      rw [List.flatMap_cons, List.append_eq_nil_iff] at h
      cases x with
      | plain name => exact congrArg (Option.or · none) (ih h.2 _)
      | pass mark handler => exact congrArg (Option.or · none) (ih h.2 _)
      | rest name dots => cases h.1

/-- Plain parameters put nothing into the body. -/
theorem prologue_of_plain {ps : List Param} (h : ps.flatMap Param.constructs = []) :
    prologue ps none tail = tail := by
  simp only [prologue, passed?_of_plain h, collected?_of_plain h]

theorem Member.replays (m : Member) : Replays m.tokens (m.pieces tail) tail :=
  (Replays.single m.name).cons m.dot

theorem DottedName.replays (d : DottedName) : Replays d.tokens (d.pieces tail) tail := by
  obtain ⟨first, members⟩ := d
  refine .cons first ?_
  induction members with
  | nil => exact .nothing
  | cons m ms ih => exact m.replays.append ih

/-- What a function with plain parameters and without a receiver begins with. -/
theorem Func.opening_replays {keyword : Token} {name : Option Token} {params : Params} {body : Block}
    (h : params.constructs = []) :
    Replays ([keyword] ++ name.toList ++ params.tokens)
      (Func.opening ⟨some keyword, name, params, none, body⟩ tail) tail :=
  .cons keyword ((Replays.option name).append
    (.cons params.opening ((paramsPieces_replays h).append (.single params.closing))))

/-- A comma that another entry follows is written. -/
theorem entriesPieces_more {key colon comma : Token} {value : Expr} {es : Separated Entry}
    (h : es ≠ .nil) (tail : List Piece) :
    entriesPieces (.more ⟨key, colon, value⟩ comma es) tail =
      key.replay (colon.replay (value.pieces (comma.replay (entriesPieces es tail)))) := by
  cases es with
  | nil => exact (h rfl).elim
  | one e => rfl
  | more e comma' es => rfl

theorem endsInComma_more {α : Type} {a : α} {comma : Token} {items : Separated α}
    (h : (Separated.more a comma items).endsInComma = false) :
    items ≠ .nil ∧ items.endsInComma = false := by
  cases items with
  | nil => cases h
  | one b => exact ⟨nofun, rfl⟩
  | more b comma' items => exact ⟨nofun, h⟩

end Parts

/-! ## Plain trees -/

mutual

theorem Expr.replays : ∀ (e : Expr) (tail : List Piece), e.constructs = [] →
    Replays e.tokens (e.pieces tail) tail
  | .head h, tail, hplain => Head.replays h tail hplain
  | .suffix leading s, tail, hplain =>
    have hparts := List.append_eq_nil_iff.mp hplain
    (Expr.replays leading _ hparts.1).append (Suffix.replays s tail hparts.2)

theorem Head.replays : ∀ (h : Head) (tail : List Piece), h.constructs = [] →
    Replays h.tokens (h.pieces tail) tail
  | .literal t, _, _ => .single t
  | .ident t, _, _ => .single t
  | .pass mark handler, _, _ => .cons mark (.option handler)
  | .rest name dots, _, _ => .cons name (.single dots)
  | .unary operator operand, tail, hplain => .cons operator (Expr.replays operand tail hplain)
  | .construct keyword callee arguments, tail, hplain =>
    .cons keyword (callee.replays.append (Enclosed.replays arguments tail hplain))
  | .array elements, tail, hplain => Enclosed.replays elements tail hplain
  | .object opening entries closing, _, hplain =>
    have hparts := List.append_eq_nil_iff.mp hplain
    have hcomma : entries.endsInComma = false := by simpa using hparts.2
    .cons opening ((entriesPieces_replays entries _ hparts.1 hcomma).append (.single closing))
  | .group opening inner closing, _, hplain =>
    .cons opening ((Expr.replays inner _ hplain).append (.single closing))
  | .function f, tail, hplain => Func.replays f tail hplain
  | .arrow _ _ _, _, hplain => by cases hplain
  | .simpleArrow _ _, _, hplain => by cases hplain

theorem Suffix.replays : ∀ (s : Suffix) (tail : List Piece), s.constructs = [] →
    Replays s.tokens (s.pieces tail) tail
  | .binary operator right, tail, hplain => by
    obtain ⟨hoperator, hright⟩ := List.append_eq_nil_iff.mp hplain
    rw [Suffix.pieces, operatorPieces_of_plain hoperator]
    exact .cons operator (Expr.replays right tail hright)
  | .ternary question consequent colon alternate, tail, hplain =>
    have hparts := List.append_eq_nil_iff.mp hplain
    .cons question ((Expr.replays consequent _ hparts.1).append
      (.cons colon (Expr.replays alternate tail hparts.2)))
  | .call arguments, tail, hplain => Enclosed.replays arguments tail hplain
  | .invoke member arguments, tail, hplain => member.replays.append (Enclosed.replays arguments tail hplain)
  | .index opening inner closing, _, hplain =>
    .cons opening ((Expr.replays inner _ hplain).append (.single closing))
  | .property member, _, _ => member.replays
  | .prototype _ _, _, hplain => by cases hplain

theorem Enclosed.replays : ∀ (e : Enclosed) (tail : List Piece), e.constructs = [] →
    Replays e.tokens (e.pieces tail) tail
  | ⟨opening, items, closing⟩, _, hplain =>
    .cons opening ((exprsPieces_replays items _ hplain).append (.single closing))

theorem exprsPieces_replays : ∀ (es : Separated Expr) (tail : List Piece), exprsConstructs es = [] →
    Replays (exprsTokens es) (exprsPieces es tail) tail
  | .nil, _, _ => .nothing
  | .one e, tail, hplain => Expr.replays e tail hplain
  | .more e comma es, tail, hplain =>
    have hparts := List.append_eq_nil_iff.mp hplain
    (Expr.replays e _ hparts.1).append (.cons comma (exprsPieces_replays es tail hparts.2))

theorem entriesPieces_replays : ∀ (es : Separated Entry) (tail : List Piece),
    entriesConstructs es = [] → es.endsInComma = false →
      Replays (entriesTokens es) (entriesPieces es tail) tail
  | .nil, _, _, _ => .nothing
  | .one ⟨key, colon, value⟩, tail, hplain, _ => .cons key (.cons colon (Expr.replays value tail hplain))
  | .more ⟨key, colon, value⟩ comma es, tail, hplain, hcomma => by
    obtain ⟨hvalue, hrest⟩ := List.append_eq_nil_iff.mp hplain
    -- The printer leaves out a comma only if no entry follows it.
    obtain ⟨hes, hcomma⟩ := endsInComma_more hcomma
    rw [entriesPieces_more hes]
    exact .cons key (.cons colon ((Expr.replays value _ hvalue).append
      (.cons comma (entriesPieces_replays es tail hrest hcomma))))

theorem Func.replays : ∀ (f : Func) (tail : List Piece), f.constructs = [] →
    Replays f.tokens (f.pieces tail) tail
  | ⟨some keyword, name, params, none, ⟨opening, body, closing⟩⟩, tail, hplain => by
    obtain ⟨hhead, hbody⟩ := List.append_eq_nil_iff.mp hplain
    have hparams : params.constructs = [] := (List.append_eq_nil_iff.mp hhead).1
    -- With plain parameters and no receiver the prologue is empty, so the brace is replayed whole.
    rw [Func.pieces, prologue_of_plain hparams, Func.tokens, Option.map_none, Option.getD_none, List.append_nil]
    exact (Func.opening_replays hparams).append (Block.replays ⟨opening, body, closing⟩ tail hbody)
  | ⟨none, _, _, _, _⟩, _, hplain => by cases hplain
  | ⟨some _, _, _, some _, _⟩, _, hplain => by
    cases (List.append_eq_nil_iff.mp (List.append_eq_nil_iff.mp hplain).1).2

theorem Block.replays : ∀ (b : Block) (tail : List Piece), b.constructs = [] →
    Replays b.tokens (b.pieces tail) tail
  | ⟨opening, body, closing⟩, _, hplain =>
    .cons opening ((stmtsPieces_replays body _ hplain).append (.single closing))

theorem stmtsPieces_replays : ∀ (ss : List Stmt) (tail : List Piece), stmtsConstructs ss = [] →
    Replays (stmtsTokens ss) (stmtsPieces ss tail) tail
  | [], _, _ => .nothing
  | s :: ss, tail, hplain =>
    have hparts := List.append_eq_nil_iff.mp hplain
    (Stmt.replays s _ hparts.1).append (stmtsPieces_replays ss tail hparts.2)

theorem Stmt.replays : ∀ (s : Stmt) (tail : List Piece), s.constructs = [] →
    Replays s.tokens (s.pieces tail) tail
  | .expr value semicolon, _, hplain => (Expr.replays value _ hplain).append (.single semicolon)
  | .empty semicolon, _, _ => .single semicolon
  | .conditional first others, tail, hplain =>
    have hparts := List.append_eq_nil_iff.mp hplain
    (Guarded.replays first _ hparts.1).append (Ladder.replays others tail hparts.2)
  | .while loop, tail, hplain => Guarded.replays loop tail hplain
  | .for keyword opening init first test second update closing body, tail, hplain => by
    obtain ⟨hhead, hbody⟩ := List.append_eq_nil_iff.mp hplain
    obtain ⟨hhead, hupdate⟩ := List.append_eq_nil_iff.mp hhead
    obtain ⟨hinit, htest⟩ := List.append_eq_nil_iff.mp hhead
    have hrest := (exprsPieces_replays update _ hupdate).append (.cons closing (Block.replays body tail hbody))
    have hrest := (exprsPieces_replays test _ htest).append (hrest.cons second)
    exact .cons keyword (.cons opening ((ForInit.replays init _ hinit).append (hrest.cons first)))
  | .forIn keyword opening var name inWord object closing body, tail, hplain =>
    have hparts := List.append_eq_nil_iff.mp hplain
    have hrest := (Expr.replays object _ hparts.1).append (.cons closing (Block.replays body tail hparts.2))
    .cons keyword (.cons opening ((Replays.option var).append (.cons name (hrest.cons inWord))))
  | .jump keyword label semicolon, _, _ => .cons keyword ((Replays.option label).append (.single semicolon))
  | .return keyword none semicolon, _, _ => .cons keyword (.single semicolon)
  | .return keyword (some value) semicolon, _, hplain =>
    .cons keyword ((Expr.replays value _ hplain).append (.single semicolon))
  | .throw keyword value semicolon, _, hplain =>
    .cons keyword ((Expr.replays value _ hplain).append (.single semicolon))
  | .vars list semicolon, _, hplain => (VarList.replays list _ hplain).append (.single semicolon)
  | .function f, tail, hplain => Func.replays f tail hplain
  | .labeled label colon body, tail, hplain => .cons label (.cons colon (Stmt.replays body tail hplain))
  | .switch keyword opening subject closing openBrace clauses closeBrace, _, hplain =>
    have hparts := List.append_eq_nil_iff.mp hplain
    have hclauses := (clausesPieces_replays clauses _ hparts.2).append (.single closeBrace)
    .cons keyword (.cons opening ((Expr.replays subject _ hparts.1).append
      (.cons closing (hclauses.cons openBrace))))
  | .block b, tail, hplain => Block.replays b tail hplain
  | .include _, _, hplain => by cases hplain
  | .declare _, _, hplain => by cases hplain

theorem Guarded.replays : ∀ (g : Guarded) (tail : List Piece), g.constructs = [] →
    Replays g.tokens (g.pieces tail) tail
  | ⟨keyword, opening, test, closing, body⟩, tail, hplain =>
    have hparts := List.append_eq_nil_iff.mp hplain
    .cons keyword (.cons opening ((Expr.replays test _ hparts.1).append
      (.cons closing (Block.replays body tail hparts.2))))

theorem Ladder.replays : ∀ (l : Ladder) (tail : List Piece), l.constructs = [] →
    Replays l.tokens (l.pieces tail) tail
  | .done, _, _ => .nothing
  | .otherwise keyword body, tail, hplain => .cons keyword (Block.replays body tail hplain)
  | .branch keyword next others, tail, hplain =>
    have hparts := List.append_eq_nil_iff.mp hplain
    .cons keyword ((Guarded.replays next _ hparts.1).append (Ladder.replays others tail hparts.2))

theorem ForInit.replays : ∀ (i : ForInit) (tail : List Piece), i.constructs = [] →
    Replays i.tokens (i.pieces tail) tail
  | .exprs items, tail, hplain => exprsPieces_replays items tail hplain
  | .vars list, tail, hplain => VarList.replays list tail hplain

theorem VarList.replays : ∀ (l : VarList) (tail : List Piece), l.constructs = [] →
    Replays l.tokens (l.pieces tail) tail
  | ⟨keyword, items⟩, tail, hplain => .cons keyword (declsPieces_replays items tail hplain)

theorem declsPieces_replays : ∀ (ds : Separated Decl) (tail : List Piece), declsConstructs ds = [] →
    Replays (declsTokens ds) (declsPieces ds tail) tail
  | .nil, _, _ => .nothing
  | .one d, tail, hplain => Decl.replays d tail hplain
  | .more d comma ds, tail, hplain =>
    have hparts := List.append_eq_nil_iff.mp hplain
    (Decl.replays d _ hparts.1).append (.cons comma (declsPieces_replays ds tail hparts.2))

theorem Decl.replays : ∀ (d : Decl) (tail : List Piece), d.constructs = [] →
    Replays d.tokens (d.pieces tail) tail
  | ⟨name, none⟩, _, _ => .single name
  | ⟨name, some (equals, value)⟩, tail, hplain => .cons name (.cons equals (Expr.replays value tail hplain))

theorem clausesPieces_replays : ∀ (cs : List Clause) (tail : List Piece),
    clausesConstructs cs = [] → Replays (clausesTokens cs) (clausesPieces cs tail) tail
  | [], _, _ => .nothing
  | ⟨keyword, none, colon, body⟩ :: cs, tail, hplain =>
    have hparts := List.append_eq_nil_iff.mp hplain
    .cons keyword (.cons colon ((stmtsPieces_replays body _ hparts.1).append
      (clausesPieces_replays cs tail hparts.2)))
  | ⟨keyword, some test, colon, body⟩ :: cs, tail, hplain => by
    obtain ⟨hclause, hcs⟩ := List.append_eq_nil_iff.mp hplain
    obtain ⟨htest, hbody⟩ := List.append_eq_nil_iff.mp hclause
    have hrest := (stmtsPieces_replays body _ hbody).append (clausesPieces_replays cs tail hcs)
    exact .cons keyword ((Expr.replays test _ htest).append (hrest.cons colon))

end

/-! ## The round trip -/

/-- A program without constructs of the dialect is its preamble and its tokens, written out. -/
theorem Program.pieces_of_plain {x : Program} (hplain : x.constructs = []) :
    ∃ ps, x.pieces = .gap x.preamble :: ps ∧ Replays x.tokens ps [] :=
  ⟨_, rfl, (stmtsPieces_replays x.body _ hplain).append (.single x.endOfFile)⟩

/-- A source without constructs of the dialect is written back unchanged. -/
theorem render_of_plain {source : String} {x : Program} (hshort : source.utf8ByteSize < UInt32.size)
    (h : Engine.parse source.toList = .ok x) (hplain : x.constructs = []) :
    Engine.render x [] = source := by
  rw [Engine.parse_eq (by rwa [Text.byteLength_toList])] at h
  obtain ⟨ps, hpieces, hreplays⟩ := Program.pieces_of_plain hplain
  have hjoin : Piece.join x.pieces = x.preamble ++ Piece.join ps := by
    rw [hpieces]
    simp [Piece.join, Piece.text]
  rw [Engine.render_eq, Program.render, Program.output, hjoin, hreplays.join, ← source_of_parse h]
  simp [Piece.join, helperText]

/-- A source with a line comment, functions, loops and quoted literals, and nothing of the dialect. -/
def plainSource : String :=
  "#!run\nvar a = \x7b b: /x\\/y/g, 'c': [1, ] \x7d;\nfunction f(x, y) \x7b\n\tfor (k in a) \x7b " ++
    "if (x <= y) \x7b return -a.b(k)[0]; \x7d else \x7b throw new f(a ? x : (y)); \x7d \x7d\n\x7d // end"

theorem render_of_plain_plainSource :
    plainSource.utf8ByteSize < UInt32.size ∧
      ∃ x, Engine.parse plainSource.toList = .ok x ∧ x.constructs = [] ∧
        Engine.render x [] = plainSource := by
  have hshort : plainSource.utf8ByteSize < UInt32.size := by decide +kernel
  have hrun : (parseProgram plainSource.toList).toOption.map Program.constructs = some [] := by
    decide +kernel
  obtain ⟨x, hx, hplain⟩ := ok_of_toOption hrun
  have hparse := (Engine.parse_eq (Text.byteLength_toList _ ▸ hshort)).trans hx
  exact ⟨hshort, x, hparse, hplain, render_of_plain hshort hparse hplain⟩

end Respell
