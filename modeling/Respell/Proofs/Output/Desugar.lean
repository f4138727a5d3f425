import Respell.Proofs.Output.Plain

/-!
# Desugaring

The constructs of the dialect as abbreviations: `desugar` rewrites a tree, from the inside out, into a tree
of plain JavaScript. Comparisons become strict, prototypes become members, arrows and shorthands become
functions with a keyword, and what parameters and receivers stand for becomes statements at the
beginning of the body. Pragmas and the comma after the last entry of an object go.

Nothing here is about text: a token that is not in the source has no place and no trivia.
-/

namespace Respell

/-! ## Generated parts -/

/-- A token that does not stand in the source. -/
def generated (kind : Kind) (text : String) : Token := ⟨kind, text, 0, ""⟩

/-- A generated punctuation mark. -/
def Punct.token (p : Punct) : Token := generated (.punct p) p.text

/-- A generated reserved word. -/
def Word.token (w : Word) : Token := generated (.word w) w.text

/-- A generated name. -/
def nameToken (text : String) : Token := generated .identifier text

/-- The parameter that holds a passed error. -/
def errorToken : Token := nameToken errorName

/-- A generated member access. -/
def generatedMember (name : String) : Member := ⟨Punct.dot.token, nameToken name⟩

/-- Arguments between generated parentheses. -/
def generatedArguments (items : Separated Expr) : Enclosed :=
  ⟨Punct.openParen.token, items, Punct.closeParen.token⟩

/-- Statements between generated braces. -/
def generatedBlock (body : List Stmt) : Block :=
  ⟨Punct.openBrace.token, body, Punct.closeBrace.token⟩

/-- `if (__err) { h(__err); return; }` for a handler `h`, and `if (__err) { throw __err; }` without one. -/
def guardStmt (handler : Option Token) : Stmt :=
  let error : Expr := .head (.ident errorToken)
  let semicolon := Punct.semicolon.token
  let body : List Stmt := match handler with
    | some h =>
      [.expr (.suffix (.head (.ident h)) (.call (generatedArguments (.one error)))) semicolon,
        .return (Word.token .return) none semicolon]
    | none => [.throw (Word.token .throw) error semicolon]
  .conditional
    ⟨Word.token .if, Punct.openParen.token, error, Punct.closeParen.token, generatedBlock body⟩ .done

/-- `var name = this;`. -/
def receiverStmt (receiver : Receiver) : Stmt :=
  .vars ⟨Word.token .var, .one ⟨receiver.name,
    some (Punct.assign.token, .head (.literal (Word.token .this)))⟩⟩ Punct.semicolon.token

/-- `name = [].slice.call(arguments, index);`. -/
def sliceStmt (name : Token) (index : Nat) : Stmt :=
  let empty : Expr := .head (.array ⟨Punct.openBracket.token, .nil, Punct.closeBracket.token⟩)
  let arguments : Separated Expr := .more (.head (.ident (nameToken "arguments"))) Punct.comma.token
    (.one (.head (.literal (generated .number (toString index)))))
  .expr (.suffix (.head (.ident name)) (.binary Punct.assign.token
    (.suffix (.suffix empty (.property (generatedMember "slice")))
      (.invoke (generatedMember "call") (generatedArguments arguments))))) Punct.semicolon.token

/-! ## Parameters -/

/-- A passed error is held by one parameter, and remaining arguments begin at their own name. -/
def Param.desugar : Param → Param
  | .plain name => .plain name
  | .pass _ _ => .plain errorToken
  | .rest name _ => .plain name

/-- The same parameters, all of them plain. -/
def Params.desugar (x : Params) : Params := ⟨x.opening, x.items.map Param.desugar, x.closing⟩

/-- The statement that a passed error asks for. -/
def Param.guard? : Param → Option Stmt
  | .pass _ handler => some (guardStmt handler)
  | _ => none

/-- The statement that remaining arguments ask for, by the index of their parameter. -/
def Param.slice? (index : Nat) : Param → Option Stmt
  | .rest name _ => some (sliceStmt name index)
  | _ => none

/-- The statements for remaining arguments among parameters that are numbered from `index` on. -/
def sliceStmts (index : Nat) : List Param → List Stmt
  | [] => []
  | p :: ps => (p.slice? index).toList ++ sliceStmts (index + 1) ps

/-- The statements at the beginning of a function's body: first for a passed error, then for the
    receiver, then for remaining arguments. -/
def prologueStmts (params : List Param) (receiver : Option Receiver) : List Stmt :=
  params.filterMap Param.guard? ++ receiver.toList.map receiverStmt ++ sliceStmts 0 params

/-- A function that returns a value. -/
def returningFunc (params : Params) (value : Expr) : Func :=
  ⟨some (Word.token .function), none, params, none,
    generatedBlock [.return (Word.token .return) (some value) Punct.semicolon.token]⟩

/-- The parameter `_` in parentheses. -/
def implicitParams : Params :=
  ⟨Punct.openParen.token, .one (.plain (nameToken "_")), Punct.closeParen.token⟩

/-! ## Trees -/

/-- The two comparisons of the dialect become strict. -/
def desugarOperator (operator : Token) : Token :=
  match operator.kind with
  | .punct .equal => { operator with kind := .punct .strictEqual, text := Punct.strictEqual.text }
  | .punct .unequal => { operator with kind := .punct .strictUnequal, text := Punct.strictUnequal.text }
  | _ => operator

mutual

/-- An expression without constructs of the dialect. -/
def Expr.desugar : Expr → Expr
  | .head h => .head h.desugar
  | .suffix leading s => s.desugar leading.desugar

/-- A head without constructs of the dialect. -/
def Head.desugar : Head → Head
  | .literal t => .literal t
  | .ident t => .ident t
  | .pass mark handler => .pass mark handler
  | .rest name dots => .rest name dots
  | .unary operator operand => .unary operator operand.desugar
  | .construct keyword callee arguments => .construct keyword callee arguments.desugar
  | .array elements => .array elements.desugar
  | .object opening entries closing => .object opening (entriesDesugar entries) closing
  | .group opening inner closing => .group opening inner.desugar closing
  | .function f => .function f.desugar
  | .arrow params _ body => .function (returningFunc params.desugar body.desugar)
  | .simpleArrow _ body => .function (returningFunc implicitParams body.desugar)

/-- A suffix without constructs of the dialect, after a leading operand. -/
def Suffix.desugar : Suffix → Expr → Expr
  | .binary operator right, leading => .suffix leading (.binary (desugarOperator operator) right.desugar)
  | .ternary question consequent colon alternate, leading =>
    .suffix leading (.ternary question consequent.desugar colon alternate.desugar)
  | .call arguments, leading => .suffix leading (.call arguments.desugar)
  | .invoke member arguments, leading => .suffix leading (.invoke member arguments.desugar)
  | .index opening inner closing, leading => .suffix leading (.index opening inner.desugar closing)
  | .property member, leading => .suffix leading (.property member)
  | .prototype _ none, leading => .suffix leading (.property (generatedMember "prototype"))
  | .prototype _ (some name), leading =>
    .suffix (.suffix leading (.property (generatedMember "prototype")))
      (.property ⟨Punct.dot.token, name⟩)

/-- A delimited list without constructs of the dialect. -/
def Enclosed.desugar : Enclosed → Enclosed
  | ⟨opening, items, closing⟩ => ⟨opening, exprsDesugar items, closing⟩

/-- The items of a comma list, one by one. -/
def exprsDesugar : Separated Expr → Separated Expr
  | .nil => .nil
  | .one e => .one e.desugar
  | .more e comma es => .more e.desugar comma (exprsDesugar es)

/-- The entries of an object, without a comma after the last one. -/
def entriesDesugar : Separated Entry → Separated Entry
  | .nil => .nil
  | .one ⟨key, colon, value⟩ => .one ⟨key, colon, value.desugar⟩
  | .more ⟨key, colon, value⟩ _ .nil => .one ⟨key, colon, value.desugar⟩
  | .more ⟨key, colon, value⟩ comma es => .more ⟨key, colon, value.desugar⟩ comma (entriesDesugar es)

/-- A function with its keyword, with plain parameters, and with what they stood for in its body. -/
def Func.desugar : Func → Func
  | ⟨keyword, name, params, receiver, ⟨opening, body, closing⟩⟩ =>
    ⟨some (keyword.getD (Word.token .function)), name, params.desugar, none,
      ⟨opening, prologueStmts params.items.items receiver ++ stmtsDesugar body, closing⟩⟩

/-- A block without constructs of the dialect. -/
def Block.desugar : Block → Block
  | ⟨opening, body, closing⟩ => ⟨opening, stmtsDesugar body, closing⟩

/-- The statements of a list, without the pragmas. -/
def stmtsDesugar : List Stmt → List Stmt
  | [] => []
  | .include _ :: ss => stmtsDesugar ss
  | .declare _ :: ss => stmtsDesugar ss
  | s :: ss => s.desugar :: stmtsDesugar ss

/-- A statement without constructs of the dialect. A pragma that is in no list of statements leaves its
    semicolon. -/
def Stmt.desugar : Stmt → Stmt
  | .expr value semicolon => .expr value.desugar semicolon
  | .empty semicolon => .empty semicolon
  | .conditional first others => .conditional first.desugar others.desugar
  | .while loop => .while loop.desugar
  | .for keyword opening init first test second update closing body =>
    .for keyword opening init.desugar first (exprsDesugar test) second (exprsDesugar update) closing
      body.desugar
  | .forIn keyword opening var name inWord object closing body =>
    .forIn keyword opening var name inWord object.desugar closing body.desugar
  | .jump keyword label semicolon => .jump keyword label semicolon
  | .return keyword none semicolon => .return keyword none semicolon
  | .return keyword (some value) semicolon => .return keyword (some value.desugar) semicolon
  | .throw keyword value semicolon => .throw keyword value.desugar semicolon
  | .vars list semicolon => .vars list.desugar semicolon
  | .function f => .function f.desugar
  | .labeled label colon body => .labeled label colon body.desugar
  | .switch keyword opening subject closing openBrace clauses closeBrace =>
    .switch keyword opening subject.desugar closing openBrace (clausesDesugar clauses) closeBrace
  | .block b => .block b.desugar
  | .include p => .empty p.semicolon
  | .declare p => .empty p.semicolon

/-- A test and the block it guards. -/
def Guarded.desugar : Guarded → Guarded
  | ⟨keyword, opening, test, closing, body⟩ => ⟨keyword, opening, test.desugar, closing, body.desugar⟩

/-- The branches after the first one. -/
def Ladder.desugar : Ladder → Ladder
  | .done => .done
  | .otherwise keyword body => .otherwise keyword body.desugar
  | .branch keyword next others => .branch keyword next.desugar others.desugar

/-- The first part of a `for` head. -/
def ForInit.desugar : ForInit → ForInit
  | .exprs items => .exprs (exprsDesugar items)
  | .vars list => .vars list.desugar

/-- A `var` list. -/
def VarList.desugar : VarList → VarList
  | ⟨keyword, items⟩ => ⟨keyword, declsDesugar items⟩

/-- Declared names with their initial values. -/
def declsDesugar : Separated Decl → Separated Decl
  | .nil => .nil
  | .one d => .one d.desugar
  | .more d comma ds => .more d.desugar comma (declsDesugar ds)

/-- A declared name with its initial value. -/
def Decl.desugar : Decl → Decl
  | ⟨name, none⟩ => ⟨name, none⟩
  | ⟨name, some (equals, value)⟩ => ⟨name, some (equals, value.desugar)⟩

/-- The clauses of a switch. -/
def clausesDesugar : List Clause → List Clause
  | [] => []
  | ⟨keyword, none, colon, body⟩ :: cs =>
    ⟨keyword, none, colon, stmtsDesugar body⟩ :: clausesDesugar cs
  | ⟨keyword, some test, colon, body⟩ :: cs =>
    ⟨keyword, some test.desugar, colon, stmtsDesugar body⟩ :: clausesDesugar cs

end

/-- A program of plain JavaScript. -/
def Program.desugar (x : Program) : Program := { x with body := stmtsDesugar x.body }

/-! ## Nothing of the dialect is left -/

theorem operatorConstructs_desugar (operator : Token) :
    operatorConstructs (desugarOperator operator) = [] := by
  unfold desugarOperator
  split
  · rfl
  · rfl
  · next hequal hunequal =>
      unfold operatorConstructs
      split
      · next hk => exact (hequal hk).elim
      · next hk => exact (hunequal hk).elim
      · rfl

theorem Params.constructs_desugar (x : Params) : x.desugar.constructs = [] := by
  have hparam (p : Param) : p.desugar.constructs = [] := by cases p <;> rfl
  have hitems (items : Separated Param) :
      (items.map Param.desugar).items.flatMap Param.constructs = [] := by
    induction items with
    | nil => rfl
    | one p => simp [Separated.map, Separated.items, hparam]
    | more p comma items ih => simpa [Separated.map, Separated.items, hparam] using ih
  exact hitems x.items

theorem stmtsConstructs_append (ss us : List Stmt) :
    stmtsConstructs (ss ++ us) = stmtsConstructs ss ++ stmtsConstructs us := by
  induction ss with
  | nil => rfl
  | cons s ss ih => rw [List.cons_append, stmtsConstructs, stmtsConstructs, ih, List.append_assoc]

theorem stmtsConstructs_eq_nil {ss : List Stmt} (h : ∀ s ∈ ss, s.constructs = []) :
    stmtsConstructs ss = [] := by
  induction ss with
  | nil => rfl
  | cons s ss ih =>
      obtain ⟨hs, hss⟩ := List.forall_mem_cons.mp h
      rw [stmtsConstructs, hs, ih hss]
      rfl

theorem mem_sliceStmts {index : Nat} {params : List Param} {s : Stmt}
    (h : s ∈ sliceStmts index params) : ∃ name n, s = sliceStmt name n := by
  induction params generalizing index with
  | nil => cases h
  | cons p ps ih =>
      rcases List.mem_append.mp h with h | h
      · cases p with
        | rest name dots => exact ⟨name, index, by simpa [Param.slice?] using h⟩
        | plain name => cases h
        | pass mark handler => cases h
      · exact ih h

theorem mem_guardStmts {params : List Param} {s : Stmt} (h : s ∈ params.filterMap Param.guard?) :
    ∃ handler, s = guardStmt handler := by
  obtain ⟨p, _, hp⟩ := List.mem_filterMap.mp h
  cases p with
  | pass mark handler => exact ⟨handler, (Option.some.inj hp).symm⟩
  | plain name => cases hp
  | rest name dots => cases hp

/-- What is put into a body. -/
theorem mem_prologueStmts {params : List Param} {receiver : Option Receiver} {s : Stmt}
    (h : s ∈ prologueStmts params receiver) :
    (∃ handler, s = guardStmt handler) ∨ (∃ a, s = receiverStmt a) ∨ ∃ name n, s = sliceStmt name n := by
  rw [prologueStmts, List.mem_append, List.mem_append] at h
  rcases h with (hguard | hreceiver) | hslice
  · exact .inl (mem_guardStmts hguard)
  · obtain ⟨a, _, ha⟩ := List.mem_map.mp hreceiver
    exact .inr (.inl ⟨a, ha.symm⟩)
  · exact .inr (.inr (mem_sliceStmts hslice))

/-- The statements that are put into a body are plain. -/
theorem stmtsConstructs_prologueStmts (params : List Param) (receiver : Option Receiver) :
    stmtsConstructs (prologueStmts params receiver) = [] := by
  refine stmtsConstructs_eq_nil ?_
  intro s hs
  rcases mem_prologueStmts hs with ⟨handler, rfl⟩ | ⟨a, rfl⟩ | ⟨name, n, rfl⟩
  · cases handler <;> rfl
  · rfl
  · rfl

/-- A comma that another entry follows stays. -/
theorem entriesDesugar_more {key colon comma : Token} {value : Expr} {es : Separated Entry}
    (h : es ≠ .nil) : entriesDesugar (.more ⟨key, colon, value⟩ comma es) =
      .more ⟨key, colon, value.desugar⟩ comma (entriesDesugar es) := by
  cases es with
  | nil => exact (h rfl).elim
  | one e => rfl
  | more e comma' es => rfl

theorem endsInComma_entriesDesugar (es : Separated Entry) :
    (entriesDesugar es).endsInComma = false := by
  induction es with
  | nil => rfl
  | one e =>
      obtain ⟨key, colon, value⟩ := e
      rfl
  | more e comma es ih =>
      obtain ⟨key, colon, value⟩ := e
      by_cases hnil : es = .nil
      · subst hnil
        rfl
      · rw [entriesDesugar_more hnil]
        -- What is left of the entries is not empty, so its own end decides.
        cases hes : entriesDesugar es with
        | nil =>
            cases es with
            | nil => exact (hnil rfl).elim
            | one e =>
                obtain ⟨key, colon, value⟩ := e
                cases hes
            | more e comma' es =>
                obtain ⟨key, colon, value⟩ := e
                cases es <;> cases hes
        | one e => rfl
        | more e comma' es' =>
            rw [hes] at ih
            exact ih

/-- The statement is a pragma. -/
def Stmt.isPragma : Stmt → Bool
  | .include _ => true
  | .declare _ => true
  | _ => false

theorem Stmt.eq_of_isPragma {s : Stmt} (h : s.isPragma = true) : ∃ p, s = .include p ∨ s = .declare p := by
  cases s with
  | «include» p => exact ⟨p, .inl rfl⟩
  | declare p => exact ⟨p, .inr rfl⟩
  | _ => cases h

theorem stmtsDesugar_pragma {s : Stmt} {ss : List Stmt} (h : s.isPragma = true) :
    stmtsDesugar (s :: ss) = stmtsDesugar ss := by
  obtain ⟨p, rfl | rfl⟩ := Stmt.eq_of_isPragma h <;> rfl

theorem stmtsDesugar_cons {s : Stmt} {ss : List Stmt} (h : s.isPragma = false) :
    stmtsDesugar (s :: ss) = s.desugar :: stmtsDesugar ss := by
  cases s with
  | «include» p => cases h
  | declare p => cases h
  | _ => rfl

theorem returningFunc_constructs {params : Params} {value : Expr} (hparams : params.constructs = [])
    (hvalue : value.constructs = []) : (returningFunc params value).constructs = [] := by
  simp [returningFunc, Func.constructs, generatedBlock, Block.constructs, stmtsConstructs,
    Stmt.constructs, hparams, hvalue]

mutual

theorem Expr.constructs_desugar : ∀ e : Expr, e.desugar.constructs = []
  | .head h => Head.constructs_desugar h
  | .suffix leading s => Suffix.constructs_desugar s _ (Expr.constructs_desugar leading)

theorem Head.constructs_desugar : ∀ h : Head, h.desugar.constructs = []
  | .literal _ => rfl
  | .ident _ => rfl
  | .pass _ _ => rfl
  | .rest _ _ => rfl
  | .unary _ operand => Expr.constructs_desugar operand
  | .construct _ _ arguments => Enclosed.constructs_desugar arguments
  | .array elements => Enclosed.constructs_desugar elements
  | .object _ entries _ => by
    rw [Head.desugar, Head.constructs, entriesConstructs_desugar entries,
      endsInComma_entriesDesugar]
    rfl
  | .group _ inner _ => Expr.constructs_desugar inner
  | .function f => Func.constructs_desugar f
  | .arrow params _ body =>
    returningFunc_constructs params.constructs_desugar (Expr.constructs_desugar body)
  | .simpleArrow _ body => returningFunc_constructs rfl (Expr.constructs_desugar body)

theorem Suffix.constructs_desugar : ∀ (s : Suffix) (leading : Expr), leading.constructs = [] →
    (s.desugar leading).constructs = []
  | .binary operator right, _, h => List.append_eq_nil_iff.mpr ⟨h, List.append_eq_nil_iff.mpr
      ⟨operatorConstructs_desugar operator, Expr.constructs_desugar right⟩⟩
  | .ternary _ consequent _ alternate, _, h => List.append_eq_nil_iff.mpr ⟨h,
      List.append_eq_nil_iff.mpr ⟨Expr.constructs_desugar consequent, Expr.constructs_desugar alternate⟩⟩
  | .call arguments, _, h => List.append_eq_nil_iff.mpr ⟨h, Enclosed.constructs_desugar arguments⟩
  | .invoke _ arguments, _, h => List.append_eq_nil_iff.mpr ⟨h, Enclosed.constructs_desugar arguments⟩
  | .index _ inner _, _, h => List.append_eq_nil_iff.mpr ⟨h, Expr.constructs_desugar inner⟩
  | .property _, _, h => List.append_eq_nil_iff.mpr ⟨h, rfl⟩
  | .prototype _ none, _, h => List.append_eq_nil_iff.mpr ⟨h, rfl⟩
  | .prototype _ (some _), _, h =>
    List.append_eq_nil_iff.mpr ⟨List.append_eq_nil_iff.mpr ⟨h, rfl⟩, rfl⟩

theorem Enclosed.constructs_desugar : ∀ e : Enclosed, e.desugar.constructs = []
  | ⟨_, items, _⟩ => exprsConstructs_desugar items

theorem exprsConstructs_desugar : ∀ es : Separated Expr, exprsConstructs (exprsDesugar es) = []
  | .nil => rfl
  | .one e => Expr.constructs_desugar e
  | .more e _ es => List.append_eq_nil_iff.mpr ⟨Expr.constructs_desugar e, exprsConstructs_desugar es⟩

theorem entriesConstructs_desugar : ∀ es : Separated Entry,
    entriesConstructs (entriesDesugar es) = []
  | .nil => rfl
  | .one ⟨_, _, value⟩ => Expr.constructs_desugar value
  | .more ⟨_, _, value⟩ _ es => by
    have hvalue := Expr.constructs_desugar value
    have hes := entriesConstructs_desugar es
    by_cases hnil : es = .nil
    · subst hnil
      exact hvalue
    · rw [entriesDesugar_more hnil]
      exact List.append_eq_nil_iff.mpr ⟨hvalue, hes⟩

theorem Func.constructs_desugar : ∀ f : Func, f.desugar.constructs = []
  | ⟨keyword, name, params, receiver, ⟨opening, body, closing⟩⟩ => by
    simp [Func.desugar, Func.constructs, Block.constructs, params.constructs_desugar,
      stmtsConstructs_append, stmtsConstructs_prologueStmts, stmtsConstructs_desugar body]

theorem Block.constructs_desugar : ∀ b : Block, b.desugar.constructs = []
  | ⟨_, body, _⟩ => stmtsConstructs_desugar body

theorem stmtsConstructs_desugar : ∀ ss : List Stmt, stmtsConstructs (stmtsDesugar ss) = []
  | [] => rfl
  | s :: ss => by
    by_cases hpragma : s.isPragma = true
    · rw [stmtsDesugar_pragma hpragma]
      exact stmtsConstructs_desugar ss
    · rw [stmtsDesugar_cons (Bool.eq_false_iff.mpr hpragma)]
      exact List.append_eq_nil_iff.mpr ⟨Stmt.constructs_desugar s, stmtsConstructs_desugar ss⟩

theorem Stmt.constructs_desugar : ∀ s : Stmt, s.desugar.constructs = []
  | .expr value _ => Expr.constructs_desugar value
  | .empty _ => rfl
  | .conditional first others =>
    List.append_eq_nil_iff.mpr ⟨Guarded.constructs_desugar first, Ladder.constructs_desugar others⟩
  | .while loop => Guarded.constructs_desugar loop
  | .for _ _ init _ test _ update _ body => by
    rw [Stmt.desugar, Stmt.constructs, ForInit.constructs_desugar init, exprsConstructs_desugar test,
      exprsConstructs_desugar update, Block.constructs_desugar body]
    rfl
  | .forIn _ _ _ _ _ object _ body =>
    List.append_eq_nil_iff.mpr ⟨Expr.constructs_desugar object, Block.constructs_desugar body⟩
  | .jump _ _ _ => rfl
  | .return _ none _ => rfl
  | .return _ (some value) _ => Expr.constructs_desugar value
  | .throw _ value _ => Expr.constructs_desugar value
  | .vars list _ => VarList.constructs_desugar list
  | .function f => Func.constructs_desugar f
  | .labeled _ _ body => Stmt.constructs_desugar body
  | .switch _ _ subject _ _ clauses _ =>
    List.append_eq_nil_iff.mpr ⟨Expr.constructs_desugar subject, clausesConstructs_desugar clauses⟩
  | .block b => Block.constructs_desugar b
  | .include _ => rfl
  | .declare _ => rfl

theorem Guarded.constructs_desugar : ∀ g : Guarded, g.desugar.constructs = []
  | ⟨_, _, test, _, body⟩ =>
    List.append_eq_nil_iff.mpr ⟨Expr.constructs_desugar test, Block.constructs_desugar body⟩

theorem Ladder.constructs_desugar : ∀ l : Ladder, l.desugar.constructs = []
  | .done => rfl
  | .otherwise _ body => Block.constructs_desugar body
  | .branch _ next others =>
    List.append_eq_nil_iff.mpr ⟨Guarded.constructs_desugar next, Ladder.constructs_desugar others⟩

theorem ForInit.constructs_desugar : ∀ i : ForInit, i.desugar.constructs = []
  | .exprs items => exprsConstructs_desugar items
  | .vars list => VarList.constructs_desugar list

theorem VarList.constructs_desugar : ∀ l : VarList, l.desugar.constructs = []
  | ⟨_, items⟩ => declsConstructs_desugar items

theorem declsConstructs_desugar : ∀ ds : Separated Decl, declsConstructs (declsDesugar ds) = []
  | .nil => rfl
  | .one d => Decl.constructs_desugar d
  | .more d _ ds => List.append_eq_nil_iff.mpr ⟨Decl.constructs_desugar d, declsConstructs_desugar ds⟩

theorem Decl.constructs_desugar : ∀ d : Decl, d.desugar.constructs = []
  | ⟨_, none⟩ => rfl
  | ⟨_, some (_, value)⟩ => Expr.constructs_desugar value

theorem clausesConstructs_desugar : ∀ cs : List Clause, clausesConstructs (clausesDesugar cs) = []
  | [] => rfl
  | ⟨_, none, _, body⟩ :: cs =>
    List.append_eq_nil_iff.mpr ⟨stmtsConstructs_desugar body, clausesConstructs_desugar cs⟩
  | ⟨_, some test, _, body⟩ :: cs => by
    simp [clausesDesugar, clausesConstructs, Expr.constructs_desugar test,
      stmtsConstructs_desugar body, clausesConstructs_desugar cs]

end

/-- Desugaring leaves no construct of the dialect in a program. -/
theorem Program.constructs_desugar (x : Program) : x.desugar.constructs = [] :=
  stmtsConstructs_desugar x.body

end Respell
