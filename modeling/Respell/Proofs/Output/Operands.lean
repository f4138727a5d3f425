import Respell.Proofs.Engine.Print
import Respell.Proofs.Output.Lines
import Respell.Proofs.Parse.Placed
import Respell.Proofs.Token.Spelling

/-!
# Operands on the line of their keyword

In JavaScript a line that ends right after `return`, `throw`, `break` or `continue` ends the statement, and
the operand on the next line is cut off. In the source lines do not matter, and a keyword is written with
its trivia as it stands. So an operand is kept if and only if the source has it on the line of its
keyword. The word that is added for the body of an arrow is followed by one blank: the trivia of the arrow
is written before it.
-/

namespace Respell

open Text

/-! ## Every part is written -/

/-- The pieces of the part, before those of what follows. -/
def Node.pieces : Node → List Piece → List Piece
  | .expr e => e.pieces
  | .stmt s => s.pieces

/-- The part is written somewhere among the pieces. -/
def Node.Written (ps : List Piece) (node : Node) : Prop := ∃ tail, node.pieces tail <:+ ps

/-- The parts at all the spots are written among the pieces. -/
def AllWritten (ps : List Piece) (spots : List Spot) : Prop := ∀ s ∈ spots, s.node.Written ps

namespace AllWritten

variable {ps mid tail : List Piece} {ss ss' : List Spot}

theorem nil (ps : List Piece) : AllWritten ps [] := List.forall_mem_nil _

theorem append (h : AllWritten ps ss) (h' : AllWritten ps ss') : AllWritten ps (ss ++ ss') :=
  List.forall_mem_append.mpr ⟨h, h'⟩

/-- What is written stays written when something is put before it. -/
theorem before (h : AllWritten mid ss) (hps : Unsevered ps mid) : AllWritten ps ss := by
  intro s hs
  obtain ⟨tail, htail⟩ := h s hs
  exact ⟨tail, htail.trans hps.suffix⟩

theorem expr (colon : Colon) (after : List Token) (tail : List Piece) (e : Expr) :
    AllWritten (e.pieces tail) (e.spot colon after) :=
  List.forall_mem_singleton.mpr ⟨tail, List.suffix_refl _⟩

theorem stmt (after : List Token) (tail : List Piece) (s : Stmt) :
    AllWritten (s.pieces tail) (s.spot after) :=
  List.forall_mem_singleton.mpr ⟨tail, List.suffix_refl _⟩

theorem exprs (colon : Colon) (after : List Token) (tail : List Piece) (es : Separated Expr) :
    AllWritten (exprsPieces es tail) (exprSpots colon after es) := by
  induction es with
  | nil => exact .nil _
  | one e => exact .expr colon after tail e
  | more e comma es ih =>
      exact .append (.expr colon _ _ e) (ih.before ((e.puts _).before (.replay comma .refl)))

theorem entries (colon : Colon) (after : List Token) (tail : List Piece) (es : Separated Entry) :
    AllWritten (entriesPieces es tail) (es.spots Entry.tokens (Entry.spots colon) after) := by
  induction es with
  | nil => exact .nil _
  | one e =>
      obtain ⟨key, c, value⟩ := e
      exact (expr colon after tail value).before (.replay key (.replay c .refl))
  | more e comma es ih =>
      obtain ⟨key, c, value⟩ := e
      by_cases hnil : es = .nil
      · subst hnil
        exact ((expr colon _ _ value).before (.replay key (.replay c .refl))).append (.nil _)
      · rw [entriesPieces_more hnil]
        have hrest := ih.before (.replay key (.replay c ((value.puts _).before (.replay comma .refl))))
        exact ((expr colon _ _ value).before (.replay key (.replay c .refl))).append hrest

theorem stmts (after : List Token) (tail : List Piece) (ss : List Stmt) :
    AllWritten (stmtsPieces ss tail) (stmtSpots after ss) := by
  induction ss with
  | nil => exact .nil _
  | cons s ss ih => exact .append (.stmt _ _ s) (ih.before (s.puts _).unsevered)

theorem enclosed (colon : Colon) (after : List Token) (tail : List Piece) (e : Enclosed) :
    AllWritten (e.pieces tail) (e.spots colon after) := by
  obtain ⟨opening, items, closing⟩ := e
  exact (exprs colon _ _ items).before (.replay opening .refl)

theorem block (after : List Token) (tail : List Piece) (b : Block) :
    AllWritten (b.pieces tail) (b.spots after) := by
  obtain ⟨opening, body, closing⟩ := b
  exact (stmts _ _ body).before (.replay opening .refl)

theorem function (after : List Token) (tail : List Piece) (f : Func) :
    AllWritten (f.pieces tail) (f.body.spots after) := by
  obtain ⟨keyword, name, params, receiver, ⟨opening, body, closing⟩⟩ := f
  refine (stmts _ (closing.replay tail) body).before ((Func.opening_puts _).before (.token opening ?_))
  exact (prologue_puts params.items.items receiver).before (.gap opening.trailing .refl)

theorem head (colon : Colon) (after : List Token) (tail : List Piece) (h : Head) :
    AllWritten (h.pieces tail) (h.spots colon after) := by
  cases h with
  | literal t => exact .nil _
  | ident t => exact .nil _
  | pass mark handler => exact .nil _
  | rest name dots => exact .nil _
  | unary operator operand => exact (expr colon after tail operand).before (.replay operator .refl)
  | construct keyword callee arguments =>
      exact (enclosed colon after tail arguments).before (.replay keyword callee.puts.unsevered)
  | array elements => exact enclosed colon after tail elements
  | object opening items closing => exact (entries colon _ _ items).before (.replay opening .refl)
  | group opening inner closing => exact (expr colon _ _ inner).before (.replay opening .refl)
  | function f => exact function after tail f
  | arrow params sign body =>
      have hreturn := Unsevered.spaced "return" (body.pieces_beginsLexeme (closeArrow tail)) .refl
      refine (expr colon after (closeArrow tail) body).before ?_
      exact functionWord_puts.before (.replay params.opening ((arrowParamsPieces_puts params.items).before
        (.replay params.closing (.other (by decide) (.gap sign.trailing hreturn)))))
  | simpleArrow sign body =>
      have hreturn := Unsevered.spaced "return" (body.pieces_beginsLexeme (closeArrow tail)) .refl
      refine (expr colon after (closeArrow tail) body).before ?_
      exact implicit_puts.before (.gap sign.trailing hreturn)

theorem suffix (colon : Colon) (after : List Token) (tail : List Piece) (s : Suffix) :
    AllWritten (s.pieces tail) (s.spots colon after) := by
  cases s with
  | binary operator right =>
      exact (expr colon after tail right).before (operatorPieces_puts operator).unsevered
  | ternary question consequent c alternate =>
      have halternate := (expr colon after tail alternate).before
        (.replay question ((consequent.puts _).before (.replay c .refl)))
      exact ((expr .awaited _ _ consequent).before (.replay question .refl)).append halternate
  | call arguments => exact enclosed colon after tail arguments
  | invoke member arguments => exact (enclosed colon after tail arguments).before member.puts.unsevered
  | index opening inner closing => exact (expr colon _ _ inner).before (.replay opening .refl)
  | property member => exact .nil _
  | prototype colons name => exact .nil _

theorem guarded (after : List Token) (tail : List Piece) (g : Guarded) :
    AllWritten (g.pieces tail) (g.spots after) := by
  obtain ⟨keyword, opening, test, closing, body⟩ := g
  have hbody := (block after tail body).before
    (.replay keyword (.replay opening ((test.puts _).before (.replay closing .refl))))
  exact ((expr .free _ _ test).before (.replay keyword (.replay opening .refl))).append hbody

theorem ladder (after : List Token) (tail : List Piece) (l : Ladder) :
    AllWritten (l.pieces tail) (l.spots after) := by
  cases l with
  | done => exact .nil _
  | otherwise keyword body => exact (block after tail body).before (.replay keyword .refl)
  | branch keyword next others =>
      have hothers := (ladder after tail others).before (.replay keyword (next.puts _).unsevered)
      exact ((guarded _ _ next).before (.replay keyword .refl)).append hothers

theorem decl (after : List Token) (tail : List Piece) (d : Decl) :
    AllWritten (d.pieces tail) (d.spots after) := by
  obtain ⟨name, init⟩ := d
  cases init with
  | none => exact .nil _
  | some init =>
      obtain ⟨equals, value⟩ := init
      exact (expr .free after tail value).before (.replay name (.replay equals .refl))

theorem decls (after : List Token) (tail : List Piece) (ds : Separated Decl) :
    AllWritten (declsPieces ds tail) (ds.spots Decl.tokens Decl.spots after) := by
  induction ds with
  | nil => exact .nil _
  | one d => exact decl after tail d
  | more d comma ds ih => exact (decl _ _ d).append (ih.before ((d.puts _).before (.replay comma .refl)))

theorem varList (after : List Token) (tail : List Piece) (l : VarList) :
    AllWritten (l.pieces tail) (l.spots after) := by
  obtain ⟨keyword, items⟩ := l
  exact (decls after tail items).before (.replay keyword .refl)

theorem forInit (after : List Token) (tail : List Piece) (i : ForInit) :
    AllWritten (i.pieces tail) (i.spots after) := by
  cases i with
  | exprs items => exact exprs .free after tail items
  | vars list => exact varList after tail list

theorem clauses (after : List Token) (tail : List Piece) (cs : List Clause) :
    AllWritten (clausesPieces cs tail) (listSpots Clause.tokens Clause.spots after cs) := by
  induction cs with
  | nil => exact .nil _
  | cons c cs ih =>
      obtain ⟨keyword, test, colon, body⟩ := c
      cases test with
      | none =>
          have hcs := ih.before (stmtsPieces_puts body _).unsevered
          exact ((stmts _ _ body).append hcs).before (.replay keyword (.replay colon .refl))
      | some test =>
          have hcs := ih.before (stmtsPieces_puts body _).unsevered
          have hrest := ((stmts (clausesTokens cs ++ after) _ body).append hcs).before
            ((test.puts _).before (.replay colon .refl))
          -- What follows the test is given by hand: the spots of a clause are grouped the other way.
          have hall := ((expr .awaited (colon :: (stmtsTokens body ++ (clausesTokens cs ++ after))) _
            test).append hrest).before (.replay keyword .refl)
          rw [listSpots, Clause.spots, List.append_assoc, ← clausesTokens_eq]
          exact hall

theorem statement (after : List Token) (tail : List Piece) (s : Stmt) :
    AllWritten (s.pieces tail) (s.spots after) := by
  cases s with
  | expr value semicolon => exact expr .free _ _ value
  | empty semicolon => exact .nil _
  | conditional first others =>
      exact (guarded _ _ first).append ((ladder after tail others).before (first.puts _).unsevered)
  | «while» loop => exact guarded after tail loop
  | «for» keyword opening init first test second update closing body =>
      -- From the body to the front, with the tokens that follow each part.
      let rest₃ := closing :: (body.tokens ++ after)
      let rest₂ := second :: (exprsTokens update ++ rest₃)
      have hbody := (block after tail body).before ((exprsPieces_puts update _).before (.replay closing .refl))
      have hupdate := ((exprs .free rest₃ _ update).append hbody).before
        ((exprsPieces_puts test _).before (.replay second .refl))
      have htest := ((exprs .free rest₂ _ test).append hupdate).before ((init.puts _).before (.replay first .refl))
      have hall := ((forInit (first :: (exprsTokens test ++ rest₂)) _ init).append htest).before
        (.replay keyword (.replay opening .refl))
      simp only [Stmt.spots, List.append_assoc]
      exact hall
  | forIn keyword opening var name inWord object closing body =>
      have hbody := (block after tail body).before ((object.puts _).before (.replay closing .refl))
      exact ((expr .free _ _ object).append hbody).before
        (.replay keyword (.replay opening (.replay? var (.replay name (.replay inWord .refl)))))
  | jump keyword label semicolon => exact .nil _
  | «return» keyword value semicolon =>
      cases value with
      | none => exact .nil _
      | some value => exact (expr .free _ _ value).before (.replay keyword .refl)
  | throw keyword value semicolon => exact (expr .free _ _ value).before (.replay keyword .refl)
  | vars list semicolon => exact varList _ _ list
  | function f => exact function after tail f
  | labeled label colon body => exact (stmt after tail body).before (.replay label (.replay colon .refl))
  | switch keyword opening subject closing openBrace cs closeBrace =>
      have hclauses := (clauses (closeBrace :: after) (closeBrace.replay tail) cs).before
        ((subject.puts _).before (.replay closing (.replay openBrace .refl)))
      exact ((expr .free _ _ subject).append hclauses).before (.replay keyword (.replay opening .refl))
  | block b => exact block after tail b
  | «include» p => exact .nil _
  | declare p => exact .nil _

theorem parts (s : Spot) (tail : List Piece) : AllWritten (s.node.pieces tail) s.parts := by
  obtain ⟨node, colon, after⟩ := s
  cases node with
  | stmt s => exact statement after tail s
  | expr e =>
      cases e with
      | head h => exact head colon after tail h
      | suffix leading s =>
          exact (expr colon _ _ leading).append ((suffix colon after tail s).before (leading.puts _).unsevered)

end AllWritten

/-- Every part of a program is written somewhere in its output. -/
theorem Program.Stands.written {x : Program} {s : Spot} (h : x.Stands s) : s.node.Written x.pieces := by
  induction h with
  | top hmem =>
      exact ((AllWritten.stmts _ _ x.body).before (.gap x.preamble .refl)) _ hmem
  | inside _ hmem ih =>
      obtain ⟨tail, htail⟩ := ih
      obtain ⟨tail', hpart⟩ := AllWritten.parts _ tail _ hmem
      exact ⟨tail', hpart.trans htail⟩

/-! ## Operands -/

/-- The keyword of a statement that would lose its operand if a line ended right after the keyword. -/
def Stmt.operandKeyword? : Stmt → Option Token
  | .jump keyword (some _) _ => some keyword
  | .return keyword (some _) _ => some keyword
  | .throw keyword _ _ => some keyword
  | _ => none

/-- The text that is written between the first lexeme of a statement and the next one. -/
def Stmt.firstGap (s : Stmt) : String := gapText (s.pieces []).tail

/-- A statement with an operand is written with the trivia of its keyword before the operand. -/
theorem Stmt.firstGap_eq {s : Stmt} {keyword : Token} (h : s.operandKeyword? = some keyword) :
    s.firstGap = keyword.trailing := by
  cases s with
  | jump word label semicolon =>
      cases label with
      | none => cases h
      | some label =>
          cases h
          exact gapText_gap ⟨_, _, rfl, rfl⟩ _
  | «return» word value semicolon =>
      cases value with
      | none => cases h
      | some value =>
          cases h
          exact gapText_gap (value.pieces_beginsLexeme _) _
  | throw word value semicolon =>
      cases h
      exact gapText_gap (value.pieces_beginsLexeme _) _
  | _ => cases h

/-- Every statement with an operand is written, and no line ends between its keyword and the operand. -/
def Program.KeepsOperands (x : Program) : Prop :=
  ∀ s colon after keyword, x.Stands ⟨.stmt s, colon, after⟩ → s.operandKeyword? = some keyword →
    Node.Written x.pieces (.stmt s) ∧ breaksLine s.firstGap = false

/-- No line ends between an added `return` and what is written after it. -/
def Program.KeepsReturns (x : Program) : Prop :=
  ∀ before rest, x.pieces = before ++ .added "return" :: rest → breaksLine (gapText rest) = false

theorem Unsevered.keepsReturn {ps tail before rest : List Piece} (h : Unsevered ps tail) (htail : tail = [])
    (hps : ps = before ++ .added "return" :: rest) : breaksLine (gapText rest) = false := by
  induction h generalizing before with
  | refl =>
      subst htail
      exact absurd hps (by simp)
  | @cons p qs _ hp _ ih =>
      cases before with
      | nil =>
          cases hps
          exact hp rfl
      | cons q before =>
          cases hps
          exact ih htail rfl

theorem Program.keepsReturns (x : Program) : x.KeepsReturns := by
  have hbody := (stmtsPieces_puts x.body (x.endOfFile.replay [])).before (.replay x.endOfFile .refl)
  exact fun _ _ => (hbody.gap x.preamble).keepsReturn rfl

/-- Operands are kept if and only if no line of the source ends between a keyword and its operand. -/
theorem Program.keepsOperands_iff_trailing (x : Program) :
    x.KeepsOperands ↔ ∀ s colon after keyword, x.Stands ⟨.stmt s, colon, after⟩ →
      s.operandKeyword? = some keyword → breaksLine keyword.trailing = false := by
  constructor
  · intro h s colon after keyword hs hkeyword
    rw [← Stmt.firstGap_eq hkeyword]
    exact (h s colon after keyword hs hkeyword).2
  · intro h s colon after keyword hs hkeyword
    refine ⟨hs.written, ?_⟩
    rw [Stmt.firstGap_eq hkeyword]
    exact h s colon after keyword hs hkeyword

/-- For every source that is accepted, no line ends after a `return` that is added for the body of an arrow. And
    the operands of all statements, at any depth, are written on the line of their keyword if and only if no
    line of the source ends between a keyword and its operand, be it in a comment. -/
theorem keepsOperands_iff {file source out : String} (h : compile file source = .ok out) :
    ∃ x helpers, analyze source = .ok (x, helpers) ∧ out = x.output ++ helperText helpers ∧
      x.KeepsReturns ∧
      (x.KeepsOperands ↔ ∀ s colon after keyword, x.Stands ⟨.stmt s, colon, after⟩ →
        s.operandKeyword? = some keyword → breaksLine keyword.trailing = false) := by
  obtain ⟨x, helpers, hrun, hout⟩ := compile_ok h
  exact ⟨x, helpers, hrun, hout, x.keepsReturns, x.keepsOperands_iff_trailing⟩

/-- The words that an operand may follow on their line only. -/
def Kind.needsOperandOnLine : Kind → Bool
  | .word .return | .word .throw | .word .break | .word .continue => true
  | _ => false

theorem Stmt.Formed.operandKeyword {s : Stmt} (hs : s.Formed) {keyword : Token}
    (h : s.operandKeyword? = some keyword) :
    keyword.kind.needsOperandOnLine = true ∧ keyword ∈ s.tokens := by
  cases s with
  | jump word label semicolon =>
      cases label with
      | none => cases h
      | some label =>
          cases h
          refine ⟨?_, List.mem_cons_self⟩
          rcases hs.1 with hword | hword
          · rw [hword.kind]
            rfl
          · rw [hword.kind]
            rfl
  | «return» word value semicolon =>
      cases value with
      | none => cases h
      | some value =>
          cases h
          exact ⟨by rw [hs.1.kind]; rfl, List.mem_cons_self⟩
  | throw word value semicolon =>
      cases h
      exact ⟨by rw [hs.1.kind]; rfl, List.mem_cons_self⟩
  | _ => cases h

/-- A source in which no line ends after such a word keeps its operands. -/
theorem trailing_of_tokens {limit : Nat} {source : List Char} {x : Program}
    (h : parseProgramWithin limit source = .ok x)
    (htokens : ∀ t ∈ x.tokens, t.kind.needsOperandOnLine = true → breaksLine t.trailing = false)
    {s : Stmt} {colon : Colon} {after : List Token} {keyword : Token}
    (hs : x.Stands ⟨.stmt s, colon, after⟩) (hkeyword : s.operandKeyword? = some keyword) :
    breaksLine keyword.trailing = false := by
  obtain ⟨last, _, hread⟩ := exists_allRead h
  have hformed : s.Formed := (hread _ hs).formed
  obtain ⟨hkind, hmem⟩ := hformed.operandKeyword hkeyword
  exact htokens keyword (hs.tokens_suffix.subset (List.mem_append_left _ hmem)) hkind

/-- A source with all the operands, on the lines of their keywords, and with a line end after an arrow. -/
def carriedSource : String :=
  "var f = (x) ->\n-x;\nfunction g(y) \x7b l: while (y) \x7b if (f(y)) \x7b break /* l */ l; \x7d\n" ++
    "continue l; \x7d throw [\ny]; return ->\n_; \x7d"

theorem keepsOperands_iff_carriedSource :
    ∃ out x helpers, compile "carried" carriedSource = .ok out ∧
      analyze carriedSource = .ok (x, helpers) ∧ out = x.output ++ helperText helpers ∧
      x.KeepsReturns ∧ x.KeepsOperands := by
  have hrun : (analyze carriedSource).toOption.map (fun r => r.1.tokens.all
      fun t => !t.kind.needsOperandOnLine || !breaksLine t.trailing) = some true := by
    decide +kernel
  obtain ⟨⟨y, names⟩, hanalyze, htokens⟩ := ok_of_toOption hrun
  have hcompile := compile_of_analyze "carried" hanalyze
  obtain ⟨x, helpers, hanalyze', hout, hreturns, hoperands⟩ := keepsOperands_iff hcompile
  rw [hanalyze] at hanalyze'
  cases hanalyze'
  refine ⟨_, y, names, hcompile, hanalyze, hout, hreturns, hoperands.mpr ?_⟩
  -- All tokens of the source were looked at, so every keyword of a statement was.
  intro s colon after keyword hs hkeyword
  refine trailing_of_tokens (analyze_ok hanalyze).1 ?_ hs hkeyword
  intro t ht hkind
  have hchecked := List.all_eq_true.mp htokens t ht
  simpa [hkind] using hchecked

/-- A statement at the spot has an operand on another line than its keyword. -/
def Spot.breaksOperand (s : Spot) : Bool :=
  match s.node with
  | .stmt t => t.operandKeyword?.any fun keyword => breaksLine keyword.trailing
  | .expr _ => false

/-- A source with a line end between `throw` and its value. -/
def severedSource : String := "function f(x) \x7b throw\nx; \x7d"

/-- The line end after the keyword is written as it stands. -/
theorem not_keepsOperands_severedSource :
    ∃ x, analyze severedSource = .ok (x, []) ∧ x.output = severedSource ∧ ¬x.KeepsOperands := by
  have hrun : (analyze severedSource).toOption.map (fun r => ((r.1.output, r.2),
      ((stmtSpots [r.1.endOfFile] r.1.body).flatMap Spot.parts).any Spot.breaksOperand)) =
      some ((severedSource, []), true) := by
    decide +kernel
  obtain ⟨⟨x, helpers⟩, hx, hvalues⟩ := ok_of_toOption hrun
  obtain ⟨hout, hbroken⟩ := Prod.mk.inj hvalues
  obtain ⟨hout, rfl⟩ := Prod.mk.inj hout
  refine ⟨x, hx, hout, ?_⟩
  intro hkeeps
  obtain ⟨s, hs, hbreaks⟩ := List.any_eq_true.mp hbroken
  obtain ⟨outer, houter, hpart⟩ := List.mem_flatMap.mp hs
  -- The statement stands one level below the program, in the body of the function.
  have hstands : x.Stands s := .inside (.top houter) hpart
  obtain ⟨node, colon, after⟩ := s
  cases node with
  | expr e => cases hbreaks
  | stmt t =>
      obtain ⟨keyword, hkeyword, hbreak⟩ := (Option.any_eq_true _ _).mp hbreaks
      have hkept := x.keepsOperands_iff_trailing.mp hkeeps t colon after keyword hstands hkeyword
      rw [hkept] at hbreak
      cases hbreak

end Respell
