import Respell.Engine.Print
import Respell.Proofs.Output.Gaps
import Respell.Proofs.Tree.Chain

/-!
# The text that is printed

The printer of the engine writes at the end of a text, and goes through chains and ladders in loops. The writer of
pieces walks from the last part of a node to the first, with what follows as an accumulator. They give the same
text; the statement proved by induction is about everything that may follow.
-/

namespace Respell

/-! ## The text of pieces -/

/-- Printing, then writing the pieces of `tail`, comes to writing the pieces `ps`. -/
def Prints (x : Printer) (ps tail : List Piece) : Prop :=
  ∀ out, x.onto out ++ Piece.join tail = out ++ Piece.join ps

theorem onto_write (text out : String) : (write text).onto out = out ++ text := rfl

theorem onto_bind (x y : Printer) (out : String) : Printer.onto (do x; y) out = y.onto (x.onto out) := rfl

namespace Prints

variable {x y : Printer} {ps qs tail : List Piece}

theorem nothing : Prints (pure ()) tail tail := fun _ => rfl

theorem seq (h : Prints x ps qs) (h' : Prints y qs tail) : Prints (do x; y) ps tail := by
  intro out
  rw [onto_bind, h' (x.onto out), h out]

/-- Pieces whose text is known as a whole. -/
theorem whole (ps : List Piece) (h : ∀ out, x.onto out = out ++ Piece.join ps) : Prints x (ps ++ tail) tail := by
  intro out
  rw [h out, String.append_assoc]
  simp [Piece.join]

/-- What is printed if nothing follows. -/
theorem alone (h : Prints x ps []) (out : String) : x.onto out = out ++ Piece.join ps := by
  have htext := h out
  rwa [show Piece.join [] = "" from rfl, String.append_empty] at htext

end Prints

/-- Some pieces are put before `tail`, their text is printed, and no line ends after a `return` that they add. -/
structure Puts (x : Printer) (ps tail : List Piece) : Prop where
  prints : Prints x ps tail
  unsevered : Unsevered ps tail

namespace Puts

variable {x y : Printer} {ps qs tail : List Piece}

theorem nothing : Puts (pure ()) tail tail := ⟨.nothing, .refl⟩

theorem seq (h : Puts x ps qs) (h' : Puts y qs tail) : Puts (do x; y) ps tail :=
  ⟨h.prints.seq h'.prints, h.unsevered.trans h'.unsevered⟩

theorem before (h : Puts x ps qs) (h' : Unsevered qs tail) : Unsevered ps tail := h.unsevered.trans h'

/-- Pieces whose text is known as a whole. -/
theorem whole (ps : List Piece) (hreturns : keepsReturns ps = true)
    (h : ∀ out, x.onto out = out ++ Piece.join ps) : Puts x (ps ++ tail) tail :=
  ⟨.whole ps h, .front ps hreturns .refl⟩

theorem text {text : String} (ps : List Piece) (hreturns : keepsReturns ps = true) (h : Piece.join ps = text) :
    Puts (write text) (ps ++ tail) tail :=
  .whole ps hreturns fun out => congrArg (out ++ ·) h.symm

theorem gap (text : String) : Puts (write text) (.gap text :: tail) tail :=
  .text [.gap text] rfl (by simp [Piece.join, Piece.text])

theorem token (t : Token) : Puts (write t.text) (.token t :: tail) tail :=
  .text [.token t] rfl (by simp [Piece.join, Piece.text])

theorem replay (t : Token) : Puts t.print (t.replay tail) tail := (token t).seq (gap t.trailing)

/-- A token can be printed in front. -/
theorem cons (t : Token) (h : Puts x ps tail) : Puts (do t.print; x) (t.replay ps) tail := (replay t).seq h

theorem replay? (o : Option Token) : Puts (print? o) (Respell.replay? o tail) tail := by
  cases o with
  | none => exact .nothing
  | some t => exact .replay t

end Puts

section Parts

variable {tail : List Piece}

/-! Added text is split where its pieces are, so its literals are put together again. -/

theorem join_nil : Piece.join [] = "" := rfl

theorem functionWord_puts : Puts (write "function ") (functionWord tail) tail :=
  .text (functionWord []) rfl rfl

theorem implicit_puts :
    Puts (write "function (_) \x7b")
      (functionWord (.added "(" :: .added "_" :: .added ")" :: .blank :: .added "\x7b" :: tail)) tail :=
  .text (functionWord [.added "(", .added "_", .added ")", .blank, .added "\x7b"]) rfl rfl

theorem return_puts (h : BeginsLexeme tail) :
    Puts (write "return ") (.added "return" :: .blank :: tail) tail :=
  ⟨.whole [.added "return", .blank] fun _ => rfl, .spaced "return" h .refl⟩

theorem closeArrow_puts : Puts (write "; \x7d") (closeArrow tail) tail :=
  .text (closeArrow []) rfl rfl

theorem errorGuard_puts (handler : Option Token) :
    Puts (printGuard handler) (errorGuard handler tail) tail := by
  cases handler with
  | none => exact .text (errorGuard none []) rfl rfl
  | some handler =>
      refine .whole (errorGuard (some handler) []) rfl fun out => ?_
      -- Both texts are brought to one chain of appends, where the literals beside each other merge.
      change out ++ " if (__err) \x7b " ++ handler.text ++ "(__err); return; \x7d" = _
      simp only [errorGuard, errorName, Piece.blank, join_cons, Piece.text, join_nil, String.reduceAppend]
      simp only [← String.append_assoc, String.reduceAppend]

theorem receiverVar_puts (receiver : Receiver) :
    Puts (printReceiver receiver) (receiverVar receiver tail) tail := by
  refine .whole (receiverVar receiver []) rfl fun out => ?_
  change out ++ " var " ++ receiver.name.text ++ " = this;" = _
  simp only [receiverVar, Piece.blank, join_cons, Piece.text, join_nil, String.reduceAppend]
  simp only [← String.append_assoc, String.reduceAppend]

theorem restSlice_puts (name : Token) (index : Nat) :
    Puts (printSlice name index) (restSlice name index tail) tail := by
  refine .whole (restSlice name index []) rfl fun out => ?_
  change out ++ " " ++ name.text ++ " = [].slice.call(arguments, " ++ toString index ++ ");" = _
  simp only [restSlice, Piece.blank, join_cons, Piece.text, join_nil, String.reduceAppend]
  -- Only the literals between the name and the index are left apart.
  have hcall (text : String) : " " ++ ("=" ++ (" " ++ ("[" ++ ("]" ++ ("." ++ ("slice" ++ ("." ++ ("call" ++ ("(" ++
      ("arguments" ++ ("," ++ (" " ++ text)))))))))))) = " = [].slice.call(arguments, " ++ text := by
    simp only [← String.append_assoc, String.reduceAppend]
  rw [hcall]
  simp only [String.append_assoc]

theorem prologue_puts (params : List Param) (receiver : Option Receiver) :
    Puts (printPrologue params receiver) (prologue params receiver tail) tail := by
  unfold prologue
  -- The statements are put in front of each other, the last one first.
  extract_lets slices receivers
  have hslices : Puts (forM (collected? 0 params) fun rest => printSlice rest.1 rest.2) slices tail := by
    unfold slices
    cases collected? 0 params with
    | none => exact .nothing
    | some rest => exact restSlice_puts rest.1 rest.2
  have hreceivers : Puts (forM receiver printReceiver) receivers slices := by
    unfold receivers
    cases receiver with
    | none => exact .nothing
    | some receiver => exact receiverVar_puts receiver
  refine Puts.seq ?_ (hreceivers.seq hslices)
  cases passed? params with
  | none => exact .nothing
  | some handler => exact errorGuard_puts handler

theorem leftover_puts (texts : List String) : Puts (printLeftover texts) (leftover texts tail) tail := by
  have hgaps : Puts (forM texts write) (texts.foldr (fun text rest => .gap text :: rest) tail) tail := by
    induction texts with
    | nil => exact .nothing
    | cons text texts ih =>
        rw [List.forM_cons]
        exact (Puts.gap text).seq ih
  rw [leftover, printLeftover]
  split
  · split
    · exact .nothing
    · exact .gap " "
  · exact hgaps

theorem Param.puts (p : Param) : Puts p.print (p.pieces tail) tail := by
  cases p with
  | plain name => exact .replay name
  | pass mark handler => exact (Puts.text [.added errorName] rfl rfl).seq (.gap _)
  | rest name dots => exact .cons name (.gap dots.trailing)

theorem paramsPieces_puts (items : Separated Param) :
    Puts (items.print Param.print) (paramsPieces items tail) tail := by
  induction items with
  | nil => exact .nothing
  | one p => exact p.puts
  | more p comma items ih => exact p.puts.seq (.cons comma ih)

theorem arrowParamsPieces_puts (items : Separated Param) :
    Puts (items.print fun p => p.firstToken.print) (arrowParamsPieces items tail) tail := by
  induction items with
  | nil => exact .nothing
  | one p => exact .replay p.firstToken
  | more p comma items ih => exact .cons p.firstToken (.cons comma ih)

theorem closeParams_puts (closing : Token) (receiver : Option Receiver) :
    Puts (printClosing closing receiver) (closeParams closing receiver tail) tail := by
  cases receiver with
  | none => exact .replay closing
  | some receiver => exact (Puts.token closing).seq (leftover_puts _)

theorem Func.opening_puts (f : Func) : Puts f.printHead (f.opening tail) tail := by
  obtain ⟨keyword, name, params, receiver, body⟩ := f
  have hlist := (Puts.replay? name).seq (.cons params.opening ((paramsPieces_puts params.items).seq
    (@closeParams_puts tail params.closing receiver)))
  cases keyword with
  | none => exact functionWord_puts.seq hlist
  | some keyword => exact .cons keyword hlist

theorem pragmaGaps_puts (items : Separated PragmaItem) :
    Puts (printPragmaTrailing items) (pragmaGaps items tail) tail := by
  have hitem (item : PragmaItem) (tail : List Piece) : Puts item.printTrailing (item.gaps tail) tail := by
    cases item with
    | single name => exact .gap name.trailing
    | group colon name => exact (Puts.gap colon.trailing).seq (.gap name.trailing)
  induction items with
  | nil => exact .nothing
  | one item => exact hitem item tail
  | more item comma items ih => exact (hitem item _).seq ((Puts.gap comma.trailing).seq ih)

theorem Pragma.puts (p : Pragma) : Puts p.print (p.pieces tail) tail :=
  (Puts.gap _).seq ((Puts.gap p.keyword.trailing).seq ((pragmaGaps_puts p.items).seq (.gap p.semicolon.trailing)))

theorem operatorPieces_puts (operator : Token) :
    Puts (printOperator operator) (operatorPieces operator tail) tail := by
  have hrespelt : Puts (do write operator.text; write "="; write operator.trailing)
      (.respelt operator (operator.text ++ "=") :: .gap operator.trailing :: tail) tail :=
    .whole [.respelt operator (operator.text ++ "="), .gap operator.trailing] rfl fun out => by
      change out ++ operator.text ++ "=" ++ operator.trailing = _
      simp [Piece.join, Piece.text, String.append_assoc]
  unfold operatorPieces
  split
  case h_1 hequal =>
      rw [printOperator, if_pos (.inl hequal)]
      exact hrespelt
  case h_2 hunequal =>
      rw [printOperator, if_pos (.inr hunequal)]
      exact hrespelt
  case h_3 hequal hunequal =>
      rw [printOperator, if_neg (not_or.mpr ⟨hequal, hunequal⟩)]
      exact .replay operator

theorem prototypePieces_puts (colons : Token) (name : Option Token) :
    Puts (printPrototype colons name) (prototypePieces colons name tail) tail := by
  refine (Puts.text [.added ".", .added "prototype"] rfl rfl).seq ((Puts.gap colons.trailing).seq ?_)
  cases name with
  | none => exact .nothing
  | some name => exact (Puts.text [.added "."] rfl rfl).seq (.replay name)

theorem Member.puts (m : Member) : Puts m.print (m.pieces tail) tail := Puts.cons m.dot (.replay m.name)

theorem DottedName.puts (d : DottedName) : Puts d.print (d.pieces tail) tail := by
  obtain ⟨first, members⟩ := d
  refine Puts.cons first ?_
  induction members with
  | nil => exact .nothing
  | cons m members ih =>
      rw [List.forM_cons]
      exact m.puts.seq ih

end Parts

/-! ## Trees -/

theorem Expr.print_eq (e : Expr) : e.print = e.recursively Form.print := by
  rw [Expr.print]
  exact e.forM_attach_unwind Form.print

theorem Expr.print_head (h : Head) : (Expr.head h).print = (Expr.head h).form.print := by
  rw [print_eq, recursively_of_none _ (leadingOperand?_head h)]

theorem Expr.print_suffix (leading : Expr) (s : Suffix) :
    (Expr.suffix leading s).print = (do leading.print; (Expr.suffix leading s).form.print) := by
  rw [print_eq, recursively_of_some _ (leadingOperand?_suffix leading s), ← print_eq]

/-! The branches of a conditional, by recursion. -/

/-- Prints a test and the block it guards. -/
def Guarded.print (g : Guarded) : Printer := do
  g.keyword.print
  g.opening.print
  g.test.print
  g.closing.print
  g.body.print

/-- Prints the branches after the first one. -/
def Ladder.print : Ladder → Printer
  | .done => pure ()
  | .otherwise keyword body => do
    keyword.print
    body.print
  | .branch keyword next others => do
    keyword.print
    next.print
    others.print

/-- The loop over branches prints the first one, and the others after it. -/
theorem printBranches_eq : ∀ (others : Ladder) (branch : Guarded),
    printBranches branch others = (do branch.print; others.print)
  | .done, ⟨_, _, _, _, _⟩ => by
    rw [printBranches]
    rfl
  | .otherwise _ _, ⟨_, _, _, _, _⟩ => by
    rw [printBranches]
    rfl
  | .branch _ next others, ⟨_, _, _, _, _⟩ => by
    rw [printBranches]
    simp only [printBranches_eq others next]
    rfl

mutual

theorem Expr.puts : ∀ (e : Expr) (tail : List Piece), Puts e.print (e.pieces tail) tail
  | .head h, tail => by
    rw [Expr.print_head]
    exact h.puts tail
  | .suffix leading s, tail => by
    rw [Expr.print_suffix]
    exact (leading.puts _).seq (s.puts leading tail)

theorem Head.puts : ∀ (h : Head) (tail : List Piece), Puts (Expr.head h).form.print (h.pieces tail) tail
  | .literal t, _ => by
    rw [Expr.form, Form.print]
    exact .replay t
  | .ident t, _ => by
    rw [Expr.form, Form.print]
    exact .replay t
  | .pass mark handler, _ => by
    rw [Expr.form, Form.print]
    exact .cons mark (.replay? handler)
  | .rest name dots, _ => by
    rw [Expr.form, Form.print]
    exact .cons name (.replay dots)
  | .unary operator operand, tail => by
    rw [Expr.form, Form.print]
    exact .cons operator (operand.puts tail)
  | .construct keyword callee arguments, tail => by
    rw [Expr.form, Form.print]
    exact .cons keyword (callee.puts.seq (arguments.puts tail))
  | .array elements, tail => by
    rw [Expr.form, Form.print]
    exact elements.puts tail
  | .object opening entries closing, _ => by
    rw [Expr.form, Form.print]
    exact .cons opening ((entriesPieces_puts entries _).seq (.replay closing))
  | .group opening inner closing, _ => by
    rw [Expr.form, Form.print]
    exact .cons opening ((inner.puts _).seq (.replay closing))
  | .function f, tail => by
    rw [Expr.form, Form.print]
    exact f.puts tail
  | .arrow params sign body, _ => by
    rw [Expr.form, Form.print]
    exact functionWord_puts.seq (.cons params.opening ((arrowParamsPieces_puts params.items).seq
      (.cons params.closing ((Puts.text [.added "\x7b"] rfl rfl).seq ((Puts.gap sign.trailing).seq
        ((return_puts (body.pieces_beginsLexeme _)).seq ((body.puts _).seq closeArrow_puts)))))))
  | .simpleArrow sign body, _ => by
    rw [Expr.form, Form.print]
    exact implicit_puts.seq ((Puts.gap sign.trailing).seq ((return_puts (body.pieces_beginsLexeme _)).seq
      ((body.puts _).seq closeArrow_puts)))

theorem Suffix.puts : ∀ (s : Suffix) (leading : Expr) (tail : List Piece),
    Puts (Expr.suffix leading s).form.print (s.pieces tail) tail
  | .binary operator right, _, tail => by
    rw [Expr.form, Form.print]
    exact (operatorPieces_puts operator).seq (right.puts tail)
  | .ternary question consequent colon alternate, _, tail => by
    rw [Expr.form, Form.print]
    exact .cons question ((consequent.puts _).seq (.cons colon (alternate.puts tail)))
  | .call arguments, _, tail => by
    rw [Expr.form, Form.print]
    exact arguments.puts tail
  | .invoke member arguments, _, tail => by
    rw [Expr.form, Form.print]
    exact member.puts.seq (arguments.puts tail)
  | .index opening inner closing, _, _ => by
    rw [Expr.form, Form.print]
    exact .cons opening ((inner.puts _).seq (.replay closing))
  | .property member, _, _ => by
    rw [Expr.form, Form.print]
    exact member.puts
  | .prototype colons name, _, _ => by
    rw [Expr.form, Form.print]
    exact prototypePieces_puts colons name

theorem Enclosed.puts : ∀ (e : Enclosed) (tail : List Piece), Puts e.print (e.pieces tail) tail
  | ⟨opening, items, closing⟩, _ => by
    rw [Enclosed.print]
    exact .cons opening ((exprsPieces_puts items _).seq (.replay closing))

theorem exprsPieces_puts : ∀ (es : Separated Expr) (tail : List Piece),
    Puts (printExprs es) (exprsPieces es tail) tail
  | .nil, _ => by
    rw [printExprs]
    exact .nothing
  | .one e, tail => by
    rw [printExprs]
    exact e.puts tail
  | .more e comma es, tail => by
    rw [printExprs]
    exact (e.puts _).seq (.cons comma (exprsPieces_puts es tail))

theorem entriesPieces_puts : ∀ (es : Separated Entry) (tail : List Piece),
    Puts (printEntries es) (entriesPieces es tail) tail
  | .nil, _ => by
    rw [printEntries]
    exact .nothing
  | .one ⟨key, colon, value⟩, tail => by
    rw [printEntries]
    exact .cons key (.cons colon (value.puts tail))
  | .more ⟨key, colon, value⟩ comma .nil, _ => by
    rw [printEntries]
    exact .cons key (.cons colon ((value.puts _).seq (.gap comma.trailing)))
  | .more ⟨key, colon, value⟩ comma (.one e), tail => by
    rw [printEntries]
    · exact .cons key (.cons colon ((value.puts _).seq (.cons comma (entriesPieces_puts (.one e) tail))))
    · rintro ⟨⟩
  | .more ⟨key, colon, value⟩ comma (.more e comma' es), tail => by
    rw [printEntries]
    · exact .cons key (.cons colon ((value.puts _).seq (.cons comma
        (entriesPieces_puts (.more e comma' es) tail))))
    · rintro ⟨⟩

theorem Func.puts : ∀ (f : Func) (tail : List Piece), Puts f.print (f.pieces tail) tail
  | ⟨_, _, params, receiver, ⟨opening, body, closing⟩⟩, _ => by
    rw [Func.print]
    exact (Func.opening_puts _).seq ((Puts.token opening).seq ((prologue_puts params.items.items receiver).seq
      ((Puts.gap opening.trailing).seq ((stmtsPieces_puts body _).seq (.replay closing)))))

theorem Block.puts : ∀ (b : Block) (tail : List Piece), Puts b.print (b.pieces tail) tail
  | ⟨opening, body, closing⟩, _ => by
    rw [Block.print]
    exact .cons opening ((stmtsPieces_puts body _).seq (.replay closing))

theorem stmtsPieces_puts : ∀ (ss : List Stmt) (tail : List Piece),
    Puts (printStmts ss) (stmtsPieces ss tail) tail
  | [], _ => by
    rw [printStmts]
    exact .nothing
  | s :: ss, tail => by
    rw [printStmts]
    exact (s.puts _).seq (stmtsPieces_puts ss tail)

theorem Stmt.puts : ∀ (s : Stmt) (tail : List Piece), Puts s.print (s.pieces tail) tail
  | .expr value semicolon, _ => by
    rw [Stmt.print]
    exact (value.puts _).seq (.replay semicolon)
  | .empty semicolon, _ => by
    rw [Stmt.print]
    exact .replay semicolon
  | .conditional first others, tail => by
    rw [Stmt.print, printBranches_eq]
    exact (first.puts _).seq (others.puts tail)
  | .while ⟨keyword, opening, test, closing, body⟩, tail => by
    rw [Stmt.print]
    exact Guarded.puts ⟨keyword, opening, test, closing, body⟩ tail
  | .for keyword opening init first test second update closing body, tail => by
    rw [Stmt.print]
    exact .cons keyword (.cons opening ((init.puts _).seq (.cons first ((exprsPieces_puts test _).seq
      (.cons second ((exprsPieces_puts update _).seq (.cons closing (body.puts tail))))))))
  | .forIn keyword opening var name inWord object closing body, tail => by
    rw [Stmt.print]
    exact .cons keyword (.cons opening ((Puts.replay? var).seq (.cons name (.cons inWord
      ((object.puts _).seq (.cons closing (body.puts tail)))))))
  | .jump keyword label semicolon, _ => by
    rw [Stmt.print]
    exact .cons keyword ((Puts.replay? label).seq (.replay semicolon))
  | .return keyword none semicolon, _ => by
    rw [Stmt.print]
    exact .cons keyword (.replay semicolon)
  | .return keyword (some value) semicolon, _ => by
    rw [Stmt.print]
    exact .cons keyword ((value.puts _).seq (.replay semicolon))
  | .throw keyword value semicolon, _ => by
    rw [Stmt.print]
    exact .cons keyword ((value.puts _).seq (.replay semicolon))
  | .vars list semicolon, _ => by
    rw [Stmt.print]
    exact (list.puts _).seq (.replay semicolon)
  | .function f, tail => by
    rw [Stmt.print]
    exact f.puts tail
  | .labeled label colon body, tail => by
    rw [Stmt.print]
    exact .cons label (.cons colon (body.puts tail))
  | .switch keyword opening subject closing openBrace clauses closeBrace, _ => by
    rw [Stmt.print]
    exact .cons keyword (.cons opening ((subject.puts _).seq (.cons closing (.cons openBrace
      ((clausesPieces_puts clauses _).seq (.replay closeBrace))))))
  | .block b, tail => by
    rw [Stmt.print]
    exact b.puts tail
  | .include p, _ => by
    rw [Stmt.print]
    exact p.puts
  | .declare p, _ => by
    rw [Stmt.print]
    exact p.puts

theorem Guarded.puts : ∀ (g : Guarded) (tail : List Piece), Puts g.print (g.pieces tail) tail
  | ⟨keyword, opening, test, closing, body⟩, tail =>
    .cons keyword (.cons opening ((test.puts _).seq (.cons closing (body.puts tail))))

theorem Ladder.puts : ∀ (l : Ladder) (tail : List Piece), Puts l.print (l.pieces tail) tail
  | .done, _ => .nothing
  | .otherwise keyword body, tail => .cons keyword (body.puts tail)
  | .branch keyword next others, tail => .cons keyword ((next.puts _).seq (others.puts tail))

theorem ForInit.puts : ∀ (i : ForInit) (tail : List Piece), Puts i.print (i.pieces tail) tail
  | .exprs items, tail => by
    rw [ForInit.print]
    exact exprsPieces_puts items tail
  | .vars list, tail => by
    rw [ForInit.print]
    exact list.puts tail

theorem VarList.puts : ∀ (l : VarList) (tail : List Piece), Puts l.print (l.pieces tail) tail
  | ⟨keyword, items⟩, tail => by
    rw [VarList.print]
    exact .cons keyword (declsPieces_puts items tail)

theorem declsPieces_puts : ∀ (ds : Separated Decl) (tail : List Piece),
    Puts (printDecls ds) (declsPieces ds tail) tail
  | .nil, _ => by
    rw [printDecls]
    exact .nothing
  | .one d, tail => by
    rw [printDecls]
    exact d.puts tail
  | .more d comma ds, tail => by
    rw [printDecls]
    exact (d.puts _).seq (.cons comma (declsPieces_puts ds tail))

theorem Decl.puts : ∀ (d : Decl) (tail : List Piece), Puts d.print (d.pieces tail) tail
  | ⟨name, none⟩, _ => by
    rw [Decl.print]
    exact .replay name
  | ⟨name, some (equals, value)⟩, tail => by
    rw [Decl.print]
    exact .cons name (.cons equals (value.puts tail))

theorem clausesPieces_puts : ∀ (cs : List Clause) (tail : List Piece),
    Puts (printClauses cs) (clausesPieces cs tail) tail
  | [], _ => by
    rw [printClauses]
    exact .nothing
  | ⟨keyword, none, colon, body⟩ :: cs, tail => by
    rw [printClauses]
    exact .cons keyword (.cons colon ((stmtsPieces_puts body _).seq (clausesPieces_puts cs tail)))
  | ⟨keyword, some test, colon, body⟩ :: cs, tail => by
    rw [printClauses]
    exact .cons keyword ((test.puts _).seq (.cons colon ((stmtsPieces_puts body _).seq
      (clausesPieces_puts cs tail))))

end

/-- What statements are written as does not depend on what follows. -/
theorem join_stmtsPieces (ss : List Stmt) (tail : List Piece) :
    Piece.join (stmtsPieces ss tail) = Piece.join (stmtsPieces ss []) ++ Piece.join tail := by
  have htail := (stmtsPieces_puts ss tail).prints ""
  rw [(stmtsPieces_puts ss []).prints.alone, String.empty_append, String.empty_append] at htail
  exact htail.symm

/-- A program is printed as its pieces are joined. -/
theorem Program.onto_print (p : Program) (out : String) : p.print.onto out = out ++ p.output :=
  Prints.alone ((Puts.gap p.preamble).seq
    ((stmtsPieces_puts p.body _).seq (.replay p.endOfFile))).prints out

end Respell
