import Respell.Proofs.Output.Inserted
import Respell.Proofs.Parse.Statements

/-!
# What expression statements begin with

In JavaScript an expression statement may begin neither with the word `function` nor with a brace: it
would be read as a declaration or as a block. In the source none does. But what is written for a
statement begins with what is written for the head of its innermost leading operand, and for an arrow or a
function without a keyword that is the word `function`.
-/

namespace Respell

open Text Respell.Parser

/-- The text that is written for a statement. -/
def Stmt.output (s : Stmt) : String := Piece.join (s.pieces [])

/-- The word that a text begins with, if it begins with one. -/
def leadingWord (text : String) : String := String.ofList (text.toList.takeWhile isIdentifierPart)

/-- A head that is written with a keyword that it does not have in the source. -/
def Head.gainsKeyword : Head → Bool
  | .function f => f.keyword.isNone
  | .arrow _ _ _ => true
  | .simpleArrow _ _ => true
  | _ => false

/-! ## What follows the lead -/

/-- What may follow a head: a character that belongs to no word, or the operator `in` or `instanceof`. -/
def Follows (cs : List Char) : Prop :=
  (∀ c ∈ cs.head?, isIdentifierPart c = false) ∨ ∃ r, cs = 'i' :: 'n' :: r

/-- No mark begins with a character of a word. -/
theorem follows_mark (m : Punct) (r : List Char) : Follows (m.text.toList ++ r) := by
  obtain ⟨c, cs, hchars, hc⟩ : ∃ c cs, m.chars = c :: cs ∧ isIdentifierPart c = false := by
    cases m <;> exact ⟨_, _, rfl, by decide⟩
  refine .inl ?_
  rw [Punct.text, String.toList_ofList, hchars]
  rintro d ⟨⟩
  exact hc

theorem Token.Scanned.follows {t : Token} {m : Punct} (h : t.Scanned (.punct m)) (tail : List Piece) :
    Follows (chars (t.replay tail)) := by
  rw [chars_replay, h.text_punct]
  exact follows_mark m _

theorem operatorPieces_follows {operator : Token} {s : Precedence}
    (hprecedence : Precedence.ofKind? operator.kind = some s) (hscanned : operator.Scanned operator.kind)
    (tail : List Piece) : Follows (chars (operatorPieces operator tail)) := by
  cases hkind : operator.kind with
  | punct m =>
      rw [hkind] at hscanned
      have hrespelt : Follows (chars (.respelt operator (operator.text ++ "=") ::
          .gap operator.trailing :: tail)) := by
        rw [chars_cons, Piece.text, String.toList_append, hscanned.text_punct, List.append_assoc]
        exact follows_mark m _
      unfold operatorPieces
      split
      · exact hrespelt
      · exact hrespelt
      · exact hscanned.follows tail
  | word w =>
      rw [hkind] at hscanned hprecedence
      have hpieces : operatorPieces operator tail = operator.replay tail := by
        unfold operatorPieces
        rw [hkind]
      have htext : ∃ r, w.text.toList = 'i' :: 'n' :: r := by
        cases w with
        | «in» => exact ⟨_, rfl⟩
        | «instanceof» => exact ⟨_, rfl⟩
        | _ => cases hprecedence
      obtain ⟨r, htext⟩ := htext
      rw [hpieces, chars_replay, hscanned.text_word, htext]
      exact .inr ⟨_, rfl⟩
  | _ =>
      rw [hkind] at hprecedence
      cases hprecedence

theorem Enclosed.follows {e : Enclosed} {o c : Punct} (h : e.Formed o c) (tail : List Piece) :
    Follows (chars (e.pieces tail)) := by
  obtain ⟨opening, items, closing⟩ := e
  exact h.1.follows _

theorem Suffix.follows {s : Suffix} (h : s.Formed) (tail : List Piece) :
    Follows (chars (s.pieces tail)) := by
  cases s with
  | binary operator right =>
      obtain ⟨⟨⟨s, hprecedence⟩, _, hscanned⟩, _⟩ := h
      exact operatorPieces_follows hprecedence hscanned _
  | ternary question consequent colon alternate => exact h.1.follows _
  | call arguments => exact Enclosed.follows h tail
  | invoke member arguments => exact h.1.1.follows _
  | index opening inner closing => exact h.1.follows _
  | property member => exact h.1.follows _
  | prototype colons name => exact follows_mark .dot _

/-- An expression is written from its lead on. -/
theorem Expr.pieces_lead : ∀ (e : Expr) (tail : List Piece), e.Formed → Follows (chars tail) →
    ∃ rest, e.pieces tail = e.lead.pieces rest ∧ Follows (chars rest)
  | .head _, tail, _, htail => ⟨tail, rfl, htail⟩
  | .suffix leading s, tail, hf, _ => Expr.pieces_lead leading (s.pieces tail) hf.1 (s.follows hf.2 tail)

theorem Expr.lead_formed : ∀ e : Expr, e.Formed → e.lead.Formed
  | .head _, hf => hf
  | .suffix leading _, hf => Expr.lead_formed leading hf.1

/-! ## Heads -/

/-- The text begins with no brace, and with the word `function` if and only if that word is gained. -/
def StatementStart (cs : List Char) (gained : Bool) : Prop :=
  cs.head? ≠ some '\x7b' ∧
    (cs.takeWhile isIdentifierPart = Word.function.text.toList ↔ gained = true)

/-- A text that begins neither with a brace nor like the word. -/
theorem start_other {cs : List Char} (hbrace : cs.head? ≠ some '\x7b') (hword : ¬ ['f', 'u'] <+: cs) :
    StatementStart cs false := by
  refine ⟨hbrace, ?_⟩
  constructor
  · intro hleading
    have hrun := List.takeWhile_prefix (l := cs) isIdentifierPart
    rw [hleading] at hrun
    exact (hword (.trans (by decide) hrun)).elim
  · rintro ⟨⟩

theorem start_char {c : Char} {cs : List Char} (hbrace : c ≠ '\x7b') (hword : c ≠ 'f') :
    StatementStart (c :: cs) false := by
  refine start_other ?_ ?_
  · rintro ⟨⟩
    exact hbrace rfl
  · intro hstart
    exact hword (List.cons_prefix_cons.mp hstart).1.symm

/-- A character of a class that holds neither the brace nor the letter. -/
theorem start_class {f : Char → Prop} {c : Char} {cs : List Char} (hc : f c) (hbrace : ¬ f '\x7b')
    (hword : ¬ f 'f') : StatementStart (c :: cs) false := by
  refine start_char ?_ ?_
  · rintro rfl
    exact hbrace hc
  · rintro rfl
    exact hword hc

theorem start_function (tail : List Piece) : StatementStart (chars (functionWord tail)) true := by
  have hchars : chars (functionWord tail) = Word.function.text.toList ++ ' ' :: chars tail := by
    rw [functionWord, chars_added, Piece.blank, chars_gap]
    rfl
  rw [hchars]
  refine ⟨by rintro ⟨⟩, iff_of_true ?_ rfl⟩
  refine takeWhile_run (List.all_eq_true.mp (by decide)) ?_
  rintro c ⟨⟩
  decide

section Tokens

variable {t : Token}

theorem Token.Scanned.start_mark {m : Punct} (h : t.Scanned (.punct m)) (hm : m ≠ .openBrace)
    (tail : List Piece) : StatementStart (chars (t.replay tail)) false := by
  obtain ⟨c, cs, hchars, hbrace, hword⟩ : ∃ c cs, m.chars = c :: cs ∧ c ≠ '\x7b' ∧ c ≠ 'f' := by
    cases m with
    | openBrace => exact (hm rfl).elim
    | _ => exact ⟨_, _, rfl, by decide, by decide⟩
  rw [chars_replay, h.text_punct, Punct.text, String.toList_ofList, hchars]
  exact start_char hbrace hword

/-- No other reserved word begins with the same two letters. -/
theorem Token.Scanned.start_word {w : Word} (h : t.Scanned (.word w)) (hw : w ≠ .function)
    (tail : List Piece) : StatementStart (chars (t.replay tail)) false := by
  obtain ⟨c, d, cs, htext, hbrace, hword⟩ : ∃ c d cs, w.text.toList = c :: d :: cs ∧ c ≠ '\x7b' ∧
      ¬ (c = 'f' ∧ d = 'u') := by
    cases w with
    | function => exact (hw rfl).elim
    | _ => exact ⟨_, _, _, rfl, by decide, by decide⟩
  rw [chars_replay, h.text_word, htext]
  refine start_other ?_ ?_
  · rintro ⟨⟩
    exact hbrace rfl
  · intro hstart
    obtain ⟨hc, hstart⟩ := List.cons_prefix_cons.mp hstart
    exact hword ⟨hc.symm, (List.cons_prefix_cons.mp hstart).1.symm⟩

theorem Token.Scanned.start_number (h : t.Scanned .number) (tail : List Piece) :
    StatementStart (chars (t.replay tail)) false := by
  obtain ⟨cs, n, hlex, htext⟩ := h.lexemeAt
  cases hlex with
  | @number c cs hc =>
      have hpos : 0 < Lexeme.number (c :: cs) := LexemeAt.number_pos hc
      obtain ⟨m, hm⟩ := Nat.exists_eq_add_one.mpr hpos
      rw [hm, List.take_succ_cons] at htext
      rw [chars_replay, htext]
      exact start_class (f := fun c => c.isDigit = true) hc (by decide) (by decide)

theorem Token.Quoted.start (h : t.Quoted) (tail : List Piece) :
    StatementStart (chars (t.replay tail)) false := by
  obtain ⟨c, cs, htext, hc, _⟩ := h.head
  rw [chars_replay, htext]
  exact start_class hc (by decide) (by decide)

/-- `in` stands nowhere in the word `function`. -/
theorem function_ne_append_in (w r : List Char) : Word.function.text.toList ≠ w ++ 'i' :: 'n' :: r := by
  intro heq
  have hdrop : (Word.function.text.toList.drop w.length).take 2 = ['i', 'n'] := by
    rw [heq, List.drop_left]
    rfl
  have hlength : w.length < 9 := by
    have hlength := congrArg List.length heq
    simp only [List.length_append, List.length_cons] at hlength
    have hfunction : Word.function.text.toList.length = 8 := rfl
    omega
  exact absurd hdrop ((by decide : ∀ n < 9, (Word.function.text.toList.drop n).take 2 ≠ ['i', 'n'])
    _ hlength)

/-- A name is not the word, and nothing that follows it makes it the word. -/
theorem Token.Scanned.start_name (h : t.Scanned .identifier) {tail : List Piece}
    (htail : Follows (chars tail)) : StatementStart (chars (t.replay tail)) false := by
  have hreserved : t.text.toList ≠ Word.function.text.toList := by
    intro heq
    have hnext := h.next?_name
    rw [heq] at hnext
    exact absurd hnext (by decide)
  obtain ⟨c, cs, htext, hstart, hparts⟩ := h.name_chars
  have hall : ∀ d ∈ t.text.toList, isIdentifierPart d = true := by
    rw [htext]
    exact List.forall_mem_cons.mpr ⟨isIdentifierPart_of_isIdentifierStart hstart, hparts⟩
  rw [chars_replay]
  refine ⟨?_, ?_⟩
  · rw [htext]
    rintro ⟨⟩
    exact absurd hstart (by decide)
  · rw [List.takeWhile_append_of_pos hall]
    constructor
    · intro hword
      have hnil : (t.trailing.toList ++ chars tail).takeWhile isIdentifierPart ≠ [] := by
        intro hnil
        rw [hnil, List.append_nil] at hword
        exact hreserved hword
      by_cases hempty : t.trailing = ""
      · rw [hempty] at hword hnil
        rcases htail with hhead | ⟨r, hr⟩
        · exact (hnil (takeWhile_eq_nil hhead)).elim
        · rw [hr] at hword
          exact (function_ne_append_in _ _ hword.symm).elim
      · obtain ⟨p, q, hexpect⟩ := h
        have htaken : Taken p t q := .scanned (expect_ok_iff.mp hexpect).1
        have hinert := (htaken.inert_trailing hempty (chars tail)).1
        exact (hnil (takeWhile_eq_nil fun d hd => (hinert d hd).1)).elim
    · rintro ⟨⟩

end Tokens

/-- What is written for a head that opens no other statement: it begins with the word `function` if and
    only if the head gains its keyword. -/
theorem Head.start {h : Head} (hf : h.Formed) (hopens : h.opensStatement = false) {tail : List Piece}
    (htail : Follows (chars tail)) : StatementStart (chars (h.pieces tail)) h.gainsKeyword := by
  cases h with
  | literal t =>
      rcases hf with ⟨hconstant, hscanned⟩ | hquoted
      · unfold isConstant at hconstant
        split at hconstant
        · next hk => exact Token.Scanned.start_number (hk ▸ hscanned) tail
        · next hk => exact Token.Scanned.start_word (w := .null) (hk ▸ hscanned) (by decide) tail
        · next hk => exact Token.Scanned.start_word (w := .true) (hk ▸ hscanned) (by decide) tail
        · next hk => exact Token.Scanned.start_word (w := .false) (hk ▸ hscanned) (by decide) tail
        · cases hconstant
      · exact hquoted.start tail
  | ident t => exact Token.Scanned.start_name hf htail
  | pass mark handler => exact hf.1.start_mark (by decide) _
  | rest name dots => exact hf.1.start_name (hf.2.follows tail)
  | unary operator operand =>
      obtain ⟨⟨hoperator, hscanned⟩, _⟩ := hf
      unfold isPrefixOperator at hoperator
      split at hoperator
      · next hk => exact Token.Scanned.start_mark (m := .exclamation) (hk ▸ hscanned) (by decide) _
      · next hk => exact Token.Scanned.start_mark (m := .minus) (hk ▸ hscanned) (by decide) _
      · next hk => exact Token.Scanned.start_mark (m := .plus) (hk ▸ hscanned) (by decide) _
      · next hk => exact Token.Scanned.start_word (w := .typeof) (hk ▸ hscanned) (by decide) _
      · next hk => exact Token.Scanned.start_word (w := .delete) (hk ▸ hscanned) (by decide) _
      · cases hoperator
  | construct keyword callee arguments => exact hf.1.start_word (by decide) _
  | array elements =>
      obtain ⟨opening, items, closing⟩ := elements
      exact hf.1.start_mark (by decide) _
  | object opening entries closing => cases hopens
  | group opening inner closing => exact hf.1.start_mark (by decide) _
  | function f =>
      obtain ⟨keyword, name, params, receiver, ⟨opening, body, closing⟩⟩ := f
      cases keyword with
      | some keyword => cases hopens
      | none => exact start_function _
  | arrow params sign body => exact start_function _
  | simpleArrow sign body => exact start_function _

/-! ## Statements -/

/-- What is written for an expression statement of a parsed program. -/
theorem Parser.StmtArises.start {value : Expr} {semicolon : Token} (h : StmtArises (.expr value semicolon)) :
    StatementStart (Stmt.expr value semicolon).output.toList value.lead.gainsKeyword := by
  obtain ⟨hvalue, hsemicolon⟩ := h.formed
  obtain ⟨rest, hpieces, hrest⟩ := value.pieces_lead (semicolon.replay []) hvalue (hsemicolon.follows [])
  rw [Stmt.output, toList_join, Stmt.pieces, hpieces]
  exact Head.start (value.lead_formed hvalue) h.expr_lead hrest

/-- For every source that is accepted, what is written for an expression statement, at any depth, never
    begins with a brace, and it begins with the word `function` if and only if the head of its
    innermost leading operand is an arrow or a function that has no keyword in the source. -/
theorem expressionStatement_start_iff {file source out : String} (hshort : source.utf8ByteSize < UInt32.size)
    (h : Engine.compile file source = .ok out) :
    ∃ x helpers, Engine.analyze source = .ok (x, helpers) ∧ out = x.output ++ helperText helpers ∧
      ∀ value semicolon, x.Contains (.expr value semicolon) →
        (Stmt.expr value semicolon).output.toList.head? ≠ some '\x7b' ∧
        (leadingWord (Stmt.expr value semicolon).output = "function" ↔
          value.lead.gainsKeyword = true) := by
  obtain ⟨x, helpers, hengine, hrun, hout⟩ := Engine.compile_ok hshort h
  obtain ⟨hparse, _⟩ := analyze_ok hrun
  refine ⟨x, helpers, hengine, hout, ?_⟩
  intro value semicolon hcontains
  obtain ⟨hbrace, hword⟩ := (stmtArises_of_parse hparse hcontains).start
  refine ⟨hbrace, ?_⟩
  rw [← hword, leadingWord]
  constructor
  · intro heq
    rw [show Word.function.text = "function" from rfl, ← heq, String.toList_ofList]
  · intro heq
    rw [heq]
    rfl

/-- The value and the semicolon of an expression statement. -/
def Stmt.expr? : Stmt → Option (Expr × Token)
  | .expr value semicolon => some (value, semicolon)
  | _ => none

/-- A function that stands in an expression. -/
def Expr.function? : Expr → Option Func
  | .head (.function f) => some f
  | _ => none

/-- The texts of the expression statements among some statements, and whether they gain a keyword. -/
def starts (ss : List Stmt) : List (String × Bool) :=
  (ss.filterMap Stmt.expr?).map fun (value, semicolon) =>
    ((Stmt.expr value semicolon).output, value.lead.gainsKeyword)

theorem exists_of_mem_starts {ss : List Stmt} {text : String} {gained : Bool}
    (h : (text, gained) ∈ starts ss) :
    ∃ value semicolon, .expr value semicolon ∈ ss ∧ (Stmt.expr value semicolon).output = text ∧
      value.lead.gainsKeyword = gained := by
  obtain ⟨⟨value, semicolon⟩, hmem, heq⟩ := List.mem_map.mp h
  obtain ⟨s, hs, hexpr⟩ := List.mem_filterMap.mp hmem
  obtain ⟨htext, hgained⟩ := Prod.mk.inj heq
  cases s with
  | expr value' semicolon' =>
      cases hexpr
      exact ⟨value, semicolon, hs, htext, hgained⟩
  | _ => cases hexpr

/-- A statement in a function that stands in an argument, and that begins with a name like the word. -/
def nearlySource : String := "var functions; functions.on(() \x7b functions(1); \x7d);"

theorem expressionStatement_start_iff_nearlySource :
    nearlySource.utf8ByteSize < UInt32.size ∧ ∃ out x helpers, Engine.compile "nearly" nearlySource = .ok out ∧
      Engine.analyze nearlySource = .ok (x, helpers) ∧ out = x.output ++ helperText helpers ∧
      ∃ value semicolon, x.Contains (.expr value semicolon) ∧
        (Stmt.expr value semicolon).output = "functions(1); " ∧
        leadingWord (Stmt.expr value semicolon).output ≠ "function" := by
  have hshort : nearlySource.utf8ByteSize < UInt32.size := by decide +kernel
  have hrun : (analyze nearlySource).toOption.map (fun r => (r.1.subexprs.filterMap Expr.function?).map
      fun f => starts (stmtsWithin f.body.body)) = some [[("functions(1); ", false)]] := by
    decide +kernel
  obtain ⟨⟨y, names⟩, hanalyze, hstarts⟩ := ok_of_toOption hrun
  have hcompile := Engine.compile_of_analyze hshort "nearly" hanalyze
  have hengine := (Engine.analyze_eq hshort).trans hanalyze
  obtain ⟨x, helpers, hanalyze', hout, hall⟩ := expressionStatement_start_iff hshort hcompile
  rw [hengine] at hanalyze'
  cases hanalyze'
  obtain ⟨f, hf, hbody⟩ := List.mem_map.mp (hstarts ▸ List.mem_singleton_self _)
  obtain ⟨e, he, hfunction⟩ := List.mem_filterMap.mp hf
  obtain ⟨value, semicolon, hmem, htext, hgained⟩ :=
    exists_of_mem_starts (hbody ▸ List.mem_singleton_self _)
  have hhead : e = .head (.function f) := by
    unfold Expr.function? at hfunction
    split at hfunction
    · cases hfunction
      rfl
    · cases hfunction
  have hcontains : y.Contains (.expr value semicolon) := .expressed (hhead ▸ he) hmem
  refine ⟨hshort, _, y, names, hcompile, hengine, hout, value, semicolon, hcontains, htext, ?_⟩
  intro hword
  rw [(hall value semicolon hcontains).2.mp hword] at hgained
  cases hgained

/-- An arrow as a statement. -/
def bareSource : String := "(x) -> x;"

/-- An arrow as a statement is written as a declaration without a name. -/
theorem start_function_bareSource :
    ∃ x, Engine.analyze bareSource = .ok (x, []) ∧ x.output = "function (x) \x7b return x; \x7d;" ∧
      ∃ value semicolon, x.Contains (.expr value semicolon) ∧
        leadingWord (Stmt.expr value semicolon).output = "function" := by
  have hrun : (analyze bareSource).toOption.map (fun r => ((r.1.output, r.2), starts (stmtsWithin r.1.body)))
      = some (("function (x) \x7b return x; \x7d;", []),
        [("function (x) \x7b return x; \x7d;", true)]) := by
    decide +kernel
  obtain ⟨⟨x, helpers⟩, hx, hvalues⟩ := ok_of_toOption hrun
  obtain ⟨hout, hstarts⟩ := Prod.mk.inj hvalues
  obtain ⟨hout, rfl⟩ := Prod.mk.inj hout
  obtain ⟨value, semicolon, hmem, htext, _⟩ := exists_of_mem_starts (hstarts ▸ List.mem_singleton_self _)
  have hengine := (Engine.analyze_eq (by decide +kernel)).trans hx
  refine ⟨x, hengine, hout, value, semicolon, .body hmem, ?_⟩
  rw [htext]
  decide

end Respell
