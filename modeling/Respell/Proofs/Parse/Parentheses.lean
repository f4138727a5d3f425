import Respell.Proofs.Parse.Placed
import Respell.Proofs.Token.Spelling

/-!
# What a parenthesised list is taken for

A parenthesised list at the beginning of an expression is a group, or the parameters of a function whose
keyword was left out or of an arrow function. The token after the list decides, and the two after that if it
is a colon which something around the list waits for. Here this is said about trees alone: about the tokens
that follow a list in the program, and about the conditional or the `case` that a colon belongs to.
-/

namespace Respell

open Text Respell.Parser

/-! ## How expressions end -/

/-- Something follows, and it does not begin with a colon. -/
def Shut (ts : List Token) : Prop := ∃ t rest, ts = t :: rest ∧ t.kind ≠ .punct .colon

theorem Token.Scanned.shut {t : Token} {k : Kind} (h : t.Scanned k) (hk : k ≠ .punct .colon)
    (rest : List Token) : Shut (t :: rest) := by
  refine ⟨t, rest, rfl, ?_⟩
  rw [h.kind]
  exact hk

/-- How a part ends inside the part right around it, as far as colons are concerned. -/
inductive Spot.Ends (outer part : Spot) : Prop where
  | statement {s : Stmt} : part.node = .stmt s → Spot.Ends outer part
  | shut : Shut part.after → Spot.Ends outer part
  /-- Both end with the same token. -/
  | last {e inner : Expr} : outer.node = .expr e → part.node = .expr inner → part.after = outer.after →
      (∀ t, inner.tokens.getLast? = some t → e.tokens.getLast? = some t) → Spot.Ends outer part
  | consequent {leading inner alternate : Expr} {question c : Token} {rest : List Token} :
      outer.node = .expr (.suffix leading (.ternary question inner c alternate)) →
      part.node = .expr inner → part.after = c :: rest → Spot.Ends outer part
  | test {keyword opening closing openBrace closeBrace word c : Token} {subject inner : Expr}
      {clauses : List Clause} {body : List Stmt} {rest : List Token} :
      outer.node = .stmt (.switch keyword opening subject closing openBrace clauses closeBrace) →
      ⟨word, some inner, c, body⟩ ∈ clauses → part.node = .expr inner → part.after = c :: rest →
      Spot.Ends outer part

/-- All the spots are followed by something other than a colon. -/
abbrev AllShut (spots : List Spot) : Prop := ∀ s ∈ spots, Shut s.after

/-- All the spots are statements, or followed by something other than a colon. -/
abbrev AllClosed (spots : List Spot) : Prop := ∀ s ∈ spots, (∃ t, s.node = .stmt t) ∨ Shut s.after

section Ends

variable {after : List Token}

theorem AllShut.expr (colon : Colon) (h : Shut after) (e : Expr) : AllShut (e.spot colon after) :=
  List.forall_mem_singleton.mpr h

/-- In a comma list, what is not last is followed by a comma. -/
theorem AllShut.separated {α : Type} {tokens : α → List Token} {spots : List Token → α → List Spot}
    {f : α → Prop} (hitem : ∀ {after}, Shut after → ∀ a, AllShut (spots after a)) (hafter : Shut after)
    {items : Separated α} (hitems : items.Formed f) : AllShut (items.spots tokens spots after) := by
  induction items with
  | nil => exact List.forall_mem_nil _
  | one a => exact hitem hafter a
  | more a comma rest ih =>
      have hcomma := hitems.2.1.shut (by decide) (rest.tokens tokens ++ after)
      exact List.forall_mem_append.mpr ⟨hitem hcomma a, ih hitems.2.2⟩

theorem AllShut.exprs (colon : Colon) (hafter : Shut after) {es : Separated Expr} (hes : exprsFormed es) :
    AllShut (exprSpots colon after es) :=
  .separated (fun h => .expr colon h) hafter ((exprsFormed_iff es).mp hes)

theorem AllShut.enclosed (colon : Colon) {o c : Punct} {e : Enclosed} (he : e.Formed o c)
    (hc : Kind.punct c ≠ .punct .colon) : AllShut (e.spots colon after) := by
  obtain ⟨opening, items, closing⟩ := e
  exact .exprs colon (he.2.2.shut hc after) he.2.1

theorem AllShut.entries (colon : Colon) (hafter : Shut after) {es : Separated Entry}
    (hes : entriesFormed es) : AllShut (es.spots Entry.tokens (Entry.spots colon) after) :=
  .separated (fun h e => .expr colon h e.value) hafter ((entriesFormed_iff es).mp hes)

theorem AllShut.decl (hafter : Shut after) (d : Decl) : AllShut (d.spots after) := by
  obtain ⟨name, init⟩ := d
  cases init with
  | none => exact List.forall_mem_nil _
  | some init => exact .expr .free hafter init.2

theorem AllShut.varList (hafter : Shut after) {l : VarList} (hl : l.Formed) :
    AllShut (l.spots after) := by
  obtain ⟨keyword, items⟩ := l
  exact .separated (fun h => .decl h) hafter ((declsFormed_iff items).mp hl.2)

theorem AllShut.forInit (hafter : Shut after) {i : ForInit} (hi : i.Formed) :
    AllShut (i.spots after) := by
  cases i with
  | exprs items => exact .exprs .free hafter hi
  | vars list => exact .varList hafter hi

theorem AllShut.closed {spots : List Spot} (h : AllShut spots) : AllClosed spots :=
  fun s hs => .inr (h s hs)

theorem AllClosed.append {ss ss' : List Spot} (h : AllClosed ss) (h' : AllClosed ss') :
    AllClosed (ss ++ ss') := List.forall_mem_append.mpr ⟨h, h'⟩

theorem AllClosed.stmts (after : List Token) (ss : List Stmt) : AllClosed (stmtSpots after ss) := by
  induction ss with
  | nil => exact List.forall_mem_nil _
  | cons s ss ih => exact .append (List.forall_mem_singleton.mpr (.inl ⟨s, rfl⟩)) ih

theorem AllClosed.guarded (after : List Token) {w : Word} {g : Guarded} (hg : g.Formed w) :
    AllClosed (g.spots after) := by
  obtain ⟨keyword, opening, test, closing, body⟩ := g
  have htest := AllShut.expr .free (hg.2.2.2.1.shut (by decide) (body.tokens ++ after)) test
  exact .append htest.closed (.stmts _ _)

theorem AllClosed.ladder (after : List Token) {l : Ladder} (hl : l.Formed) : AllClosed (l.spots after) := by
  cases l with
  | done => exact List.forall_mem_nil _
  | otherwise keyword body => exact .stmts _ _
  | branch keyword next others =>
      exact .append (.guarded (others.tokens ++ after) hl.2.1) (.ladder after hl.2.2)

/-- A suffix does not begin with a colon. -/
theorem Suffix.Formed.shut {s : Suffix} (hs : s.Formed) (after : List Token) : Shut (s.tokens ++ after) := by
  cases s with
  | binary operator right =>
      obtain ⟨⟨⟨strength, hstrength⟩, _, _⟩, _⟩ := hs
      refine ⟨operator, right.tokens ++ after, rfl, ?_⟩
      intro hcolon
      rw [hcolon] at hstrength
      cases hstrength
  | ternary question consequent c alternate => exact hs.1.shut (by decide) _
  | call arguments =>
      obtain ⟨opening, items, closing⟩ := arguments
      exact hs.1.shut (by decide) _
  | invoke member arguments => exact hs.1.1.shut (by decide) _
  | index opening inner closing => exact hs.1.shut (by decide) _
  | property member => exact hs.1.shut (by decide) _
  | prototype colons name => exact hs.1.shut (by decide) _

end Ends

theorem getLast?_append_some {ts us : List Token} {t : Token} (h : us.getLast? = some t) :
    (ts ++ us).getLast? = some t := by
  rw [List.getLast?_append, h]
  rfl

namespace Spot.Ends

theorem of_shut {outer : Spot} {spots : List Spot} (h : AllShut spots) : ∀ part ∈ spots, outer.Ends part :=
  fun part hpart => .shut (h part hpart)

theorem of_closed {outer : Spot} {spots : List Spot} (h : AllClosed spots) :
    ∀ part ∈ spots, outer.Ends part := by
  intro part hpart
  rcases h part hpart with ⟨t, ht⟩ | hshut
  · exact .statement ht
  · exact .shut hshut

/-- An operand at the end of an expression ends with it. -/
theorem of_last {e inner : Expr} {colon colon' : Colon} {after : List Token} (ts : List Token)
    (h : e.tokens = ts ++ inner.tokens) :
    ∀ part ∈ inner.spot colon after, (⟨.expr e, colon', after⟩ : Spot).Ends part := by
  refine List.forall_mem_singleton.mpr (.last rfl rfl rfl ?_)
  intro t ht
  rw [h]
  exact getLast?_append_some ht

theorem head {colon : Colon} {after : List Token} {h : Head} (hh : h.Formed) :
    ∀ part ∈ h.spots colon after, (⟨.expr (.head h), colon, after⟩ : Spot).Ends part := by
  cases h with
  | literal t => exact List.forall_mem_nil _
  | ident t => exact List.forall_mem_nil _
  | pass mark handler => exact List.forall_mem_nil _
  | rest name dots => exact List.forall_mem_nil _
  | unary operator operand => exact of_last [operator] rfl
  | construct keyword callee arguments => exact of_shut (.enclosed colon hh.2.2 (by decide))
  | array elements => exact of_shut (.enclosed colon hh (by decide))
  | object opening entries closing =>
      exact of_shut (.entries colon (hh.2.2.shut (by decide) after) hh.2.1)
  | group opening inner closing => exact of_shut (.expr colon (hh.2.2.shut (by decide) after) inner)
  | function f => exact of_closed (.stmts _ _)
  | arrow params sign body =>
      refine of_last (params.tokens ++ [sign]) ?_
      rw [Expr.tokens, Head.tokens, List.append_assoc]
      rfl
  | simpleArrow sign body => exact of_last [sign] rfl

theorem suffix {colon : Colon} {after : List Token} {leading : Expr} {s : Suffix} (hs : s.Formed) :
    ∀ part ∈ s.spots colon after, (⟨.expr (.suffix leading s), colon, after⟩ : Spot).Ends part := by
  cases s with
  | binary operator right =>
      refine of_last (leading.tokens ++ [operator]) ?_
      rw [Expr.tokens, Suffix.tokens, List.append_assoc]
      rfl
  | ternary question consequent c alternate =>
      refine List.forall_mem_append.mpr ⟨?_, ?_⟩
      · exact List.forall_mem_singleton.mpr (.consequent rfl rfl rfl)
      · refine of_last (leading.tokens ++ question :: (consequent.tokens ++ [c])) ?_
        simp [Expr.tokens, Suffix.tokens]
  | call arguments => exact of_shut (.enclosed colon hs (by decide))
  | invoke member arguments => exact of_shut (.enclosed colon hs.2 (by decide))
  | index opening inner closing => exact of_shut (.expr colon (hs.2.2.shut (by decide) after) inner)
  | property member => exact List.forall_mem_nil _
  | prototype colons name => exact List.forall_mem_nil _

/-- The test of a `case` is followed by the colon of its clause. -/
theorem clauses {outer : Spot} {keyword opening closing openBrace closeBrace : Token} {subject : Expr}
    {all cs : List Clause} {after : List Token}
    (houter : outer.node = .stmt (.switch keyword opening subject closing openBrace all closeBrace))
    (hcs : cs ⊆ all) : ∀ part ∈ listSpots Clause.tokens Clause.spots after cs, outer.Ends part := by
  induction cs with
  | nil => exact List.forall_mem_nil _
  | cons c cs ih =>
      obtain ⟨hmem, hrest⟩ := List.cons_subset.mp hcs
      refine List.forall_mem_append.mpr ⟨?_, ih hrest⟩
      obtain ⟨word, test, colon, body⟩ := c
      cases test with
      | none => exact of_closed (.stmts _ _)
      | some test =>
          refine List.forall_mem_append.mpr ⟨?_, of_closed (.stmts _ _)⟩
          exact List.forall_mem_singleton.mpr (.test houter hmem rfl rfl)

theorem stmt {after : List Token} {colon : Colon} {s : Stmt} (hs : s.Formed) :
    ∀ part ∈ s.spots after, (⟨.stmt s, colon, after⟩ : Spot).Ends part := by
  cases s with
  | expr value semicolon => exact of_shut (.expr .free (hs.2.shut (by decide) after) value)
  | empty semicolon => exact List.forall_mem_nil _
  | conditional first others =>
      exact of_closed (.append (.guarded _ hs.1) (.ladder after hs.2))
  | «while» loop => exact of_closed (.guarded after hs)
  | «for» keyword opening init first test second update closing body =>
      obtain ⟨_, _, hinit, hfirst, htest, hsecond, hupdate, hclosing, _⟩ := hs
      refine of_closed (.append (.append (.append (AllShut.closed ?_) (AllShut.closed ?_))
        (AllShut.closed ?_)) (.stmts _ _))
      · exact .forInit (hfirst.shut (by decide) _) hinit
      · exact .exprs .free (hsecond.shut (by decide) _) htest
      · exact .exprs .free (hclosing.shut (by decide) _) hupdate
  | forIn keyword opening var name inWord object closing body =>
      obtain ⟨_, _, _, _, _, _, hclosing, _⟩ := hs
      have hobject := AllShut.expr .free (hclosing.shut (by decide) (body.tokens ++ after)) object
      exact of_closed (.append hobject.closed (.stmts _ _))
  | jump keyword label semicolon => exact List.forall_mem_nil _
  | «return» keyword value semicolon =>
      cases value with
      | none => exact List.forall_mem_nil _
      | some value => exact of_shut (.expr .free (hs.2.2.shut (by decide) after) value)
  | throw keyword value semicolon => exact of_shut (.expr .free (hs.2.2.shut (by decide) after) value)
  | vars list semicolon => exact of_shut (.varList (hs.2.shut (by decide) after) hs.1)
  | function f => exact of_closed (.stmts _ _)
  | labeled label c body => exact List.forall_mem_singleton.mpr (.statement rfl)
  | switch keyword opening subject closing openBrace cs closeBrace =>
      obtain ⟨_, _, _, hclosing, _⟩ := hs
      refine List.forall_mem_append.mpr ⟨?_, clauses rfl (List.Subset.refl cs)⟩
      exact of_shut (.expr .free (hclosing.shut (by decide) _) subject)
  | block b => exact of_closed (.stmts _ _)
  | «include» p => exact List.forall_mem_nil _
  | declare p => exact List.forall_mem_nil _

theorem parts {s : Spot} (hs : s.node.Formed) : ∀ part ∈ s.parts, s.Ends part := by
  obtain ⟨node, colon, after⟩ := s
  cases node with
  | stmt s => exact stmt hs
  | expr e =>
      cases e with
      | head h => exact head hs
      | suffix leading s =>
          refine List.forall_mem_append.mpr ⟨?_, suffix hs.2⟩
          exact of_shut (.expr colon (hs.2.shut after) leading)

end Spot.Ends

/-! ## Colons -/

/-- The colon ends the consequent of a conditional, or the test of a `case`, whose last token is `closing`. -/
inductive Program.ColonOf (x : Program) (closing c : Token) : Prop where
  | conditional {leading consequent alternate : Expr} {question : Token} {colon : Colon}
      {after : List Token} :
      x.Stands ⟨.expr (.suffix leading (.ternary question consequent c alternate)), colon, after⟩ →
      consequent.tokens.getLast? = some closing → Program.ColonOf x closing c
  | case {keyword opening close openBrace closeBrace word : Token} {subject test : Expr}
      {clauses : List Clause} {body : List Stmt} {colon : Colon} {after : List Token} :
      x.Stands ⟨.stmt (.switch keyword opening subject close openBrace clauses closeBrace), colon, after⟩ →
      ⟨word, some test, c, body⟩ ∈ clauses → test.tokens.getLast? = some closing →
      Program.ColonOf x closing c

/-- A colon right after an expression ends the consequent or the test which that expression ends. -/
theorem Program.Stands.colonOf {x : Program} (hformed : ∀ s, x.Stands s → s.node.Formed) {s : Spot}
    (h : x.Stands s) {e : Expr} {closing c : Token} {rest : List Token} (hnode : s.node = .expr e)
    (hlast : e.tokens.getLast? = some closing) (hafter : s.after = c :: rest)
    (hc : c.kind = .punct .colon) : x.ColonOf closing c := by
  induction h generalizing e with
  | top hmem =>
      rcases AllClosed.stmts _ _ _ hmem with ⟨t, ht⟩ | ⟨t, more, ht, hk⟩
      · rw [ht] at hnode
        cases hnode
      · rw [hafter] at ht
        cases ht
        exact absurd hc hk
  | @inside outer part hs hmem ih =>
      have hends := Spot.Ends.parts (hformed _ hs) _ hmem
      obtain ⟨node, colon, after⟩ := outer
      cases hends with
      | statement ht =>
          rw [ht] at hnode
          cases hnode
      | shut hshut =>
          obtain ⟨t, more, ht, hk⟩ := hshut
          rw [hafter] at ht
          cases ht
          exact absurd hc hk
      | last houter hpart hsame hends =>
          -- The colon follows the whole expression as well, so the question goes one level up.
          rw [hpart] at hnode
          cases hnode
          exact ih houter (hends _ hlast) (hsame.symm.trans hafter)
      | consequent houter hpart hcolon =>
          rw [hpart] at hnode
          cases hnode
          rw [hcolon] at hafter
          cases hafter
          obtain rfl : node = _ := houter
          exact .conditional hs hlast
      | test houter hclause hpart hcolon =>
          rw [hpart] at hnode
          cases hnode
          rw [hcolon] at hafter
          cases hafter
          obtain rfl : node = _ := houter
          exact .case hs hclause hlast

/-! ## Lists -/

/-- A name and an opening brace come first. -/
def BeginsNamedBody (ts : List Token) : Prop :=
  ∃ name brace rest, ts = name :: brace :: rest ∧ name.kind = .identifier ∧ brace.kind = .punct .openBrace

/-- What follows makes the parenthesised list before it parameters: a body, an arrow, or the name of a
    receiver, which a colon begins if nothing waits for the colon or if a body follows the name. -/
def MakesParams (colon : Colon) (ts : List Token) : Prop :=
  ∃ t rest, ts = t :: rest ∧
    (t.kind = .punct .openBrace ∨ t.kind = .punct .arrow ∨
      (t.kind = .punct .colon ∧ (colon = .free ∨ BeginsNamedBody rest)))

/-- The head is a function without its keyword, or an arrow function, and its parameters are the elements of
    the list as they were written. -/
def Head.TakesAsParams (list : Enclosed) (h : Head) : Prop :=
  ∃ items, list.items.map? Expr.toParam? = some items ∧
    ((∃ named body, h = .function ⟨none, none, ⟨list.opening, items, list.closing⟩, named, body⟩) ∨
      ∃ sign body, h = .arrow ⟨list.opening, items, list.closing⟩ sign body)

/-- What a head that begins with the list is, given all that follows the list: parameters go to the list if
    what follows makes it parameters, and otherwise the list is a group around one expression. -/
def Head.DecidedBy (colon : Colon) (following : List Token) (list : Enclosed) (h : Head) : Prop :=
  (MakesParams colon following ∧ h.TakesAsParams list) ∨
    (¬MakesParams colon following ∧ ∃ e, list.items = .one e ∧ h = .group list.opening e list.closing)

/-- A token that is no literal was taken as the scanner gives it. -/
theorem Taken.next {p q : Place} {t : Token} (h : Taken p t q) (hstring : t.kind ≠ .string)
    (hregex : t.kind ≠ .regex) : next p = .ok (t, q) := by
  cases h with
  | scanned h => exact h
  | quoted h =>
      obtain ⟨n, _, htake⟩ := quoted_ok h
      rw [kind_of_takeToken htake, Quoted.kind] at hstring hregex
      split at hstring <;> simp_all

/-- A token of a kind that no literal has is the one that the scanner gives. -/
theorem Taken.eq_of_next {p q r : Place} {t u : Token} {k : Kind} (h : Taken p t q)
    (hnext : Parser.next p = .ok (u, r)) (hk : t.kind = k) (hstring : k ≠ .string) (hregex : k ≠ .regex) :
    t = u := by
  have hscan := h.next (hk ▸ hstring) (hk ▸ hregex)
  rw [hnext] at hscan
  cases hscan
  rfl

namespace Parser

variable {inner : Inner} {colon : Colon} {threshold : Precedence} {p q last : Place}
  {after : List Token}

/-- The test for a receiver sees a colon, a name and a brace that are read there. -/
theorem atReceiver_of_reading {c : Token} {ts : List Token} (h : Reading p (c :: ts) last)
    (hc : c.kind = .punct .colon) (hts : BeginsNamedBody ts) : atReceiver p = .ok (true, p) := by
  obtain ⟨name, brace, rest, rfl, hname, hbrace⟩ := hts
  cases h with
  | cons hcolon h =>
    cases h with
    | cons hident h =>
      cases h with
      | cons hopen _ =>
        have hcolon := hcolon.next (by simp [hc]) (by simp [hc])
        have hident := hident.next (by simp [hname]) (by simp [hname])
        have hopen := hopen.next (by simp [hbrace]) (by simp [hbrace])
        apply lookAhead_of_ok
        rw [bind_of_ok hcolon, if_pos hc, bind_of_ok hident, if_pos hname, bind_of_ok hopen, hbrace]
        rfl

/-- Nothing after a group makes parameters of it. -/
theorem not_makesParams {t : Token} {r : Place} {ahead : Bool} (hnext : next q = .ok (t, r))
    (hahead : atReceiver q = .ok (ahead, q)) (hbrace : t.kind ≠ .punct .openBrace)
    (harrow : t.kind ≠ .punct .arrow)
    (hcolon : ¬(t.kind = .punct .colon ∧ (colon = .free ∨ ahead = true)))
    (hafter : Reading q after last) : ¬MakesParams colon after := by
  rintro ⟨u, rest, rfl, hu⟩
  have hreading := hafter
  cases hafter with
  | cons htaken _ =>
    -- No literal has one of these kinds, so the token that was read is the one that was looked at.
    rcases hu with hu | hu | ⟨hu, hwhen⟩
    · rw [htaken.eq_of_next hnext hu (by decide) (by decide)] at hu
      exact hbrace hu
    · rw [htaken.eq_of_next hnext hu (by decide) (by decide)] at hu
      exact harrow hu
    · have hseen := htaken.eq_of_next hnext hu (by decide) (by decide)
      refine hcolon ⟨hseen ▸ hu, hwhen.imp_right ?_⟩
      intro hbody
      rw [atReceiver_of_reading hreading hu hbody] at hahead
      cases hahead
      rfl

/-- Only the rules for parentheses begin with one. -/
theorem HeadRule.paren_of_next {h : Head} {t : Token} {r : Place} (hrule : HeadRule inner colon p h q)
    (hnext : next p = .ok (t, r)) (hk : t.kind = .punct .openParen) : ParenRule inner colon p h q := by
  have hkind {u : Token} {k : Kind} {r' : Place} (hu : expect k p = .ok (u, r')) :
      k = .punct .openParen := by
    obtain ⟨hseen, rfl⟩ := expect_ok_iff.mp hu
    rw [hnext] at hseen
    cases hseen
    exact hk
  have hclass {f : Kind → Bool} {u : Token} {r' : Place} (hu : next p = .ok (u, r'))
      (hf : f u.kind = true) : f (.punct .openParen) = true := by
    rw [hnext] at hu
    cases hu
    rwa [hk] at hf
  -- Every other rule begins with a token of another kind or class.
  cases hrule with
  | constant ht hconstant => exact absurd (hclass ht hconstant) (by decide)
  | quoted hmark hquote _ => exact absurd (hclass hmark hquote) (by decide)
  | ident ht => cases hkind ht
  | pass hmark _ => cases hkind hmark
  | array helements =>
      obtain ⟨_, _, hopening, _, _⟩ := enclosed_ok helements
      cases hkind hopening
  | object hopening _ _ => cases hkind hopening
  | construct hkeyword _ _ _ => cases hkind hkeyword
  | unary hoperator hprefixOperator _ => exact absurd (hclass hoperator hprefixOperator) (by decide)
  | paren hrule => exact hrule
  | simpleArrow hsign _ => cases hkind hsign
  | function hkeyword _ _ => cases hkind hkeyword

/-- A head that begins with a parenthesis was read by the rules for parentheses: a name with dots was not. -/
theorem Grows.paren_of_next {h : Head} {t : Token} {r : Place}
    (hgrows : Grows inner colon threshold p (.head h) q) (hnext : next p = .ok (t, r))
    (hk : t.kind = .punct .openParen) : ParenRule inner colon p h q := by
  cases hgrows with
  | head hrule => exact hrule.paren_of_next hnext hk
  | round hgrows hround =>
      cases hround with
      | rest hname _ =>
          subst hname
          cases hgrows with
          | head hrule => cases hrule.paren_of_next hnext hk
          | round _ hround => cases hround

theorem block_tokens_makesParams {b : Block} (h : block inner p = .ok (b, q)) (after : List Token) :
    MakesParams colon (b.tokens ++ after) := by
  obtain ⟨p₁, p₂, hopening, _, _⟩ := block_ok h
  obtain ⟨opening, body, closing⟩ := b
  exact ⟨opening, _, rfl, .inl (kind_of_expect hopening)⟩

theorem ParenRule.decided {n : Nat} {h : Head} (hrule : ParenRule (level n) colon p h q)
    (hafter : Reading q after last) :
    ∃ list q' following, enclosed (level n) colon .openParen .closeParen p = .ok (list, q') ∧
      h.tokens = list.tokens ++ following ∧ h.DecidedBy colon (following ++ after) list := by
  cases hrule with
  | @function list _ p₁ _ _ _ hlist _ _ hf =>
      obtain ⟨items, body, hitems, hbody, rfl⟩ := finishFunction_ok hf
      refine ⟨list, p₁, body.tokens, hlist, ?_, .inl ⟨?_, items, hitems, .inl ⟨none, body, rfl⟩⟩⟩
      · simp [Head.tokens, Func.tokens, tokens_of_params hitems]
      · exact block_tokens_makesParams hbody after
  | @bound list _ p₁ _ _ _ _ named _ hlist _ _ _ _ hnamed hf =>
      obtain ⟨items, body, hitems, hbody, rfl⟩ := finishFunction_ok hf
      refine ⟨list, p₁, receiverTokens named ++ body.tokens, hlist, ?_,
        .inl ⟨?_, items, hitems, .inl ⟨named, body, rfl⟩⟩⟩
      · simp [Head.tokens, Func.tokens, tokens_of_params hitems, receiverTokens]
      · -- The receiver that was looked for need not be there.
        rcases receiver_ok hnamed with ⟨receiver, p₂, rfl, hcolon, hname⟩ | ⟨rfl, rfl⟩
        · obtain ⟨p₃, p₄, hopening, _, _⟩ := block_ok hbody
          obtain ⟨opening, stmts, closing⟩ := body
          exact ⟨receiver.colon, _, rfl, .inr (.inr ⟨kind_of_expect hcolon, .inr
            ⟨receiver.name, opening, _, rfl, kind_of_expect hname, kind_of_expect hopening⟩⟩)⟩
        · exact block_tokens_makesParams hbody after
  | @arrow list items sign body p₁ _ _ hlist hitems hsign hbody =>
      refine ⟨list, p₁, sign :: body.tokens, hlist, ?_,
        .inl ⟨?_, items, hitems, .inr ⟨sign, body, rfl⟩⟩⟩
      · rw [Head.tokens, tokens_of_params hitems]
      · exact ⟨sign, _, rfl, .inr (.inl (kind_of_expect hsign))⟩
  | @group list _ e _ _ _ hlist he hnext hahead hbrace harrow hcolon =>
      refine ⟨list, q, [], hlist, ?_, .inr ⟨?_, e, he, rfl⟩⟩
      · rw [Head.tokens, Enclosed.tokens_eq, he]
        simp [exprsTokens]
      · exact not_makesParams hnext hahead hbrace harrow hcolon hafter

end Parser

/-- A head that begins with a parenthesis was read as a list first, and is what the tokens after the list
    make it. -/
theorem Spot.Read.decided {last : Place} {h : Head} {colon : Colon} {after ts : List Token} {opening : Token}
    (hread : Spot.Read last ⟨.expr (.head h), colon, after⟩) (htokens : h.tokens = opening :: ts)
    (hk : opening.kind = .punct .openParen) :
    ∃ p n list q following, Reading p (h.tokens ++ after) last ∧ opening.pos = p.pos ∧
      enclosed (level n) colon .openParen .closeParen p = .ok (list, q) ∧
      h.tokens = list.tokens ++ following ∧ h.DecidedBy colon (following ++ after) list := by
  obtain ⟨p, q, ⟨n, threshold, hgrows⟩, hafter⟩ := hread
  have hreading : Reading p h.tokens q := hgrows.reading
  have hall := hreading.append hafter
  rw [htokens] at hreading
  cases hreading with
  | cons htaken _ =>
      have hnext := htaken.next (by simp [hk]) (by simp [hk])
      obtain ⟨list, q', following, hlist, hsplit, hdecided⟩ :=
        (hgrows.paren_of_next hnext hk).decided hafter
      exact ⟨p, n, list, q', following, hall, htaken.pos, hlist, hsplit, hdecided⟩

/-- What is true of the parenthesised lists of a program with this source. -/
structure Program.Disambiguated (source : List Char) (x : Program) : Prop where
  /-- Every expression of the program stands somewhere. -/
  held : ∀ e ∈ x.subexprs, x.Holds e
  /-- What stands at a spot, and what follows it, are the last tokens of the program. -/
  written : ∀ s, x.Stands s → s.tokens <:+ x.tokens
  /-- A group is followed by no brace and no arrow, and by a colon only where a conditional or a `case` around
      it waits for that one, and no name with a brace comes next. -/
  group : ∀ opening inner closing colon after,
    x.Stands ⟨.expr (.head (.group opening inner closing)), colon, after⟩ →
    ∃ t rest, after = t :: rest ∧ t.kind ≠ .punct .openBrace ∧ t.kind ≠ .punct .arrow ∧
      (t.kind = .punct .colon → x.ColonOf closing t ∧ ¬BeginsNamedBody rest)
  /-- Where an expression begins with a parenthesis, a list is read from that parenthesis on, and what follows
      it decides whether it is the parameters of a function or a group. -/
  list : ∀ h colon after opening ts, x.Stands ⟨.expr (.head h), colon, after⟩ →
    h.tokens = opening :: ts → opening.kind = .punct .openParen →
    ∃ (p : Place) (n : Nat) (list : Enclosed) (q : Place) (following : List Token),
      p.Within source ∧ opening.pos = p.pos ∧
      p.rest = (String.join ((h.tokens ++ after).map Token.source)).toList ∧
      enclosed (level n) colon .openParen .closeParen p = .ok (list, q) ∧
      h.tokens = list.tokens ++ following ∧ h.DecidedBy colon (following ++ after) list

theorem not_makesParams_of_group {colon : Colon} {after following : List Token} {list : Enclosed}
    {opening closing : Token} {inner : Expr}
    (hsplit : (Head.group opening inner closing).tokens = list.tokens ++ following)
    (h : (Head.group opening inner closing).DecidedBy colon (following ++ after) list) :
    ¬MakesParams colon after := by
  rcases h with ⟨_, items, _, ⟨named, body, heq⟩ | ⟨sign, body, heq⟩⟩ | ⟨hnot, e, hitems, heq⟩
  · cases heq
  · cases heq
  · cases heq
    -- The list is the whole group, so what follows the list is what follows the group.
    have hlist : list.tokens = (Head.group list.opening inner list.closing).tokens := by
      rw [Enclosed.tokens_eq, hitems, exprsTokens, Head.tokens]
    rw [hlist, List.self_eq_append_right] at hsplit
    rwa [hsplit] at hnot

/-- In a parsed program, a parenthesised list that begins an expression is a group exactly where the tokens
    after it do not make it parameters; and a colon after a group is awaited and ends what waits for it. -/
theorem lists_disambiguated {source : String} {x : Program} (h : parseProgram source.toList = .ok x) :
    x.Disambiguated source.toList := by
  obtain ⟨last, hall, hread⟩ := exists_allRead h
  have hformed s (hs : x.Stands s) : s.node.Formed := (hread s hs).formed
  have hlast : last.rest = [] := by
    obtain ⟨_, q, hq, hnil⟩ := parseProgramWithin_reading h
    rw [← List.append_cancel_left (hall.rest.symm.trans hq.rest)] at hnil
    exact hnil
  refine ⟨fun _ => Program.holds_of_mem_subexprs, fun _ => Program.Stands.tokens_suffix, ?_, ?_⟩
  · intro opening inner closing colon after hs
    have hkind : opening.kind = .punct .openParen := (hformed _ hs).1.kind
    obtain ⟨_, _, list, _, following, _, _, _, hsplit, hdecided⟩ := (hread _ hs).decided rfl hkind
    have hnot := not_makesParams_of_group hsplit hdecided
    obtain ⟨t, rest, rfl⟩ : ∃ t rest, after = t :: rest := List.exists_cons_of_ne_nil hs.after_ne_nil
    refine ⟨t, rest, rfl, fun hk => hnot ⟨t, rest, rfl, .inl hk⟩,
      fun hk => hnot ⟨t, rest, rfl, .inr (.inl hk)⟩, fun hk => ⟨?_, ?_⟩⟩
    · have hlast : (Expr.head (.group opening inner closing)).tokens.getLast? = some closing := by
        simp [Expr.tokens, Head.tokens, List.getLast?_cons]
      exact hs.colonOf hformed rfl hlast rfl hk
    · exact fun hbody => hnot ⟨t, rest, rfl, .inr (.inr ⟨hk, .inr hbody⟩)⟩
  · intro head colon after opening ts hs htokens hk
    obtain ⟨p, n, list, q, following, hreading, hpos, hlist, hsplit, hdecided⟩ :=
      (hread _ hs).decided htokens hk
    refine ⟨p, n, list, q, following, within_of_suffix hall hs.tokens_suffix hreading, hpos, ?_, hlist,
      hsplit, hdecided⟩
    rw [hreading.rest, hlast, List.append_nil]

/-- Lists of all kinds inside each other: groups before colons of conditionals and cases, functions with and
    without a receiver, and arrows. -/
def bracketedSource : String :=
  "var f = a ? (b) : (c) : me \x7b switch (x) \x7b case (y): z = (p, q...) -> (p); \x7d \x7d;\n" ++
    "g = k ? (m) : t \x7b return (n) ? () \x7b \x7d : (@) -> -(o); \x7d : (u);"

theorem lists_disambiguated_bracketedSource :
    ∃ x, parseProgram bracketedSource.toList = .ok x ∧ x.tokens.length = 77 ∧
      x.Disambiguated bracketedSource.toList := by
  have hrun : (parseProgram bracketedSource.toList).toOption.map (·.tokens.length) = some 77 := by
    decide +kernel
  obtain ⟨x, hx, hlength⟩ := ok_of_toOption hrun
  exact ⟨x, hx, hlength, lists_disambiguated hx⟩

end Respell
