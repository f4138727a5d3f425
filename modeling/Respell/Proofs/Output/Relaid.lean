import Respell.Proofs.Engine.Print
import Respell.Proofs.Output.Plain
import Respell.Proofs.Parse.Sequence

/-!
# The output of a tree in another layout

Where a token stands does not show in the output, so a tree whose tokens keep their trivia is written as the same
text in every layout. The output of a statement ends with the trivia of its last token. What is put after the trivia
of the last token of some statements therefore stands at the end of their output.
-/

namespace Respell

/-! ## Trivia that stays -/

/-- The layout keeps the trivia of the tokens. -/
def Relayout.Keeps (g : Relayout) (ts : List Token) : Prop := ∀ t ∈ ts, g.trailing t = t.trailing

/-- The layout keeps the trivia of the tokens, and puts `w` after that of the last one. -/
def Relayout.Extends (g : Relayout) (w : String) : List Token → Prop
  | [] => w = ""
  | [t] => g.trailing t = t.trailing ++ w
  | t :: u :: ts => g.trailing t = t.trailing ∧ g.Extends w (u :: ts)

section Trivia

variable {g : Relayout} {w : String} {t : Token} {ts us : List Token}

theorem keeps_cons : g.Keeps (t :: ts) ↔ g.trailing t = t.trailing ∧ g.Keeps ts := List.forall_mem_cons

theorem keeps_append : g.Keeps (ts ++ us) ↔ g.Keeps ts ∧ g.Keeps us := List.forall_mem_append

theorem Relayout.Keeps.extends (h : g.Keeps ts) : g.Extends "" ts := by
  induction ts with
  | nil => rfl
  | cons t ts ih =>
      obtain ⟨ht, hts⟩ := keeps_cons.mp h
      cases ts with
      | nil =>
          rw [Relayout.Extends, ht, String.append_empty]
      | cons u us => exact ⟨ht, ih hts⟩

theorem Relayout.Extends.cons (h : g.Extends w (t :: ts)) (hts : ts ≠ [] := by simp) :
    g.trailing t = t.trailing ∧ g.Extends w ts := by
  cases ts with
  | nil => exact (hts rfl).elim
  | cons u us => exact h

/-- Where more tokens follow, nothing is put after the first ones. -/
theorem Relayout.Extends.split (h : g.Extends w (ts ++ us)) (hus : us ≠ [] := by simp) :
    g.Keeps ts ∧ g.Extends w us := by
  induction ts with
  | nil => exact ⟨List.forall_mem_nil _, h⟩
  | cons t ts ih =>
      obtain ⟨ht, hrest⟩ := Relayout.Extends.cons h (List.append_ne_nil_of_right_ne_nil ts hus)
      obtain ⟨hts, hlast⟩ := ih hrest
      exact ⟨keeps_cons.mpr ⟨ht, hts⟩, hlast⟩

/-- What is put after the last of some tokens, written as such. -/
theorem Relayout.Extends.last (h : g.Extends w (ts ++ [t])) : g.Keeps ts ∧ g.trailing t = t.trailing ++ w :=
  h.split

end Trivia

/-! ## Pieces -/

/-- The text of the second pieces is that of the first ones, with `z` at the end. -/
def EndsIn (z : String) (ps' ps : List Piece) : Prop := Piece.join ps' ++ z = Piece.join ps

section Pieces

variable {g : Relayout} {w z : String} {t : Token} {ps ps' : List Piece}

theorem endsIn_gap : EndsIn z (.gap w :: ps') ps ↔ w ++ (Piece.join ps' ++ z) = Piece.join ps := by
  rw [EndsIn, join_cons, String.append_assoc]
  rfl

theorem endsIn_empty : EndsIn z (.gap "" :: ps') ps ↔ EndsIn z ps' ps := by
  rw [endsIn_gap, String.empty_append]
  rfl

/-- Pieces of the same text can be put in front. -/
theorem EndsIn.cons {piece piece' : Piece} (hpiece : piece'.text = piece.text)
    (h : EndsIn z ps' ps) : EndsIn z (piece' :: ps') (piece :: ps) := by
  rw [EndsIn, join_cons, join_cons, hpiece, String.append_assoc, show Piece.join ps' ++ z = _ from h]

theorem EndsIn.append (h : EndsIn z ps' ps) (front : List Piece) : EndsIn z (front ++ ps') (front ++ ps) := by
  induction front with
  | nil => exact h
  | cons piece front ih => exact .cons rfl ih

theorem EndsIn.gap (ht : g.trailing t = t.trailing) (h : EndsIn z ps' ps) :
    EndsIn z (.gap (t.relayout g).trailing :: ps') (.gap t.trailing :: ps) :=
  .cons ht h

/-- What is put after the trivia of a token may as well stand before what follows. -/
theorem EndsIn.gap_extended (ht : g.trailing t = t.trailing ++ w) (h : EndsIn z (.gap w :: ps') ps) :
    EndsIn z (.gap (t.relayout g).trailing :: ps') (.gap t.trailing :: ps) := by
  rw [endsIn_gap] at h ⊢
  rw [join_cons, ← h]
  change g.trailing t ++ _ = t.trailing ++ _
  rw [ht, String.append_assoc]

theorem EndsIn.replay (ht : g.trailing t = t.trailing) (h : EndsIn z ps' ps) :
    EndsIn z ((t.relayout g).replay ps') (t.replay ps) :=
  .cons rfl (.gap ht h)

theorem EndsIn.replay_extended (ht : g.trailing t = t.trailing ++ w)
    (h : EndsIn z (.gap w :: ps') ps) :
    EndsIn z ((t.relayout g).replay ps') (t.replay ps) :=
  .cons rfl (.gap_extended ht h)

theorem EndsIn.replay? {o : Option Token} (ho : g.Keeps o.toList) (h : EndsIn z ps' ps) :
    EndsIn z (replay? (o.map (Token.relayout g)) ps') (replay? o ps) := by
  cases o with
  | none => exact h
  | some t => exact .replay (ho t (List.mem_singleton.mpr rfl)) h

theorem operatorPieces_endsIn (ht : g.trailing t = t.trailing) (h : EndsIn z ps' ps) :
    EndsIn z (operatorPieces (t.relayout g) ps') (operatorPieces t ps) := by
  unfold operatorPieces
  rw [Token.relayout_kind]
  split
  · exact .cons rfl (.gap ht h)
  · exact .cons rfl (.gap ht h)
  · exact .replay ht h

theorem prototypePieces_endsIn {o : Option Token} (ht : g.trailing t = t.trailing) (ho : g.Keeps o.toList)
    (h : EndsIn z ps' ps) :
    EndsIn z (prototypePieces (t.relayout g) (o.map (Token.relayout g)) ps')
      (prototypePieces t o ps) := by
  refine .cons rfl (.cons rfl (.gap ht ?_))
  cases o with
  | none => exact h
  | some n => exact .cons rfl (.replay (ho n (List.mem_singleton.mpr rfl)) h)

theorem closeArrow_endsIn (h : EndsIn z ps' ps) :
    EndsIn z (closeArrow ps') (closeArrow ps) :=
  .cons rfl (.cons rfl (.cons rfl h))

/-- The body of an arrow function, from its brace on. -/
theorem arrowBody_endsIn (ht : g.trailing t = t.trailing) (h : EndsIn z ps' ps) :
    EndsIn z (.added "\x7b" :: .gap (t.relayout g).trailing :: .added "return" :: .blank :: ps')
      (.added "\x7b" :: .gap t.trailing :: .added "return" :: .blank :: ps) :=
  .cons rfl (.gap ht (.cons rfl (.cons rfl h)))

theorem Member.endsIn {m : Member} (hm : g.Keeps m.tokens) (h : EndsIn z ps' ps) :
    EndsIn z ((m.relayout g).pieces ps') (m.pieces ps) := by
  simp only [Member.tokens, keeps_cons] at hm
  exact .replay hm.1 (.replay hm.2.1 h)

theorem DottedName.endsIn {d : DottedName} (hd : g.Keeps d.tokens)
    (h : EndsIn z ps' ps) :
    EndsIn z ((d.relayout g).pieces ps') (d.pieces ps) := by
  have hmembers : ∀ ms : List Member, g.Keeps (ms.flatMap Member.tokens) →
      EndsIn z ((ms.map (Member.relayout g)).foldr Member.pieces ps')
      (ms.foldr Member.pieces ps) := by
    intro ms hms
    induction ms with
    | nil => exact h
    | cons m ms ih =>
        rw [List.flatMap_cons, keeps_append] at hms
        exact Member.endsIn hms.1 (ih hms.2)
  obtain ⟨hfirst, hrest⟩ := keeps_cons.mp hd
  exact .replay hfirst (hmembers d.members hrest)

end Pieces

/-! ## Parameters -/

section Params

variable {g : Relayout} {z : String} {ps ps' : List Piece}

theorem Param.endsIn {x : Param} (hx : g.Keeps x.tokens) (h : EndsIn z ps' ps) :
    EndsIn z ((x.relayout g).pieces ps') (x.pieces ps) := by
  cases x with
  | plain name => exact .replay (keeps_cons.mp hx).1 h
  | pass mark handler =>
      obtain ⟨hmark, hhandler⟩ := keeps_cons.mp hx
      cases handler with
      | none => exact .cons rfl (.gap hmark h)
      | some t => exact .cons rfl (.gap (keeps_cons.mp hhandler).1 h)
  | rest name dots =>
      simp only [Param.tokens, keeps_cons] at hx
      exact .replay hx.1 (.gap hx.2.1 h)

theorem paramsPieces_endsIn {items : Separated Param} (hitems : g.Keeps (items.tokens Param.tokens))
    (h : EndsIn z ps' ps) :
    EndsIn z (paramsPieces (items.relayout g (Param.relayout g)) ps')
      (paramsPieces items ps) := by
  induction items with
  | nil => exact h
  | one x => exact Param.endsIn hitems h
  | more x comma items ih =>
      simp only [Separated.tokens, keeps_append, keeps_cons] at hitems
      exact Param.endsIn hitems.1 (.replay hitems.2.1 (ih hitems.2.2))

theorem Param.firstToken_endsIn {x : Param} (hx : g.Keeps x.tokens) (h : EndsIn z ps' ps) :
    EndsIn z ((x.relayout g).firstToken.replay ps') (x.firstToken.replay ps) := by
  cases x with
  | plain name => exact .replay (keeps_cons.mp hx).1 h
  | pass mark handler => exact .replay (keeps_cons.mp hx).1 h
  | rest name dots => exact .replay (keeps_cons.mp hx).1 h

theorem arrowParamsPieces_endsIn {items : Separated Param} (hitems : g.Keeps (items.tokens Param.tokens))
    (h : EndsIn z ps' ps) :
    EndsIn z (arrowParamsPieces (items.relayout g (Param.relayout g)) ps')
      (arrowParamsPieces items ps) := by
  induction items with
  | nil => exact h
  | one x => exact Param.firstToken_endsIn hitems h
  | more x comma items ih =>
      simp only [Separated.tokens, keeps_append, keeps_cons] at hitems
      exact Param.firstToken_endsIn hitems.1 (.replay hitems.2.1 (ih hitems.2.2))

theorem leftover_endsIn (texts : List String) (h : EndsIn z ps' ps) :
    EndsIn z (leftover texts ps') (leftover texts ps) := by
  have hgaps : EndsIn z (texts.foldr (fun text r => .gap text :: r) ps')
      (texts.foldr (fun text r => .gap text :: r) ps) := by
    induction texts with
    | nil => exact h
    | cons text texts ih => exact .cons rfl ih
  unfold leftover
  split
  · split
    · exact h
    · exact .cons rfl h
  · exact hgaps

theorem closeParams_endsIn {closing : Token} {receiver : Option Receiver}
    (hclosing : g.trailing closing = closing.trailing)
    (hreceiver : g.Keeps ((receiver.map Receiver.tokens).getD [])) (h : EndsIn z ps' ps) :
    EndsIn z (closeParams (closing.relayout g) (receiver.map (Receiver.relayout g)) ps')
      (closeParams closing receiver ps) := by
  cases receiver with
  | none => exact .replay hclosing h
  | some a =>
      simp only [Option.map_some, Option.getD_some, Receiver.tokens, keeps_cons] at hreceiver
      refine .cons rfl ?_
      change EndsIn z (leftover [g.trailing closing, g.trailing a.colon, g.trailing a.name] ps') _
      rw [hclosing, hreceiver.1, hreceiver.2.1]
      exact leftover_endsIn _ h

/-! ## What parameters put into a body -/

theorem passed?_relayout (xs : List Param) :
    passed? (xs.map (Param.relayout g)) = (passed? xs).map (Option.map (Token.relayout g)) := by
  induction xs with
  | nil => rfl
  | cons x xs ih =>
      -- The later parameters are looked at first.
      have hlater (o : Option (Option Token)) :
          (passed? (xs.map (Param.relayout g))).or (o.map (Option.map (Token.relayout g))) =
            ((passed? xs).or o).map (Option.map (Token.relayout g)) := by
        rw [ih, Option.map_or]
      cases x with
      | plain name => exact hlater none
      | pass mark handler => exact hlater (some handler)
      | rest name dots => exact hlater none

theorem collected?_relayout (index : Nat) (xs : List Param) :
    collected? index (xs.map (Param.relayout g)) =
      (collected? index xs).map fun found => (found.1.relayout g, found.2) := by
  induction xs generalizing index with
  | nil => rfl
  | cons x xs ih =>
      have hlater (o : Option (Token × Nat)) :
          (collected? (index + 1) (xs.map (Param.relayout g))).or
              (o.map fun found => (found.1.relayout g, found.2)) =
            ((collected? (index + 1) xs).or o).map fun found => (found.1.relayout g, found.2) := by
        rw [ih, Option.map_or]
      cases x with
      | plain name => exact hlater none
      | pass mark handler => exact hlater none
      | rest name dots => exact hlater (some (name, index))

theorem errorGuard_endsIn (handler : Option Token) (h : EndsIn z ps' ps) :
    EndsIn z (errorGuard (handler.map (Token.relayout g)) ps') (errorGuard handler ps) := by
  cases handler with
  | none => exact h.append (errorGuard none [])
  | some t => exact h.append (errorGuard (some t) [])

theorem receiverVar_endsIn (receiver : Receiver) (h : EndsIn z ps' ps) :
    EndsIn z (receiverVar (receiver.relayout g) ps') (receiverVar receiver ps) :=
  h.append (receiverVar receiver [])

theorem restSlice_endsIn (name : Token) (index : Nat) (h : EndsIn z ps' ps) :
    EndsIn z (restSlice (name.relayout g) index ps') (restSlice name index ps) :=
  h.append (restSlice name index [])

/-- The statements at the beginning of a body have the texts of tokens, without their trivia. -/
theorem prologue_endsIn (xs : List Param) (receiver : Option Receiver) (h : EndsIn z ps' ps) :
    EndsIn z (prologue (xs.map (Param.relayout g)) (receiver.map (Receiver.relayout g)) ps')
      (prologue xs receiver ps) := by
  simp only [prologue, passed?_relayout, collected?_relayout]
  cases collected? 0 xs with
  | none =>
      cases receiver with
      | none =>
          cases passed? xs with
          | none => exact h
          | some handler => exact errorGuard_endsIn handler h
      | some a =>
          cases passed? xs with
          | none => exact receiverVar_endsIn a h
          | some handler => exact errorGuard_endsIn handler (receiverVar_endsIn a h)
  | some found =>
      have hslice := restSlice_endsIn (g := g) found.1 found.2 h
      cases receiver with
      | none =>
          cases passed? xs with
          | none => exact hslice
          | some handler => exact errorGuard_endsIn handler hslice
      | some a =>
          cases passed? xs with
          | none => exact receiverVar_endsIn a hslice
          | some handler => exact errorGuard_endsIn handler (receiverVar_endsIn a hslice)

/-- The tokens of a function before its body. -/
def Func.headTokens (f : Func) : List Token :=
  f.keyword.toList ++ f.name.toList ++ f.params.tokens ++ (f.receiver.map Receiver.tokens).getD []

theorem Func.opening_endsIn {f : Func} (hf : g.Keeps f.headTokens) (h : EndsIn z ps' ps) :
    EndsIn z ((f.relayout g).opening ps') (f.opening ps) := by
  obtain ⟨keyword, name, params, receiver, body⟩ := f
  simp only [Func.headTokens, Params.tokens, keeps_append, keeps_cons] at hf
  obtain ⟨⟨⟨hkeyword, hname⟩, hopening, hitems, hclosing, _⟩, hreceiver⟩ := hf
  have hlist := EndsIn.replay? hname (.replay hopening (paramsPieces_endsIn hitems
    (closeParams_endsIn hclosing hreceiver h)))
  cases keyword with
  | none => exact .cons rfl (.cons rfl hlist)
  | some keyword => exact .replay (keeps_cons.mp hkeyword).1 hlist

end Params

/-! ## Pragmas -/

section Pragmas

variable {g : Relayout} {w z : String} {ps ps' : List Piece}

theorem pragmaText_relayout (items : Separated PragmaItem) :
    pragmaText (items.relayout g (PragmaItem.relayout g)) = pragmaText items := by
  have hitem (i : PragmaItem) : (i.relayout g).text = i.text := by cases i <;> rfl
  induction items with
  | nil => rfl
  | one i => exact hitem i
  | more i comma items ih => simp only [Separated.relayout, pragmaText, hitem, ih, Token.relayout_text]

theorem PragmaItem.gaps_endsIn {i : PragmaItem} (hi : g.Keeps i.tokens) (h : EndsIn z ps' ps) :
    EndsIn z ((i.relayout g).gaps ps') (i.gaps ps) := by
  cases i with
  | single name => exact .gap (keeps_cons.mp hi).1 h
  | group colon name =>
      simp only [PragmaItem.tokens, keeps_cons] at hi
      exact .gap hi.1 (.gap hi.2.1 h)

theorem pragmaGaps_endsIn {items : Separated PragmaItem} (hitems : g.Keeps (items.tokens PragmaItem.tokens))
    (h : EndsIn z ps' ps) :
    EndsIn z (pragmaGaps (items.relayout g (PragmaItem.relayout g)) ps')
      (pragmaGaps items ps) := by
  induction items with
  | nil => exact h
  | one i => exact PragmaItem.gaps_endsIn hitems h
  | more i comma items ih =>
      simp only [Separated.tokens, keeps_append, keeps_cons] at hitems
      exact PragmaItem.gaps_endsIn hitems.1 (.gap hitems.2.1 (ih hitems.2.2))

theorem Pragma.endsIn {x : Pragma} (hx : g.Extends w x.tokens)
    (h : EndsIn z (.gap w :: ps') ps) :
    EndsIn z ((x.relayout g).pieces ps') (x.pieces ps) := by
  obtain ⟨hkeyword, hrest⟩ := Relayout.Extends.cons hx
  obtain ⟨hitems, hsemicolon⟩ := hrest.last
  refine .cons ?_ (.gap hkeyword (pragmaGaps_endsIn hitems (.gap_extended hsemicolon h)))
  simp only [Piece.text, Pragma.relayout, pragmaText_relayout, Token.relayout_text]

end Pragmas

/-! ## Trees -/

section Trees

variable {g : Relayout} {z : String}

/-- What is put after the last of some tokens is put after the last of the first ones if there are no more, and
    otherwise nothing is put there. -/
theorem EndsIn.before {w : String} {ts us : List Token} {mid mid' ps ps' : List Piece}
    (hg : g.Extends w (ts ++ us)) (hnil : us = [] → mid' = ps' ∧ mid = ps)
    (hrest : g.Extends w us → EndsIn z mid' mid) (h : EndsIn z (.gap w :: ps') ps) :
    ∃ v, g.Extends v ts ∧ EndsIn z (.gap v :: mid') mid := by
  by_cases hus : us = []
  · obtain ⟨rfl, rfl⟩ := hnil hus
    rw [hus, List.append_nil] at hg
    exact ⟨w, hg, h⟩
  · obtain ⟨hts, hus⟩ := hg.split hus
    exact ⟨"", hts.extends, endsIn_empty.mpr (hrest hus)⟩

theorem Ladder.pieces_of_nil (l : Ladder) {ps ps' : List Piece} (h : l.tokens = []) :
    (l.relayout g).pieces ps' = ps' ∧ l.pieces ps = ps := by
  cases l with
  | done => exact ⟨rfl, rfl⟩
  | otherwise keyword body => cases h
  | branch keyword next others => cases h

theorem stmtsPieces_of_nil (ss : List Stmt) {ps ps' : List Piece} (h : stmtsTokens ss = []) :
    stmtsPieces (stmtsRelayout g ss) ps' = ps' ∧ stmtsPieces ss ps = ps := by
  cases ss with
  | nil => exact ⟨rfl, rfl⟩
  | cons s ss => exact (s.tokens_ne_nil (List.append_eq_nil_iff.mp h).1).elim

theorem entriesRelayout_ne_nil {es : Separated Entry} (h : es ≠ .nil) : entriesRelayout g es ≠ .nil := by
  rw [entriesRelayout_eq]
  cases es with
  | nil => exact (h rfl).elim
  | one e => rintro ⟨⟩
  | more e comma es => rintro ⟨⟩

mutual

theorem Expr.endsIn : ∀ (e : Expr) {ps ps' : List Piece}, g.Keeps e.tokens →
    EndsIn z ps' ps → EndsIn z ((e.relayout g).pieces ps') (e.pieces ps)
  | .head x, _, _, hg, h => Head.endsIn x hg h
  | .suffix leading s, _, _, hg, h => by
    obtain ⟨hleading, hs⟩ := keeps_append.mp hg
    exact Expr.endsIn leading hleading (Suffix.endsIn s hs h)

theorem Head.endsIn : ∀ (x : Head) {ps ps' : List Piece}, g.Keeps x.tokens →
    EndsIn z ps' ps → EndsIn z ((x.relayout g).pieces ps') (x.pieces ps)
  | .literal _, _, _, hg, h => .replay (keeps_cons.mp hg).1 h
  | .ident _, _, _, hg, h => .replay (keeps_cons.mp hg).1 h
  | .pass _ _, _, _, hg, h => by
    obtain ⟨hmark, hhandler⟩ := keeps_cons.mp hg
    exact .replay hmark (.replay? hhandler h)
  | .rest _ _, _, _, hg, h => by
    simp only [Head.tokens, keeps_cons] at hg
    exact .replay hg.1 (.replay hg.2.1 h)
  | .unary _ operand, _, _, hg, h => by
    obtain ⟨hoperator, hoperand⟩ := keeps_cons.mp hg
    exact .replay hoperator (Expr.endsIn operand hoperand h)
  | .construct _ callee arguments, _, _, hg, h => by
    simp only [Head.tokens, keeps_cons, keeps_append] at hg
    obtain ⟨hkeyword, hcallee, harguments⟩ := hg
    exact .replay hkeyword (callee.endsIn hcallee (Enclosed.endsIn arguments harguments h))
  | .array elements, _, _, hg, h => Enclosed.endsIn elements hg h
  | .object _ entries _, _, _, hg, h => by
    simp only [Head.tokens, keeps_cons, keeps_append] at hg
    obtain ⟨hopening, hentries, hclosing, _⟩ := hg
    exact .replay hopening (entries_endsIn entries hentries (.replay hclosing h))
  | .group _ inner _, _, _, hg, h => by
    simp only [Head.tokens, keeps_cons, keeps_append] at hg
    obtain ⟨hopening, hinner, hclosing, _⟩ := hg
    exact .replay hopening (Expr.endsIn inner hinner (.replay hclosing h))
  | .function f, _, _, hg, h => Func.endsIn f hg.extends (endsIn_empty.mpr h)
  | .arrow params _ body, _, _, hg, h => by
    simp only [Head.tokens, Params.tokens, keeps_cons, keeps_append] at hg
    obtain ⟨⟨hopening, hitems, hclosing, _⟩, hsign, hbody⟩ := hg
    have hreturn := arrowBody_endsIn hsign (Expr.endsIn body hbody (closeArrow_endsIn h))
    exact .cons rfl (.cons rfl (.replay hopening (arrowParamsPieces_endsIn hitems
      (.replay hclosing hreturn))))
  | .simpleArrow _ body, _, _, hg, h => by
    obtain ⟨hsign, hbody⟩ := keeps_cons.mp hg
    have hreturn := arrowBody_endsIn hsign (Expr.endsIn body hbody (closeArrow_endsIn h))
    -- The keyword and the list of its one parameter stand before the body.
    exact .cons rfl (.cons rfl (.cons rfl (.cons rfl
      (.cons rfl (.cons rfl hreturn)))))

theorem Suffix.endsIn : ∀ (s : Suffix) {ps ps' : List Piece}, g.Keeps s.tokens →
    EndsIn z ps' ps → EndsIn z ((s.relayout g).pieces ps') (s.pieces ps)
  | .binary _ right, _, _, hg, h => by
    obtain ⟨hoperator, hright⟩ := keeps_cons.mp hg
    exact operatorPieces_endsIn hoperator (Expr.endsIn right hright h)
  | .ternary _ consequent _ alternate, _, _, hg, h => by
    simp only [Suffix.tokens, keeps_cons, keeps_append] at hg
    obtain ⟨hquestion, hconsequent, hcolon, halternate⟩ := hg
    exact .replay hquestion (Expr.endsIn consequent hconsequent
      (.replay hcolon (Expr.endsIn alternate halternate h)))
  | .call arguments, _, _, hg, h => Enclosed.endsIn arguments hg h
  | .invoke member arguments, _, _, hg, h => by
    obtain ⟨hmember, harguments⟩ := keeps_append.mp hg
    exact member.endsIn hmember (Enclosed.endsIn arguments harguments h)
  | .index _ inner _, _, _, hg, h => by
    simp only [Suffix.tokens, keeps_cons, keeps_append] at hg
    obtain ⟨hopening, hinner, hclosing, _⟩ := hg
    exact .replay hopening (Expr.endsIn inner hinner (.replay hclosing h))
  | .property member, _, _, hg, h => member.endsIn hg h
  | .prototype _ _, _, _, hg, h => by
    obtain ⟨hcolons, hname⟩ := keeps_cons.mp hg
    exact prototypePieces_endsIn hcolons hname h

theorem Enclosed.endsIn : ∀ (e : Enclosed) {ps ps' : List Piece}, g.Keeps e.tokens →
    EndsIn z ps' ps → EndsIn z ((e.relayout g).pieces ps') (e.pieces ps)
  | ⟨_, items, _⟩, _, _, hg, h => by
    simp only [Enclosed.tokens, keeps_cons, keeps_append] at hg
    obtain ⟨hopening, hitems, hclosing, _⟩ := hg
    exact .replay hopening (exprs_endsIn items hitems (.replay hclosing h))

theorem exprs_endsIn : ∀ (es : Separated Expr) {ps ps' : List Piece}, g.Keeps (exprsTokens es) →
    EndsIn z ps' ps →
    EndsIn z (exprsPieces (exprsRelayout g es) ps') (exprsPieces es ps)
  | .nil, _, _, _, h => h
  | .one e, _, _, hg, h => Expr.endsIn e hg h
  | .more e _ es, _, _, hg, h => by
    simp only [exprsTokens, keeps_cons, keeps_append] at hg
    obtain ⟨he, hcomma, hes⟩ := hg
    exact Expr.endsIn e he (.replay hcomma (exprs_endsIn es hes h))

theorem entries_endsIn : ∀ (es : Separated Entry) {ps ps' : List Piece},
    g.Keeps (entriesTokens es) → EndsIn z ps' ps →
    EndsIn z (entriesPieces (entriesRelayout g es) ps') (entriesPieces es ps)
  | .nil, _, _, _, h => h
  | .one ⟨_, _, value⟩, _, _, hg, h => by
    simp only [entriesTokens, keeps_cons] at hg
    obtain ⟨hkey, hcolon, hvalue⟩ := hg
    exact .replay hkey (.replay hcolon (Expr.endsIn value hvalue h))
  | .more ⟨_, _, value⟩ _ es, _, _, hg, h => by
    simp only [entriesTokens, keeps_cons, keeps_append] at hg
    obtain ⟨hkey, hcolon, hvalue, hcomma, hes⟩ := hg
    have hrest := entries_endsIn es hes h
    by_cases hnil : es = .nil
    · subst hnil
      exact .replay hkey (.replay hcolon (Expr.endsIn value hvalue (.gap hcomma h)))
    · rw [entriesRelayout, entriesPieces_more (entriesRelayout_ne_nil hnil), entriesPieces_more hnil]
      exact .replay hkey (.replay hcolon (Expr.endsIn value hvalue
        (.replay hcomma hrest)))

theorem Func.endsIn : ∀ (f : Func) {w : String} {ps ps' : List Piece}, g.Extends w f.tokens →
    EndsIn z (.gap w :: ps') ps →
    EndsIn z ((f.relayout g).pieces ps') (f.pieces ps)
  | ⟨keyword, name, params, receiver, ⟨opening, body, closing⟩⟩, _, _, _, hg, h => by
    obtain ⟨hhead, hbody⟩ := Relayout.Extends.split hg (Block.tokens_ne_nil _)
    obtain ⟨hopening, hrest⟩ := hbody.cons
    obtain ⟨hstmts, hclosing⟩ := hrest.last
    have hend := EndsIn.replay_extended hclosing h
    have hinside := EndsIn.gap hopening (stmts_endsIn body hstmts.extends (endsIn_empty.mpr hend))
    have hprologue := prologue_endsIn (g := g) params.items.items receiver hinside
    rw [← Params.items_relayout] at hprologue
    exact Func.opening_endsIn (f := ⟨keyword, name, params, receiver, ⟨opening, body, closing⟩⟩) hhead
      (.cons rfl hprologue)

theorem Block.endsIn : ∀ (b : Block) {w : String} {ps ps' : List Piece}, g.Extends w b.tokens →
    EndsIn z (.gap w :: ps') ps →
    EndsIn z ((b.relayout g).pieces ps') (b.pieces ps)
  | ⟨_, body, _⟩, _, _, _, hg, h => by
    obtain ⟨hopening, hrest⟩ := Relayout.Extends.cons hg
    obtain ⟨hstmts, hclosing⟩ := hrest.last
    have hend := EndsIn.replay_extended hclosing h
    exact .replay hopening (stmts_endsIn body hstmts.extends (endsIn_empty.mpr hend))

theorem stmts_endsIn : ∀ (ss : List Stmt) {w : String} {ps ps' : List Piece},
    g.Extends w (stmtsTokens ss) → EndsIn z (.gap w :: ps') ps →
    EndsIn z (stmtsPieces (stmtsRelayout g ss) ps') (stmtsPieces ss ps)
  | [], _, _, _, hg, h => by
    obtain rfl := hg
    exact endsIn_empty.mp h
  | s :: ss, _, _, _, hg, h => by
    obtain ⟨_, hs, hrest⟩ := EndsIn.before hg (stmtsPieces_of_nil ss)
      (fun hss => stmts_endsIn ss hss h) h
    exact Stmt.endsIn s hs hrest

theorem Stmt.endsIn : ∀ (s : Stmt) {w : String} {ps ps' : List Piece}, g.Extends w s.tokens →
    EndsIn z (.gap w :: ps') ps →
    EndsIn z ((s.relayout g).pieces ps') (s.pieces ps)
  | .expr value _, _, _, _, hg, h => by
    obtain ⟨hvalue, hsemicolon⟩ := Relayout.Extends.last hg
    exact Expr.endsIn value hvalue (.replay_extended hsemicolon h)
  | .empty _, _, _, _, hg, h => .replay_extended hg h
  | .conditional first others, _, _, _, hg, h => by
    obtain ⟨_, hfirst, hrest⟩ := EndsIn.before hg others.pieces_of_nil
      (fun hothers => Ladder.endsIn others hothers h) h
    exact Guarded.endsIn first hfirst hrest
  | .while loop, _, _, _, hg, h => Guarded.endsIn loop hg h
  | .for _ _ init _ test _ update _ body, _, _, _, hg, h => by
    obtain ⟨hkeyword, hg⟩ := Relayout.Extends.cons hg
    obtain ⟨hopening, hg⟩ := hg.cons
    obtain ⟨hinit, hg⟩ := hg.split
    obtain ⟨hfirst, hg⟩ := hg.cons
    obtain ⟨htest, hg⟩ := hg.split
    obtain ⟨hsecond, hg⟩ := hg.cons
    obtain ⟨hupdate, hg⟩ := hg.split
    obtain ⟨hclosing, hbody⟩ := hg.cons body.tokens_ne_nil
    exact .replay hkeyword (.replay hopening (ForInit.endsIn init hinit (.replay hfirst
      (exprs_endsIn test htest (.replay hsecond (exprs_endsIn update hupdate
        (.replay hclosing (Block.endsIn body hbody h))))))))
  | .forIn _ _ _ _ _ object _ body, _, _, _, hg, h => by
    obtain ⟨hkeyword, hg⟩ := Relayout.Extends.cons hg
    obtain ⟨hopening, hg⟩ := hg.cons
    obtain ⟨hvar, hg⟩ := hg.split
    obtain ⟨hname, hg⟩ := hg.cons
    obtain ⟨hin, hg⟩ := hg.cons
    obtain ⟨hobject, hg⟩ := hg.split
    obtain ⟨hclosing, hbody⟩ := hg.cons body.tokens_ne_nil
    exact .replay hkeyword (.replay hopening (.replay? hvar (.replay hname (.replay hin
      (Expr.endsIn object hobject (.replay hclosing (Block.endsIn body hbody h)))))))
  | .jump _ _ _, _, _, _, hg, h => by
    obtain ⟨hkeyword, hg⟩ := Relayout.Extends.cons hg
    obtain ⟨hlabel, hsemicolon⟩ := hg.last
    exact .replay hkeyword (.replay? hlabel (.replay_extended hsemicolon h))
  | .return _ none _, _, _, _, hg, h => by
    obtain ⟨hkeyword, hsemicolon⟩ := Relayout.Extends.cons hg
    exact .replay hkeyword (.replay_extended hsemicolon h)
  | .return _ (some value) _, _, _, _, hg, h => by
    obtain ⟨hkeyword, hg⟩ := Relayout.Extends.cons hg
    obtain ⟨hvalue, hsemicolon⟩ := hg.last
    exact .replay hkeyword (Expr.endsIn value hvalue (.replay_extended hsemicolon h))
  | .throw _ value _, _, _, _, hg, h => by
    obtain ⟨hkeyword, hg⟩ := Relayout.Extends.cons hg
    obtain ⟨hvalue, hsemicolon⟩ := hg.last
    exact .replay hkeyword (Expr.endsIn value hvalue (.replay_extended hsemicolon h))
  | .vars list _, _, _, _, hg, h => by
    obtain ⟨hlist, hsemicolon⟩ := Relayout.Extends.last hg
    exact VarList.endsIn list hlist (.replay_extended hsemicolon h)
  | .function f, _, _, _, hg, h => Func.endsIn f hg h
  | .labeled _ _ body, _, _, _, hg, h => by
    obtain ⟨hlabel, hg⟩ := Relayout.Extends.cons hg
    obtain ⟨hcolon, hbody⟩ := hg.cons body.tokens_ne_nil
    exact .replay hlabel (.replay hcolon (Stmt.endsIn body hbody h))
  | .switch _ _ subject _ _ clauses _, _, _, _, hg, h => by
    obtain ⟨hkeyword, hg⟩ := Relayout.Extends.cons hg
    obtain ⟨hopening, hg⟩ := hg.cons
    obtain ⟨hsubject, hg⟩ := hg.split
    obtain ⟨hclosing, hg⟩ := hg.cons
    obtain ⟨hopenBrace, hg⟩ := hg.cons
    obtain ⟨hclauses, hcloseBrace⟩ := hg.last
    exact .replay hkeyword (.replay hopening (Expr.endsIn subject hsubject
      (.replay hclosing (.replay hopenBrace (clauses_endsIn clauses hclauses
        (.replay_extended hcloseBrace h))))))
  | .block b, _, _, _, hg, h => Block.endsIn b hg h
  | .include x, _, _, _, hg, h => x.endsIn hg h
  | .declare x, _, _, _, hg, h => x.endsIn hg h

theorem Guarded.endsIn : ∀ (x : Guarded) {w : String} {ps ps' : List Piece},
    g.Extends w x.tokens → EndsIn z (.gap w :: ps') ps →
    EndsIn z ((x.relayout g).pieces ps') (x.pieces ps)
  | ⟨_, _, test, _, body⟩, _, _, _, hg, h => by
    obtain ⟨hkeyword, hg⟩ := Relayout.Extends.cons hg
    obtain ⟨hopening, hg⟩ := hg.cons
    obtain ⟨htest, hg⟩ := hg.split
    obtain ⟨hclosing, hbody⟩ := hg.cons body.tokens_ne_nil
    exact .replay hkeyword (.replay hopening (Expr.endsIn test htest
      (.replay hclosing (Block.endsIn body hbody h))))

theorem Ladder.endsIn : ∀ (l : Ladder) {w : String} {ps ps' : List Piece},
    g.Extends w l.tokens → EndsIn z (.gap w :: ps') ps →
    EndsIn z ((l.relayout g).pieces ps') (l.pieces ps)
  | .done, _, _, _, hg, h => by
    obtain rfl := hg
    exact endsIn_empty.mp h
  | .otherwise _ body, _, _, _, hg, h => by
    obtain ⟨hkeyword, hbody⟩ := Relayout.Extends.cons hg body.tokens_ne_nil
    exact .replay hkeyword (Block.endsIn body hbody h)
  | .branch _ next others, _, _, _, hg, h => by
    obtain ⟨hkeyword, hg⟩ := Relayout.Extends.cons hg (by simp [next.tokens_ne_nil])
    obtain ⟨_, hnext, hrest⟩ := EndsIn.before hg others.pieces_of_nil
      (fun hothers => Ladder.endsIn others hothers h) h
    exact .replay hkeyword (Guarded.endsIn next hnext hrest)

theorem ForInit.endsIn : ∀ (i : ForInit) {ps ps' : List Piece}, g.Keeps i.tokens →
    EndsIn z ps' ps → EndsIn z ((i.relayout g).pieces ps') (i.pieces ps)
  | .exprs items, _, _, hg, h => exprs_endsIn items hg h
  | .vars list, _, _, hg, h => VarList.endsIn list hg h

theorem VarList.endsIn : ∀ (l : VarList) {ps ps' : List Piece}, g.Keeps l.tokens →
    EndsIn z ps' ps → EndsIn z ((l.relayout g).pieces ps') (l.pieces ps)
  | ⟨_, items⟩, _, _, hg, h => by
    obtain ⟨hkeyword, hitems⟩ := keeps_cons.mp hg
    exact .replay hkeyword (decls_endsIn items hitems h)

theorem decls_endsIn : ∀ (ds : Separated Decl) {ps ps' : List Piece}, g.Keeps (declsTokens ds) →
    EndsIn z ps' ps →
    EndsIn z (declsPieces (declsRelayout g ds) ps') (declsPieces ds ps)
  | .nil, _, _, _, h => h
  | .one d, _, _, hg, h => Decl.endsIn d hg h
  | .more d _ ds, _, _, hg, h => by
    simp only [declsTokens, keeps_cons, keeps_append] at hg
    obtain ⟨hd, hcomma, hds⟩ := hg
    exact Decl.endsIn d hd (.replay hcomma (decls_endsIn ds hds h))

theorem Decl.endsIn : ∀ (d : Decl) {ps ps' : List Piece}, g.Keeps d.tokens →
    EndsIn z ps' ps → EndsIn z ((d.relayout g).pieces ps') (d.pieces ps)
  | ⟨_, none⟩, _, _, hg, h => .replay (keeps_cons.mp hg).1 h
  | ⟨_, some (_, value)⟩, _, _, hg, h => by
    simp only [Decl.tokens, keeps_cons] at hg
    obtain ⟨hname, hequals, hvalue⟩ := hg
    exact .replay hname (.replay hequals (Expr.endsIn value hvalue h))

theorem clauses_endsIn : ∀ (cs : List Clause) {ps ps' : List Piece}, g.Keeps (clausesTokens cs) →
    EndsIn z ps' ps →
    EndsIn z (clausesPieces (clausesRelayout g cs) ps') (clausesPieces cs ps)
  | [], _, _, _, h => h
  | ⟨_, none, _, body⟩ :: cs, _, _, hg, h => by
    simp only [clausesTokens, keeps_cons, keeps_append] at hg
    obtain ⟨hkeyword, hcolon, hbody, hcs⟩ := hg
    have hrest := clauses_endsIn cs hcs h
    exact .replay hkeyword (.replay hcolon
      (stmts_endsIn body hbody.extends (endsIn_empty.mpr hrest)))
  | ⟨_, some test, _, body⟩ :: cs, _, _, hg, h => by
    simp only [clausesTokens, keeps_cons, keeps_append] at hg
    obtain ⟨hkeyword, htest, hcolon, hbody, hcs⟩ := hg
    have hrest := clauses_endsIn cs hcs h
    exact .replay hkeyword (Expr.endsIn test htest (.replay hcolon
      (stmts_endsIn body hbody.extends (endsIn_empty.mpr hrest))))

end

end Trees

/-- The output of statements in another layout, before that of other pieces. -/
theorem stmts_output {g : Relayout} {w : String} {ss : List Stmt} (h : g.Extends w (stmtsTokens ss))
    (ps : List Piece) : Piece.join (stmtsPieces (stmtsRelayout g ss) ps) =
      Piece.join (stmtsPieces ss []) ++ (w ++ Piece.join ps) := by
  have hlaid : EndsIn "" (stmtsPieces (stmtsRelayout g ss) ps) (stmtsPieces ss (.gap w :: ps)) := by
    refine stmts_endsIn ss h ?_
    rw [EndsIn, String.append_empty]
  rw [EndsIn, String.append_empty, join_stmtsPieces ss, join_cons] at hlaid
  exact hlaid

end Respell
