import Respell.Compile

/-!
# Text between lexemes

What is written between two lexemes matters where a line ends in it: in JavaScript a line that ends right after
`return` ends the statement. Pieces are put before others one by one, and a word that is added must be
followed by a lexeme at once or after a blank.
-/

namespace Respell

open Text

/-! ## Text before the next lexeme -/

theorem join_cons (piece : Piece) (ps : List Piece) :
    Piece.join (piece :: ps) = piece.text ++ Piece.join ps := by
  simp [Piece.join]

/-- Blanks and comments are no lexemes. -/
def Piece.isGap : Piece → Bool
  | .gap _ => true
  | _ => false

/-- The text that is written before the next lexeme. -/
def gapText (ps : List Piece) : String := Piece.join (ps.takeWhile Piece.isGap)

/-- Whether a line ends in the text, inside a comment or not. -/
def breaksLine (text : String) : Bool := text.toList.any isLineBreak

/-- The pieces begin with a lexeme. -/
def BeginsLexeme (ps : List Piece) : Prop := ∃ p rest, ps = p :: rest ∧ p.isGap = false

theorem BeginsLexeme.gapText_eq {ps : List Piece} (h : BeginsLexeme ps) : gapText ps = "" := by
  obtain ⟨p, rest, rfl, hp⟩ := h
  rw [gapText, List.takeWhile_cons, hp]
  rfl

theorem gapText_gap {ps : List Piece} (h : BeginsLexeme ps) (text : String) :
    gapText (.gap text :: ps) = text := by
  have hrest := h.gapText_eq
  rw [gapText] at hrest
  rw [gapText, List.takeWhile_cons_of_pos rfl, Piece.join, List.map_cons, String.join_cons]
  change text ++ Piece.join (ps.takeWhile Piece.isGap) = text
  rw [hrest, String.append_empty]

/-- A head begins with a lexeme, of the source or added. -/
theorem Head.pieces_beginsLexeme (h : Head) (tail : List Piece) : BeginsLexeme (h.pieces tail) := by
  cases h with
  | array elements =>
      obtain ⟨opening, items, closing⟩ := elements
      exact ⟨_, _, rfl, rfl⟩
  | function f =>
      obtain ⟨keyword, name, params, receiver, ⟨opening, body, closing⟩⟩ := f
      cases keyword with
      | none => exact ⟨_, _, rfl, rfl⟩
      | some keyword => exact ⟨_, _, rfl, rfl⟩
  | _ => exact ⟨_, _, rfl, rfl⟩

theorem Expr.pieces_beginsLexeme : ∀ (e : Expr) (tail : List Piece), BeginsLexeme (e.pieces tail)
  | .head h, tail => h.pieces_beginsLexeme tail
  | .suffix leading s, tail => leading.pieces_beginsLexeme (s.pieces tail)

/-! ## Added words -/

/-- Some pieces are put before `tail`, and no line ends between an added `return` and the next lexeme. -/
inductive Unsevered : List Piece → List Piece → Prop where
  | refl {tail : List Piece} : Unsevered tail tail
  | cons {p : Piece} {ps tail : List Piece} :
      (p = .added "return" → breaksLine (gapText ps) = false) → Unsevered ps tail → Unsevered (p :: ps) tail

namespace Unsevered

variable {ps tail : List Piece}

theorem suffix (h : Unsevered ps tail) : tail <:+ ps := by
  induction h with
  | refl => exact List.suffix_refl _
  | cons _ _ ih => exact ih.trans (List.suffix_cons _ _)

theorem trans {mid : List Piece} (h : Unsevered ps mid) (h' : Unsevered mid tail) : Unsevered ps tail := by
  induction h with
  | refl => exact h'
  | cons hp _ ih => exact .cons hp (ih h')

theorem gap (text : String) (h : Unsevered ps tail) : Unsevered (.gap text :: ps) tail :=
  .cons (by rintro ⟨⟩) h

theorem token (t : Token) (h : Unsevered ps tail) : Unsevered (.token t :: ps) tail :=
  .cons (by rintro ⟨⟩) h

theorem respelt (t : Token) (text : String) (h : Unsevered ps tail) : Unsevered (.respelt t text :: ps) tail :=
  .cons (by rintro ⟨⟩) h

/-- A lexeme may be added with a blank after it. -/
theorem spaced (text : String) (hps : BeginsLexeme ps) (h : Unsevered ps tail) :
    Unsevered (.added text :: .blank :: ps) tail := by
  refine .cons (fun _ => ?_) (h.gap " ")
  rw [Piece.blank, gapText_gap hps]
  decide

/-- A lexeme other than `return` may be added before anything. -/
theorem other {text : String} (htext : text ≠ "return") (h : Unsevered ps tail) :
    Unsevered (.added text :: ps) tail := by
  refine .cons ?_ h
  rintro ⟨⟩
  exact absurd rfl htext

theorem replay (t : Token) (h : Unsevered ps tail) : Unsevered (t.replay ps) tail := .token t (.gap _ h)

theorem replay? (o : Option Token) (h : Unsevered ps tail) : Unsevered (Respell.replay? o ps) tail := by
  cases o with
  | none => exact h
  | some t => exact h.replay t

end Unsevered

/-! Runs of added pieces are checked by evaluation, whatever names they hold. -/

/-- The next lexeme comes at once, or after one blank. -/
def followsAtOnce : List Piece → Bool
  | .gap text :: p :: _ => text == " " && !p.isGap
  | p :: _ => !p.isGap
  | [] => false

/-- Every added `return` is followed by a lexeme at once or after one blank. -/
def keepsReturns : List Piece → Bool
  | [] => true
  | .added text :: rest => (followsAtOnce rest || text != "return") && keepsReturns rest
  | _ :: rest => keepsReturns rest

theorem onLine_of_followsAtOnce {ps : List Piece} (h : followsAtOnce ps = true) (tail : List Piece) :
    breaksLine (gapText (ps ++ tail)) = false := by
  unfold followsAtOnce at h
  split at h
  · next text p rest =>
      simp only [Bool.and_eq_true, beq_iff_eq, Bool.not_eq_true'] at h
      obtain ⟨rfl, hp⟩ := h
      rw [List.cons_append, List.cons_append, gapText_gap ⟨p, rest ++ tail, rfl, hp⟩]
      decide
  · next p rest _ =>
      rw [List.cons_append, BeginsLexeme.gapText_eq ⟨p, rest ++ tail, rfl, by simpa using h⟩]
      rfl
  · cases h

theorem Unsevered.front {ps tail : List Piece} (front : List Piece) (hfront : keepsReturns front = true)
    (h : Unsevered ps tail) : Unsevered (front ++ ps) tail := by
  induction front with
  | nil => exact h
  | cons p rest ih =>
      cases p with
      | added text =>
          simp only [keepsReturns, Bool.and_eq_true, Bool.or_eq_true, bne_iff_ne] at hfront
          refine .cons ?_ (ih hfront.2)
          rintro ⟨⟩
          exact onLine_of_followsAtOnce (hfront.1.resolve_right fun hne => hne rfl) ps
      | gap text => exact .gap text (ih hfront)
      | token t => exact .token t (ih hfront)
      | respelt t text => exact .respelt t text (ih hfront)

end Respell
