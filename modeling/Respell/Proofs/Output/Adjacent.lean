import Respell.Proofs.Output.Rescan

/-!
# What stands side by side in the output

A token of the source was read where it stands, before the text that follows it there. In the output other
text may follow it. This module compares the two: `Ends` and `Leads` say how what is written after a place
relates to what the source has there, `Ends` for places after an operand and `Leads` for all others. Both
are as weak as the grammar allows. From them follows that a token that is written back is accounted for,
and what holds of the place before it.
-/

namespace Respell

open Text

/-! ## Readings without trivia -/

/-- The tokens were read from `p` to `q`, and no trivia stands at `p`. -/
structure Sited (p : Place) (ts : List Token) (q : Place) : Prop where
  trimmed : Trivia.length p.rest = 0
  reading : Reading p ts q

section Taken

variable {p q : Place} {t : Token}

/-- The trivia after a token is that of the source, and no more of it follows. -/
theorem Taken.trailing (h : Taken p t q) :
    Trivia.length (t.trailing.toList ++ q.rest) = t.trailing.toList.length ∧
      Trivia.length q.rest = 0 := by
  obtain ⟨kind, n, htake⟩ := h.eq_takeToken
  obtain ⟨rfl, rfl⟩ := Prod.mk.inj htake
  have hsplit := text_append_rest (p.advance n) (Trivia.length (p.advance n).rest)
  refine ⟨?_, Trivia.length_drop_length _⟩
  refine (congrArg Trivia.length hsplit).trans ?_
  rw [Place.toList_text, List.length_take_of_le (Trivia.length_le _)]

theorem Taken.rest_ne_nil (h : Taken p t q) (hk : t.kind ≠ .endOfFile) : p.rest ≠ [] := by
  have hlength := h.length_lt hk
  intro hp
  rw [hp] at hlength
  exact Nat.not_lt_zero _ hlength

/-- A token that is no literal was recognised as a lexeme. -/
theorem Taken.next? (h : Taken p t q) (hk : t.kind.isQuoted = false) :
    Lexeme.next? p.rest = some (t.kind, t.text.toList.length) := by
  cases h with
  | scanned h =>
      obtain ⟨kind, n, hlex, htake, _⟩ := next_ok h
      rw [kind_of_takeToken htake, text_of_takeToken htake,
        List.length_take_of_le (lexemeAt_of_next? hlex).length_le]
      exact hlex
  | quoted h =>
      obtain ⟨n, _, htake⟩ := quoted_ok h
      rw [kind_of_takeToken htake, Quoted.kind] at hk
      split at hk <;> cases hk

theorem Taken.rest_eq (h : Taken p t q) : p.rest = t.text.toList ++ (t.trailing.toList ++ q.rest) := by
  rw [h.rest, Token.source, String.toList_append, List.append_assoc]

end Taken

namespace Sited

variable {p q r : Place} {t : Token} {ts us : List Token}

theorem uncons (h : Sited p (t :: ts) r) : ∃ q, Taken p t q ∧ Sited q ts r := by
  cases h.reading with
  | cons ht hts => exact ⟨_, ht, ht.trailing.2, hts⟩

theorem single (h : Sited p [t] q) : Taken p t q := by
  obtain ⟨_, ht, hnil⟩ := h.uncons
  cases hnil.reading
  exact ht

/-- After a reading no trivia stands either. -/
theorem trimmed_end (h : Sited p ts q) : Trivia.length q.rest = 0 := by
  obtain ⟨hp, hreading⟩ := h
  induction hreading with
  | nil => exact hp
  | cons ht _ ih => exact ih ht.trailing.2

/-- Text is left before a reading if some is left after it. -/
theorem rest_ne_nil (h : Sited p ts q) (hq : q.rest ≠ []) : p.rest ≠ [] := by
  have hlength := h.reading.length_le
  intro hp
  rw [hp] at hlength
  exact hq (List.eq_nil_of_length_eq_zero (Nat.le_zero.mp hlength))

theorem split (h : Sited p (ts ++ us) r) : ∃ q, Sited p ts q ∧ Sited q us r := by
  obtain ⟨q, hts, hus⟩ := h.reading.split
  have hsited : Sited p ts q := ⟨h.trimmed, hts⟩
  exact ⟨q, hsited, hsited.trimmed_end, hus⟩

end Sited

/-! ## How the output goes on -/

/-- An operand ends before `tail`, which is written where the source has `s`: what comes is inert, or a
    mark or an operator that stands in the source too. -/
inductive Ends (s : List Char) (tail : List Piece) : Prop where
  | inert : s ≠ [] → Inert (chars tail) → Ends s tail
  | mark {c : Char} :
      c ∈ ['=', '>', ':'] → s.head? = some c → (chars tail).head? = some c → Ends s tail
  | word {t : Token} {rest : List Piece} :
      tail = .token t :: rest → t.text ∈ [Word.in.text, Word.instanceof.text] → s.head? = some 'i' →
      Ends s tail

/-- What `tail` begins with, which is written where the source has `s`: the end of both, the end of an
    operand, a token that stands in the source too, or the keyword of a function that has none there. -/
inductive Leads (s : List Char) (tail : List Piece) : Prop where
  | done : s = [] → chars tail = [] → Leads s tail
  | ends : Ends s tail → Leads s tail
  | token {t : Token} {rest : List Piece} {c : Char} :
      tail = .token t :: rest → s.head? = some c → (chars tail).head? = some c → c ≠ '.' → Leads s tail
  | function {rest : List Piece} :
      s ≠ [] → tail = .added Word.function.text :: rest → Leads s tail

/-- An operator that begins with a slash may stand before `tail`: it neither begins with a star nor, unless the
    source does, with a slash. -/
def Starts (q : Place) (tail : List Piece) : Prop :=
  ∀ c ∈ (chars tail).head?, c ≠ '*' ∧ (c = '/' → q.rest.head? = some '/')

/-- An operand may stand before `tail`, which is accounted for. -/
def Closing (q : Place) (tail : List Piece) : Prop := Accounted tail ∧ Ends q.rest tail

/-- A mark or a reserved word may stand before `tail`, which is accounted for. -/
def Opening (q : Place) (tail : List Piece) : Prop := Accounted tail ∧ Leads q.rest tail

/-- What is written is accounted for, and ends if the source does. -/
def Finishing (q : Place) (tail : List Piece) : Prop := Accounted tail ∧ (q.rest = [] → chars tail = [])

section Relations

variable {s : List Char} {tail : List Piece} {q : Place}

theorem head_of_word {t : Token} (h : t.text ∈ [Word.in.text, Word.instanceof.text]) (rest : List Piece) :
    (chars (.token t :: rest)).head? = some 'i' := by
  have hhead : ∀ text ∈ [Word.in.text, Word.instanceof.text], text.toList.head? = some 'i' := by decide
  rw [chars_cons, List.head?_append, show (Piece.token t).text.toList.head? = some 'i' from hhead _ h]
  rfl

theorem Ends.ne_nil (h : Ends s tail) : s ≠ [] := by
  rintro rfl
  cases h with
  | inert hs _ => exact hs rfl
  | mark _ hs _ => cases hs
  | word _ _ hs => cases hs

/-- What ends an operand is inert, or begins as the source does. -/
theorem Ends.inert_or_head (h : Ends s tail) : Inert (chars tail) ∨
    ((chars tail).head? = s.head? ∧ (chars tail).head? ≠ some '.') := by
  cases h with
  | inert _ htail => exact .inl htail
  | mark hc hs htail =>
      refine .inr ⟨htail.trans hs.symm, ?_⟩
      rw [htail]
      rintro ⟨⟩
      exact absurd hc (by decide)
  | word htail htext hs =>
      subst htail
      rw [head_of_word htext, hs]
      exact .inr ⟨rfl, by decide⟩

/-- The keyword of a function does not end an operand. -/
theorem Ends.ne_function (h : Ends s tail) (rest : List Piece) :
    tail ≠ .added Word.function.text :: rest := by
  rintro rfl
  have hhead : (chars (.added Word.function.text :: rest)).head? = some 'f' := by
    rw [chars_cons]
    rfl
  cases h with
  | inert _ htail => exact absurd (htail.1 'f' hhead).1 (by decide)
  | mark hc _ htail =>
      cases hhead.symm.trans htail
      exact absurd hc (by decide)
  | word htail _ _ => cases htail

theorem Leads.nil_of_nil (h : Leads s tail) (hs : s = []) : chars tail = [] := by
  cases h with
  | done _ htail => exact htail
  | ends h => exact (h.ne_nil hs).elim
  | token _ hhead _ _ =>
      rw [hs] at hhead
      cases hhead
  | function hne _ => exact (hne hs).elim

/-- What comes is the keyword of a function, or it is inert or begins as the source does. -/
theorem Leads.cases (h : Leads s tail) : (∃ rest, tail = .added Word.function.text :: rest) ∨
    (∀ rest, tail ≠ .added Word.function.text :: rest) ∧ (Inert (chars tail) ∨
      ((chars tail).head? = s.head? ∧ (chars tail).head? ≠ some '.')) := by
  cases h with
  | done _ htail =>
      refine .inr ⟨?_, .inl (by rw [htail]; exact inert_nil)⟩
      rintro rest rfl
      rw [chars_cons] at htail
      cases htail
  | ends h => exact .inr ⟨h.ne_function, h.inert_or_head⟩
  | token htail hs hhead hdot =>
      refine .inr ⟨?_, .inr ⟨hhead.trans hs.symm, fun h => hdot (Option.some.inj (hhead.symm.trans h))⟩⟩
      subst htail
      rintro rest ⟨⟩
  | function _ htail => exact .inl ⟨_, htail⟩

theorem Closing.opening (h : Closing q tail) : Opening q tail := ⟨h.1, .ends h.2⟩

theorem Opening.finishing (h : Opening q tail) : Finishing q tail := ⟨h.1, h.2.nil_of_nil⟩

theorem Closing.finishing (h : Closing q tail) : Finishing q tail := h.opening.finishing

/-- Trivia of the source is skipped before what is written after it. -/
theorem Finishing.gap {text : String} (h : Finishing q tail)
    (htext : Trivia.length (text.toList ++ q.rest) = text.toList.length) : Accounted (.gap text :: tail) := by
  refine .gap ?_ h.1
  by_cases hq : q.rest = []
  · rw [hq] at htext
    rw [h.2 hq, htext, Trivia.length_nil, Nat.add_zero]
  · exact Trivia.closed_of_length hq htext (chars tail)

end Relations

/-! ## Tokens that are written back -/

theorem chars_replay (t : Token) (tail : List Piece) :
    chars (t.replay tail) = t.text.toList ++ (t.trailing.toList ++ chars tail) := by
  rw [Token.replay, chars_cons, chars_cons]
  rfl

theorem touches_replay (t : Token) (tail : List Piece) : touches (t.replay tail) =
    (t.kind.isWord && t.trailing.isEmpty && tail.head? == some (.added Word.function.text)) := by
  cases tail with
  | nil => simp [Token.replay, touches]
  | cons piece rest => rfl

theorem touches_replay_eq_false (t : Token) {tail : List Piece}
    (h : ∀ rest, tail ≠ .added Word.function.text :: rest) : touches (t.replay tail) = false := by
  rw [touches_replay]
  cases tail with
  | nil => simp
  | cons piece rest =>
      have hpiece : (piece == .added Word.function.text) = false :=
        beq_eq_false_iff_ne.mpr fun heq => h rest (by rw [heq])
      simp [hpiece]

theorem Token.Scanned.isQuoted {t : Token} {k : Kind} (h : t.Scanned k) : t.kind.isQuoted = false := by
  obtain ⟨cs, n, hlex, _⟩ := h.lexemeAt
  rw [h.kind]
  exact hlex.isQuoted

/-- A character of identifiers begins no trivia. -/
theorem start_of_isIdentifierPart {c : Char} (h : isIdentifierPart c = true) :
    isBlank c = false ∧ c ∉ ['/', '#'] := by
  constructor
  · cases hc : isBlank c with
    | false => rfl
    | true =>
        rw [isIdentifierPart_of_isBlank hc] at h
        cases h
  · exact notMem_of_class h (by decide)

/-- Names, numbers and reserved words. -/
def Kind.isWordLike : Kind → Bool
  | .identifier | .number | .word _ => true
  | _ => false

/-- Names, numbers and reserved words begin with characters of identifiers. -/
theorem LexemeAt.head_part {cs : List Char} {k : Kind} {n : Nat} (h : LexemeAt cs k n)
    (hk : k.isWordLike = true) : ∃ c ds, cs = c :: ds ∧ isIdentifierPart c = true := by
  cases h with
  | @number c cs hc => exact ⟨c, cs, rfl, isIdentifierPart_of_isWordChar (isWordChar_of_isDigit hc)⟩
  | @word cs w hword =>
      cases cs with
      | nil => cases hword
      | cons c cs =>
          by_cases hc : isWordChar c = true
          · exact ⟨c, cs, rfl, isIdentifierPart_of_isWordChar hc⟩
          -- The empty text is no reserved word.
          · rw [List.takeWhile_cons_of_neg hc] at hword
            cases hword
  | @identifier c cs hc => exact ⟨c, cs, rfl, isIdentifierPart_of_isIdentifierStart hc⟩
  | endOfFile => cases hk
  | mark _ => cases hk
  | includePragma _ => cases hk
  | declarePragma _ => cases hk

theorem Token.Scanned.head_part {t : Token} {k : Kind} (h : t.Scanned k) (hk : k.isWordLike = true) :
    ∃ c cs, t.text.toList = c :: cs ∧ isIdentifierPart c = true := by
  obtain ⟨cs, n, hlex, htext⟩ := h.lexemeAt
  obtain ⟨c, ds, rfl, hc⟩ := hlex.head_part hk
  obtain ⟨m, rfl⟩ : ∃ m, n = m + 1 :=
    Nat.exists_eq_add_one.mpr (hlex.length_pos (by rintro rfl; cases hk))
  exact ⟨c, ds.take m, htext, hc⟩

/-- The marks that begin with a slash. -/
def slashMarks : List Punct := [.slash, .divideAssign]

/-- No other mark begins like trivia. -/
theorem length_mark {m : Punct} (hm : m ∉ slashMarks) (r : List Char) :
    Trivia.length (m.text.toList ++ r) = 0 := by
  obtain ⟨c, cs, hchars, hblank, hc⟩ : ∃ c cs, m.chars = c :: cs ∧ isBlank c = false ∧ c ∉ ['/', '#'] := by
    revert hm
    cases m <;> first
      | exact fun _ => ⟨_, _, rfl, by decide, by decide⟩
      | exact fun hm => absurd (by decide) hm
  rw [Punct.text, String.toList_ofList, hchars]
  exact Trivia.length_eq_zero_iff.mpr (Trivia.piece_eq_zero hblank hc)

/-- A mark that nothing lengthens, as a piece. -/
theorem accounted_mark {piece : Piece} {m : Punct} {ps : List Piece}
    (hlexeme : piece.lexeme? = some piece.text) (hliteral : piece.isLiteral = false)
    (htext : piece.text = m.text) (hm : m ∉ slashMarks) (hr : Apart (.punct m) (chars ps))
    (htouch : touches (piece :: ps) = false) (h : Accounted ps) : Accounted (piece :: ps) := by
  have hnext : Lexeme.next? m.text.toList = some (.punct m, m.text.toList.length) := by
    cases m <;> decide
  have hagain := next?_append hnext hr
  rw [List.take_length] at hagain
  refine accounted_lexeme hlexeme hliteral (by rw [htext]; exact hagain) htouch ?_ h
  rw [htext]
  exact length_mark hm _

/-- Delimiters and separators: marks that nothing lengthens. -/
def finalMarks : List Punct :=
  [.openParen, .closeParen, .openBracket, .closeBracket, .openBrace, .closeBrace, .comma, .semicolon]

theorem isFinal_of_mem {m : Punct} (h : m ∈ finalMarks) (r : List Char) : Apart (.punct m) r := by
  have hfinal : ∀ m ∈ finalMarks, m.IsFinal := by decide
  exact (hfinal m h).apart r

theorem notMem_slashMarks {m : Punct} (h : m ∈ finalMarks) : m ∉ slashMarks := by
  have hnone : ∀ m ∈ finalMarks, m ∉ slashMarks := by decide
  exact hnone m h

/-- A delimiter or a separator is inert. -/
theorem inert_final {m : Punct} (h : m ∈ finalMarks) (r : List Char) : Inert (m.text.toList ++ r) := by
  obtain ⟨c, cs, hchars, hc, hmark⟩ : ∃ c cs, m.chars = c :: cs ∧ isIdentifierPart c = false ∧
      c ∉ ['=', '>', ':', '.'] := by
    revert h
    cases m <;> first
      | exact fun _ => ⟨_, _, rfl, by decide, by decide⟩
      | exact fun hm => absurd hm (by decide)
  rw [Punct.text, String.toList_ofList, hchars]
  exact inert_cons hc hmark

/-- No name, number or reserved word begins like trivia. -/
theorem length_wordLike {text r : List Char} (h : ∃ c cs, text = c :: cs ∧ isIdentifierPart c = true) :
    Trivia.length (text ++ r) = 0 := by
  obtain ⟨c, cs, rfl, hc⟩ := h
  obtain ⟨hblank, hother⟩ := start_of_isIdentifierPart hc
  exact Trivia.length_eq_zero_iff.mpr (Trivia.piece_eq_zero hblank hother)

theorem touches_token {t : Token} (h : t.kind.isWord = false) (ps : List Piece) :
    touches (.token t :: ps) = false := by
  unfold touches
  split
  · next heq =>
      cases heq
      simp [h]
  · next heq => cases heq
  · rfl

theorem Token.Scanned.inert_final {t : Token} {m : Punct} (ht : t.Scanned (.punct m)) (hm : m ∈ finalMarks)
    (ps : List Piece) : Inert (chars (.token t :: ps)) := by
  rw [chars_cons, show (Piece.token t).text = m.text from ht.text_punct]
  exact Respell.inert_final hm (chars ps)

/-- A delimiter or a separator that is written back, whatever follows it. -/
theorem Token.Scanned.accounted_final {t : Token} {m : Punct} {ps : List Piece} (ht : t.Scanned (.punct m))
    (hm : m ∈ finalMarks) (h : Accounted ps) : Accounted (.token t :: ps) := by
  refine accounted_mark rfl ht.isQuoted ht.text_punct (notMem_slashMarks hm) (isFinal_of_mem hm _) ?_ h
  exact touches_token (by rw [ht.kind]; rfl) ps

namespace Taken

variable {p q : Place} {t : Token} {tail : List Piece} (h : Taken p t q)

include h

/-- The trivia of a token is skipped before what is written after it. -/
theorem accounted_gap (hf : Finishing q tail) : Accounted (.gap t.trailing :: tail) :=
  hf.gap h.trailing.1

/-- Trivia after a token begins as trivia does. -/
theorem piece_trailing (hne : t.trailing ≠ "") :
    ∃ c w, t.trailing.toList = c :: w ∧ Trivia.piece (c :: (w ++ q.rest)) ≠ 0 := by
  have hlength := h.trailing.1
  cases htrailing : t.trailing.toList with
  | nil => exact (hne (String.toList_eq_nil_iff.mp htrailing)).elim
  | cons c w =>
      refine ⟨c, w, rfl, ?_⟩
      intro hzero
      rw [htrailing, List.cons_append, Trivia.length_eq_zero_iff.mpr hzero] at hlength
      cases hlength

theorem inert_trailing (hne : t.trailing ≠ "") (r : List Char) : Inert (t.trailing.toList ++ r) := by
  obtain ⟨c, w, htrailing, hpiece⟩ := h.piece_trailing hne
  rw [htrailing]
  exact inert_trivia hpiece (w ++ r)

theorem inert_gap (htail : Inert (chars tail)) : Inert (chars (.gap t.trailing :: tail)) := by
  rw [chars_gap]
  by_cases hne : t.trailing = ""
  · rw [hne]
    exact htail
  · exact h.inert_trailing hne (chars tail)

/-- A token is not lengthened by what is inert or begins as the source does after it. -/
theorem apart {r : List Char} (hk : t.kind.isQuoted = false) (heof : t.kind ≠ .endOfFile)
    (hr : Inert r ∨ (r.head? = q.rest.head? ∧ r.head? ≠ some '.')) :
    Apart t.kind (t.trailing.toList ++ r) := by
  by_cases hne : t.trailing = ""
  · have hnext := h.next? hk
    rw [h.rest_eq, hne] at hnext
    rw [hne]
    rcases hr with hr | ⟨hhead, hdot⟩
    · exact hr.apart heof
    · exact apart_of_next? hnext hhead hdot
  · exact (h.inert_trailing hne r).apart heof

/-- A token that is not lengthened and begins no trivia is accounted for. -/
theorem accounted (hk : t.kind.isQuoted = false) (hr : Apart t.kind (t.trailing.toList ++ chars tail))
    (htouch : touches (t.replay tail) = false)
    (htrivia : Trivia.length (t.text.toList ++ (t.trailing.toList ++ chars tail)) = 0)
    (hf : Finishing q tail) : Accounted (t.replay tail) := by
  have hnext := next?_append (h.next? hk) hr
  have htake : p.rest.take t.text.toList.length = t.text.toList := by rw [h.rest_eq, List.take_left]
  rw [htake] at hnext
  rw [← chars_gap] at hnext htrivia
  exact accounted_lexeme rfl hk hnext htouch htrivia (h.accounted_gap hf)

/-- A token begins in the output as it does in the source. -/
theorem head_replay (tail : List Piece) {c : Char} {cs : List Char} (htext : t.text.toList = c :: cs) :
    p.rest.head? = some c ∧ (chars (t.replay tail)).head? = some c := by
  rw [h.rest_eq, chars_replay, htext]
  exact ⟨rfl, rfl⟩

/-- No mark is lengthened by what comes after it. -/
theorem apart_mark {m : Punct} (hm : t.Scanned (.punct m)) (hl : Leads q.rest tail) :
    Apart (.punct m) (t.trailing.toList ++ chars tail) := by
  have hk := hm.isQuoted
  rcases hl.cases with ⟨rest, rfl⟩ | ⟨_, hr⟩
  · by_cases hne : t.trailing = ""
    · rw [hne, chars_cons]
      exact apart_punct (by decide)
    · exact (h.inert_trailing hne _).apart (by rintro ⟨⟩)
  · rw [← hm.kind]
    exact h.apart hk (by rw [hm.kind]; rintro ⟨⟩) hr

/-- A mark ends an operand before it. -/
theorem ends_mark {m : Punct} (hm : t.Scanned (.punct m)) (hdot : m ∉ [.dot, .ellipsis]) :
    Ends p.rest (t.replay tail) := by
  obtain ⟨c, cs, hchars, hc⟩ : ∃ c cs, m.chars = c :: cs ∧ (c ∈ ['=', '>', ':'] ∨
      isIdentifierPart c = false ∧ c ∉ ['=', '>', ':', '.']) := by
    revert hdot
    cases m <;> first
      | exact fun _ => ⟨_, _, rfl, by decide⟩
      | exact fun hdot => absurd (by decide) hdot
  have htext : t.text.toList = c :: cs := by rw [hm.text_punct, Punct.text, String.toList_ofList, hchars]
  obtain ⟨hp, htail⟩ := h.head_replay tail htext
  rcases hc with hc | ⟨hpart, hc⟩
  · exact .mark hc hp htail
  · refine .inert (fun hnil => by rw [hnil] at hp; cases hp) ?_
    rw [chars_replay, htext]
    exact inert_cons hpart hc

/-- A mark may be followed by anything that begins as it does in the source, and by a function. -/
theorem mark {m : Punct} (hm : t.Scanned (.punct m)) (hslash : m ∉ slashMarks)
    (hdot : m ∉ [.dot, .ellipsis]) (ho : Opening q tail) : Closing p (t.replay tail) := by
  have hr := h.apart_mark hm ho.2
  rw [← chars_gap] at hr
  refine ⟨accounted_mark rfl hm.isQuoted hm.text_punct hslash hr (touches_token (by rw [hm.kind]; rfl) _)
    (h.accounted_gap ho.finishing), h.ends_mark hm hdot⟩

/-- A delimiter or a separator may be followed by anything. -/
theorem final {m : Punct} (hm : t.Scanned (.punct m)) (hfinal : m ∈ finalMarks) (hf : Finishing q tail) :
    Closing p (t.replay tail) := by
  have hdot : ∀ m ∈ finalMarks, m ∉ [.dot, .ellipsis] := by decide
  exact ⟨hm.accounted_final hfinal (h.accounted_gap hf), h.ends_mark hm (hdot m hfinal)⟩

/-- After a dot comes a name. -/
theorem dot (hm : t.Scanned (.punct .dot)) {c : Char} {cs : List Char} (hc : isIdentifierStart c = true)
    (htail : chars tail = c :: cs) (ho : Opening q tail) : Closing p (t.replay tail) := by
  have hr := h.apart_mark hm ho.2
  have htext : t.text.toList = ['.'] := by rw [hm.text_punct]; rfl
  have hp : p.rest ≠ [] := by
    rw [h.rest_eq, htext]
    exact List.cons_ne_nil _ _
  rw [← chars_gap] at hr
  refine ⟨accounted_mark rfl hm.isQuoted hm.text_punct (by decide) hr
    (touches_token (by rw [hm.kind]; rfl) _) (h.accounted_gap ho.finishing), .inert hp ?_⟩
  rw [chars_replay, htext]
  by_cases hne : t.trailing = ""
  · rw [hne, htail]
    refine inert_dot ?_ (isDigit_of_isIdentifierStart hc)
    rintro rfl
    exact absurd hc (by decide)
  -- What trivia begins with is neither a dot nor a digit.
  · obtain ⟨d, w, htrailing, hpiece⟩ := h.piece_trailing hne
    rw [htrailing]
    refine inert_dot ?_ ?_
    · rintro rfl
      exact hpiece (Trivia.piece_eq_zero (by decide) (by decide))
    · cases hd : d.isDigit with
      | false => rfl
      | true =>
          obtain ⟨hblank, hother⟩ :=
            start_of_isIdentifierPart (isIdentifierPart_of_isWordChar (isWordChar_of_isDigit hd))
          exact (hpiece (Trivia.piece_eq_zero hblank hother)).elim

/-- A name, a number or a reserved word begins as it does in the source. -/
theorem leads {k : Kind} (hk : t.Scanned k) (hword : k.isWordLike = true) :
    Leads p.rest (t.replay tail) := by
  obtain ⟨c, cs, htext, hc⟩ := hk.head_part hword
  obtain ⟨hp, htail⟩ := h.head_replay tail htext
  refine .token rfl hp htail ?_
  rintro rfl
  exact absurd hc (by decide)

/-- A name, a number or a reserved word that is not lengthened. -/
theorem wordLike {k : Kind} (hk : t.Scanned k) (hword : k.isWordLike = true)
    (hr : Apart t.kind (t.trailing.toList ++ chars tail)) (htouch : touches (t.replay tail) = false)
    (hf : Finishing q tail) : Opening p (t.replay tail) :=
  ⟨h.accounted hk.isQuoted hr htouch (length_wordLike (hk.head_part hword)) hf, h.leads hk hword⟩

/-- A name, a number or a constant is followed by the end of an operand. -/
theorem operand {k : Kind} (hk : t.Scanned k) (hword : k.isWordLike = true) (hc : Closing q tail) :
    Opening p (t.replay tail) := by
  have heof : t.kind ≠ .endOfFile := by
    rw [hk.kind]
    rintro rfl
    cases hword
  exact h.wordLike hk hword (h.apart hk.isQuoted heof hc.2.inert_or_head)
    (touches_replay_eq_false t hc.2.ne_function) hc.finishing

/-- A reserved word may be followed by anything that begins as it does in the source. A function right after
    it touches it. -/
theorem reserved {w : Word} (hw : t.Scanned (.word w)) (ho : Opening q tail) :
    Opening p (t.replay tail) := by
  have hword : t.kind ≠ .endOfFile := by
    rw [hw.kind]
    rintro ⟨⟩
  rcases ho.2.cases with ⟨rest, rfl⟩ | ⟨hne, hr⟩
  · refine ⟨?_, h.leads hw rfl⟩
    by_cases hblank : t.trailing = ""
    -- With nothing between them the word runs on into the keyword, and `touches` says so.
    · obtain ⟨c, cs, htext, hc⟩ := word_start w
      have hall : w.text.toList.all isWordChar = true := by cases w <;> decide
      have htouch : touches (t.replay (.added Word.function.text :: rest)) = true := by
        rw [touches_replay, hw.kind, hblank]
        rfl
      have hliteral : (Piece.token t).isLiteral = false := hw.isQuoted
      have hnot : ¬ (Piece.token t).Recognised
          (chars (.gap t.trailing :: .added Word.function.text :: rest)) := by
        rw [chars_cons, chars_cons, hblank]
        have hpiece : (Piece.token t).text.toList = c :: cs := by
          rw [← htext, ← hw.text_word]
          rfl
        exact not_recognised hliteral hpiece hc (by rwa [← htext]) (by decide)
      have htrivia := length_wordLike (r := t.trailing.toList ++ chars (.added Word.function.text :: rest))
        (hw.head_part rfl)
      rw [← chars_replay] at htrivia
      exact .lexeme rfl (iff_of_false hnot fun hfalse => nomatch htouch.symm.trans hfalse)
        (iff_of_true htrivia (swallows_eq_false hliteral _)) (h.accounted_gap ho.finishing)
    · have htouch : touches (t.replay (.added Word.function.text :: rest)) = false := by
        rw [touches_replay, show t.trailing.isEmpty = false by simpa using hblank]
        simp
      exact (h.wordLike hw rfl ((h.inert_trailing hblank _).apart hword) htouch ho.finishing).1
  · exact h.wordLike hw rfl (h.apart hw.isQuoted hword hr) (touches_replay_eq_false t hne) ho.finishing

/-- An operator that is a word ends the operand before it. -/
theorem wordOperator {w : Word} (hw : t.Scanned (.word w)) (hop : w ∈ [.in, .instanceof])
    (ho : Opening q tail) : Closing p (t.replay tail) := by
  obtain ⟨hmem, cs, htext⟩ : w.text ∈ [Word.in.text, Word.instanceof.text] ∧
      ∃ cs, w.text.toList = 'i' :: cs := by
    rcases List.mem_cons.mp hop with rfl | hop
    · exact ⟨by decide, _, rfl⟩
    · cases List.mem_singleton.mp hop
      exact ⟨by decide, _, rfl⟩
  rw [← hw.text_word] at hmem htext
  exact ⟨(h.reserved hw ho).1, .word rfl hmem (h.head_replay tail htext).1⟩

/-- An operator that begins with a slash begins no trivia before such text. -/
theorem length_slash {cs : List Char} (htext : t.text.toList = '/' :: cs) (hcs : cs = [] ∨ cs = ['='])
    (hp : Trivia.length p.rest = 0) (htail : Starts q tail) :
    Trivia.length (t.text.toList ++ (t.trailing.toList ++ chars tail)) = 0 := by
  -- A second slash in the source would have made a comment.
  have hp' (ds : List Char) : p.rest ≠ '/' :: '/' :: ds := by
    intro hrest
    rw [hrest, Trivia.length_eq_zero_iff] at hp
    change 2 + _ = 0 at hp
    omega
  rw [Trivia.length_eq_zero_iff, htext]
  cases hpiece : Trivia.piece ('/' :: cs ++ (t.trailing.toList ++ chars tail)) with
  | zero => rfl
  | succ n =>
      exfalso
      obtain ⟨_, c, ds, hcons, hc⟩ :=
        Trivia.piece_slash (by rw [← List.cons_append, hpiece]; exact Nat.succ_ne_zero n)
      rcases hcs with rfl | rfl
      · by_cases hne : t.trailing = ""
        · rw [hne] at hcons
          obtain ⟨hstar, hsource⟩ := htail c (by rw [show chars tail = c :: ds from hcons]; rfl)
          obtain ⟨es, hes⟩ := List.head?_eq_some_iff.mp (hsource (hc.resolve_right hstar))
          exact hp' es (by rw [h.rest_eq, htext, hne, hes]; rfl)
        · obtain ⟨d, w, htrailing, hpiece⟩ := h.piece_trailing hne
          rw [htrailing] at hcons
          obtain ⟨rfl, _⟩ := List.cons.inj hcons
          rcases hc with rfl | rfl
          · exact hp' (w ++ q.rest) (by rw [h.rest_eq, htext, htrailing]; rfl)
          · exact hpiece (Trivia.piece_eq_zero (by decide) (by decide))
      · cases hcons
        exact absurd hc (by decide)

/-- An operator that begins with a slash, which would be a comment before a star or another slash. -/
theorem slash {m : Punct} (hm : t.Scanned (.punct m)) (hslash : m ∈ slashMarks)
    (hp : Trivia.length p.rest = 0) (htail : Starts q tail) (ho : Opening q tail) :
    Closing p (t.replay tail) := by
  obtain ⟨cs, htext, hcs⟩ : ∃ cs, t.text.toList = '/' :: cs ∧ (cs = [] ∨ cs = ['=']) := by
    rw [hm.text_punct]
    rcases List.mem_cons.mp hslash with rfl | hslash
    · exact ⟨[], rfl, .inl rfl⟩
    · cases List.mem_singleton.mp hslash
      exact ⟨['='], rfl, .inr rfl⟩
  have hdot : ∀ m ∈ slashMarks, m ∉ [.dot, .ellipsis] := by decide
  have hr := h.apart_mark hm ho.2
  rw [← hm.kind] at hr
  exact ⟨h.accounted hm.isQuoted hr (touches_token (by rw [hm.kind]; rfl) _)
    (h.length_slash htext hcs hp htail) ho.finishing, h.ends_mark hm (hdot m hslash)⟩

/-- A literal was read as one. -/
theorem length? (hq : t.Quoted) : ∃ c cs, t.text.toList = c :: cs ∧ c ∈ ['"', '\'', '/'] ∧
    t.kind = Quoted.kind c ∧ Quoted.length? p.rest = some t.text.toList.length := by
  obtain ⟨c, cs, htext, hc, hkind⟩ := hq.head
  refine ⟨c, cs, htext, hc, hkind, ?_⟩
  cases h with
  | scanned h =>
      obtain ⟨k, n, hlex, htake, _⟩ := next_ok h
      rw [kind_of_takeToken htake] at hkind
      have hnone := (lexemeAt_of_next? hlex).isQuoted
      rw [hkind, Quoted.kind] at hnone
      split at hnone <;> cases hnone
  | quoted h =>
      obtain ⟨n, hlength, htake⟩ := quoted_ok h
      have hn : t.text.toList.length = n := by
        rw [text_of_takeToken htake]
        cases hrest : p.rest with
        | nil =>
            rw [hrest] at hlength
            cases hlength
        | cons d ds =>
            rw [hrest] at hlength
            exact List.length_take_of_le (Quoted.length?_le hlength)
      rw [hn]
      exact hlength

/-- A regular expression begins no trivia, unless it is a comment together with what is written after it. -/
theorem length_regex {cs : List Char} (htext : t.text.toList = '/' :: cs) (hkind : t.kind = .regex)
    (hcs : cs ≠ []) (hp : Trivia.length p.rest = 0) :
    Trivia.length (chars (t.replay tail)) = 0 ↔ swallows (t.replay tail) = false := by
  cases cs with
  | nil => exact (hcs rfl).elim
  | cons d cs =>
      -- Two slashes are a comment in the source already.
      have hd : d ≠ '/' := by
        rintro rfl
        rw [h.rest_eq, htext, Trivia.length_eq_zero_iff] at hp
        change 2 + _ = 0 at hp
        omega
      rw [Trivia.length_eq_zero_iff, chars_replay, htext]
      by_cases hstar : d = '*'
      -- In the source the comment was not closed. It depends on what is written later whether it is now.
      · subst hstar
        have hswallow : swallows (t.replay tail) =
            (Trivia.throughClose? (cs ++ (t.trailing.toList ++ chars tail))).isSome := by
          have hregex : (t.kind == .regex) = true := beq_iff_eq.mpr hkind
          rw [Token.replay, swallows, htext, hregex, chars_cons]
          rfl
        rw [hswallow]
        change ((Trivia.throughClose? (cs ++ (t.trailing.toList ++ chars tail))).map (· + 2)).getD 0 = 0 ↔ _
        cases Trivia.throughClose? (cs ++ (t.trailing.toList ++ chars tail)) with
        | none => exact iff_of_true rfl rfl
        | some k => exact iff_of_false (Nat.succ_ne_zero _) (by simp)
      · have hswallow : swallows (t.replay tail) = false := by
          have hprefix : ['/', '*'].isPrefixOf t.text.toList = false := by
            have hne : ('*' == d) = false := beq_eq_false_iff_ne.mpr (Ne.symm hstar)
            simp [htext, List.isPrefixOf, hne]
          simp [Token.replay, swallows, hprefix]
        refine iff_of_true ?_ hswallow
        cases hpiece : Trivia.piece ('/' :: d :: cs ++ (t.trailing.toList ++ chars tail)) with
        | zero => rfl
        | succ n =>
            exfalso
            obtain ⟨_, c, ds, hcons, hc⟩ :=
              Trivia.piece_slash (by rw [← List.cons_append, hpiece]; exact Nat.succ_ne_zero n)
            obtain ⟨rfl, _⟩ := List.cons.inj hcons
            exact hc.elim hd hstar

/-- A literal is recognised before the end of an operand. -/
theorem recognised_literal (hq : t.Quoted) (hc : Closing q tail) :
    (Piece.token t).Recognised (chars (.gap t.trailing :: tail)) := by
  obtain ⟨c, cs, htext, _, hkind, hlength⟩ := h.length? hq
  have heof : Quoted.kind c ≠ .endOfFile := by
    unfold Quoted.kind
    split <;> rintro ⟨⟩
  have hliteral : (Piece.token t).isLiteral = true := by
    rw [Piece.isLiteral, hkind, Quoted.kind]
    split <;> rfl
  have hrest := h.rest_eq
  rw [htext, List.cons_append] at hrest
  rw [hrest, htext] at hlength
  -- A string ends with its mark. Only the flags of a regular expression could go on.
  have hapart : Apart (Quoted.kind c) (t.trailing.toList ++ chars tail) := by
    by_cases hne : t.trailing = ""
    · rw [hne] at hlength ⊢
      rcases hc.2.inert_or_head with hr | ⟨hhead, _⟩
      · exact hr.apart heof
      · exact Quoted.apart_of_length? hlength hhead
    · exact (h.inert_trailing hne _).apart heof
  have hagain := Quoted.length?_append hlength hapart
  rw [← List.cons_append, List.take_left] at hagain
  have hpiece : (Piece.token t).text.toList = c :: cs := htext
  refine ⟨Quoted.kind c, (c :: cs).length, ?_, by rw [hpiece, List.take_left]⟩
  rw [hliteral, recognise, if_pos rfl, hpiece, chars_gap, hagain]
  rfl

/-- A literal is followed by the end of an operand. -/
theorem literal (hq : t.Quoted) (hp : Trivia.length p.rest = 0) (hc : Closing q tail) :
    Opening p (t.replay tail) := by
  obtain ⟨c, cs, htext, hquote, hkind, hlength⟩ := h.length? hq
  have hword : t.kind.isWord = false := by
    rw [hkind, Quoted.kind]
    split <;> rfl
  have htrivia : Trivia.length (chars (t.replay tail)) = 0 ↔ swallows (t.replay tail) = false := by
    by_cases hslash : c = '/'
    · subst hslash
      refine h.length_regex htext hkind ?_ hp
      rintro rfl
      rw [h.rest_eq, htext] at hlength
      exact absurd (Quoted.two_le_length? hlength) (by decide)
    · have hregex : t.kind ≠ .regex := by
        rw [hkind, Quoted.kind, if_neg hslash]
        rintro ⟨⟩
      have hblank : isBlank c = false := eq_false_of_mem hquote (by decide)
      have hhash : (c == '#') = false := eq_false_of_mem (p := (· == '#')) hquote (by decide)
      have hother : c ∉ ['/', '#'] := by simpa [hslash] using hhash
      refine iff_of_true ?_ (by simp [Token.replay, swallows, hregex])
      rw [chars_replay, htext]
      exact Trivia.length_eq_zero_iff.mpr (Trivia.piece_eq_zero hblank hother)
  obtain ⟨hhead, hhead'⟩ := h.head_replay tail htext
  refine ⟨.lexeme rfl (iff_of_true (h.recognised_literal hq hc) (touches_token hword _)) htrivia
    (h.accounted_gap hc.finishing), .token rfl hhead hhead' ?_⟩
  rintro rfl
  exact absurd hquote (by decide)

end Taken

/-! ## From what follows to what comes before -/

/-- The tokens `ts`, wherever they were read, are written as `ps` before `tail`: if `post` holds of `tail`, then
    `pre` holds of `ps`. -/
def Carries (pre : Place → List Piece → Prop) (ts : List Token) (ps : List Piece)
    (post : Place → List Piece → Prop) (tail : List Piece) : Prop :=
  ∀ ⦃p q : Place⦄, Sited p ts q → post q tail → pre p ps

namespace Carries

variable {R S T : Place → List Piece → Prop} {t : Token} {ts us : List Token} {ps mid tail : List Piece}

theorem nil (h : ∀ q, R q tail → S q tail) : Carries S [] tail R tail := by
  intro p q hs hr
  cases hs.reading
  exact h p hr

theorem append (h : Carries T ts ps S mid) (h' : Carries S us mid R tail) : Carries T (ts ++ us) ps R tail := by
  intro p q hs hr
  obtain ⟨r, hts, hus⟩ := hs.split
  exact h hts (h' hus hr)

theorem cons (h : Carries T [t] ps S mid) (h' : Carries S us mid R tail) : Carries T (t :: us) ps R tail := by
  intro p q hs hr
  obtain ⟨r, ht, hus⟩ := hs.uncons
  exact h ⟨hs.trimmed, .single ht⟩ (h' hus hr)

theorem opening (h : Carries Closing ts ps R tail) : Carries Opening ts ps R tail :=
  fun _ _ hs hr => (h hs hr).opening

theorem finishing (h : Carries Opening ts ps R tail) : Carries Finishing ts ps R tail :=
  fun _ _ hs hr => (h hs hr).finishing

/-- What may stand before anything may stand before the end of an operand. -/
theorem before_closing (h : Carries R ts ps Finishing tail) : Carries R ts ps Closing tail :=
  fun _ _ hs hc => h hs hc.finishing

theorem before_opening (h : Carries R ts ps Finishing tail) : Carries R ts ps Opening tail :=
  fun _ _ hs ho => h hs ho.finishing

end Carries

section Scanned

variable {t : Token} {tail : List Piece}

theorem Token.Scanned.final {m : Punct} (h : t.Scanned (.punct m)) (hm : m ∈ finalMarks) :
    Carries Closing [t] (t.replay tail) Finishing tail :=
  fun _ _ hs hf => hs.single.final h hm hf

theorem Token.Scanned.mark {m : Punct} (h : t.Scanned (.punct m)) (hslash : m ∉ slashMarks)
    (hdot : m ∉ [.dot, .ellipsis]) : Carries Closing [t] (t.replay tail) Opening tail :=
  fun _ _ hs ho => hs.single.mark h hslash hdot ho

theorem Token.Scanned.operand {k : Kind} (h : t.Scanned k) (hk : k.isWordLike = true) :
    Carries Opening [t] (t.replay tail) Closing tail :=
  fun _ _ hs hc => hs.single.operand h hk hc

theorem Token.Scanned.reserved {w : Word} (h : t.Scanned (.word w)) :
    Carries Opening [t] (t.replay tail) Opening tail :=
  fun _ _ hs ho => hs.single.reserved h ho

theorem Token.Scanned.wordOperator {w : Word} (h : t.Scanned (.word w)) (hop : w ∈ [.in, .instanceof]) :
    Carries Closing [t] (t.replay tail) Opening tail :=
  fun _ _ hs ho => hs.single.wordOperator h hop ho

theorem Token.Quoted.literal (h : t.Quoted) : Carries Opening [t] (t.replay tail) Closing tail :=
  fun _ _ hs hc => hs.single.literal h hs.trimmed hc

theorem Token.IsKey.carries (h : t.IsKey) : Carries Opening [t] (t.replay tail) Closing tail := by
  rcases h with hname | ⟨hquoted, _⟩
  · exact hname.operand rfl
  · exact hquoted.literal

end Scanned

end Respell
