import Respell.Proofs.Output.Adjacent

/-!
# What is inserted into the output

Lexemes that the source does not have are written before and after its own tokens: the statements at the
beginning of a function's body, the keywords and braces of arrow functions, the members that prototypes
become. Each of them is accounted for, and so is what stands around them.
-/

namespace Respell

open Text

/-! ## Lexemes that are added -/

section Added

variable {text : String} {ps : List Piece}

theorem accounted_blank (h : Accounted ps) : Accounted (.blank :: ps) :=
  .gap (Trivia.length_blank (by decide) (chars ps)) h

theorem touches_added (hname : text ≠ "prototype") : touches (.added text :: ps) = false := by
  unfold touches
  split
  · next heq => cases heq
  · next heq =>
      cases heq
      simp [hname]
  · rfl

theorem accounted_added_mark (m : Punct) (hm : m ∉ slashMarks) (hr : Apart (.punct m) (chars ps))
    (h : Accounted ps) : Accounted (.added m.text :: ps) :=
  accounted_mark rfl rfl rfl hm hr (touches_added (by cases m <;> decide)) h

theorem accounted_final (htext : text ∈ finalMarks.map Punct.text) (h : Accounted ps) :
    Accounted (.added text :: ps) := by
  obtain ⟨m, hm, rfl⟩ := List.mem_map.mp htext
  exact accounted_added_mark m (notMem_slashMarks hm) (isFinal_of_mem hm _) h

/-- The text is a name, a number or a reserved word. -/
def isWordText (text : String) : Bool :=
  (Lexeme.next? text.toList).any fun found => found.1.isWordLike && found.2 == text.toList.length

theorem isWordText_iff : isWordText text = true ↔ ∃ k : Kind, k.isWordLike = true ∧
    Lexeme.next? text.toList = some (k, text.toList.length) := by
  unfold isWordText
  cases hnext : Lexeme.next? text.toList with
  | none => simp
  | some found =>
      obtain ⟨k, n⟩ := found
      simp only [Option.any_some, Bool.and_eq_true, beq_iff_eq]
      constructor
      · rintro ⟨hk, rfl⟩
        exact ⟨k, hk, rfl⟩
      · rintro ⟨k', hk, heq⟩
        cases heq
        exact ⟨hk, rfl⟩

/-- A name, a number or a reserved word before inert text. -/
theorem accounted_word (hword : isWordText text = true) (hr : Inert (chars ps))
    (htouch : touches (.added text :: ps) = false) (h : Accounted ps) : Accounted (.added text :: ps) := by
  obtain ⟨k, hk, hnext⟩ := isWordText_iff.mp hword
  have hagain := next?_append hnext (hr.apart (by rintro rfl; cases hk))
  rw [List.take_length] at hagain
  exact accounted_lexeme rfl rfl hagain htouch (length_wordLike ((lexemeAt_of_next? hnext).head_part hk)) h

/-- A name is recognised by itself. -/
theorem Token.Scanned.next?_name {t : Token} (h : t.Scanned .identifier) :
    Lexeme.next? t.text.toList = some (.identifier, t.text.toList.length) := by
  obtain ⟨p, q, h⟩ := h
  obtain ⟨hnext, hkind⟩ := Parser.expect_ok_iff.mp h
  obtain ⟨kind, n, hlex, htake, _⟩ := next_ok hnext
  rw [kind_of_takeToken htake] at hkind
  subst hkind
  have hagain := next?_append (r := []) hlex (by rintro c ⟨⟩)
  rw [List.append_nil, ← text_of_takeToken htake] at hagain
  rw [hagain, text_of_takeToken htake, List.length_take_of_le (lexemeAt_of_next? hlex).length_le]

theorem Token.Scanned.isWordText {t : Token} (h : t.Scanned .identifier) :
    isWordText t.text = true := isWordText_iff.mpr ⟨.identifier, rfl, h.next?_name⟩

theorem isWordText_toString (n : Nat) : isWordText (toString n) = true := by
  refine isWordText_iff.mpr ⟨.number, rfl, ?_⟩
  have hdigits : ∀ c ∈ (toString n).toList, c.isDigit = true := by
    intro c hc
    exact Nat.isDigit_of_mem_toDigits (b := 10) (by decide) (by decide) (by simpa using hc)
  have hnumber : Lexeme.number ((toString n).toList ++ []) = _ := number_run hdigits (by rintro c ⟨⟩)
  rw [List.append_nil] at hnumber
  cases htext : (toString n).toList with
  | nil => simp at htext
  | cons c cs =>
      rw [htext] at hdigits hnumber
      unfold Lexeme.next?
      dsimp only
      rw [if_pos (hdigits c List.mem_cons_self), hnumber]
      rfl

/-- The text begins with a blank or with a mark that lengthens nothing. -/
def startsInert (text : String) : Bool :=
  text.toList.head?.any fun c => !isIdentifierPart c && !(['=', '>', ':', '.'].contains c)

theorem inert_of_startsInert {piece : Piece} (h : startsInert piece.text = true) (ps : List Piece) :
    Inert (chars (piece :: ps)) := by
  unfold startsInert at h
  rw [chars_cons]
  cases htext : piece.text.toList with
  | nil =>
      rw [htext] at h
      cases h
  | cons c cs =>
      rw [htext, List.head?_cons, Option.any_some, Bool.and_eq_true, Bool.not_eq_true', Bool.not_eq_true'] at h
      exact inert_cons h.1 (by simpa using h.2)

/-- A name, a number or a reserved word before a piece that begins with a blank or with most marks. -/
theorem accounted_word_before {piece : Piece} (hword : isWordText text = true)
    (hpiece : startsInert piece.text = true) (htouch : touches (.added text :: piece :: ps) = false)
    (h : Accounted (piece :: ps)) : Accounted (.added text :: piece :: ps) :=
  accounted_word hword (inert_of_startsInert hpiece ps) htouch h

/-- A dot before a name. -/
theorem accounted_dot {piece : Piece} {c : Char} {cs : List Char} (htext : piece.text.toList = c :: cs)
    (hc : isIdentifierStart c = true) (h : Accounted (piece :: ps)) :
    Accounted (.added "." :: piece :: ps) := by
  refine accounted_added_mark .dot (by decide) ?_ h
  rw [chars_cons, htext]
  exact apart_punct (notMem_of_class hc (by decide))

/-- What begins with a dot and a name is inert. -/
theorem inert_member {piece : Piece} {c : Char} {cs : List Char} (htext : piece.text.toList = c :: cs)
    (hc : isIdentifierStart c = true) : Inert (chars (.added "." :: piece :: ps)) := by
  rw [chars_added, chars_cons, htext]
  refine inert_dot ?_ (isDigit_of_isIdentifierStart hc)
  rintro rfl
  exact absurd hc (by decide)

end Added

/-! ## Statements at the beginning of a body -/

section Prologue

variable {tail : List Piece}

theorem errorGuard_accounted {handler : Option Token} (h : ∀ t ∈ handler, t.Scanned .identifier)
    (htail : Accounted tail) : Accounted (errorGuard handler tail) := by
  have hclose : Accounted (.added ";" :: .blank :: .added "\x7d" :: tail) :=
    accounted_final (by decide) (accounted_blank (accounted_final (by decide) htail))
  have htest {ps : List Piece} (hps : Accounted ps) : Accounted (.blank :: .added "if" :: .blank ::
      .added "(" :: .added errorName :: .added ")" :: .blank :: .added "\x7b" :: .blank :: ps) := by
    refine accounted_blank (accounted_word_before (by decide) (by decide) rfl (accounted_blank ?_))
    refine accounted_final (by decide) (accounted_word_before (by decide) (by decide) rfl ?_)
    exact accounted_final (by decide) (accounted_blank (accounted_final (by decide) (accounted_blank hps)))
  cases handler with
  | none =>
      have herror : Accounted (.added errorName :: .added ";" :: _) :=
        accounted_word_before (by decide) (by decide) rfl hclose
      exact htest (accounted_word_before (by decide) (by decide) rfl (accounted_blank herror))
  | some t =>
      have hreturn : Accounted (.added "return" :: .added ";" :: _) :=
        accounted_word_before (by decide) (by decide) rfl hclose
      have hargument : Accounted (.added errorName :: .added ")" :: .added ";" :: .blank :: _) :=
        accounted_word_before (by decide) (by decide) rfl
          (accounted_final (by decide) (accounted_final (by decide) (accounted_blank hreturn)))
      exact htest (accounted_word_before (h t rfl).isWordText (by decide) rfl
        (accounted_final (by decide) hargument))

theorem receiverVar_accounted {x : Receiver} (h : x.Formed) (htail : Accounted tail) :
    Accounted (receiverVar x tail) := by
  have hthis : Accounted (.added "this" :: .added ";" :: tail) :=
    accounted_word_before (by decide) (by decide) rfl (accounted_final (by decide) htail)
  have hassign : Accounted (.added "=" :: .blank :: _) :=
    accounted_added_mark .assign (by decide) ((inert_of_startsInert (by decide) _).apart (by decide))
      (accounted_blank hthis)
  refine accounted_blank (accounted_word_before (by decide) (by decide) rfl (accounted_blank ?_))
  exact accounted_word_before h.2.isWordText (by decide) rfl (accounted_blank hassign)

theorem restSlice_accounted {name : Token} (h : name.Scanned .identifier) (index : Nat)
    (htail : Accounted tail) : Accounted (restSlice name index tail) := by
  have hname := h.isWordText
  have hindex : Accounted (.added (toString index) :: .added ")" :: .added ";" :: tail) :=
    accounted_word_before (isWordText_toString index) (by decide) rfl
      (accounted_final (by decide) (accounted_final (by decide) htail))
  have harguments : Accounted (.added "arguments" :: .added "," :: .blank :: _) :=
    accounted_word_before (by decide) (by decide) rfl (accounted_final (by decide) (accounted_blank hindex))
  have hcall : Accounted (.added "." :: .added "call" :: .added "(" :: _) :=
    accounted_dot rfl (by decide)
      (accounted_word_before (by decide) (by decide) rfl (accounted_final (by decide) harguments))
  have hslice : Accounted (.added "." :: .added "slice" :: _) :=
    accounted_dot rfl (by decide) (accounted_word (by decide) (inert_member rfl (by decide)) rfl hcall)
  have harray : Accounted (.added "[" :: .added "]" :: _) :=
    accounted_final (by decide) (accounted_final (by decide) hslice)
  refine accounted_blank (accounted_word_before hname (by decide) rfl (accounted_blank ?_))
  exact accounted_added_mark .assign (by decide) ((inert_of_startsInert (by decide) _).apart (by decide))
    (accounted_blank harray)

/-- What a function's parameters and receiver put at the beginning of its body is accounted for. -/
theorem prologue_accounted {items : Separated Param} {receiver : Option Receiver}
    (hitems : items.Formed Param.Formed) (hreceiver : ∀ x ∈ receiver, x.Formed) (htail : Accounted tail) :
    Accounted (prologue items.items receiver tail) := by
  unfold prologue
  extract_lets slices receivers
  have hslices : Accounted slices := by
    unfold slices
    split
    · next name index hcollected =>
        obtain ⟨dots, hmem⟩ := mem_of_collected? hcollected
        exact restSlice_accounted (hitems.of_mem _ hmem).1 index htail
    · exact htail
  have hreceivers : Accounted receivers := by
    cases receiver with
    | none => exact hslices
    | some a => exact receiverVar_accounted (hreceiver a rfl) hslices
  split
  · next handler hpassed =>
      obtain ⟨mark, hmem⟩ := mem_of_passed? hpassed
      exact errorGuard_accounted (hitems.of_mem _ hmem).2 hreceivers
  · exact hreceivers

end Prologue

/-! ## Parameters -/

section Params

variable {p q : Place} {tail : List Piece}

/-- The trivia of a token that is not written itself. -/
theorem Taken.gap {t : Token} (h : Taken p t q) (hq : q.rest ≠ []) (htail : Accounted tail) :
    Accounted (.gap t.trailing :: tail) :=
  h.accounted_gap ⟨htail, fun hnil => (hq hnil).elim⟩

theorem Param.pieces_accounted {x : Param} (hx : x.Formed) (h : Sited p x.tokens q) (hq : q.rest ≠ [])
    (htail : Accounted tail) (hinert : Inert (chars tail)) : Accounted (x.pieces tail) := by
  cases x with
  | plain name => exact (h.single.operand hx rfl ⟨htail, .inert hq hinert⟩).1
  | pass mark handler =>
      -- The trivia that is kept is that of the last token, be it the mark or the handler.
      obtain ⟨r, hlast⟩ : ∃ r, Taken r (handler.getD mark) q := by
        obtain ⟨r, hmark, h⟩ := h.uncons
        cases handler with
        | none =>
            cases h.reading
            exact ⟨p, hmark⟩
        | some t => exact ⟨r, h.single⟩
      exact accounted_word (by decide) (hlast.inert_gap hinert) (touches_added (by decide)) (hlast.gap hq htail)
  | rest name dots =>
      obtain ⟨r, hname, h⟩ := h.uncons
      have hdots := h.single
      have hr := h.rest_ne_nil hq
      exact (hname.operand hx.1 rfl ⟨hdots.gap hq htail, .inert hr (hdots.inert_gap hinert)⟩).1

/-- The first token of a parameter in place of all of it. -/
theorem Param.firstToken_accounted {x : Param} (hx : x.Formed) (h : Sited p x.tokens q) (hq : q.rest ≠ [])
    (htail : Accounted tail) (hinert : Inert (chars tail)) : Accounted (x.firstToken.replay tail) := by
  cases x with
  | plain name => exact (h.single.operand hx rfl ⟨htail, .inert hq hinert⟩).1
  | pass mark handler =>
      obtain ⟨r, hmark, h⟩ := h.uncons
      have hclosing : Closing r tail := ⟨htail, .inert (h.rest_ne_nil hq) hinert⟩
      exact (hmark.mark hx.1 (by decide) (by decide) hclosing.opening).1
  | rest name dots =>
      obtain ⟨r, hname, h⟩ := h.uncons
      exact (hname.operand hx.1 rfl ⟨htail, .inert (h.rest_ne_nil hq) hinert⟩).1

/-- The parameters of a function, and those of an arrow function. -/
theorem paramsPieces_accounted {items : Separated Param} (hitems : items.Formed Param.Formed)
    (h : Sited p (items.tokens Param.tokens) q) (hq : q.rest ≠ []) (htail : Accounted tail)
    (hinert : Inert (chars tail)) :
    Accounted (paramsPieces items tail) ∧ Accounted (arrowParamsPieces items tail) := by
  induction items generalizing p with
  | nil => exact ⟨htail, htail⟩
  | one x =>
      exact ⟨x.pieces_accounted hitems h hq htail hinert,
        x.firstToken_accounted hitems h hq htail hinert⟩
  | more x comma rest ih =>
      obtain ⟨hx, hcomma, hrest⟩ := hitems
      obtain ⟨r, hhead, h⟩ := h.split
      have hr := h.rest_ne_nil hq
      obtain ⟨r', htaken, h⟩ := h.uncons
      have hr' := h.rest_ne_nil hq
      obtain ⟨hplain, harrow⟩ := ih hrest h
      have hsep {ps : List Piece} (hps : Accounted ps) :
          Accounted (comma.replay ps) ∧ Inert (chars (comma.replay ps)) :=
        ⟨hcomma.accounted_final (by decide) (htaken.gap hr' hps), hcomma.inert_final (by decide) _⟩
      exact ⟨x.pieces_accounted hx hhead hr (hsep hplain).1 (hsep hplain).2,
        x.firstToken_accounted hx hhead hr (hsep harrow).1 (hsep harrow).2⟩

theorem leftover_accounted {texts : List String}
    (hgaps : Accounted (texts.foldr (fun t r => .gap t :: r) tail)) (htail : Accounted tail) :
    Accounted (leftover texts tail) := by
  unfold leftover
  split
  · split
    · exact htail
    · exact accounted_blank htail
  · exact hgaps

/-- The closing parenthesis, whether or not a receiver's name goes after it. -/
theorem closeParams_accounted {closing : Token} {receiver : Option Receiver}
    (hclosing : closing.Scanned (.punct .closeParen))
    (h : Sited p (closing :: (receiver.map Receiver.tokens).getD []) q) (hq : q.rest ≠ [])
    (htail : Accounted tail) : Accounted (closeParams closing receiver tail) := by
  obtain ⟨r, htaken, h⟩ := h.uncons
  cases receiver with
  | none =>
      cases h.reading
      exact hclosing.accounted_final (by decide) (htaken.gap hq htail)
  | some a =>
      -- The trivia of all three tokens is left, or one blank in its place.
      have hr := h.rest_ne_nil hq
      obtain ⟨r', hcolon, h⟩ := h.uncons
      have hgaps := htaken.gap hr (hcolon.gap (h.rest_ne_nil hq) (h.single.gap hq htail))
      exact hclosing.accounted_final (by decide) (leftover_accounted hgaps htail)

theorem closeParams_inert {closing : Token} (hclosing : closing.Scanned (.punct .closeParen))
    (receiver : Option Receiver) (tail : List Piece) : Inert (chars (closeParams closing receiver tail)) := by
  cases receiver <;> exact hclosing.inert_final (by decide) _

end Params

/-! ## Functions -/

section Functions

variable {p q : Place} {tail : List Piece}

theorem functionWord_opening (hp : p.rest ≠ []) (htail : Accounted tail) : Opening p (functionWord tail) :=
  ⟨accounted_word_before (by decide) (by decide) (touches_added (by decide)) (accounted_blank htail),
    .function hp rfl⟩

/-- What stands before a function's body. -/
theorem Func.opening_opening {f : Func} (hf : f.Formed)
    (h : Sited p (f.keyword.toList ++ f.name.toList ++ f.params.tokens ++
      (f.receiver.map Receiver.tokens).getD []) q) (hq : q.rest ≠ []) (htail : Accounted tail) :
    Opening p (f.opening tail) := by
  obtain ⟨keyword, name, ⟨opening, items, closing⟩, receiver, body⟩ := f
  obtain ⟨hkeyword, hname, ⟨hopening, hitems, hclosing⟩, _, _⟩ := hf
  have hp := h.rest_ne_nil hq
  simp only [Params.tokens, List.append_assoc, List.cons_append, List.nil_append] at h
  obtain ⟨p₁, hk, h⟩ := h.split
  obtain ⟨p₂, hn, h⟩ := h.split
  obtain ⟨p₃, ho, h⟩ := h.uncons
  have hp₃ := h.rest_ne_nil hq
  obtain ⟨p₄, hi, h⟩ := h.split
  have hparams := (paramsPieces_accounted hitems hi (h.rest_ne_nil hq)
    (closeParams_accounted hclosing h hq htail) (closeParams_inert hclosing receiver tail)).1
  have hlist := ho.final hopening (by decide) ⟨hparams, fun hnil => (hp₃ hnil).elim⟩
  have hnamed : Opening p₁ (replay? name (opening.replay (paramsPieces items
      (closeParams closing receiver tail)))) := by
    cases name with
    | none =>
        cases hn.reading
        exact hlist.opening
    | some n => exact hn.single.operand (hname n rfl) rfl hlist
  -- The keyword that is added here is the one that may touch a reserved word before it.
  cases keyword with
  | none => exact functionWord_opening hp hnamed.1
  | some k => exact hk.single.reserved (hkeyword k rfl) hnamed

/-- The end of an arrow function ends its value. -/
theorem closeArrow_closing (h : Closing q tail) : Closing q (closeArrow tail) := by
  refine ⟨accounted_final (by decide) (accounted_blank (accounted_final (by decide) h.1)), ?_⟩
  exact .inert h.2.ne_nil (inert_of_startsInert (by decide) _)

/-- The body of an arrow function, if its value is carried. -/
theorem returnBody_accounted {sign : Token} {ts : List Token} {ps : List Piece}
    (hvalue : Carries Opening ts ps Closing (closeArrow tail)) (h : Sited p (sign :: ts) q)
    (hc : Closing q tail) :
    Accounted (.added "\x7b" :: .gap sign.trailing :: .added "return" :: .blank :: ps) := by
  obtain ⟨r, hsign, h⟩ := h.uncons
  refine accounted_final (by decide) (hsign.gap (h.rest_ne_nil hc.2.ne_nil) ?_)
  exact accounted_word_before (by decide) (by decide) (touches_added (by decide))
    (accounted_blank (hvalue h (closeArrow_closing hc)).1)

theorem arrow_carries {params : Params} {sign : Token} {ts : List Token} {ps : List Piece}
    (hparams : params.Formed) (hvalue : Carries Opening ts ps Closing (closeArrow tail)) :
    Carries Opening (params.tokens ++ sign :: ts)
      (functionWord (params.opening.replay (arrowParamsPieces params.items (params.closing.replay
        (.added "\x7b" :: .gap sign.trailing :: .added "return" :: .blank :: ps))))) Closing tail := by
  intro p q h hc
  obtain ⟨hopening, hitems, hclosing⟩ := hparams
  have hp := h.rest_ne_nil hc.2.ne_nil
  simp only [Params.tokens, List.cons_append, List.append_assoc, List.nil_append] at h
  obtain ⟨p₁, ho, h⟩ := h.uncons
  have hp₁ := h.rest_ne_nil hc.2.ne_nil
  obtain ⟨p₂, hi, h⟩ := h.split
  have hp₂ := h.rest_ne_nil hc.2.ne_nil
  obtain ⟨p₃, hcl, h⟩ := h.uncons
  -- From right to left: the body, the parameters, the keyword.
  have hbody := hcl.gap (h.rest_ne_nil hc.2.ne_nil) (returnBody_accounted hvalue h hc)
  have hclose := hclosing.accounted_final (by decide) hbody
  have hlist := (paramsPieces_accounted hitems hi hp₂ hclose (hclosing.inert_final (by decide) _)).2
  exact functionWord_opening hp (hopening.accounted_final (by decide) (ho.gap hp₁ hlist))

theorem simpleArrow_carries {sign : Token} {ts : List Token} {ps : List Piece}
    (hvalue : Carries Opening ts ps Closing (closeArrow tail)) :
    Carries Opening (sign :: ts)
      (functionWord (.added "(" :: .added "_" :: .added ")" :: .blank :: .added "\x7b" ::
        .gap sign.trailing :: .added "return" :: .blank :: ps)) Closing tail := by
  intro p q h hc
  have hp := h.rest_ne_nil hc.2.ne_nil
  have hbody := accounted_blank (returnBody_accounted hvalue h hc)
  have hparam : Accounted (.added "_" :: .added ")" :: _) :=
    accounted_word_before (by decide) (by decide) rfl (accounted_final (by decide) hbody)
  exact functionWord_opening hp (accounted_final (by decide) hparam)

end Functions

/-! ## Operators and members -/

section Operators

variable {p q : Place} {tail : List Piece}

/-- A dot with a name or a reserved word after it. -/
theorem Member.carries {m : Member} (hm : m.FormedWord) :
    Carries Closing m.tokens (m.pieces tail) Closing tail := by
  intro p q h hc
  obtain ⟨hdot, hname, hkind⟩ := hm
  obtain ⟨r, hd, h⟩ := h.uncons
  obtain ⟨c, cs, htext, hstart⟩ : ∃ c cs, m.name.text.toList = c :: cs ∧ isIdentifierStart c = true := by
    rcases hkind with hkind | hword
    · rw [hkind] at hname
      obtain ⟨c, cs, htext, hstart, _⟩ := hname.name_chars
      exact ⟨c, cs, htext, hstart⟩
    · cases hk : m.name.kind with
      | word w =>
          rw [hk] at hname
          rw [hname.text_word]
          exact word_start w
      | _ =>
          rw [hk] at hword
          cases hword
  have hlike : m.name.kind.isWordLike = true := by
    rcases hkind with hkind | hword
    · rw [hkind]
      rfl
    · revert hword
      cases m.name.kind <;> simp [Kind.isWord, Kind.isWordLike]
  have hchars : chars (m.name.replay tail) = c :: (cs ++ (m.name.trailing.toList ++ chars tail)) := by
    rw [chars_replay, htext, List.cons_append]
  exact hd.dot hdot hstart hchars (h.single.operand hname hlike hc)

theorem members_carries {members : List Member} (hmembers : ∀ m ∈ members, m.Formed) :
    Carries Closing (members.flatMap Member.tokens) (members.foldr Member.pieces tail) Closing tail := by
  induction members with
  | nil => exact .nil fun _ hc => hc
  | cons m members ih =>
      obtain ⟨⟨hdot, hname⟩, hmembers⟩ := List.forall_mem_cons.mp hmembers
      have hword : m.FormedWord := ⟨hdot, by rw [hname.kind]; exact hname, .inl hname.kind⟩
      exact (Member.carries hword).append (ih hmembers)

theorem DottedName.carries {d : DottedName} (hd : d.Formed) :
    Carries Opening d.tokens (d.pieces tail) Closing tail :=
  .cons (hd.1.operand rfl) (members_carries hd.2)

/-- A name before dots, which have a meaning as a parameter only. -/
theorem rest_carries {name dots : Token} (hname : name.Scanned .identifier)
    (hdots : dots.Scanned (.punct .ellipsis)) :
    Carries Opening [name, dots] (name.replay (dots.replay tail)) Closing tail := by
  intro p q h hc
  obtain ⟨r, hn, h⟩ := h.uncons
  have hd := h.single
  have hr := hd.apart_mark hdots hc.opening.2
  rw [← chars_gap] at hr
  have hafter : Accounted (dots.replay tail) :=
    accounted_mark rfl hdots.isQuoted hdots.text_punct (by decide) hr
      (touches_token (by rw [hdots.kind]; rfl) _) (hd.accounted_gap hc.finishing)
  -- Dots are not inert, since a mark could go on with them, but a name could not.
  have hapart : Apart name.kind (name.trailing.toList ++ chars (dots.replay tail)) := by
    by_cases hne : name.trailing = ""
    · rw [hname.kind, hne, chars_replay, hdots.text_punct]
      rintro c ⟨⟩
      decide
    · exact (hn.inert_trailing hne _).apart (by rw [hname.kind]; rintro ⟨⟩)
  have hne : r.rest ≠ [] := hd.rest_ne_nil (by rw [hdots.kind]; rintro ⟨⟩)
  exact hn.wordLike hname rfl hapart (touches_token (by rw [hname.kind]; rfl) _)
    ⟨hafter, fun hnil => (hne hnil).elim⟩

theorem touches_prototype (blanks : String) (tail : List Piece) :
    touches (.added "prototype" :: .gap blanks :: tail) = true ↔
      blanks = "" ∧ ∃ t rest, tail = .token t :: rest ∧ t.text ∈ [Word.in.text, Word.instanceof.text] := by
  cases tail with
  | nil => simp [touches]
  | cons piece rest => cases piece <;> simp [touches]

/-- An operator that is a word touches a prototype right before it. Nothing else does. -/
theorem prototype_accounted {colons : Token} (h : Taken p colons q) (hc : Closing q tail) :
    Accounted (.added "prototype" :: .gap colons.trailing :: tail) := by
  have hgap := h.accounted_gap hc.finishing
  by_cases htouch : touches (.added "prototype" :: .gap colons.trailing :: tail) = true
  -- The first letter of the operator goes on with the name.
  · obtain ⟨hblank, t, rest, rfl, htext⟩ := (touches_prototype _ _).mp htouch
    have hhead := head_of_word htext rest
    obtain ⟨cs, hcs⟩ := List.head?_eq_some_iff.mp hhead
    have hnot : ¬ (Piece.added "prototype").Recognised (chars (.gap colons.trailing :: .token t :: rest)) := by
      rw [chars_gap, hblank, hcs]
      exact not_recognised rfl rfl (by decide) (by decide) (by decide)
    refine .lexeme rfl (iff_of_false hnot (by rw [htouch]; decide)) (iff_of_true ?_ rfl) hgap
    rw [chars_added]
    exact Trivia.length_eq_zero_iff.mpr (Trivia.piece_eq_zero (by decide) (by decide))
  -- Nothing else that ends an operand does.
  · have hapart : Apart .identifier (chars (.gap colons.trailing :: tail)) := by
      rw [chars_gap]
      by_cases hblank : colons.trailing = ""
      · rw [hblank]
        cases hc.2 with
        | inert _ hinert => exact hinert.apart (by rintro ⟨⟩)
        | mark hmark _ hhead =>
            intro c hc'
            cases hhead.symm.trans hc'
            exact eq_false_of_mem hmark (by decide)
        | word htail htext _ =>
            exact (htouch ((touches_prototype _ _).mpr ⟨hblank, _, _, htail, htext⟩)).elim
      · exact (h.inert_trailing hblank _).apart (by rintro ⟨⟩)
    have hnext := next?_append (r := chars (.gap colons.trailing :: tail))
      (show Lexeme.next? "prototype".toList = some (.identifier, 9) by decide) hapart
    refine accounted_lexeme rfl rfl hnext (Bool.eq_false_iff.mpr htouch) ?_ hgap
    exact Trivia.length_eq_zero_iff.mpr (Trivia.piece_eq_zero (by decide) (by decide))

/-- A member of the prototype, or the prototype itself. -/
theorem prototypePieces_carries {colons : Token} {name : Option Token}
    (hcolons : colons.Scanned (.punct .doubleColon)) (hname : ∀ n ∈ name, n.Scanned .identifier) :
    Carries Closing (colons :: name.toList) (prototypePieces colons name tail) Closing tail := by
  intro p q h hc
  obtain ⟨r, htaken, h⟩ := h.uncons
  have hp := htaken.rest_ne_nil (by rw [hcolons.kind]; rintro ⟨⟩)
  have hends (ps : List Piece) : Ends p.rest (.added "." :: .added "prototype" :: ps) :=
    .inert hp (inert_member rfl (by decide))
  refine ⟨accounted_dot rfl (by decide) ?_, hends _⟩
  cases name with
  | none =>
      cases h.reading
      exact prototype_accounted htaken hc
  | some n =>
      obtain ⟨c, cs, htext, hstart, _⟩ := (hname n rfl).name_chars
      have hmember : Accounted (.added "." :: n.replay tail) :=
        accounted_dot htext hstart (h.single.operand (hname n rfl) rfl hc).1
      refine accounted_word (by decide) (htaken.inert_gap (inert_member htext hstart)) rfl ?_
      exact htaken.gap (h.rest_ne_nil hc.2.ne_nil) hmember

/-- A comparison that is spelt otherwise. -/
theorem respelt_closing {operator : Token} {m : Punct} (hop : operator.Scanned (.punct m))
    (hm : m ∈ [.equal, .unequal]) (h : Taken p operator q) (ho : Opening q tail) :
    Closing p (.respelt operator (operator.text ++ "=") :: .gap operator.trailing :: tail) := by
  obtain ⟨strict, htext, hslash, hfinal, c, cs, ds, hweak, hstrict, hc⟩ : ∃ strict : Punct,
      m.text ++ "=" = strict.text ∧ strict ∉ slashMarks ∧ strict.IsFinal ∧
      ∃ c cs ds, m.text.toList = c :: cs ∧ strict.text.toList = c :: ds ∧
        (c ∈ ['=', '>', ':'] ∨ isIdentifierPart c = false ∧ c ∉ ['=', '>', ':', '.']) := by
    rcases List.mem_cons.mp hm with rfl | hm
    · exact ⟨.strictEqual, by decide, by decide, by decide, _, _, _, rfl, rfl, by decide⟩
    · cases List.mem_singleton.mp hm
      exact ⟨.strictUnequal, by decide, by decide, by decide, _, _, _, rfl, rfl, by decide⟩
  rw [← hop.text_punct] at htext hweak
  have hp := (h.head_replay tail hweak).1
  have hchars : chars (.respelt operator (operator.text ++ "=") :: .gap operator.trailing :: tail) =
      c :: (ds ++ chars (.gap operator.trailing :: tail)) := by
    rw [chars_cons, ← List.cons_append, ← hstrict, ← htext]
    rfl
  refine ⟨accounted_mark rfl rfl htext hslash (hfinal.apart _) rfl (h.accounted_gap ho.finishing), ?_⟩
  rcases hc with hc | ⟨hpart, hc⟩
  · exact .mark hc hp (by rw [hchars]; rfl)
  · refine .inert (fun hnil => by rw [hnil] at hp; cases hp) ?_
    rw [hchars]
    exact inert_cons hpart hc

/-- An operator before its operand. -/
theorem unary_carries {operator : Token} (hsign : Parser.isPrefixOperator operator.kind = true)
    (hop : operator.Scanned operator.kind) : Carries Opening [operator] (operator.replay tail) Opening tail := by
  cases hk : operator.kind with
  | punct m =>
      rw [hk] at hop hsign
      have hmarks : ∀ m ∈ slashMarks ++ [.dot, .ellipsis],
          Parser.isPrefixOperator (.punct m) = false := by decide
      refine (hop.mark ?_ ?_).opening
      · exact fun hm => nomatch (hmarks m (List.mem_append_left _ hm)).symm.trans hsign
      · exact fun hm => nomatch (hmarks m (List.mem_append_right _ hm)).symm.trans hsign
  | word w =>
      rw [hk] at hop
      exact hop.reserved
  | _ =>
      rw [hk] at hsign
      cases hsign

/-- An operator between two operands. -/
theorem operatorPieces_closing {operator : Token} {s : Precedence}
    (hprec : Precedence.ofKind? operator.kind = some s) (hop : operator.Scanned operator.kind)
    (hp : Trivia.length p.rest = 0) (h : Taken p operator q) (hstarts : Starts q tail) (ho : Opening q tail) :
    Closing p (operatorPieces operator tail) := by
  unfold operatorPieces
  split
  · next hk => exact respelt_closing (by rwa [hk] at hop) (by decide) h ho
  · next hk => exact respelt_closing (by rwa [hk] at hop) (by decide) h ho
  · cases hk : operator.kind with
    | punct m =>
        rw [hk] at hop hprec
        by_cases hslash : m ∈ slashMarks
        · exact h.slash hop hslash hp hstarts ho
        · refine h.mark hop hslash ?_ ho
          have hnone : ∀ m ∈ [Punct.dot, .ellipsis], Precedence.ofKind? (.punct m) = none := by decide
          intro hdot
          cases (hnone m hdot).symm.trans hprec
    | word w =>
        rw [hk] at hop hprec
        have hword : w ∈ [Word.in, .instanceof] := by
          cases w <;> first
            | decide
            | cases hprec
        exact h.wordOperator hop hword ho
    | _ =>
        rw [hk] at hprec
        cases hprec

end Operators

/-! ## Pragmas -/

section Pragmas

variable {p q : Place} {tail : List Piece}

/-- No star is in the text of a name, of a pragma's word, or of one of its marks. -/
theorem Token.Scanned.star_notMem {t : Token} {k : Kind} (h : t.Scanned k)
    (hk : k ∈ [.identifier, .includePragma, .declarePragma, .punct .comma, .punct .colon, .punct .semicolon]) :
    '*' ∉ t.text.toList := by
  obtain ⟨cs, n, hlex, htext⟩ := h.lexemeAt
  cases hlex with
  | identifier =>
      obtain ⟨c, ds, htext, hstart, hpart⟩ := h.name_chars
      rw [htext]
      rintro (_ | ⟨_, hmem⟩)
      · exact absurd hstart (by decide)
      · exact absurd (hpart _ hmem) (by decide)
  | mark hm =>
      rw [h.text_punct]
      revert hk
      cases ‹Punct› <;> decide
  | includePragma hp =>
      rw [htext, ← List.prefix_iff_eq_take.mp hp]
      decide
  | declarePragma hp =>
      rw [htext, ← List.prefix_iff_eq_take.mp hp]
      decide
  | endOfFile => exact absurd hk (by decide)
  | number => exact absurd hk (by decide)
  | word => simp at hk

theorem PragmaItem.star_notMem {item : PragmaItem} (h : item.Formed) : '*' ∉ item.text.toList := by
  cases item with
  | single name => exact Token.Scanned.star_notMem h (by decide)
  | group colon name =>
      rw [PragmaItem.text, String.toList_append, List.mem_append, not_or]
      exact ⟨h.1.star_notMem (by decide), h.2.star_notMem (by decide)⟩

theorem pragmaText_star_notMem {items : Separated PragmaItem} (h : items.Formed PragmaItem.Formed) :
    '*' ∉ (pragmaText items).toList := by
  induction items with
  | nil => decide
  | one item => exact PragmaItem.star_notMem h
  | more item comma items ih =>
      obtain ⟨hitem, hcomma, hitems⟩ := h
      simp only [pragmaText, String.toList_append, List.mem_append, not_or]
      exact ⟨⟨⟨PragmaItem.star_notMem hitem, hcomma.star_notMem (by decide)⟩, by decide⟩, ih hitems⟩

theorem PragmaItem.gaps_accounted (item : PragmaItem) (h : Sited p item.tokens q) (hq : q.rest ≠ [])
    (htail : Accounted tail) : Accounted (item.gaps tail) := by
  cases item with
  | single name => exact h.single.gap hq htail
  | group colon name =>
      obtain ⟨r, hcolon, h⟩ := h.uncons
      exact hcolon.gap (h.rest_ne_nil hq) (h.single.gap hq htail)

theorem pragmaGaps_accounted {items : Separated PragmaItem} (h : Sited p (items.tokens PragmaItem.tokens) q)
    (hq : q.rest ≠ []) (htail : Accounted tail) : Accounted (pragmaGaps items tail) := by
  induction items generalizing p with
  | nil => exact htail
  | one item => exact item.gaps_accounted h hq htail
  | more item comma items ih =>
      obtain ⟨r, hitem, h⟩ := h.split
      have hr := h.rest_ne_nil hq
      obtain ⟨r', hcomma, h⟩ := h.uncons
      exact item.gaps_accounted hitem hr (hcomma.gap (h.rest_ne_nil hq) (ih h))

/-- A pragma is a comment, which nothing in it closes. -/
theorem Pragma.carries {x : Pragma} {k : Kind} (hx : x.Formed k) (hk : k ∈ [.includePragma, .declarePragma]) :
    Carries Opening x.tokens (x.pieces tail) Finishing tail := by
  intro p q h hf
  obtain ⟨hkeyword, hitems, hsemicolon⟩ := hx
  have hstar : k ∈ [.includePragma, .declarePragma] → k ∈ [.identifier, .includePragma, .declarePragma,
      .punct .comma, .punct .colon, .punct .semicolon] := by
    simp only [List.mem_cons, List.not_mem_nil, or_false]
    rintro (rfl | rfl) <;> simp
  have htext : ("/* " ++ x.keyword.text ++ " " ++ pragmaText x.items ++ x.semicolon.text ++ " */").toList =
      '/' :: '*' :: ((" " ++ x.keyword.text ++ " " ++ pragmaText x.items ++ x.semicolon.text ++ " ").toList ++
        ['*', '/']) := by
    simp
  have hclosed : Trivia.Closed ("/* " ++ x.keyword.text ++ " " ++ pragmaText x.items ++ x.semicolon.text ++
      " */").toList := by
    rw [htext]
    refine Trivia.closed_comment ?_
    simp only [String.toList_append, List.mem_append, not_or]
    exact ⟨⟨⟨⟨⟨by decide, hkeyword.star_notMem (hstar hk)⟩, by decide⟩, pragmaText_star_notMem hitems⟩,
      hsemicolon.star_notMem (by decide)⟩, by decide⟩
  obtain ⟨p₁, hword, h⟩ := h.uncons
  obtain ⟨p₂, hlist, h⟩ := h.split
  have hp₂ := h.single.rest_ne_nil (by rw [hsemicolon.kind]; rintro ⟨⟩)
  have hp := hword.rest_ne_nil (by rw [hkeyword.kind]; rintro rfl; simp at hk)
  have hgaps := hword.gap (hlist.rest_ne_nil hp₂) (pragmaGaps_accounted hlist hp₂ (h.single.accounted_gap hf))
  refine ⟨.gap (hclosed _) hgaps, .ends (.inert hp ?_)⟩
  rw [Pragma.pieces, chars_gap, htext]
  exact inert_cons (by decide) (by decide)

end Pragmas

end Respell
