import Respell.Proofs.Parse.Formed

/-!
# How tokens are spelt

What the kind of a token says about its text, wherever in a source it stands: marks and reserved words are
spelt in one way, and all other lexemes begin with characters of a class of their own.
-/

namespace Respell

open Text

theorem Token.Scanned.kind {t : Token} {k : Kind} (h : t.Scanned k) : t.kind = k := by
  obtain ⟨p, q, h⟩ := h
  exact Parser.kind_of_expect h

/-- The text of a scanned token is a lexeme of its kind. -/
theorem Token.Scanned.lexemeAt {t : Token} {k : Kind} (h : t.Scanned k) :
    ∃ cs n, LexemeAt cs k n ∧ t.text.toList = cs.take n := by
  obtain ⟨p, q, h⟩ := h
  obtain ⟨hnext, hk⟩ := Parser.expect_ok_iff.mp h
  obtain ⟨kind, n, hlex, htake, _⟩ := next_ok hnext
  rw [kind_of_takeToken htake] at hk
  subst hk
  exact ⟨p.rest, n, lexemeAt_of_next? hlex, text_of_takeToken htake⟩

/-- A punctuation mark has the text of its kind. -/
theorem Token.Scanned.text_punct {t : Token} {m : Punct} (h : t.Scanned (.punct m)) :
    t.text = m.text := by
  obtain ⟨cs, n, hlex, htext⟩ := h.lexemeAt
  cases hlex with
  | mark hm =>
      rw [← List.prefix_iff_eq_take.mp hm] at htext
      rw [Punct.text, ← htext, String.ofList_toList]

/-- A reserved word has the text of its kind. -/
theorem Token.Scanned.text_word {t : Token} {w : Word} (h : t.Scanned (.word w)) :
    t.text = w.text := by
  obtain ⟨cs, n, hlex, htext⟩ := h.lexemeAt
  cases hlex with
  | word hword =>
      rw [LexemeAt.take_run] at htext
      have hfound := List.find?_some hword
      rw [← htext, String.ofList_toList] at hfound
      exact (beq_iff_eq.mp hfound).symm

/-- The characters of a name. -/
theorem Token.Scanned.name_chars {t : Token} (h : t.Scanned .identifier) :
    ∃ c cs, t.text.toList = c :: cs ∧ isIdentifierStart c = true ∧ ∀ d ∈ cs, isIdentifierPart d = true := by
  obtain ⟨cs, n, hlex, htext⟩ := h.lexemeAt
  cases hlex with
  | @identifier c cs hc =>
      rw [Nat.add_comm, List.take_succ_cons, LexemeAt.take_run] at htext
      exact ⟨c, _, htext, hc, List.all_eq_true.mp List.all_takeWhile⟩

/-- Where the scanner sees a mark that opens a literal, its character stands. -/
theorem quote_of_next {p r : Place} {mark : Token} (h : Parser.next p = .ok (mark, r))
    (hquote : mark.kind.isQuote = true) : ∃ c cs, p.rest = c :: cs ∧ c ∈ ['"', '\'', '/'] := by
  obtain ⟨kind, n, hlex, htake, _⟩ := next_ok h
  rw [kind_of_takeToken htake] at hquote
  have hmark {m : Punct} {c : Char} {cs : List Char} (hlex : LexemeAt p.rest (.punct m) n)
      (hm : m.chars = c :: cs) (hc : c ∈ ['"', '\'', '/']) :
      ∃ c cs, p.rest = c :: cs ∧ c ∈ ['"', '\'', '/'] := by
    obtain ⟨rest, hrest⟩ := hlex.mark_chars
    rw [hm] at hrest
    exact ⟨c, cs ++ rest, hrest.symm, hc⟩
  unfold Kind.isQuote at hquote
  split at hquote
  · exact hmark (lexemeAt_of_next? hlex) rfl (by decide)
  · exact hmark (lexemeAt_of_next? hlex) rfl (by decide)
  · exact hmark (lexemeAt_of_next? hlex) rfl (by decide)
  · exact hmark (lexemeAt_of_next? hlex) rfl (by decide)
  · cases hquote

/-- A literal begins with the character that opens it. -/
theorem Token.Quoted.head {t : Token} (h : t.Quoted) :
    ∃ c cs, t.text.toList = c :: cs ∧ c ∈ ['"', '\'', '/'] ∧ t.kind = Quoted.kind c := by
  obtain ⟨p, q, mark, r, hmark, hquote, h⟩ := h
  obtain ⟨c, cs, hrest, hc⟩ := quote_of_next hmark hquote
  obtain ⟨n, hlen, htake⟩ := quoted_ok h
  have htext := text_of_takeToken htake
  have hkind := kind_of_takeToken htake
  rw [hrest] at hlen htext hkind
  obtain ⟨m, _, rfl⟩ := Option.map_eq_some_iff.mp hlen
  rw [Nat.add_assoc, Nat.add_comm, List.take_succ_cons] at htext
  exact ⟨c, _, htext, hc, hkind⟩

end Respell
