import Respell.Parse.Basic
import Respell.Proofs.Token.Lexeme
import Respell.Proofs.Text.Measure

/-!
# Readings

A reading says how a list of tokens was taken from a text: each token was taken where the one before it
ended, either as the scanner gives it or as the quoted literal that begins there. Nothing is skipped
between two tokens, so the tokens of a reading spell the text that was read, and their positions are the
lengths of what stands before them.
-/

namespace Respell

open Text

/-! ## Taking one token -/

/-- The next characters and what follows them are all that is left. -/
theorem text_append_rest (p : Place) (n : Nat) :
    (p.text n).toList ++ (p.advance n).rest = p.rest := by
  simp

theorem advance_add (p : Place) (m n : Nat) : p.advance (m + n) = (p.advance m).advance n := by
  simp [Place.advance, List.take_add, Nat.add_assoc]

/-- Trivia that is all there is before something is skipped. -/
theorem scanTrivia_split {offset : Nat} {w r : List Char} (h : Trivia.length (w ++ r) = w.length) :
    scanTrivia ⟨offset, w ++ r⟩ = (String.ofList w, ⟨offset + byteLength w, r⟩) := by
  simp [scanTrivia, h, Place.text, Place.advance]

/-- The token `t` was taken at the place `p`, and the text goes on at `q`. -/
inductive Taken (p : Place) (t : Token) (q : Place) : Prop where
  | scanned (h : Parser.next p = .ok (t, q))
  | quoted (h : Parser.quoted p = .ok (t, q))

/-- What scanning answers with: a lexeme that begins here and is not refused. -/
theorem next_ok {p q : Place} {t : Token} (h : Parser.next p = .ok (t, q)) :
    ∃ kind n, Lexeme.next? p.rest = some (kind, n) ∧ takeToken p kind n = (t, q) ∧
      t.refusal? = none := by
  rw [Parser.next_eq, scan] at h
  cases hlex : Lexeme.next? p.rest with
  | none => simp [hlex] at h
  | some found =>
      obtain ⟨kind, n⟩ := found
      simp only [hlex] at h
      cases hrefusal : (takeToken p kind n).1.refusal? with
      | some f => simp [hrefusal] at h
      | none =>
          simp only [hrefusal, Except.ok.injEq] at h
          refine ⟨kind, n, rfl, h, ?_⟩
          rw [← (Prod.mk.inj h).1]
          exact hrefusal

/-- What reading a literal answers with: the literal that begins here. -/
theorem quoted_ok {p q : Place} {t : Token} (h : Parser.quoted p = .ok (t, q)) :
    ∃ n, Quoted.length? p.rest = some n ∧
      takeToken p (Quoted.kind (p.rest.headD '"')) n = (t, q) := by
  rw [Parser.quoted_eq] at h
  split at h
  · unfold readQuoted at h
    cases hlen : Quoted.length? p.rest with
    | none => simp [hlen] at h
    | some n =>
        simp only [hlen, Except.ok.injEq] at h
        exact ⟨n, rfl, h⟩
  · simp at h

/-- However a token was taken, it is the text at its place, with the trivia after it. -/
theorem Taken.eq_takeToken {p q : Place} {t : Token} (h : Taken p t q) :
    ∃ kind n, takeToken p kind n = (t, q) := by
  cases h with
  | scanned h =>
      obtain ⟨kind, n, _, htake, _⟩ := next_ok h
      exact ⟨kind, n, htake⟩
  | quoted h =>
      obtain ⟨n, _, htake⟩ := quoted_ok h
      exact ⟨_, n, htake⟩

/-- A taken token has the position of its place. -/
theorem Taken.pos {p q : Place} {t : Token} (h : Taken p t q) : t.pos = p.pos := by
  obtain ⟨kind, n, htake⟩ := h.eq_takeToken
  exact (congrArg Token.pos (Prod.mk.inj htake).1).symm

/-- A taken token stands at its place with its trivia, and the rest of the text follows. -/
theorem Taken.rest {p q : Place} {t : Token} (h : Taken p t q) :
    p.rest = t.source.toList ++ q.rest := by
  obtain ⟨kind, n, htake⟩ := h.eq_takeToken
  obtain ⟨ht, hq⟩ := Prod.mk.inj htake
  rw [← ht, ← hq, Token.source, String.toList_append, List.append_assoc, text_append_rest,
    text_append_rest]

/-- The place after a token is as many bytes further on as the token has. -/
theorem Taken.offset {p q : Place} {t : Token} (h : Taken p t q) :
    q.offset = p.offset + byteLength t.source.toList := by
  obtain ⟨kind, n, htake⟩ := h.eq_takeToken
  obtain ⟨ht, hq⟩ := Prod.mk.inj htake
  rw [← ht, ← hq]
  simp [Token.source, Nat.add_assoc]

/-! ## Taking several tokens -/

/-- The tokens were taken one after the other, the first at `p`, and the text goes on at `q`. -/
inductive Reading : Place → List Token → Place → Prop where
  | nil {p : Place} : Reading p [] p
  | cons {p q r : Place} {t : Token} {ts : List Token} :
      Taken p t q → Reading q ts r → Reading p (t :: ts) r

namespace Reading

theorem single {p q : Place} {t : Token} (h : Taken p t q) : Reading p [t] q := .cons h .nil

theorem append {p q r : Place} {ts us : List Token} (h : Reading p ts q) (h' : Reading q us r) :
    Reading p (ts ++ us) r := by
  induction h with
  | nil => exact h'
  | cons ht _ ih => exact .cons ht (ih h')

/-- A reading of two lists is a reading of the first up to some place, and of the second from there. -/
theorem split {p r : Place} {ts us : List Token} (h : Reading p (ts ++ us) r) :
    ∃ q, Reading p ts q ∧ Reading q us r := by
  induction ts generalizing p with
  | nil => exact ⟨p, .nil, h⟩
  | cons t ts ih =>
      cases h with
      | cons ht h =>
          obtain ⟨q, hts, hus⟩ := ih h
          exact ⟨q, .cons ht hts, hus⟩

/-- The text that was read is that of the tokens, each with its trivia. -/
theorem rest {p q : Place} {ts : List Token} (h : Reading p ts q) :
    p.rest = (String.join (ts.map Token.source)).toList ++ q.rest := by
  induction h with
  | nil => simp
  | cons ht _ ih => rw [ht.rest, ih]; simp

/-- The place after a reading is as many bytes further on as the tokens have. -/
theorem offset {p q : Place} {ts : List Token} (h : Reading p ts q) :
    q.offset = p.offset + (String.join (ts.map Token.source)).utf8ByteSize := by
  induction h with
  | nil => simp
  | cons ht _ ih => rw [ih, ht.offset, byteLength_toList]; simp [Nat.add_assoc]

theorem extent {p q : Place} {ts : List Token} (h : Reading p ts q) : p.extent = q.extent := by
  rw [Place.extent, Place.extent, h.offset, h.rest, byteLength_append, byteLength_toList, Nat.add_assoc]

/-- The position of a token is the number of bytes before it, as it is kept. -/
theorem pos {p r : Place} {before after : List Token} {t : Token}
    (h : Reading p (before ++ t :: after) r) :
    t.pos = .ofNat (p.offset + (String.join (before.map Token.source)).utf8ByteSize) := by
  obtain ⟨q, hbefore, hrest⟩ := h.split
  cases hrest with
  | cons ht _ => rw [ht.pos, Place.pos, hbefore.offset]

/-- In a text shorter than 4 GiB it is kept as it is. -/
theorem toNat_pos {p r : Place} {before after : List Token} {t : Token}
    (h : Reading p (before ++ t :: after) r) (hshort : p.extent < UInt32.size) :
    t.pos.toNat = p.offset + (String.join (before.map Token.source)).utf8ByteSize := by
  obtain ⟨q, hbefore, hrest⟩ := h.split
  rw [hbefore.extent] at hshort
  cases hrest with
  | cons ht _ => rw [ht.pos, Place.toNat_pos hshort, hbefore.offset]

end Reading

/-! ## What tokens look like -/

/-- The kind of a token is the kind of its lexeme. -/
theorem kind_of_takeToken {p q : Place} {t : Token} {kind : Kind} {n : Nat}
    (h : takeToken p kind n = (t, q)) : t.kind = kind := by
  exact (congrArg Token.kind (Prod.mk.inj h).1).symm

/-- The text of a token is that of its lexeme. -/
theorem text_of_takeToken {p q : Place} {t : Token} {kind : Kind} {n : Nat}
    (h : takeToken p kind n = (t, q)) : t.text.toList = p.rest.take n := by
  rw [← (Prod.mk.inj h).1]
  exact p.toList_text n

/-- Only the end of the text is taken for the end of a file. -/
theorem Taken.endOfFile {p q : Place} {t : Token} (h : Taken p t q) (hk : t.kind = .endOfFile) :
    p.rest = [] := by
  cases h with
  | scanned h =>
      obtain ⟨kind, n, hlex, htake, _⟩ := next_ok h
      rw [kind_of_takeToken htake] at hk
      subst hk
      exact (lexemeAt_of_next? hlex).eq_nil
  | quoted h =>
      obtain ⟨n, _, htake⟩ := quoted_ok h
      rw [kind_of_takeToken htake] at hk
      unfold Quoted.kind at hk
      split at hk <;> cases hk

/-- Every token but the end of a file has a text. -/
theorem Taken.text_ne_nil {p q : Place} {t : Token} (h : Taken p t q) (hk : t.kind ≠ .endOfFile) :
    t.text.toList ≠ [] := by
  cases h with
  | scanned h =>
      obtain ⟨kind, n, hlex, htake, _⟩ := next_ok h
      rw [kind_of_takeToken htake] at hk
      have hpos := (lexemeAt_of_next? hlex).length_pos hk
      rw [text_of_takeToken htake]
      intro hnil
      -- Where nothing is left, the lexeme is the end of the file.
      rcases List.take_eq_nil_iff.mp hnil with hzero | hrest
      · omega
      · rw [hrest] at hlex
        cases hlex
        exact hk rfl
  | quoted h =>
      obtain ⟨n, hlen, htake⟩ := quoted_ok h
      rw [text_of_takeToken htake]
      cases hrest : p.rest with
      | nil =>
          rw [hrest] at hlen
          cases hlen
      | cons c cs =>
          rw [hrest, Quoted.length?] at hlen
          obtain ⟨m, _, rfl⟩ := Option.map_eq_some_iff.mp hlen
          simp [Nat.add_assoc, Nat.add_comm 1]

/-- In a text shorter than 4 GiB each token of a reading stands before those after it, unless it is the end of the
    file. -/
theorem Reading.pos_increase {p q : Place} {ts : List Token} (h : Reading p ts q) (hshort : p.extent < UInt32.size) :
    ts.Pairwise fun t u => t.kind ≠ .endOfFile → t.pos < u.pos := by
  induction h with
  | nil => exact .nil
  | @cons p q r t ts ht hts ih =>
      have hextent := (Reading.single ht).extent
      refine .cons (fun u hu hk => ?_) (ih (hextent ▸ hshort))
      obtain ⟨before, after, rfl⟩ := List.append_of_mem hu
      have hlength : byteLength t.text.toList ≠ 0 := fun h => ht.text_ne_nil hk (byteLength_eq_zero h)
      have hoffset := ht.offset
      rw [Token.source, String.toList_append, byteLength_append] at hoffset
      rw [UInt32.lt_iff_toNat_lt, hts.toNat_pos (hextent ▸ hshort), ht.pos, Place.toNat_pos hshort]
      omega

/-- After a token less is left, unless it was the end of the file. -/
theorem Taken.length_lt {p q : Place} {t : Token} (h : Taken p t q) (hk : t.kind ≠ .endOfFile) :
    q.rest.length < p.rest.length := by
  have htext : 0 < t.text.toList.length := List.length_pos_iff.mpr (h.text_ne_nil hk)
  rw [h.rest, Token.source, String.toList_append, List.length_append, List.length_append]
  omega

/-- Where the scanner sees anything but the end of the file, any token that is taken leaves less. -/
theorem Taken.length_lt_of_next {p q r : Place} {t u : Token} (h : Taken p t q)
    (hnext : Parser.next p = .ok (u, r)) (hk : u.kind ≠ .endOfFile) :
    q.rest.length < p.rest.length := by
  refine h.length_lt ?_
  intro ht
  obtain ⟨kind, n, hlex, htake, _⟩ := next_ok hnext
  rw [h.endOfFile ht] at hlex
  cases hlex
  exact hk (kind_of_takeToken htake)

/-- After a reading no more is left than before it. -/
theorem Reading.length_le {p q : Place} {ts : List Token} (h : Reading p ts q) :
    q.rest.length ≤ p.rest.length := by
  rw [h.rest, List.length_append]
  omega

/-- A token that the scanner gives has no line feed in its text. -/
theorem lineFeeds_of_next {p q : Place} {t : Token} (h : Parser.next p = .ok (t, q)) :
    lineFeeds t.text = 0 := by
  obtain ⟨kind, n, hlex, htake, _⟩ := next_ok h
  rw [lineFeeds_eq_zero, text_of_takeToken htake]
  exact (lexemeAt_of_next? hlex).lineFeed_notMem

end Respell
