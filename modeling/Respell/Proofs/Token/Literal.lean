import Respell.Proofs.Text.ByteOrder
import Respell.Proofs.Token.Apart
import Respell.Proofs.Token.Session
import Respell.Proofs.Token.Spelling

/-!
# Quoted literals

A literal is a matter of characters: after its opening delimiter come escapes, each a backslash with the one
character after it, and other characters, up to the first delimiter that is none of them. `Closes` says
so, and `RunsOff` says that the text ends before such a delimiter comes.

The same literal can be found in the bytes of the text, without a look at its characters: a search for the
next delimiter or backslash, which goes on two bytes after each backslash. That may be in the middle of a
character, but the bytes there are neither delimiters nor backslashes, so nothing is missed and nothing is
found in between.
-/

namespace Respell

open Text

namespace Quoted

/-! ## Literals by their characters -/

/-- After an opening delimiter the text is `body`, then the delimiter that closes the literal, then
    `tail`. -/
inductive Closes (quote : Char) : List Char → List Char → List Char → Prop where
  | close {tail : List Char} : Closes quote (quote :: tail) [] tail
  | escape {c : Char} {cs body tail : List Char} :
      Closes quote cs body tail → Closes quote ('\\' :: c :: cs) ('\\' :: c :: body) tail
  | plain {c : Char} {cs body tail : List Char} :
      c ≠ quote → c ≠ '\\' → Closes quote cs body tail → Closes quote (c :: cs) (c :: body) tail

/-- After an opening delimiter the text ends before the literal is closed, possibly right after a
    backslash. -/
inductive RunsOff (quote : Char) : List Char → Prop where
  | ended : RunsOff quote []
  | backslash : RunsOff quote ['\\']
  | escape {c : Char} {cs : List Char} : RunsOff quote cs → RunsOff quote ('\\' :: c :: cs)
  | plain {c : Char} {cs : List Char} :
      c ≠ quote → c ≠ '\\' → RunsOff quote cs → RunsOff quote (c :: cs)

variable {quote : Char} {cs body tail : List Char}

theorem Closes.eq_append (h : Closes quote cs body tail) : cs = body ++ quote :: tail := by
  induction h with
  | close => rfl
  | escape _ ih => rw [ih]; rfl
  | plain _ _ _ ih => rw [ih]; rfl

/-- The characters of a literal that closes are counted up to its delimiter. -/
theorem Closes.body? (hquote : quote ≠ '\\') (h : Closes quote cs body tail) :
    body? quote cs = some (body.length + 1) := by
  induction h with
  | close => rw [body?_cons hquote, if_pos rfl, List.length_nil]
  | escape _ ih => rw [Quoted.body?, ih]; rfl
  | plain hc hescape _ ih => rw [body?_cons hescape, if_neg hc, ih]; rfl

theorem RunsOff.body? (h : RunsOff quote cs) : body? quote cs = none := by
  induction h with
  | ended => rfl
  | backslash => rfl
  | escape _ ih => rw [Quoted.body?, ih]; rfl
  | plain hc hescape _ ih => rw [body?_cons hescape, if_neg hc, ih]; rfl

/-- Every text closes a literal or runs off. -/
theorem closes_or_runsOff (quote : Char) (cs : List Char) :
    (∃ body tail, Closes quote cs body tail) ∨ RunsOff quote cs := by
  fun_induction Quoted.body? quote cs with
  | case1 => exact .inr .ended
  | case2 => exact .inr .backslash
  | case3 c cs ih =>
      rcases ih with ⟨body, tail, h⟩ | h
      · exact .inl ⟨_, tail, h.escape⟩
      · exact .inr h.escape
  | case4 cs _ _ => exact .inl ⟨[], cs, .close⟩
  | case5 c cs hnil hcons hc ih =>
      have hescape : c ≠ '\\' := by
        intro hc
        cases cs with
        | nil => exact hnil hc rfl
        | cons d ds => exact hcons d ds hc rfl
      rcases ih with ⟨body, tail, h⟩ | h
      · exact .inl ⟨_, tail, h.plain hc hescape⟩
      · exact .inr (h.plain hc hescape)

/-- The letters after a regular expression that are its flags. -/
def flagRun (quote : Char) (tail : List Char) : List Char :=
  if quote = '/' then tail.takeWhile Char.isAlpha else []

theorem length_flagRun (quote : Char) (tail : List Char) :
    (flagRun quote tail).length = flags quote tail := by
  unfold flagRun flags
  split <;> rfl

theorem flagRun_append (quote : Char) (tail : List Char) :
    flagRun quote tail ++ tail.drop (flagRun quote tail).length = tail := by
  unfold flagRun
  split
  · rw [← List.prefix_iff_eq_append]
    exact List.takeWhile_prefix Char.isAlpha
  · rfl

theorem Closes.length? (hquote : quote ≠ '\\') (h : Closes quote cs body tail) :
    length? (quote :: cs) = some ((quote :: body ++ quote :: flagRun quote tail).length) := by
  have hdrop : cs.drop (body.length + 1) = tail := by
    rw [h.eq_append]
    simp
  rw [Quoted.length?, h.body? hquote, Option.map_some, hdrop, ← length_flagRun]
  simp
  omega

/-! ## Literals by their bytes -/

/-- The byte of a backslash. -/
def backslashByte : UInt8 := 92

/-- The byte of a slash. -/
def slashByte : UInt8 := 47

/-- Whether a search through bytes stops here: at a delimiter or at a backslash. -/
def stopsAt (quote b : UInt8) : Bool := b == quote || b == backslashByte

/-- The bytes of ASCII letters. -/
def isLetterByte (b : UInt8) : Bool := (65 ≤ b && b ≤ 90) || (97 ≤ b && b ≤ 122)

/-- The number of bytes up to and including the closing delimiter. The search goes from one stop to the next,
    and skips the byte after a backslash. -/
def throughByte? (quote : UInt8) (bs : List UInt8) : Option Nat :=
  match bs.findIdx? (stopsAt quote) with
  | none => none
  | some i =>
    if bs[i]? = some backslashByte then
      if i + 2 < bs.length then (throughByte? quote (bs.drop (i + 2))).map (· + (i + 2)) else none
    else some (i + 1)
termination_by bs.length
decreasing_by
  simp only [List.length_drop]
  omega

/-- The number of bytes of a literal after its opening delimiter, with its flags. -/
def endByte? (quote : UInt8) (bs : List UInt8) : Option Nat :=
  (throughByte? quote bs).map fun n =>
    n + if quote = slashByte then ((bs.drop n).takeWhile isLetterByte).length else 0

section Search

variable {mark b : UInt8} {bs xs : List UInt8}

@[simp] theorem throughByte?_nil : throughByte? mark [] = none := by
  rw [throughByte?]
  rfl

/-- At a delimiter the search has ended. -/
theorem throughByte?_mark (hmark : mark ≠ backslashByte) (bs : List UInt8) :
    throughByte? mark (mark :: bs) = some 1 := by
  have hfind : (mark :: bs).findIdx? (stopsAt mark) = some 0 := by simp [List.findIdx?_cons, stopsAt]
  rw [throughByte?, hfind]
  simp [hmark]

/-- After a backslash the search goes on behind the byte that follows it. -/
theorem throughByte?_backslash (b : UInt8) (bs : List UInt8) :
    throughByte? mark (backslashByte :: b :: bs) = (throughByte? mark bs).map (· + 2) := by
  have hfind : (backslashByte :: b :: bs).findIdx? (stopsAt mark) = some 0 := by
    simp [List.findIdx?_cons, stopsAt]
  rw [throughByte?, hfind]
  cases bs with
  | nil => simp
  | cons d ds => simp

theorem throughByte?_backslash_end : throughByte? mark [backslashByte] = none := by
  have hfind : [backslashByte].findIdx? (stopsAt mark) = some 0 := by
    simp [List.findIdx?_cons, stopsAt]
  rw [throughByte?, hfind]
  simp

/-- A byte at which the search does not stop is passed over. -/
theorem throughByte?_cons (hb : stopsAt mark b = false) (bs : List UInt8) :
    throughByte? mark (b :: bs) = (throughByte? mark bs).map (· + 1) := by
  rw [throughByte?, throughByte?, List.findIdx?_cons, hb]
  cases hfind : bs.findIdx? (stopsAt mark) with
  | none => simp
  | some i =>
      simp only [Option.map_some, Bool.false_eq_true, if_false, List.getElem?_cons_succ, List.length_cons]
      split
      · have hlength : i + 1 + 2 < bs.length + 1 ↔ i + 2 < bs.length := by omega
        simp only [hlength]
        split
        · rw [Option.map_map]
          congr 1
        · rfl
      · rfl

theorem throughByte?_append (hxs : ∀ b ∈ xs, stopsAt mark b = false) (bs : List UInt8) :
    throughByte? mark (xs ++ bs) = (throughByte? mark bs).map (· + xs.length) := by
  induction xs with
  | nil => simp
  | cons b xs ih =>
      rw [List.cons_append, throughByte?_cons (hxs b List.mem_cons_self),
        ih fun d hd => hxs d (List.mem_cons_of_mem b hd), Option.map_map]
      congr 1

end Search

/-! ## Characters and their bytes -/

/-- The bytes of some characters. -/
def bytes (cs : List Char) : List UInt8 := cs.flatMap String.utf8EncodeChar

theorem bytes_cons (c : Char) (cs : List Char) : bytes (c :: cs) = String.utf8EncodeChar c ++ bytes cs :=
  List.flatMap_cons

theorem bytes_append (cs ds : List Char) : bytes (cs ++ ds) = bytes cs ++ bytes ds :=
  List.flatMap_append

theorem length_bytes (cs : List Char) : (bytes cs).length = byteLength cs := by
  induction cs with
  | nil => rfl
  | cons c cs ih => rw [bytes_cons, List.length_append, String.length_utf8EncodeChar, ih, byteLength_cons]


/-- The form of a character: one byte below 128 that is its number, or bytes from 128 on. -/
theorem utf8EncodeChar_form (c : Char) :
    (c.toNat < 128 ∧ String.utf8EncodeChar c = [c.toUInt8]) ∨
      (128 ≤ c.toNat ∧ ∀ b ∈ String.utf8EncodeChar c, 128 ≤ b.toNat) := by
  have hbyte {n : Nat} (hn : n < 256) (h : 128 ≤ n) : 128 ≤ (UInt8.ofNat n).toNat := by
    rwa [UInt8.toNat_ofNat_of_lt' hn]
  have hform := charForm_utf8EncodeChar c
  generalize String.utf8EncodeChar c = form at hform
  cases hform with
  | one h => exact .inl ⟨Nat.lt_succ_of_le h, rfl⟩
  | two h _ =>
      refine .inr ⟨h, ?_⟩
      simp only [List.forall_mem_cons]
      exact ⟨hbyte (by omega) (by omega), hbyte (by omega) (by omega), List.forall_mem_nil _⟩
  | three h _ =>
      refine .inr ⟨Nat.le_of_lt (Nat.lt_trans (by decide) h), ?_⟩
      simp only [List.forall_mem_cons]
      exact ⟨hbyte (by omega) (by omega), hbyte (by omega) (by omega), hbyte (by omega) (by omega),
        List.forall_mem_nil _⟩
  | four h _ =>
      refine .inr ⟨Nat.le_of_lt (Nat.lt_trans (by decide) h), ?_⟩
      simp only [List.forall_mem_cons]
      exact ⟨hbyte (by omega) (by omega), hbyte (by omega) (by omega), hbyte (by omega) (by omega),
        hbyte (by omega) (by omega), List.forall_mem_nil _⟩

/-- Whatever a character begins with, its other bytes are from 128 on. -/
theorem utf8EncodeChar_eq_cons (c : Char) :
    ∃ b bs, String.utf8EncodeChar c = b :: bs ∧ ∀ d ∈ bs, 128 ≤ d.toNat := by
  rcases utf8EncodeChar_form c with ⟨_, hform⟩ | ⟨_, hhigh⟩
  · exact ⟨_, [], hform, List.forall_mem_nil _⟩
  · cases hform : String.utf8EncodeChar c with
    | nil => exact absurd hform String.utf8EncodeChar_ne_nil
    | cons b bs =>
        rw [hform, List.forall_mem_cons] at hhigh
        exact ⟨b, bs, rfl, hhigh.2⟩

/-- The characters that open literals are one byte each, and none is a backslash. -/
theorem mark_of_mem (hquote : quote ∈ ['"', '\'', '/']) :
    quote ≠ '\\' ∧ quote.toNat < 128 ∧ quote.toUInt8 ≠ backslashByte ∧ quote.utf8Size = 1 := by
  simp only [List.mem_cons, List.not_mem_nil, or_false] at hquote
  rcases hquote with rfl | rfl | rfl <;> decide

theorem toUInt8_inj {c d : Char} (hc : c.toNat < 128) (hd : d.toNat < 128) (h : c.toUInt8 = d.toUInt8) :
    c = d := by
  have hnat := congrArg UInt8.toNat h
  have hvalue (e : Char) (he : e.toNat < 128) : e.toUInt8.toNat = e.toNat :=
    UInt8.toNat_ofNat_of_lt' (Nat.lt_trans he (by decide))
  rw [hvalue c hc, hvalue d hd] at hnat
  exact Char.toNat_inj.mp hnat

/-- The search stops at no byte from 128 on. -/
theorem stopsAt_high (hquote : quote ∈ ['"', '\'', '/']) {b : UInt8} (hb : 128 ≤ b.toNat) :
    stopsAt quote.toUInt8 b = false := by
  have hne {m : UInt8} (hm : m.toNat < 128) : b ≠ m := by
    rintro rfl
    omega
  simp only [List.mem_cons, List.not_mem_nil, or_false] at hquote
  have hmark : quote.toUInt8.toNat < 128 := by
    rcases hquote with rfl | rfl | rfl <;> decide
  simp [stopsAt, hne hmark, hne (m := backslashByte) (by decide)]

/-- The search stops at no byte of a character that is neither the delimiter nor a backslash. -/
theorem stopsAt_char (hquote : quote ∈ ['"', '\'', '/']) {c : Char} (hc : c ≠ quote) (hescape : c ≠ '\\') :
    ∀ b ∈ String.utf8EncodeChar c, stopsAt quote.toUInt8 b = false := by
  rcases utf8EncodeChar_form c with ⟨hlow, hform⟩ | ⟨_, hhigh⟩
  · rw [hform, List.forall_mem_singleton]
    have hmark : c.toUInt8 ≠ quote.toUInt8 := fun h => hc (toUInt8_inj hlow (mark_of_mem hquote).2.1 h)
    have hback : c.toUInt8 ≠ backslashByte := fun h => hescape (toUInt8_inj hlow (by decide) h)
    simp [stopsAt, hmark, hback]
  · intro b hb
    exact stopsAt_high hquote (hhigh b hb)

theorem bytes_mark (hquote : quote ∈ ['"', '\'', '/']) (cs : List Char) :
    bytes (quote :: cs) = quote.toUInt8 :: bytes cs := by
  rw [bytes_cons]
  rcases utf8EncodeChar_form quote with ⟨_, hform⟩ | ⟨hhigh, _⟩
  · rw [hform]
    rfl
  · exact absurd (mark_of_mem hquote).2.1 (by omega)

/-- An escape is passed over, however many bytes the character after the backslash has. -/
theorem throughByte?_escape (hquote : quote ∈ ['"', '\'', '/']) (c : Char) (cs : List Char) :
    throughByte? quote.toUInt8 (bytes ('\\' :: c :: cs)) =
      (throughByte? quote.toUInt8 (bytes cs)).map (· + byteLength ['\\', c]) := by
  obtain ⟨b, bs, hform, hbs⟩ := utf8EncodeChar_eq_cons c
  have hbytes : bytes ('\\' :: c :: cs) = backslashByte :: b :: (bs ++ bytes cs) := by
    rw [bytes_cons, bytes_cons, hform]
    rfl
  have hlength : byteLength ['\\', c] = bs.length + 2 := by
    have hsize := String.length_utf8EncodeChar c
    rw [hform, List.length_cons] at hsize
    change 1 + (c.utf8Size + 0) = _
    omega
  rw [hbytes, throughByte?_backslash, throughByte?_append fun d hd => stopsAt_high hquote (hbs d hd),
    Option.map_map, hlength]
  rfl

/-- The search through the bytes of a literal finds the delimiter that closes it. -/
theorem Closes.throughByte? (hquote : quote ∈ ['"', '\'', '/']) (h : Closes quote cs body tail) :
    throughByte? quote.toUInt8 (bytes cs) = some (byteLength body + 1) := by
  induction h with
  | close => rw [bytes_mark hquote, throughByte?_mark (mark_of_mem hquote).2.2.1, byteLength_nil]
  | escape _ ih =>
      rw [throughByte?_escape hquote, ih, Option.map_some]
      simp only [byteLength_cons, byteLength_nil]
      congr 1
      omega
  | plain hc hescape _ ih =>
      rw [bytes_cons, throughByte?_append (stopsAt_char hquote hc hescape), ih, Option.map_some,
        String.length_utf8EncodeChar, byteLength_cons]
      congr 1
      omega

/-- The search through the bytes of a literal that is not closed comes to the end of the text. -/
theorem RunsOff.throughByte? (hquote : quote ∈ ['"', '\'', '/']) (h : RunsOff quote cs) :
    throughByte? quote.toUInt8 (bytes cs) = none := by
  induction h with
  | ended => exact throughByte?_nil
  | backslash => exact throughByte?_backslash_end
  | escape _ ih => rw [throughByte?_escape hquote, ih]; rfl
  | plain hc hescape _ ih =>
      rw [bytes_cons, throughByte?_append (stopsAt_char hquote hc hescape), ih]
      rfl

/-- Letters are those of ASCII, by their numbers. -/
theorem isAlpha_iff (c : Char) :
    c.isAlpha = true ↔ (65 ≤ c.toNat ∧ c.toNat ≤ 90) ∨ (97 ≤ c.toNat ∧ c.toNat ≤ 122) := by
  change (decide (c.val ≥ 'A'.val ∧ c.val ≤ 'Z'.val) ||
    (decide (c.val ≥ 'a'.val) && decide (c.val ≤ 'z'.val))) = true ↔ _
  simp only [Bool.or_eq_true, Bool.and_eq_true, decide_eq_true_eq, UInt32.le_iff_toNat_le, ge_iff_le]
  rfl

theorem isLetterByte_iff (b : UInt8) :
    isLetterByte b = true ↔ (65 ≤ b.toNat ∧ b.toNat ≤ 90) ∨ (97 ≤ b.toNat ∧ b.toNat ≤ 122) := by
  simp only [isLetterByte, Bool.or_eq_true, Bool.and_eq_true, decide_eq_true_eq, UInt8.le_iff_toNat_le]
  rfl

/-- Letters are one byte each, so a run of them is found in the bytes as it is in the characters. -/
theorem length_takeWhile_isLetterByte (cs : List Char) :
    ((bytes cs).takeWhile isLetterByte).length = byteLength (cs.takeWhile Char.isAlpha) := by
  induction cs with
  | nil => rfl
  | cons c cs ih =>
      rw [bytes_cons]
      rcases utf8EncodeChar_form c with ⟨hlow, hform⟩ | ⟨hhigh, hbytes⟩
      · have hvalue : c.toUInt8.toNat = c.toNat := UInt8.toNat_ofNat_of_lt' (Nat.lt_trans hlow (by decide))
        have hletter : isLetterByte c.toUInt8 = c.isAlpha := by
          rw [Bool.eq_iff_iff, isLetterByte_iff, isAlpha_iff, hvalue]
        have hsize := String.length_utf8EncodeChar c
        rw [hform] at hsize ⊢
        rw [List.singleton_append, List.takeWhile_cons, List.takeWhile_cons, hletter]
        cases c.isAlpha with
        | true =>
            simp only [if_true, List.length_cons, byteLength_cons, ih]
            rw [← hsize]
            exact Nat.add_comm _ _
        | false => rfl
      · -- A character of several bytes is no letter, and neither is any of its bytes.
        have halpha : c.isAlpha = false := by
          rw [Bool.eq_false_iff, ne_eq, isAlpha_iff]
          omega
        cases hform : String.utf8EncodeChar c with
        | nil => exact absurd hform String.utf8EncodeChar_ne_nil
        | cons b bs =>
            have hb := hbytes b (by rw [hform]; exact List.mem_cons_self)
            have hletter : isLetterByte b = false := by
              rw [Bool.eq_false_iff, ne_eq, isLetterByte_iff]
              omega
            rw [List.cons_append, List.takeWhile_cons, List.takeWhile_cons, hletter, halpha]
            rfl

theorem Closes.endByte? (hquote : quote ∈ ['"', '\'', '/']) (h : Closes quote cs body tail) :
    endByte? quote.toUInt8 (bytes cs) = some (byteLength (body ++ quote :: flagRun quote tail)) := by
  have hdrop : (bytes cs).drop (byteLength body + 1) = bytes tail := by
    have hbytes : bytes cs = (bytes body ++ [quote.toUInt8]) ++ bytes tail := by
      rw [h.eq_append, bytes_append, bytes_mark hquote]
      simp
    rw [hbytes]
    exact List.drop_left' (by rw [List.length_append, length_bytes]; rfl)
  have hslash : quote.toUInt8 = slashByte ↔ quote = '/' :=
    ⟨toUInt8_inj (d := '/') (mark_of_mem hquote).2.1 (by decide), fun h => h ▸ rfl⟩
  rw [Quoted.endByte?, h.throughByte? hquote, Option.map_some, hdrop, flagRun, byteLength_append, byteLength_cons,
    (mark_of_mem hquote).2.2.2]
  simp only [hslash]
  split
  · rw [length_takeWhile_isLetterByte, Nat.add_assoc]
  · rfl

theorem RunsOff.endByte? (hquote : quote ∈ ['"', '\'', '/']) (h : RunsOff quote cs) :
    endByte? quote.toUInt8 (bytes cs) = none := by
  rw [Quoted.endByte?, h.throughByte? hquote, Option.map_none]

/-! ## What reading a literal answers -/

/-- The token `t` is the literal that `opening` begins in the text `source`, where `quote` is its delimiter and
    the text after that is `body`, the delimiter again, and `tail`; and the text goes on at `q`. -/
structure Literal (source : List Char) (opening : Token) (quote : Char) (body tail : List Char) (t : Token)
    (q : Place) : Prop where
  kind : t.kind = if quote = '/' then .regex else .string
  pos : t.pos = opening.pos
  /-- Flags belong to regular expressions only. -/
  text : t.text.toList = quote :: body ++ quote :: flagRun quote tail
  /-- The text is found in the bytes of the source, where the search from the byte after the delimiter ends. -/
  stretch : ∃ n, endByte? quote.toUInt8 (bytes (body ++ quote :: tail)) = some n ∧
    Spans source opening.pos.toNat (opening.pos.toNat + 1 + n) t.text.toList
  /-- What follows the literal is trivia as far as it goes. -/
  trailing : scanTrivia ⟨opening.pos.toNat + byteLength t.text.toList,
    tail.drop (flagRun quote tail).length⟩ = (t.trailing, q)
  maximal : Trivia.length q.rest = 0

/-- A literal that closes is read, with what follows it. -/
theorem literal_of_closes {source : List Char} {p : Place} {opening : Token}
    (hp : p.Within source) (hpos : opening.pos.toNat = p.offset) (hquote : quote ∈ ['"', '\'', '/'])
    (hrest : p.rest = quote :: cs) (h : Closes quote cs body tail) :
    ∃ t q, readQuoted opening p = .ok (t, q) ∧ Literal source opening quote body tail t q := by
  obtain ⟨hescape, _, _, hsize⟩ := mark_of_mem hquote
  have hlength := h.length? hescape
  have hend := h.endByte? hquote
  rw [h.eq_append] at hend
  obtain ⟨text, htext⟩ : ∃ text, text = quote :: body ++ quote :: flagRun quote tail := ⟨_, rfl⟩
  rw [← htext] at hlength
  -- The text of the literal, and what is left of the text after it.
  have hsplit : p.rest = text ++ tail.drop (flagRun quote tail).length := by
    rw [hrest, h.eq_append, htext, List.cons_append, List.cons_append, List.append_assoc, List.cons_append,
      flagRun_append]
  have htake : p.rest.take text.length = text := by
    rw [hsplit]
    exact List.take_left
  have hadvance : p.advance text.length =
      ⟨opening.pos.toNat + byteLength text, tail.drop (flagRun quote tail).length⟩ := by
    rw [Place.advance, htake, hpos, hsplit, List.drop_left]
  have hread : readQuoted opening p = .ok (takeToken p (kind quote) text.length) := by
    unfold readQuoted
    rw [hrest, hlength]
    rfl
  have hchars : (p.text text.length).toList = text := by rw [p.toList_text, htake]
  refine ⟨_, _, hread, ?_⟩
  constructor
  · rfl
  · change UInt32.ofNat p.offset = _
    rw [← hpos, UInt32.ofNat_toNat]
  · exact hchars.trans htext
  · refine ⟨_, hend, ?_⟩
    obtain ⟨before, hsource, hoffset⟩ := hp
    refine ⟨before, tail.drop (flagRun quote tail).length, ?_, ?_, ?_⟩
    · rw [hsource, List.append_assoc, hsplit]
      change _ = before ++ ((p.text text.length).toList ++ _)
      rw [hchars]
    · rw [hpos, hoffset]
    · change byteLength (before ++ (p.text text.length).toList) = _
      rw [hchars, byteLength_append, ← hoffset, ← hpos, htext, List.cons_append, byteLength_cons, hsize,
        Nat.add_assoc]
  · change scanTrivia ⟨opening.pos.toNat + byteLength (p.text text.length).toList, _⟩ = _
    rw [hchars, ← hadvance]
    rfl
  · exact Trivia.length_drop_length _

end Quoted

/-- Whatever literal a token of a text begins is read as its characters say. If it closes, the answer is the
    literal with all trivia after it; if it runs off, the answer is a fault at the token, and the cursor stays as
    it is. -/
theorem quoted_exact {c : Cursor} {p after : Place} {opening : Token}
    (hshort : byteLength c.source < UInt32.size) (hp : p.Within c.source)
    (hscan : scan p = (.ok opening, after)) (hquote : opening.kind.isQuote = true) :
    ∃ quote cs, opening.text.toList.head? = some quote ∧
      (Place.ofOffset c.source opening.pos).rest = quote :: cs ∧
      ((∃ body tail, Quoted.Closes quote cs body tail) ∨ Quoted.RunsOff quote cs) ∧
      (∀ body tail, Quoted.Closes quote cs body tail → ∃ t q,
        c.quoted opening = (.ok t, { c with place := q }) ∧
          Quoted.Literal c.source opening quote body tail t q) ∧
      (Quoted.RunsOff quote cs →
        c.quoted opening = (.error (opening.fault
            (if quote = '/' then .runawayRegex else .runawayString) []), c) ∧
          Quoted.endByte? quote.toUInt8 (Quoted.bytes cs) = none) := by
  have hnext : Parser.next p = .ok (opening, after) := by rw [Parser.next_eq, hscan]
  obtain ⟨quote, cs, hrest, hmem⟩ := quote_of_next hnext hquote
  have hpos : opening.pos.toNat = p.offset := by rw [pos_of_scan hscan, hp.toNat_pos hshort]
  have hplace : Place.ofOffset c.source opening.pos = p := by rw [hpos, hp.ofOffset]
  refine ⟨quote, cs, ?_, by rw [hplace, hrest], Quoted.closes_or_runsOff quote cs, ?_, ?_⟩
  · have hne := (Taken.scanned hnext).text_ne_nil (by intro hk; rw [hk] at hquote; cases hquote)
    obtain ⟨kind, n, _, htake, _⟩ := next_ok hnext
    rw [text_of_takeToken htake, hrest] at hne ⊢
    cases n with
    | zero => exact absurd rfl hne
    | succ n => rfl
  · intro body tail h
    obtain ⟨t, q, hread, hliteral⟩ := Quoted.literal_of_closes hp hpos hmem hrest h
    refine ⟨t, q, ?_, hliteral⟩
    rw [Cursor.quoted, hplace, hread]
  · intro h
    refine ⟨?_, h.endByte? hmem⟩
    have hread : readQuoted opening p = .error (opening.fault (Quoted.runaway quote) []) := by
      unfold readQuoted
      rw [hrest, Quoted.length?, h.body?]
      rfl
    rw [Cursor.quoted, hplace, hread]
    rfl

/-- A text with a regular expression that begins with `/=`, holds an escape of several bytes and ends in flags. -/
def flaggedSource : String := "a = /=\\€[\\/]/gi /* é */ // b\n;"

theorem quoted_exact_flaggedSource :
    byteLength flaggedSource.toList < UInt32.size ∧
    ∃ opening after t q, Place.Within flaggedSource.toList ⟨4, flaggedSource.toList.drop 4⟩ ∧
      scan ⟨4, flaggedSource.toList.drop 4⟩ = (.ok opening, after) ∧ opening.kind = .punct .divideAssign ∧
      (Cursor.start flaggedSource.toList).quoted opening =
        (.ok t, { Cursor.start flaggedSource.toList with place := q }) ∧
      Quoted.Literal flaggedSource.toList opening '/' "=\\€[\\/]".toList "gi /* é */ // b\n;".toList t q ∧
      t.text = "/=\\€[\\/]/gi" := by
  have hshort : byteLength flaggedSource.toList < UInt32.size := by decide +kernel
  have hp : Place.Within flaggedSource.toList ⟨4, flaggedSource.toList.drop 4⟩ :=
    ⟨flaggedSource.toList.take 4, (List.take_append_drop 4 _).symm, by decide⟩
  have hrun : (scan ⟨4, flaggedSource.toList.drop 4⟩).1.toOption.map (fun t => (t.kind, t.pos)) =
      some (.punct .divideAssign, 4) := by decide +kernel
  obtain ⟨opening, hopening, hfields⟩ := ok_of_toOption hrun
  obtain ⟨hkind, hpos⟩ := Prod.mk.inj hfields
  obtain ⟨quote, cs, _, hrest, _, hcloses, _⟩ :=
    quoted_exact (c := Cursor.start flaggedSource.toList) hshort hp (Prod.ext hopening rfl) (by rw [hkind]; rfl)
  have hplace : (Place.ofOffset flaggedSource.toList 4).rest =
      '/' :: ("=\\€[\\/]".toList ++ '/' :: "gi /* é */ // b\n;".toList) := by decide +kernel
  rw [hpos] at hrest
  obtain ⟨rfl, rfl⟩ := List.cons.inj (hplace.symm.trans hrest)
  have hbody : Quoted.Closes '/' ("=\\€[\\/]".toList ++ '/' :: "gi /* é */ // b\n;".toList) "=\\€[\\/]".toList
      "gi /* é */ // b\n;".toList :=
    .plain (by decide) (by decide) (.escape (.plain (by decide) (by decide)
      (.escape (.plain (by decide) (by decide) .close))))
  obtain ⟨t, q, hread, hliteral⟩ := hcloses _ _ hbody
  refine ⟨hshort, opening, _, t, q, hp, Prod.ext hopening rfl, hkind, hread, hliteral, ?_⟩
  apply String.toList_injective
  rw [hliteral.text]
  decide +kernel

end Respell
