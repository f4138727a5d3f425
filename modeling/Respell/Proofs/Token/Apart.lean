import Respell.Proofs.Token.Lexeme
import Respell.Proofs.Token.Trivia
import Respell.Token.Quoted

/-!
# Lexemes before other text

A lexeme ends where the next character cannot belong to it, so whether a text is read as one lexeme depends
on what follows it. `Apart` says of each kind which characters may follow without lengthening the lexeme,
and a lexeme that was recognised once is recognised again before all of these.

Most characters lengthen nothing, whatever stands before them: blanks, the beginnings of comments, and all
marks but those that other marks go on with. A text that begins with such a character is *inert*.
-/

namespace Respell

open Text

/-! ## What may follow a lexeme -/

/-- The characters do not lengthen a lexeme of the kind that stands before them. -/
def Apart [IdentifierClass] (k : Kind) (r : List Char) : Prop :=
  match k with
  | .endOfFile => r = []
  | .number => (∀ c ∈ r.head?, c.isDigit = false) ∧ ∀ c cs, r = '.' :: c :: cs → c.isDigit = false
  | .string => True
  | .regex => ∀ c ∈ r.head?, c.isAlpha = false
  | .identifier => ∀ c ∈ r.head?, isIdentifierPart c = false
  | .punct m => ∀ m' : Punct, m'.chars <+: m.chars ++ r → m'.chars.length ≤ m.chars.length
  | .word _ | .includePragma | .declarePragma => ∀ c ∈ r.head?, isWordChar c = false

/-! ## Classes of characters -/

theorem isIdentifierPart_of_isWordChar [IdentifierClass] {c : Char} (h : isWordChar c = true) :
    isIdentifierPart c = true := by
  simp only [isWordChar, isIdentifierPart, Bool.or_eq_true] at h ⊢
  rcases h with h | h
  · exact .inl (.inl (.inl h))
  · exact .inl (.inr h)

theorem isWordChar_of_isAlpha {c : Char} (h : c.isAlpha = true) : isWordChar c = true := by
  simp [isWordChar, Char.isAlphanum, h]

theorem isWordChar_of_isDigit {c : Char} (h : c.isDigit = true) : isWordChar c = true := by
  simp [isWordChar, Char.isAlphanum, h]

/-- No digit begins an identifier. -/
theorem isDigit_of_isIdentifierStart [IdentifierClass] {c : Char} (h : isIdentifierStart c = true) :
    c.isDigit = false := by
  cases hd : c.isDigit with
  | false => rfl
  | true =>
      simp only [Char.isDigit, Bool.and_eq_true, decide_eq_true_eq, UInt32.le_iff_toNat_le, ge_iff_le] at hd
      change 48 ≤ c.toNat ∧ c.toNat ≤ 57 at hd
      have hrule : ∀ n ∈ List.range' 48 10,
          (Char.ofNat n == '_' || Char.ofNat n == '$' || (Char.ofNat n).isAlpha) = false := by decide
      have hc := hrule c.toNat (List.mem_range'_1.mpr ⟨hd.1, by omega⟩)
      rw [Char.ofNat_toNat] at hc
      rw [isIdentifierStart, hc, decide_eq_false (by omega)] at h
      cases h

theorem isIdentifierPart_of_isIdentifierStart [IdentifierClass] {c : Char} (h : isIdentifierStart c = true) :
    isIdentifierPart c = true := by
  simp only [isIdentifierStart, isIdentifierPart, Char.isAlphanum, Bool.or_eq_true, Bool.and_eq_true] at h ⊢
  rcases h with ((h | h) | h) | h
  · exact .inl (.inl (.inl h))
  · exact .inl (.inl (.inr h))
  · exact .inl (.inr (.inl h))
  · exact .inr ⟨h.1, IdentifierClass.part_of_start h.2⟩

/-- No blank belongs to an identifier. -/
theorem isIdentifierPart_of_isBlank [IdentifierClass] {c : Char} (h : isBlank c = true) :
    isIdentifierPart c = false := by
  have hrule : ∀ n ∈ blankCodes,
      (Char.ofNat n == '_' || Char.ofNat n == '$' || (Char.ofNat n).isAlphanum) = false := by
    decide
  have hc := hrule _ (toNat_mem_blankCodes h)
  rw [Char.ofNat_toNat] at hc
  rw [isIdentifierPart, hc, IdentifierClass.part_of_isBlank h, Bool.and_false]
  rfl

/-! ## Numbers -/

/-- The length of the fraction that begins here: a point with at least one digit. -/
def fractionLength : List Char → Nat
  | '.' :: fraction => if 0 < Lexeme.digits fraction then 1 + Lexeme.digits fraction else 0
  | _ => 0

theorem fractionLength_dot (cs : List Char) : fractionLength ('.' :: cs) =
    if 0 < Lexeme.digits cs then 1 + Lexeme.digits cs else 0 := rfl

theorem fractionLength_other {rest : List Char} (h : ∀ cs, rest = '.' :: cs → False) :
    fractionLength rest = 0 := by
  unfold fractionLength
  split
  · exact (h _ rfl).elim
  · rfl

theorem drop_digits (cs : List Char) : cs.drop (Lexeme.digits cs) = cs.dropWhile Char.isDigit := by
  have hsplit := List.takeWhile_append_dropWhile (p := Char.isDigit) (l := cs)
  calc cs.drop (Lexeme.digits cs)
      = (cs.takeWhile Char.isDigit ++ cs.dropWhile Char.isDigit).drop (Lexeme.digits cs) := by rw [hsplit]
    _ = cs.dropWhile Char.isDigit := List.drop_left

/-- A number is a run of digits and the fraction after it. -/
theorem number_run {d rest : List Char} (hd : ∀ c ∈ d, c.isDigit = true)
    (hrest : ∀ c ∈ rest.head?, c.isDigit = false) :
    Lexeme.number (d ++ rest) = d.length + fractionLength rest := by
  have hdigits : Lexeme.digits (d ++ rest) = d.length := congrArg List.length (takeWhile_run hd hrest)
  unfold Lexeme.number
  dsimp only
  rw [hdigits, List.drop_left]
  split
  · rw [fractionLength_dot]
    split
    · exact Nat.add_assoc _ _ _
    · rfl
  · next hdot =>
      rw [fractionLength_other hdot]
      rfl

/-- A number in its digits and what follows them. -/
theorem number_split (cs : List Char) : ∃ d rest, d ++ rest = cs ∧ (∀ c ∈ d, c.isDigit = true) ∧
    (∀ c ∈ rest.head?, c.isDigit = false) ∧ Lexeme.number cs = d.length + fractionLength rest := by
  have hsplit := List.takeWhile_append_dropWhile (p := Char.isDigit) (l := cs)
  refine ⟨_, _, hsplit, of_mem_takeWhile, head_dropWhile cs, ?_⟩
  rw [← number_run of_mem_takeWhile (head_dropWhile cs), hsplit]

/-- A fraction ends where the next character is no digit. -/
theorem fractionLength_append [IdentifierClass] {rest r : List Char} (hr : Apart .number r) :
    fractionLength (rest.take (fractionLength rest) ++ r) = fractionLength rest := by
  have hnone : fractionLength r = 0 := by
    by_cases hdot : ∃ cs, r = '.' :: cs
    · obtain ⟨cs, rfl⟩ := hdot
      cases cs with
      | nil => rfl
      | cons c cs =>
          rw [fractionLength_dot, Lexeme.digits, List.takeWhile_cons_of_neg (by simp [hr.2 c cs rfl])]
          rfl
    · exact fractionLength_other fun cs hcs => hdot ⟨cs, hcs⟩
  by_cases hdot : ∃ cs, rest = '.' :: cs
  · obtain ⟨cs, rfl⟩ := hdot
    rw [fractionLength_dot]
    split
    · next hpos =>
        have hrun : Lexeme.digits (cs.takeWhile Char.isDigit ++ r) = Lexeme.digits cs :=
          congrArg List.length (takeWhile_run of_mem_takeWhile hr.1)
        have htake : ('.' :: cs).take (1 + Lexeme.digits cs) = '.' :: cs.takeWhile Char.isDigit := by
          rw [Nat.add_comm, List.take_succ_cons, Lexeme.digits, LexemeAt.take_run]
        rw [htake, List.cons_append, fractionLength_dot, hrun, if_pos hpos]
    · exact hnone
  · rw [fractionLength_other fun cs hcs => hdot ⟨cs, hcs⟩]
    exact hnone

theorem number_append [IdentifierClass] (cs : List Char) {r : List Char} (hr : Apart .number r) :
    Lexeme.number (cs.take (Lexeme.number cs) ++ r) = Lexeme.number cs := by
  obtain ⟨d, rest, rfl, hd, hrest, hnumber⟩ := number_split cs
  have hhead : ∀ c ∈ (rest.take (fractionLength rest) ++ r).head?, c.isDigit = false := by
    cases rest with
    | nil => exact hr.1
    | cons c rest =>
        cases fractionLength (c :: rest) with
        | zero => exact hr.1
        | succ n => exact hrest
  rw [hnumber, List.take_length_add_append, List.append_assoc, number_run hd hhead,
    fractionLength_append hr]

/-- No digit follows a number. -/
theorem head_of_number {w s : List Char} (h : Lexeme.number (w ++ s) = w.length) :
    ∀ c ∈ s.head?, c.isDigit = false := by
  obtain ⟨d, rest, hsplit, hd, hrest, hnumber⟩ := number_split (w ++ s)
  have hs : s = rest.drop (fractionLength rest) := by
    have hdrop : (w ++ s).drop w.length = s := List.drop_left
    rw [← hdrop, ← hsplit, ← h, hnumber, List.drop_length_add_append]
  rw [hs]
  unfold fractionLength
  split
  · next fraction =>
      split
      -- After the digits of a fraction no digit follows.
      · rw [Nat.add_comm, List.drop_succ_cons, drop_digits]
        exact head_dropWhile fraction
      · exact hrest
  · exact hrest

/-! ## Marks -/

/-- A longer mark stands before every mark it begins with. -/
theorem marks_ordered : Punct.all.Pairwise fun m m' => ¬ m.chars <+: m'.chars := by decide +kernel

theorem mem_marks (m : Punct) : m ∈ Punct.all := by cases m <;> decide

/-- The mark that is recognised is the longest that stands there. -/
theorem mark?_eq_iff [IdentifierClass] {m : Punct} {r : List Char} :
    Lexeme.mark? (m.chars ++ r) = some (.punct m, m.chars.length) ↔ Apart (.punct m) r := by
  have hfind : Lexeme.mark? (m.chars ++ r) = some (.punct m, m.chars.length) ↔
      Punct.all.find? (fun m' => m'.chars.isPrefixOf (m.chars ++ r)) = some m := by
    unfold Lexeme.mark?
    constructor
    · intro h
      obtain ⟨m', hm', heq⟩ := Option.map_eq_some_iff.mp h
      cases heq
      exact hm'
    · intro h
      rw [h]
      rfl
  rw [hfind, List.find?_eq_some_iff_append]
  constructor
  · rintro ⟨_, before, after, hall, hbefore⟩ m' hm'
    have hordered := marks_ordered
    rw [hall, List.pairwise_append, List.pairwise_cons] at hordered
    have hmem := mem_marks m'
    rw [hall, List.mem_append, List.mem_cons] at hmem
    rcases hmem with hmem | rfl | hmem
    · exact absurd (hbefore m' hmem) (by simpa using hm')
    · exact Nat.le_refl _
    -- A longer mark that stands after this one in the list does not begin with it.
    · refine Nat.le_of_lt (Nat.lt_of_not_le fun hle => ?_)
      exact hordered.2.1.1 m' hmem (List.prefix_of_prefix_length_le (List.prefix_append _ _) hm' hle)
  · intro hr
    obtain ⟨before, after, hall⟩ := List.append_of_mem (mem_marks m)
    refine ⟨by simp, before, after, hall, ?_⟩
    intro m' hmem
    have hordered := marks_ordered
    rw [hall, List.pairwise_append] at hordered
    cases hprefix : m'.chars.isPrefixOf (m.chars ++ r) with
    | false => rfl
    | true =>
        have hm' : m'.chars <+: m.chars ++ r := by simpa using hprefix
        exact (hordered.2.2 m' hmem m List.mem_cons_self
          (List.prefix_of_prefix_length_le hm' (List.prefix_append _ _) (hr m' hm'))).elim

/-- What a mark goes on with: two dots, or one of three marks of one character, which makes a mark by itself. -/
theorem marks_extend : ∀ m ∈ Punct.all, ∀ m' ∈ Punct.all, m.chars <+: m'.chars →
    m'.chars.length ≤ m.chars.length ∨ m'.chars.drop m.chars.length = ['.', '.'] ∨
      ∃ d ∈ [Punct.assign, .greater, .colon], d.chars <+: m'.chars.drop m.chars.length ∧
        ∃ m'' ∈ Punct.all, m''.chars = m.chars ++ d.chars := by
  decide +kernel

/-- A longer mark than the one that stands here goes on with the next character. -/
theorem extension_of_prefix {m m' : Punct} {r : List Char} (h : m'.chars <+: m.chars ++ r)
    (hlt : m.chars.length < m'.chars.length) :
    (∃ cs, r = '.' :: '.' :: cs) ∨ ∃ c ∈ ['=', '>', ':'], r.head? = some c ∧
      ∃ m'' : Punct, m''.chars = m.chars ++ [c] := by
  have hprefix : m.chars <+: m'.chars :=
    List.prefix_of_prefix_length_le (List.prefix_append _ _) h (Nat.le_of_lt hlt)
  have hdrop : m'.chars.drop m.chars.length <+: r := by
    obtain ⟨t, ht⟩ := h
    obtain ⟨e, he⟩ := hprefix
    rw [← he, List.append_assoc] at ht
    rw [← he, List.drop_left]
    exact ⟨t, List.append_cancel_left ht⟩
  rcases marks_extend m (mem_marks m) m' (mem_marks m') hprefix with hle | hdots | ⟨d, hd, hgoes, m'', _, hm''⟩
  · omega
  · rw [hdots] at hdrop
    obtain ⟨cs, hcs⟩ := hdrop
    exact .inl ⟨cs, hcs.symm⟩
  · obtain ⟨c, hc, hchars⟩ : ∃ c, c ∈ ['=', '>', ':'] ∧ d.chars = [c] := by
      simp only [List.mem_cons, List.not_mem_nil, or_false] at hd
      rcases hd with rfl | rfl | rfl
      · exact ⟨'=', by decide, rfl⟩
      · exact ⟨'>', by decide, rfl⟩
      · exact ⟨':', by decide, rfl⟩
    rw [hchars] at hgoes hm''
    obtain ⟨cs, rfl⟩ := hgoes.trans hdrop
    exact .inr ⟨c, hc, rfl, m'', hm''⟩

/-- A mark ends before any character but those that marks go on with. -/
theorem apart_punct [IdentifierClass] {m : Punct} {c : Char} {r : List Char} (hc : c ∉ ['=', '>', ':', '.']) :
    Apart (.punct m) (c :: r) := by
  intro m' hm'
  refine Nat.le_of_not_lt fun hlt => ?_
  rcases extension_of_prefix hm' hlt with ⟨cs, hcs⟩ | ⟨d, hd, hhead, _⟩
  · cases hcs
    exact hc (by decide)
  · cases hhead
    exact hc (List.mem_append_left ['.'] hd)

/-- A mark that no longer mark begins with. -/
def Punct.IsFinal (m : Punct) : Prop :=
  ∀ m' ∈ Punct.all, m.chars <+: m'.chars → m'.chars.length ≤ m.chars.length

instance (m : Punct) : Decidable m.IsFinal :=
  inferInstanceAs (Decidable (∀ m' ∈ Punct.all, _ → _))

/-- Nothing lengthens such a mark. -/
theorem Punct.IsFinal.apart [IdentifierClass] {m : Punct} (h : m.IsFinal) (r : List Char) : Apart (.punct m) r := by
  intro m' hm'
  refine Nat.le_of_not_lt fun hlt => ?_
  have hprefix : m.chars <+: m'.chars :=
    List.prefix_of_prefix_length_le (List.prefix_append _ _) hm' (Nat.le_of_lt hlt)
  exact Nat.not_le_of_lt hlt (h m' (mem_marks m') hprefix)

/-! ## Inert text -/

/-- The text begins with nothing that a lexeme before it could go on with. -/
def Inert [IdentifierClass] (r : List Char) : Prop :=
  (∀ c ∈ r.head?, isIdentifierPart c = false ∧ c ∉ ['=', '>', ':']) ∧
    ∀ c cs, r = '.' :: c :: cs → c ≠ '.' ∧ c.isDigit = false

theorem inert_nil [IdentifierClass] : Inert [] := ⟨by rintro c ⟨⟩, by rintro c cs ⟨⟩⟩

theorem inert_cons [IdentifierClass] {c : Char} {r : List Char} (hc : isIdentifierPart c = false)
    (hmark : c ∉ ['=', '>', ':', '.']) : Inert (c :: r) := by
  refine ⟨?_, ?_⟩
  · rintro d ⟨⟩
    exact ⟨hc, fun h => hmark (List.mem_append_left ['.'] h)⟩
  · rintro d cs ⟨⟩
    exact (hmark (by decide)).elim

/-- What trivia begins with is inert. -/
theorem inert_trivia [IdentifierClass] {c : Char} {s : List Char} (h : Trivia.piece (c :: s) ≠ 0) (r : List Char) :
    Inert (c :: r) := by
  rcases Trivia.head_of_piece h with hc | rfl | rfl
  · exact inert_cons (isIdentifierPart_of_isBlank hc) (notMem_of_class hc (by decide))
  · exact inert_cons rfl (by decide)
  · exact inert_cons rfl (by decide)

theorem inert_dot [IdentifierClass] {c : Char} {r : List Char} (hdot : c ≠ '.') (hdigit : c.isDigit = false) :
    Inert ('.' :: c :: r) := by
  refine ⟨?_, ?_⟩
  · rintro d ⟨⟩
    exact ⟨rfl, by decide⟩
  · rintro d cs ⟨⟩
    exact ⟨hdot, hdigit⟩

/-- Inert text lengthens no lexeme. -/
theorem Inert.apart [IdentifierClass] {k : Kind} {r : List Char} (h : Inert r) (hk : k ≠ .endOfFile) : Apart k r := by
  have hnone {p : Char → Bool} (hp : ∀ c, p c = true → isIdentifierPart c = true) :
      ∀ c ∈ r.head?, p c = false := by
    intro c hc
    cases hpc : p c with
    | false => rfl
    | true => exact absurd (hp c hpc) (by simp [(h.1 c hc).1])
  have hword := hnone (fun c hc => isIdentifierPart_of_isWordChar hc)
  cases k with
  | endOfFile => exact (hk rfl).elim
  | number =>
      exact ⟨hnone fun c hc => isIdentifierPart_of_isWordChar (isWordChar_of_isDigit hc),
        fun c cs hr => (h.2 c cs hr).2⟩
  | string => trivial
  | regex => exact hnone fun c hc => isIdentifierPart_of_isWordChar (isWordChar_of_isAlpha hc)
  | identifier => exact fun c hc => (h.1 c hc).1
  | punct m =>
      intro m' hm'
      refine Nat.le_of_not_lt fun hlt => ?_
      rcases extension_of_prefix hm' hlt with ⟨cs, hcs⟩ | ⟨d, hd, hhead, _⟩
      · exact (h.2 '.' cs hcs).1 rfl
      · exact (h.1 d hhead).2 hd
  | word w => exact hword
  | includePragma => exact hword
  | declarePragma => exact hword

/-! ## Lexemes recognised again -/

section Next

variable [IdentifierClass] {c : Char} {cs r w s : List Char} {k : Kind} {n : Nat}

omit [IdentifierClass] in
theorem mark?_eq_none (hc : ∀ m : Punct, m.chars.head? ≠ some c) (cs : List Char) :
    Lexeme.mark? (c :: cs) = none := by
  unfold Lexeme.mark?
  rw [Option.map_eq_none_iff, List.find?_eq_none]
  intro m _ hprefix
  obtain ⟨r, hr⟩ : m.chars <+: c :: cs := by simpa using hprefix
  cases hchars : m.chars with
  | nil => cases m <;> cases hchars
  | cons d ds =>
      rw [hchars] at hr
      obtain ⟨rfl, _⟩ := List.cons.inj hr
      exact hc m (by rw [hchars]; rfl)

/-- What begins as an identifier is a word. -/
theorem next?_of_isIdentifierStart (hc : isIdentifierStart c = true) (cs : List Char) :
    Lexeme.next? (c :: cs) = Lexeme.word? (c :: cs) := by
  have hsome : (Lexeme.word? (c :: cs)).isSome = true := by
    unfold Lexeme.word?
    dsimp only
    split
    · rfl
    · rw [if_pos hc]
      rfl
  have hmarks : ∀ m : Punct, m.chars.head? ≠ some c := by
    intro m hm
    have hstart : m.chars.head?.any isIdentifierStart = false := by cases m <;> rfl
    rw [hm, Option.any_some, hc] at hstart
    cases hstart
  unfold Lexeme.next?
  dsimp only
  rw [if_neg (by simp [isDigit_of_isIdentifierStart hc]), mark?_eq_none hmarks, Option.none_or,
    Option.or_of_isSome hsome]

/-- What begins with `#` is a pragma word. -/
theorem next?_hash (cs : List Char) : Lexeme.next? ('#' :: cs) = Lexeme.pragma? ('#' :: cs) := by
  have hmarks : ∀ m : Punct, m.chars.head? ≠ some '#' := by
    intro m
    cases m <;> decide
  have hword : Lexeme.word? ('#' :: cs) = none := by
    unfold Lexeme.word?
    dsimp only
    rw [List.takeWhile_cons_of_neg (by decide)]
    rfl
  unfold Lexeme.next?
  dsimp only
  rw [if_neg (by decide), mark?_eq_none hmarks, Option.none_or, hword, Option.none_or]

omit [IdentifierClass] in
theorem isWhole_append (text : List Char) (hr : ∀ c ∈ r.head?, isWordChar c = false) :
    Lexeme.isWhole text (text ++ r) = true := by
  have hhead : r.head?.any isWordChar = false := by
    cases r with
    | nil => rfl
    | cons c r => exact hr c rfl
  simp [Lexeme.isWhole, hhead]

/-- A reserved word begins with a letter, and all its characters are word characters. -/
theorem word_start (w : Word) : ∃ c cs, w.text.toList = c :: cs ∧ isIdentifierStart c = true := by
  have hletter : ∃ c cs, w.text.toList = c :: cs ∧ c.isAlpha = true := by
    cases w <;> exact ⟨_, _, rfl, by decide⟩
  obtain ⟨c, cs, hw, hc⟩ := hletter
  exact ⟨c, cs, hw, by simp [isIdentifierStart, hc]⟩

/-- Words are identifiers or reserved words. -/
theorem kind_of_word? (h : Lexeme.word? cs = some (k, n)) : k = .identifier ∨ k.isWord = true := by
  unfold Lexeme.word? at h
  dsimp only at h
  split at h
  · cases h
    exact .inr rfl
  · split at h
    · cases h
    · split at h
      · cases h
        exact .inl rfl
      · cases h

/-- What is recognised as a lexeme is recognised in one of the families, in this order. -/
theorem families_of_next? (h : Lexeme.next? (c :: cs) = some (k, n)) (hk : k ≠ .number) :
    Lexeme.mark? (c :: cs) = some (k, n) ∨ Lexeme.word? (c :: cs) = some (k, n) ∨
      Lexeme.pragma? (c :: cs) = some (k, n) := by
  unfold Lexeme.next? at h
  dsimp only at h
  split at h
  · cases h
    exact (hk rfl).elim
  · rcases Option.or_eq_some_iff.mp h with hmark | ⟨_, h⟩
    · exact .inl hmark
    · rcases Option.or_eq_some_iff.mp h with hword | ⟨_, hpragma⟩
      · exact .inr (.inl hword)
      · exact .inr (.inr hpragma)

omit [IdentifierClass] in
theorem kind_of_pragma? (h : Lexeme.pragma? cs = some (k, n)) :
    k = .includePragma ∨ k = .declarePragma := by
  unfold Lexeme.pragma? at h
  split at h
  · cases h
    exact .inl rfl
  · split at h
    · cases h
      exact .inr rfl
    · cases h

/-- The mark that is recognised as a lexeme is recognised among the marks. -/
theorem mark?_of_next? {m : Punct} (h : Lexeme.next? cs = some (.punct m, n)) :
    Lexeme.mark? cs = some (.punct m, n) := by
  cases cs with
  | nil => cases h
  | cons c cs =>
      rcases families_of_next? h (by rintro ⟨⟩) with hmark | hword | hpragma
      · exact hmark
      · rcases kind_of_word? hword with hk | hk <;> cases hk
      · rcases kind_of_pragma? hpragma with hk | hk <;> cases hk

theorem next?_mark {m : Punct} (hr : Apart (.punct m) r) :
    Lexeme.next? (m.chars ++ r) = some (.punct m, m.chars.length) := by
  have hmark := mark?_eq_iff.mpr hr
  obtain ⟨c, ds, hchars, hc⟩ : ∃ c ds, m.chars = c :: ds ∧ c.isDigit = false := by
    cases m <;> exact ⟨_, _, rfl, by decide⟩
  rw [hchars, List.cons_append] at hmark ⊢
  unfold Lexeme.next?
  dsimp only
  rw [if_neg (by simp [hc]), hmark]
  rfl

/-- A reserved word is recognised wherever its run of word characters ends. -/
theorem next?_word {word : Word} (hword : Word.ofText? (String.ofList (cs.takeWhile isWordChar)) = some word)
    (hr : Apart (.word word) r) :
    Lexeme.next? (cs.takeWhile isWordChar ++ r) = some (.word word, (cs.takeWhile isWordChar).length) := by
  have hrun : (cs.takeWhile isWordChar ++ r).takeWhile isWordChar = cs.takeWhile isWordChar :=
    takeWhile_run of_mem_takeWhile hr
  obtain ⟨c, ds, hchars, hc⟩ : ∃ c ds, cs.takeWhile isWordChar = c :: ds ∧
      isIdentifierStart c = true := by
    have htext : word.text = String.ofList (cs.takeWhile isWordChar) := by
      simpa using List.find?_some hword
    obtain ⟨c, ds, hw, hc⟩ := word_start word
    rw [htext, String.toList_ofList] at hw
    exact ⟨c, ds, hw, hc⟩
  rw [hchars, List.cons_append, next?_of_isIdentifierStart hc, ← List.cons_append, ← hchars]
  unfold Lexeme.word?
  dsimp only
  rw [hrun, hword]

/-- An identifier is recognised wherever its run of identifier characters ends. -/
theorem next?_identifier (hc : isIdentifierStart c = true)
    (h : Lexeme.next? (c :: cs) = some (.identifier, n)) (hr : Apart .identifier r) :
    Lexeme.next? (c :: (cs.takeWhile isIdentifierPart ++ r)) =
      some (.identifier, 1 + (cs.takeWhile isIdentifierPart).length) := by
  have hrun : (cs.takeWhile isIdentifierPart ++ r).takeWhile isIdentifierPart =
      cs.takeWhile isIdentifierPart := takeWhile_run of_mem_takeWhile hr
  -- The word characters it begins with are those of the source, and they are no reserved word.
  have hword : (c :: (cs.takeWhile isIdentifierPart ++ r)).takeWhile isWordChar =
      (c :: cs).takeWhile isWordChar := by
    have hrest := takeWhile_takeWhile (p := isWordChar) (q := isIdentifierPart)
      (fun _ => isIdentifierPart_of_isWordChar) cs hr
    by_cases hc : isWordChar c = true
    · rw [List.takeWhile_cons_of_pos hc, List.takeWhile_cons_of_pos hc, hrest]
    · rw [List.takeWhile_cons_of_neg hc, List.takeWhile_cons_of_neg hc]
  rw [next?_of_isIdentifierStart hc] at h ⊢
  unfold Lexeme.word? at h ⊢
  dsimp only at h ⊢
  rw [hword]
  split at h
  · cases h
  · rw [if_pos hc, hrun]

/-- A lexeme is recognised again before other characters, unless they lengthen it. -/
theorem next?_append (h : Lexeme.next? cs = some (k, n)) (hr : Apart k r) :
    Lexeme.next? (cs.take n ++ r) = some (k, n) := by
  cases lexemeAt_of_next? h with
  | endOfFile =>
      rw [show r = [] from hr]
      rfl
  | @number c cs hc =>
      obtain ⟨m, hm⟩ : ∃ m, Lexeme.number (c :: cs) = m + 1 :=
        Nat.exists_eq_add_one.mpr (LexemeAt.number_pos hc)
      have hnumber := number_append (c :: cs) hr
      rw [hm, List.take_succ_cons, List.cons_append] at hnumber ⊢
      unfold Lexeme.next?
      dsimp only
      rw [if_pos hc, hnumber]
  | mark hm =>
      rw [← List.prefix_iff_eq_take.mp hm]
      exact next?_mark hr
  | word hword =>
      rw [LexemeAt.take_run]
      exact next?_word hword hr
  | identifier hc =>
      rw [Nat.add_comm, List.take_succ_cons, LexemeAt.take_run, List.cons_append, Nat.add_comm]
      exact next?_identifier hc h hr
  | includePragma hp =>
      rw [← List.prefix_iff_eq_take.mp hp]
      have hwhole := isWhole_append Lexeme.includeChars hr
      exact (next?_hash _).trans (if_pos hwhole)
  | declarePragma hp =>
      rw [← List.prefix_iff_eq_take.mp hp]
      have hwhole := isWhole_append Lexeme.declareChars hr
      exact (next?_hash _).trans ((if_neg (by simp [Lexeme.isWhole, Lexeme.includeChars])).trans
        (if_pos hwhole))

omit [IdentifierClass] in
theorem head_of_isWhole {text : List Char} (h : Lexeme.isWhole text (w ++ s) = true)
    (hlength : w.length = text.length) : ∀ c ∈ s.head?, isWordChar c = false := by
  unfold Lexeme.isWhole at h
  rw [← hlength, List.drop_left, Bool.and_eq_true] at h
  intro c hc
  rw [Option.mem_def.mp hc] at h
  simpa using h.2

omit [IdentifierClass] in
/-- What follows a pragma word does not go on with it. -/
theorem head_of_pragma? (h : Lexeme.pragma? (w ++ s) = some (k, w.length)) :
    ∀ c ∈ s.head?, isWordChar c = false := by
  unfold Lexeme.pragma? at h
  split at h
  · next hwhole => exact head_of_isWhole hwhole (Prod.mk.inj (Option.some.inj h)).2.symm
  · split at h
    · next hwhole => exact head_of_isWhole hwhole (Prod.mk.inj (Option.some.inj h)).2.symm
    · cases h

/-- What begins with the same character as the text that followed a mark does not lengthen it, if that
    character is no dot. -/
theorem apart_punct_of_head {m : Punct} (h : Apart (.punct m) s) (hhead : r.head? = s.head?)
    (hdot : r.head? ≠ some '.') : Apart (.punct m) r := by
  intro m' hm'
  refine Nat.le_of_not_lt fun hlt => ?_
  rcases extension_of_prefix hm' hlt with ⟨cs, rfl⟩ | ⟨c, _, hc, m'', hm''⟩
  · exact hdot rfl
  -- The mark that goes on with the first character would have been recognised before.
  · obtain ⟨cs, rfl⟩ : ∃ cs, s = c :: cs := by
      rw [hhead] at hc
      exact List.head?_eq_some_iff.mp hc
    have hlonger := h m'' (by rw [hm'']; exact ⟨cs, by simp⟩)
    rw [hm'', List.length_append] at hlonger
    exact Nat.not_succ_le_self _ hlonger

/-- What begins with the same character as the text that followed a lexeme does not lengthen it, if that
    character is no dot. -/
theorem apart_of_next? (h : Lexeme.next? (w ++ s) = some (k, w.length)) (hhead : r.head? = s.head?)
    (hdot : r.head? ≠ some '.') : Apart k r := by
  have hlex := lexemeAt_of_next? h
  generalize hcs : w ++ s = cs at h hlex
  generalize hn : w.length = n at h hlex
  cases hlex with
  | endOfFile =>
      rw [List.append_eq_nil_iff] at hcs
      rw [hcs.2] at hhead
      exact List.head?_eq_none_iff.mp hhead
  | number hc =>
      refine ⟨hhead ▸ head_of_number (by rw [hcs, hn]), ?_⟩
      rintro c ds rfl
      exact (hdot rfl).elim
  | @mark cs m hm =>
      subst hcs
      obtain rfl : m.chars = w := by
        have htake : (w ++ s).take w.length = w := List.take_left
        rw [← htake, hn]
        exact List.prefix_iff_eq_take.mp hm
      exact apart_punct_of_head (mark?_eq_iff.mp (mark?_of_next? h)) hhead hdot
  | @word cs word hword =>
      subst hcs
      have hs := (takeWhile_eq_of_length hn.symm).2
      rwa [← hhead] at hs
  | @identifier c cs hc =>
      cases w with
      | nil =>
          rw [List.length_nil] at hn
          omega
      | cons d w =>
          rw [List.cons_append] at hcs
          obtain ⟨_, rfl⟩ := List.cons.inj hcs
          have hs := (takeWhile_eq_of_length (p := isIdentifierPart) (w := w) (s := s)
            (by rw [List.length_cons] at hn; omega)).2
          rwa [← hhead] at hs
  | includePragma hp =>
      obtain ⟨ds, rfl⟩ := hp
      have hs := head_of_pragma? (w := w) (s := s) (by rw [hcs, hn, ← h]; exact (next?_hash _).symm)
      rwa [← hhead] at hs
  | declarePragma hp =>
      obtain ⟨ds, rfl⟩ := hp
      have hs := head_of_pragma? (w := w) (s := s) (by rw [hcs, hn, ← h]; exact (next?_hash _).symm)
      rwa [← hhead] at hs

/-! ## Words before word characters -/

/-- A word before a word character is not recognised by itself. -/
theorem length_lt_of_next? (hc : isIdentifierStart c = true) (hw : ∀ d ∈ c :: w, isWordChar d = true)
    {d : Char} (hd : isWordChar d = true) (h : Lexeme.next? (c :: w ++ d :: r) = some (k, n)) :
    (c :: w).length < n := by
  have hrun {p : Char → Bool} {v : List Char} (hv : ∀ e ∈ v, p e = true) (hpd : p d = true) :
      v.length < ((v ++ d :: r).takeWhile p).length := by
    rw [List.takeWhile_append_of_pos hv, List.takeWhile_cons_of_pos hpd, List.length_append,
      List.length_cons]
    omega
  have hword := hrun hw hd
  have hpart := hrun (p := isIdentifierPart) (v := w)
    (fun e he => isIdentifierPart_of_isWordChar (hw e (List.mem_cons_of_mem _ he)))
    (isIdentifierPart_of_isWordChar hd)
  rw [List.cons_append, next?_of_isIdentifierStart hc] at h
  unfold Lexeme.word? at h
  dsimp only at h
  split at h
  · obtain ⟨_, rfl⟩ := Prod.mk.inj (Option.some.inj h)
    exact hword
  · rw [if_pos hc] at h
    obtain ⟨_, rfl⟩ := Prod.mk.inj (Option.some.inj h)
    rw [List.length_cons]
    omega

end Next

/-! ## Literals recognised again -/

namespace Quoted

variable {quote : Char} {cs r w s : List Char} {n : Nat}

theorem body?_cons {c : Char} (hc : c ≠ '\\') (cs : List Char) :
    body? quote (c :: cs) = if c = quote then some 1 else (body? quote cs).map (· + 1) := by
  rw [body?]
  · rintro rfl
    exact absurd rfl hc
  · rintro d ds rfl
    exact absurd rfl hc

/-- The body of a literal ends with its closing delimiter, whatever follows. -/
theorem body?_append (h : body? quote cs = some n) (r : List Char) :
    body? quote (cs.take n ++ r) = some n := by
  have hplain {c : Char} {ds : List Char} (hnil : c = '\\' → ds = [] → False)
      (hcons : ∀ d es, c = '\\' → ds = d :: es → False) : c ≠ '\\' := by
    intro hc
    cases ds with
    | nil => exact hnil hc rfl
    | cons d es => exact hcons d es hc rfl
  fun_induction body? quote cs generalizing n with
  | case1 => cases h
  | case2 => cases h
  | case3 c cs ih =>
      obtain ⟨m, hm, rfl⟩ := Option.map_eq_some_iff.mp h
      change (body? quote (cs.take m ++ r)).map (· + 2) = some (m + 2)
      rw [ih hm]
      rfl
  | case4 cs hnil hcons =>
      cases h
      exact (body?_cons (hplain hnil hcons) r).trans (if_pos rfl)
  | case5 c cs hnil hcons hc ih =>
      obtain ⟨m, hm, rfl⟩ := Option.map_eq_some_iff.mp h
      rw [List.take_succ_cons, List.cons_append, body?_cons (hplain hnil hcons), if_neg hc, ih hm]
      rfl

theorem body?_le (h : body? quote cs = some n) : n ≤ cs.length := by
  fun_induction body? quote cs generalizing n with
  | case1 => cases h
  | case2 => cases h
  | case3 c cs ih =>
      obtain ⟨m, hm, rfl⟩ := Option.map_eq_some_iff.mp h
      exact Nat.add_le_add_right (ih hm) 2
  | case4 cs _ _ =>
      cases h
      exact Nat.le_add_left 1 cs.length
  | case5 c cs _ _ _ ih =>
      obtain ⟨m, hm, rfl⟩ := Option.map_eq_some_iff.mp h
      exact Nat.add_le_add_right (ih hm) 1

/-- The flags of a literal end before a character that is none. -/
theorem flags_append [IdentifierClass] (cs : List Char) (hr : Apart (kind quote) r) :
    flags quote (cs.take (flags quote cs) ++ r) = flags quote cs := by
  unfold flags
  split
  · next hquote =>
      rw [kind, if_pos hquote] at hr
      rw [LexemeAt.take_run, takeWhile_run of_mem_takeWhile hr]
  · rfl

/-- A literal is recognised again before other characters, unless they are read as flags. -/
theorem length?_append [IdentifierClass] (h : length? (quote :: cs) = some n) (hr : Apart (kind quote) r) :
    length? ((quote :: cs).take n ++ r) = some n := by
  unfold length? at h
  obtain ⟨m, hm, rfl⟩ := Option.map_eq_some_iff.mp h
  have htake : (quote :: cs).take (1 + m + flags quote (cs.drop m)) =
      quote :: (cs.take m ++ (cs.drop m).take (flags quote (cs.drop m))) := by
    rw [Nat.add_assoc, Nat.add_comm, List.take_succ_cons, List.take_add]
  have hdrop (ds : List Char) : (cs.take m ++ ds).drop m = ds :=
    List.drop_left' (List.length_take_of_le (body?_le hm))
  rw [htake, List.cons_append, List.append_assoc]
  change (body? quote _).map _ = _
  rw [body?_append hm, Option.map_some, hdrop, flags_append _ hr]

/-- A literal takes no more characters than there are. -/
theorem length?_le (h : length? (quote :: cs) = some n) : n ≤ (quote :: cs).length := by
  unfold length? at h
  obtain ⟨m, hm, rfl⟩ := Option.map_eq_some_iff.mp h
  have hle := body?_le hm
  have hflags : flags quote (cs.drop m) ≤ (cs.drop m).length := by
    unfold flags
    split
    · exact (List.takeWhile_sublist _).length_le
    · exact Nat.zero_le _
  rw [List.length_drop] at hflags
  rw [List.length_cons]
  omega

/-- A literal has two delimiters. -/
theorem two_le_length? (h : length? (quote :: cs) = some n) : 2 ≤ n := by
  unfold length? at h
  obtain ⟨m, hm, rfl⟩ := Option.map_eq_some_iff.mp h
  have hpos : 0 < m := by
    fun_induction body? quote cs with
    | case1 => cases hm
    | case2 => cases hm
    | case3 => obtain ⟨j, _, rfl⟩ := Option.map_eq_some_iff.mp hm; exact Nat.succ_pos _
    | case4 => cases hm; exact Nat.succ_pos _
    | case5 => obtain ⟨j, _, rfl⟩ := Option.map_eq_some_iff.mp hm; exact Nat.succ_pos _
  omega

/-- What begins with the same character as the text that followed a literal does not lengthen it. -/
theorem apart_of_length? [IdentifierClass] (h : length? (quote :: (w ++ s)) = some (w.length + 1))
    (hhead : r.head? = s.head?) : Apart (kind quote) r := by
  unfold length? at h
  obtain ⟨m, hm, hsum⟩ := Option.map_eq_some_iff.mp h
  unfold kind
  split
  · next hquote =>
      have hflags : flags quote ((w ++ s).drop m) = (((w ++ s).drop m).takeWhile Char.isAlpha).length :=
        if_pos hquote
      rw [hflags, List.drop_append_of_le_length (by omega)] at hsum
      have hs := (takeWhile_eq_of_length (p := Char.isAlpha) (w := w.drop m) (s := s)
        (by rw [List.length_drop]; omega)).2
      rwa [← hhead] at hs
  · trivial

end Quoted

/-! ## Text that goes on after a blank -/

section Blank

variable [IdentifierClass] {b : Char} {cs text : List Char} (hb : isBlank b = true)
include hb

/-- A blank belongs to no class of characters that identifiers are made of. -/
theorem eq_false_of_isBlank {p : Char → Bool} (hp : ∀ c, p c = true → isIdentifierPart c = true) :
    p b = false := by
  cases hpb : p b with
  | false => rfl
  | true => exact absurd (hp b hpb) (by simp [isIdentifierPart_of_isBlank hb])

omit hb in
omit [IdentifierClass] in
/-- A text without some character stands before that character if it stands there at all. -/
theorem isPrefixOf_append_cons (h : b ∉ text) (r : List Char) :
    text.isPrefixOf (cs ++ b :: r) = text.isPrefixOf cs := by
  induction text generalizing cs with
  | nil => cases cs <;> rfl
  | cons c text ih =>
      rw [List.mem_cons, not_or] at h
      cases cs with
      | nil => simp [List.isPrefixOf, beq_false_of_ne (Ne.symm h.1)]
      | cons d cs => simp only [List.cons_append, List.isPrefixOf, ih h.2]

omit [IdentifierClass] in
theorem mark?_before_blank (r : List Char) : Lexeme.mark? (cs ++ b :: r) = Lexeme.mark? cs := by
  have hmarks (m : Punct) : b ∉ m.chars := notMem_of_class hb (by cases m <;> decide)
  unfold Lexeme.mark?
  congr 2
  funext m
  exact isPrefixOf_append_cons (hmarks m) r

theorem word?_before_blank (hcs : cs ≠ []) (r : List Char) : Lexeme.word? (cs ++ b :: r) = Lexeme.word? cs := by
  have hword := eq_false_of_isBlank hb fun c => isIdentifierPart_of_isWordChar (c := c)
  have hpart := eq_false_of_isBlank hb fun c hc => hc
  unfold Lexeme.word?
  dsimp only
  rw [takeWhile_append_of_stop hword]
  cases cs with
  | nil => exact (hcs rfl).elim
  | cons c cs =>
      dsimp only [List.cons_append]
      rw [takeWhile_append_of_stop hpart]

theorem isWhole_before_blank (htext : b ∉ text) (r : List Char) :
    Lexeme.isWhole text (cs ++ b :: r) = Lexeme.isWhole text cs := by
  have hword := eq_false_of_isBlank hb fun c => isIdentifierPart_of_isWordChar (c := c)
  unfold Lexeme.isWhole
  rw [isPrefixOf_append_cons htext]
  cases hprefix : text.isPrefixOf cs with
  | false => rfl
  | true =>
      obtain ⟨ds, rfl⟩ := List.isPrefixOf_iff_prefix.mp hprefix
      rw [List.append_assoc, List.drop_left, List.drop_left]
      cases ds with
      | nil => simp [hword]
      | cons d ds => rfl

theorem number_before_blank (r : List Char) : Lexeme.number (cs ++ b :: r) = Lexeme.number cs := by
  have hdigit := eq_false_of_isBlank hb fun c hc =>
    isIdentifierPart_of_isWordChar (isWordChar_of_isDigit (c := c) hc)
  have hdigits (ds : List Char) : Lexeme.digits (ds ++ b :: r) = Lexeme.digits ds :=
    congrArg List.length (takeWhile_append_of_stop hdigit r)
  have hfraction (ds : List Char) : fractionLength (ds ++ b :: r) = fractionLength ds := by
    cases ds with
    | nil =>
        refine fractionLength_other ?_
        rintro es heq
        rw [(List.cons.inj heq).1] at hb
        cases hb
    | cons d ds =>
        by_cases hd : d = '.'
        · rw [hd, List.cons_append, fractionLength_dot, fractionLength_dot, hdigits]
        · rw [List.cons_append, fractionLength_other fun es heq => hd (List.cons.inj heq).1,
            fractionLength_other fun es heq => hd (List.cons.inj heq).1]
  obtain ⟨d, rest, rfl, hd, hrest, hnumber⟩ := number_split cs
  have hhead : ∀ c ∈ (rest ++ b :: r).head?, c.isDigit = false := by
    cases rest with
    | nil =>
        rintro c ⟨⟩
        exact hdigit
    | cons c rest => exact hrest
  rw [hnumber, List.append_assoc, number_run hd hhead, hfraction]

/-- The lexeme that begins a text is the same if the text goes on after a blank. -/
theorem next?_before_blank (hcs : cs ≠ []) (r : List Char) : Lexeme.next? (cs ++ b :: r) = Lexeme.next? cs := by
  have hpragma : Lexeme.pragma? (cs ++ b :: r) = Lexeme.pragma? cs := by
    unfold Lexeme.pragma?
    rw [isWhole_before_blank hb (notMem_of_class hb (by decide)),
      isWhole_before_blank hb (notMem_of_class hb (by decide))]
  have hnumber : Lexeme.number (cs ++ b :: r) = Lexeme.number cs := number_before_blank hb r
  have hmark : Lexeme.mark? (cs ++ b :: r) = Lexeme.mark? cs := mark?_before_blank hb r
  have hword := word?_before_blank hb hcs r
  cases cs with
  | nil => exact (hcs rfl).elim
  | cons c cs =>
      rw [List.cons_append] at hpragma hnumber hmark hword ⊢
      unfold Lexeme.next?
      dsimp only
      rw [hnumber, hmark, hword, hpragma]

/-- A literal that begins a text is the same if the text goes on after a blank. -/
theorem Quoted.length?_before_blank {n : Nat} (h : length? cs = some n) (r : List Char) :
    length? (cs ++ b :: r) = some n := by
  have halpha := eq_false_of_isBlank hb fun c hc =>
    isIdentifierPart_of_isWordChar (isWordChar_of_isAlpha (c := c) hc)
  cases cs with
  | nil => cases h
  | cons quote cs =>
      unfold length? at h
      obtain ⟨m, hm, rfl⟩ := Option.map_eq_some_iff.mp h
      have hbody := body?_append hm (cs.drop m ++ b :: r)
      rw [← List.append_assoc, List.take_append_drop] at hbody
      have hflags : flags quote ((cs ++ b :: r).drop m) = flags quote (cs.drop m) := by
        unfold flags
        rw [List.drop_append_of_le_length (body?_le hm), takeWhile_append_of_stop halpha]
      rw [List.cons_append, length?, hbody, Option.map_some, hflags]

end Blank

end Respell
