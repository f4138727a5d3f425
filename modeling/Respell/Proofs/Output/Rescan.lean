import Respell.Proofs.Output.Translation
import Respell.Proofs.Token.Apart

/-!
# The output, scanned again

The text of pieces is scanned as a source is, but nothing is refused: what was written for a program has
words and comparisons that no source may have. Quoted literals are read where literals were written. The
question is whether that gives the lexemes that were written, in their places.

It does not always. A lexeme may be written right after a word, so that the two are read as one; and a
regular expression that begins like a comment is one, as soon as text that was written after it closes it.
`fuses` finds both, and `Accounted` says that nothing else goes wrong. For pieces that are accounted for,
what is scanned is what was written exactly if nothing fuses.
-/

namespace Respell

open Text

/-! ## Scanning without refusal -/

/-- The lexeme that begins here, or the literal if one is asked for. -/
def recognise (literal : Bool) (cs : List Char) : Option (Kind × Nat) :=
  if literal then (Quoted.length? cs).map fun n => (Quoted.kind (cs.headD '"'), n) else Lexeme.next? cs

/-- Reads one token after the other, and a literal wherever one is asked for. No token is refused. The result is the
    text of each token with the byte offset at which it was read. -/
def rescan : List Bool → Place → Option (List (String × Nat))
  | [], _ => some []
  | literal :: rest, p =>
    match recognise literal p.rest with
    | none => none
    | some (kind, n) => (rescan rest (takeToken p kind n).2).map (((takeToken p kind n).1.text, p.offset) :: ·)

/-- The scanner reads what is recognised, and refuses some of it. -/
theorem scan_eq (p : Place) :
    scan p = match recognise false p.rest with
      | none => (.error (invalidToken p), p)
      | some (kind, n) =>
        ((takeToken p kind n).1.refusal?.elim (.ok (takeToken p kind n).1) .error,
          (takeToken p kind n).2) := by
  unfold scan recognise
  rw [if_neg (by decide)]
  cases Lexeme.next? p.rest with
  | none => rfl
  | some found =>
      dsimp only
      cases (takeToken p found.1 found.2).1.refusal? <;> rfl

theorem readQuoted_eq (opening : Token) (p : Place) :
    readQuoted opening p = match recognise true p.rest with
      | none => .error (opening.fault (Quoted.runaway (p.rest.headD '"')) [])
      | some (kind, n) => .ok (takeToken p kind n) := by
  unfold readQuoted recognise
  rw [if_pos rfl]
  cases Quoted.length? p.rest <;> rfl

/-! ## What was written -/

/-- The characters of pieces. -/
def chars (ps : List Piece) : List Char := ps.flatMap fun piece => piece.text.toList

theorem chars_cons (piece : Piece) (ps : List Piece) :
    chars (piece :: ps) = piece.text.toList ++ chars ps := List.flatMap_cons

theorem toList_join (ps : List Piece) : (Piece.join ps).toList = chars ps := by
  induction ps with
  | nil => rfl
  | cons piece ps ih =>
      rw [chars_cons, ← ih]
      simp [Piece.join]

theorem chars_gap (text : String) (ps : List Piece) :
    chars (.gap text :: ps) = text.toList ++ chars ps := chars_cons _ _

theorem chars_added (text : String) (ps : List Piece) :
    chars (.added text :: ps) = text.toList ++ chars ps := chars_cons _ _

/-- The piece is a string or a regular expression. -/
def Piece.isLiteral : Piece → Bool
  | .token t => t.kind.isQuoted
  | _ => false

/-- For each lexeme, whether it is a literal. -/
def literals : List Piece → List Bool
  | [] => []
  | .gap _ :: ps => literals ps
  | piece :: ps => piece.isLiteral :: literals ps

/-- The lexemes of pieces that are written from a byte offset on, each with its own offset. -/
def lexemesFrom (offset : Nat) : List Piece → List (String × Nat)
  | [] => []
  | .gap text :: ps => lexemesFrom (offset + text.utf8ByteSize) ps
  | piece :: ps => (piece.text, offset) :: lexemesFrom (offset + piece.text.utf8ByteSize) ps

/-! ## What fuses -/

/-- The pieces begin with a word and a lexeme right after it that goes on with the word: the keyword of a
    function after a reserved word, or an operator that is a word after a prototype. -/
def touches : List Piece → Bool
  | .token t :: .gap blanks :: piece :: _ =>
    t.kind.isWord && blanks.isEmpty && piece == .added Word.function.text
  | .added text :: .gap blanks :: .token t :: _ =>
    text == "prototype" && blanks.isEmpty && (t.text == Word.in.text || t.text == Word.instanceof.text)
  | _ => false

/-- The pieces begin with a regular expression that is a comment together with the text after it. -/
def swallows : List Piece → Bool
  | .token t :: ps =>
    t.kind == .regex && ['/', '*'].isPrefixOf t.text.toList &&
      (Trivia.throughClose? ((t.text.toList ++ chars ps).drop 2)).isSome
  | _ => false

/-- Somewhere a lexeme touches the next one or is swallowed. -/
def fuses : List Piece → Bool
  | [] => false
  | piece :: ps => touches (piece :: ps) || swallows (piece :: ps) || fuses ps

/-! ## Pieces that are accounted for -/

/-- Before the characters `r`, the lexeme is recognised as it was written. -/
def Piece.Recognised (piece : Piece) (r : List Char) : Prop :=
  ∃ kind n, recognise piece.isLiteral (piece.text.toList ++ r) = some (kind, n) ∧
    (piece.text.toList ++ r).take n = piece.text.toList

/-- Blanks are skipped, every lexeme is recognised unless it touches the next one, and none begins like
    trivia unless it is swallowed. -/
inductive Accounted : List Piece → Prop where
  | nil : Accounted []
  | gap {text : String} {ps : List Piece} :
      Trivia.length (text.toList ++ chars ps) = text.toList.length + Trivia.length (chars ps) →
      Accounted ps → Accounted (.gap text :: ps)
  | lexeme {piece : Piece} {ps : List Piece} :
      piece.lexeme? = some piece.text →
      (piece.Recognised (chars ps) ↔ touches (piece :: ps) = false) →
      (Trivia.length (chars (piece :: ps)) = 0 ↔ swallows (piece :: ps) = false) →
      Accounted ps → Accounted (piece :: ps)

/-- Only a regular expression is swallowed. -/
theorem swallows_eq_false {piece : Piece} (h : piece.isLiteral = false) (ps : List Piece) :
    swallows (piece :: ps) = false := by
  cases piece with
  | token t =>
      have hregex : t.kind ≠ .regex := by
        intro hkind
        rw [Piece.isLiteral, hkind] at h
        cases h
      simp [swallows, hregex]
  | _ => rfl

/-- A lexeme that is no literal is accounted for if it is recognised and begins no trivia. -/
theorem accounted_lexeme {piece : Piece} {ps : List Piece} {k : Kind}
    (hlexeme : piece.lexeme? = some piece.text) (hliteral : piece.isLiteral = false)
    (hnext : Lexeme.next? (piece.text.toList ++ chars ps) = some (k, piece.text.toList.length))
    (htouch : touches (piece :: ps) = false) (htrivia : Trivia.length (piece.text.toList ++ chars ps) = 0)
    (h : Accounted ps) : Accounted (piece :: ps) := by
  have hrecognised : piece.Recognised (chars ps) := by
    refine ⟨k, piece.text.toList.length, ?_, List.take_left⟩
    rw [hliteral, recognise, if_neg (by decide)]
    exact hnext
  rw [← chars_cons] at htrivia
  exact .lexeme hlexeme (iff_of_true hrecognised htouch) (iff_of_true htrivia (swallows_eq_false hliteral ps)) h

/-- A word before a word character is not recognised as it was written. -/
theorem not_recognised {piece : Piece} (hliteral : piece.isLiteral = false) {c d : Char} {w r : List Char}
    (htext : piece.text.toList = c :: w) (hc : isIdentifierStart c = true)
    (hw : (c :: w).all isWordChar = true) (hd : isWordChar d = true) :
    ¬ piece.Recognised (d :: r) := by
  rintro ⟨kind, n, hfound, htake⟩
  rw [hliteral, recognise, if_neg (by decide), htext] at hfound
  rw [htext] at htake
  have hlonger := length_lt_of_next? hc (List.all_eq_true.mp hw) hd hfound
  have hlength := congrArg List.length htake
  have hpos : 0 < (d :: r).length := Nat.succ_pos _
  rw [List.length_take, List.length_append] at hlength
  omega

theorem literals_cons {piece : Piece} (h : piece.lexeme? = some piece.text) (ps : List Piece) :
    literals (piece :: ps) = piece.isLiteral :: literals ps := by
  cases piece with
  | gap text => cases h
  | _ => rfl

theorem lexemesFrom_cons {piece : Piece} (h : piece.lexeme? = some piece.text) (offset : Nat)
    (ps : List Piece) : lexemesFrom offset (piece :: ps) =
      (piece.text, offset) :: lexemesFrom (offset + piece.text.utf8ByteSize) ps := by
  cases piece with
  | gap text => cases h
  | _ => rfl

/-- The place after a text does not depend on how its characters are counted. -/
theorem advance_of_take {p : Place} {m n : Nat} (h : p.rest.take m = p.rest.take n) :
    p.advance m = p.advance n := by
  have hm := List.take_append_drop m p.rest
  have hn := List.take_append_drop n p.rest
  rw [← h] at hn
  have hdrop : p.rest.drop m = p.rest.drop n := List.append_cancel_left (hm.trans hn.symm)
  rw [Place.advance, Place.advance, h, hdrop]

/-- Trivia that takes no bytes is none. -/
theorem length_eq_zero_of_offset {p : Place} (h : (scanTrivia p).2.offset = p.offset) :
    Trivia.length p.rest = 0 := by
  change p.offset + byteLength (p.rest.take (Trivia.length p.rest)) = p.offset at h
  rcases List.take_eq_nil_iff.mp (byteLength_eq_zero (Nat.add_left_cancel (n := p.offset) h)) with hzero | hnil
  · exact hzero
  · rw [hnil, Trivia.length_nil]

theorem scanTrivia_of_length_eq_zero {p : Place} (h : Trivia.length p.rest = 0) :
    (scanTrivia p).2 = p := by
  change p.advance (Trivia.length p.rest) = p
  rw [h]
  rfl

/-- Scanning gives a lexeme in its place exactly if no trivia begins there and the lexeme is recognised, and
    it goes on with what follows. -/
theorem rescan_lexeme {piece : Piece} {ps : List Piece} {rest : List Bool} {lexemes : List (String × Nat)}
    {p : Place} (hp : p.rest = chars (piece :: ps)) :
    rescan (piece.isLiteral :: rest) (scanTrivia p).2 = some ((piece.text, p.offset) :: lexemes) ↔
      Trivia.length p.rest = 0 ∧ piece.Recognised (chars ps) ∧
        rescan rest (scanTrivia (p.advance piece.text.toList.length)).2 = some lexemes := by
  rw [chars_cons] at hp
  constructor
  · intro h
    unfold rescan at h
    cases hfound : recognise piece.isLiteral (scanTrivia p).2.rest with
    | none =>
        rw [hfound] at h
        cases h
    | some found =>
        obtain ⟨kind, n⟩ := found
        rw [hfound] at h
        obtain ⟨us, hus, hlexemes⟩ := Option.map_eq_some_iff.mp h
        obtain ⟨hhead, rfl⟩ := List.cons.inj hlexemes
        obtain ⟨htext, hoffset⟩ := Prod.mk.inj hhead
        have hzero : Trivia.length p.rest = 0 := length_eq_zero_of_offset hoffset
        rw [scanTrivia_of_length_eq_zero hzero] at hfound hus htext
        have htake : p.rest.take n = piece.text.toList := by
          rw [← htext]
          exact (p.toList_text n).symm
        have hsame : p.advance n = p.advance piece.text.toList.length :=
          advance_of_take (by rw [htake, hp, List.take_left])
        refine ⟨hzero, ⟨kind, n, by rw [← hp]; exact hfound, by rw [← hp]; exact htake⟩, ?_⟩
        rw [← hsame]
        exact hus
  · rintro ⟨hzero, ⟨kind, n, hfound, htake⟩, hrest⟩
    rw [← hp] at hfound htake
    have hsame : p.advance n = p.advance piece.text.toList.length :=
      advance_of_take (by rw [htake, hp, List.take_left])
    have htext : (takeToken p kind n).1.text = piece.text := by
      change String.ofList (p.rest.take n) = _
      rw [htake, String.ofList_toList]
    rw [scanTrivia_of_length_eq_zero hzero]
    unfold rescan
    rw [hfound]
    change (rescan rest (scanTrivia (p.advance n)).2).map _ = _
    rw [hsame, hrest, Option.map_some, htext]

theorem advance_piece {piece : Piece} {ps : List Piece} {p : Place} (hp : p.rest = chars (piece :: ps)) :
    (p.advance piece.text.toList.length).rest = chars ps ∧
      (p.advance piece.text.toList.length).offset = p.offset + piece.text.utf8ByteSize := by
  rw [Place.rest_advance, Place.offset_advance, hp, chars_cons, List.drop_left, List.take_left,
    byteLength_toList]
  exact ⟨rfl, rfl⟩

/-- Where all pieces are accounted for, the text is scanned as it was written exactly if nothing fuses. -/
theorem rescan_eq_iff {ps : List Piece} (h : Accounted ps) {p : Place} (hp : p.rest = chars ps) :
    rescan (literals ps) (scanTrivia p).2 = some (lexemesFrom p.offset ps) ↔ fuses ps = false := by
  induction h generalizing p with
  | nil => exact ⟨fun _ => rfl, fun _ => rfl⟩
  | @gap text ps hgap _ ih =>
      obtain ⟨hrest, hoffset⟩ := advance_piece hp
      have hskip : (scanTrivia p).2 = (scanTrivia (p.advance text.toList.length)).2 := by
        change p.advance _ = (p.advance _).advance _
        rw [hp, chars_gap, hgap, advance_add, ← hrest]
        rfl
      have hafter := ih hrest
      rw [hoffset] at hafter
      rw [hskip]
      exact hafter
  | @lexeme piece ps hlexeme htouches hswallows _ ih =>
      obtain ⟨hrest, hoffset⟩ := advance_piece hp
      have hafter := ih hrest
      rw [hoffset] at hafter
      rw [literals_cons hlexeme, lexemesFrom_cons hlexeme, rescan_lexeme hp, hafter, htouches, hp, hswallows,
        fuses, Bool.or_eq_false_iff, Bool.or_eq_false_iff]
      constructor
      · rintro ⟨hswallow, htouch, hfuse⟩
        exact ⟨⟨htouch, hswallow⟩, hfuse⟩
      · rintro ⟨⟨htouch, hswallow⟩, hfuse⟩
        exact ⟨hswallow, htouch, hfuse⟩

end Respell
