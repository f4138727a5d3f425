import Respell.Proofs.Engine.Compile
import Respell.Proofs.Output.Relaid
import Respell.Proofs.Parse.Limit

/-!
# Two programs, one after the other

Two texts that are programs make one program if a line feed stands between them: its statements are those of the
first text and then those of the second one. A line feed ends every lexeme and every line comment, and it closes no
block comment. So every token of the first text is read as it was, provided that no literal of it begins like a
comment, which the second text might close. The second text is read as it was, further on. The statements of both
are written as they were, and what stands before the first token of the second text comes after the last token of
the first one.
-/

namespace Respell

open Text Respell.Parser

/-- A regular expression that begins like a block comment. -/
def Token.OpensComment (t : Token) : Prop := t.kind = .regex ∧ ['/', '*'] <+: t.text.toList

instance (t : Token) : Decidable t.OpensComment := inferInstanceAs (Decidable (_ ∧ _))

/-! ## No trivia before tokens -/

section Trimmed

variable {p q : Place} {t : Token} {ts : List Token}

/-- What begins like a block comment and is a token is a literal: after a slash stands what an operand begins
    with. -/
theorem Sited.not_open (h : Sited p (t :: ts) q) (hproper : Proper (t :: ts))
    (hopens : ¬ t.OpensComment) (cs : List Char) :
    p.rest ≠ '/' :: '*' :: cs := by
  intro hopen
  obtain ⟨r, htaken, hts⟩ := h.uncons
  have hrest := htaken.rest_eq
  rw [hopen] at hrest
  cases hk : t.kind.isQuoted with
  | true =>
      obtain ⟨c, d, ds, htext, _, hkind⟩ := literal_chars htaken (hproper.genuine.quoted hk)
      rw [htext, List.cons_append, List.cons_append, List.cons.injEq, List.cons.injEq] at hrest
      obtain ⟨rfl, rfl, _⟩ := hrest
      exact hopens ⟨hkind, ds, htext.symm⟩
  | false =>
      have hslash : Lexeme.next? ('/' :: '*' :: cs) = some (.punct .slash, 1) :=
        next?_mark (apart_slash (by decide) cs)
      have hlex := htaken.next? hk
      rw [hopen, hslash] at hlex
      obtain ⟨hkind, hlength⟩ := Prod.mk.inj (Option.some.inj hlex)
      obtain ⟨c, htext⟩ := List.length_eq_one_iff.mp hlength.symm
      rw [htext, List.singleton_append, List.cons.injEq] at hrest
      -- A star is no trivia, so it stands right after the slash and begins the next token.
      have hzero : Trivia.length (t.trailing.toList ++ r.rest) = 0 := by
        rw [← hrest.2]
        exact Trivia.length_eq_zero_iff.mpr (Trivia.piece_eq_zero rfl (by decide))
      rw [htaken.trailing.1] at hzero
      rw [List.eq_nil_of_length_eq_zero hzero, List.nil_append] at hrest
      obtain ⟨u, us, e, es, rfl, hu, he⟩ := (hproper.begins hkind.symm).head_ne_star
      obtain ⟨_, hnext, _⟩ := hts.uncons
      have hstar := hrest.2
      rw [hnext.rest_eq, hu] at hstar
      exact he (List.cons.inj hstar).1.symm

/-- No trivia stands before a token of a text, also if the text goes on in the next line. -/
theorem Sited.trimmed_joined (h : Sited p (t :: ts) q) (hproper : Proper (t :: ts))
    (hopens : ¬ t.OpensComment) (s : List Char) :
    Trivia.length (p.rest ++ '\n' :: s) = 0 := by
  obtain ⟨r, htaken, _⟩ := h.uncons
  obtain ⟨c, w, hrest⟩ := List.exists_cons_of_ne_nil (htaken.rest_ne_nil hproper.genuine.kind_ne)
  have hzero := Trivia.length_eq_zero_iff.mp h.trimmed
  rw [hrest, ← List.append_nil (c :: w)] at hzero
  rw [hrest, Trivia.length_eq_zero_iff]
  refine Trivia.piece_before_blank rfl hzero ?_ ?_
  · rintro rfl cs rfl
    exact htaken.ne_shebang hproper.genuine cs hrest
  · rintro cs rfl rfl
    exact (h.not_open hproper hopens cs hrest).elim

end Trimmed

/-! ## Trivia -/

section Trivia

variable {offset : Nat} {w r s : List Char}

/-- Trivia at the end of a text and that which the next line begins with are skipped together. -/
theorem scanTrivia_line (h : Trivia.length w = w.length) :
    scanTrivia ⟨offset, w ++ '\n' :: s⟩ = (String.ofList w ++ ("\n" ++ (scanTrivia (.start s)).1),
      Place.moved (offset + byteLength w + 1) (firstPlace s)) := by
  have hsplit : w ++ '\n' :: s =
      (w ++ '\n' :: s.take (Trivia.length s)) ++ s.drop (Trivia.length s) := by
    rw [List.append_assoc, List.cons_append, List.take_append_drop]
  have hlength : Trivia.length ((w ++ '\n' :: s.take (Trivia.length s)) ++ s.drop (Trivia.length s)) =
      (w ++ '\n' :: s.take (Trivia.length s)).length := by
    rw [← hsplit, Trivia.length_line h, List.length_append, List.length_cons,
      List.length_take_of_le (Trivia.length_le s)]
    omega
  have htext : String.ofList (w ++ '\n' :: s.take (Trivia.length s)) =
      String.ofList w ++ ("\n" ++ (scanTrivia (.start s)).1) := by
    apply String.toList_inj.mp
    simp [scanTrivia, Place.start]
  have hoffset : offset + byteLength (w ++ '\n' :: s.take (Trivia.length s)) =
      0 + byteLength (s.take (Trivia.length s)) + (offset + byteLength w + 1) := by
    have hfeed : '\n'.utf8Size = 1 := rfl
    rw [byteLength_append, byteLength_cons, hfeed]
    omega
  rw [hsplit, scanTrivia_split hlength, htext, hoffset]
  rfl

/-- The trivia that a text begins with stays if the text goes on in the next line. -/
theorem scanTrivia_start {source : List Char} (hne : (firstPlace source).rest ≠ [])
    (hzero : Trivia.length ((firstPlace source).rest ++ '\n' :: s) = 0) :
    scanTrivia (.start (source ++ '\n' :: s)) =
      ((scanTrivia (.start source)).1, ⟨(firstPlace source).offset, (firstPlace source).rest ++ '\n' :: s⟩) := by
  have hsplit : source.take (Trivia.length source) ++ (firstPlace source).rest = source :=
    List.take_append_drop _ _
  have hlength : Trivia.length (source.take (Trivia.length source) ++ (firstPlace source).rest) =
      (source.take (Trivia.length source)).length := by
    rw [hsplit, List.length_take_of_le (Trivia.length_le source)]
  have hclosed := Trivia.closed_of_length hne hlength ((firstPlace source).rest ++ '\n' :: s)
  rw [hzero, Nat.add_zero] at hclosed
  calc scanTrivia (.start (source ++ '\n' :: s))
      = scanTrivia ⟨0, source.take (Trivia.length source) ++ ((firstPlace source).rest ++ '\n' :: s)⟩ := by
        rw [← List.append_assoc, hsplit]
        rfl
    _ = _ := scanTrivia_split hclosed

end Trivia

/-! ## The tokens of the first text -/

/-- The layout that puts `w` after the trivia of the token at a position. -/
def Relayout.ending (pos : TextPos) (w : String) : Relayout where
  pos := Token.pos
  trailing t := if t.pos = pos then t.trailing ++ w else t.trailing

section Tokens

variable {p q p' : Place} {t : Token} {ts : List Token} {s : List Char}

/-- Where tokens stand one after the other, the trivia of all but the last one stays. -/
theorem ending_extends {last : Token} (hpos : ts.Pairwise fun t u => t.pos < u.pos)
    (hlast : ts.getLast? = some last) (w : String) : (Relayout.ending last.pos w).Extends w ts := by
  induction ts with
  | nil => cases hlast
  | cons t ts ih =>
      obtain ⟨ht, hts⟩ := List.pairwise_cons.mp hpos
      cases ts with
      | nil =>
          cases hlast
          exact if_pos rfl
      | cons u us =>
          rw [List.getLast?_cons_cons] at hlast
          have hlt := ht last (List.mem_of_getLast? hlast)
          exact ⟨if_neg (UInt32.ne_of_lt hlt), ih hts hlast⟩

/-- A token is taken again if the text goes on in the next line. -/
theorem Taken.before_line {pos : TextPos} {w : String} {r : Place} (h : Taken p t q) (ht : t.Genuine)
    (hrest : p'.rest = p.rest ++ '\n' :: s) (hoffset : p'.offset = p.offset)
    (hscan : scanTrivia ⟨p.offset + byteLength t.text.toList, t.trailing.toList ++ (q.rest ++ '\n' :: s)⟩ =
      ((Relayout.ending pos w).trailing t, r)) : Matches p p' t (t.relayout (.ending pos w)) q r := by
  have hagain : p'.rest = t.text.toList ++ (t.trailing.toList ++ (q.rest ++ '\n' :: s)) := by
    rw [hrest, h.rest_eq, List.append_assoc, List.append_assoc]
  have hlex (hk : t.kind.isQuoted = false) :
      Lexeme.next? p'.rest = some (t.kind, t.text.toList.length) := by
    rw [hrest, next?_before_blank rfl (h.rest_ne_nil ht.kind_ne)]
    exact h.next? hk
  have hlen (hk : t.kind.isQuoted = true) : Quoted.length? p'.rest = some t.text.toList.length := by
    obtain ⟨_, _, _, _, _, hlength⟩ := h.length? (ht.quoted hk)
    rw [hrest]
    exact Quoted.length?_before_blank rfl hlength _
  have htake : takeToken p' t.kind t.text.toList.length = (t.relayout (.ending pos w), r) := by
    unfold takeToken
    have hpos : p'.pos = t.pos := by rw [h.pos, Place.pos, Place.pos, hoffset]
    rw [Place.advance, Place.text, hagain, List.take_left, List.drop_left, hoffset, hscan,
      String.ofList_toList, hpos]
    rfl
  have hmatches := h.matches ht hagain hlex hlen
  rwa [htake] at hmatches

theorem Taken.offset_eq (h : Taken p t q) :
    q.offset = p.offset + byteLength t.text.toList + byteLength t.trailing.toList := by
  rw [h.offset, Token.source, String.toList_append, byteLength_append, Nat.add_assoc]

/-- The tokens of a text that goes on in the next line. Nothing changes but the trivia of the last one, which takes
    what the next line begins with. -/
theorem Sited.joined (h : Sited p (t :: ts) q) (hq : q.rest = []) (hproper : Proper (t :: ts))
    (hpairs : (t :: ts).Pairwise fun t u => t.pos < u.pos)
    (hopens : ∀ u ∈ t :: ts, ¬ u.OpensComment)
    (hrest : p'.rest = p.rest ++ '\n' :: s) (hoffset : p'.offset = p.offset) {last : Token}
    (hlast : (t :: ts).getLast? = some last) :
    Parallel p p' (t :: ts)
      ((t :: ts).map (Token.relayout (.ending last.pos ("\n" ++ (scanTrivia (.start s)).1)))) q
      (Place.moved (q.offset + 1) (firstPlace s)) := by
  induction ts generalizing p p' t with
  | nil =>
      obtain rfl : t = last := Option.some.inj hlast
      have ht := h.single
      refine .cons (ht.before_line hproper.genuine hrest hoffset ?_) .nil
      have htrailing := ht.trailing.1
      rw [hq, List.append_nil] at htrailing
      rw [hq, List.nil_append, scanTrivia_line htrailing, ← ht.offset_eq, String.ofList_toList]
      exact congrArg (·, _) (if_pos rfl).symm
  | cons u us ih =>
      obtain ⟨r, ht, hus⟩ := h.uncons
      obtain ⟨_, hopens'⟩ := List.forall_mem_cons.mp hopens
      rw [List.getLast?_cons_cons] at hlast
      obtain ⟨hfirst, hpairs'⟩ := List.pairwise_cons.mp hpairs
      have hpos : t.pos < last.pos := hfirst last (List.mem_of_getLast? hlast)
      -- The trivia of this token ends before the next token, as it did.
      have hlength : Trivia.length (t.trailing.toList ++ (r.rest ++ '\n' :: s)) =
          t.trailing.toList.length := by
        have hnext : r.rest ≠ [] := by
          obtain ⟨_, hu, _⟩ := hus.uncons
          exact hu.rest_ne_nil hproper.tail.genuine.kind_ne
        rw [Trivia.closed_of_length hnext ht.trailing.1,
          hus.trimmed_joined hproper.tail (hopens' u List.mem_cons_self), Nat.add_zero]
      have hkept : (Relayout.ending last.pos ("\n" ++ (scanTrivia (.start s)).1)).trailing t = t.trailing :=
        if_neg (UInt32.ne_of_lt hpos)
      have hscan : scanTrivia ⟨p.offset + byteLength t.text.toList, t.trailing.toList ++ (r.rest ++ '\n' :: s)⟩ =
          ((Relayout.ending last.pos ("\n" ++ (scanTrivia (.start s)).1)).trailing t,
            ⟨r.offset, r.rest ++ '\n' :: s⟩) := by
        rw [scanTrivia_split hlength, ← ht.offset_eq, String.ofList_toList, hkept]
      exact .cons (ht.before_line hproper.genuine hrest hoffset hscan)
        (ih hus hproper.tail hpairs' hopens' rfl rfl hlast)

/-- The same from the beginning of a text on. What stands before its first token stays. -/
theorem Reading.joined {source : List Char} {last : Token} (h : Reading (firstPlace source) ts q) (hq : q.rest = [])
    (hproper : Proper ts) (hpairs : ts.Pairwise fun t u => t.pos < u.pos) (hopens : ∀ u ∈ ts, ¬ u.OpensComment)
    (hlast : ts.getLast? = some last) :
    (scanTrivia (.start (source ++ '\n' :: s))).1 = (scanTrivia (.start source)).1 ∧
    Parallel (firstPlace source) (firstPlace (source ++ '\n' :: s)) ts
      (ts.map (Token.relayout (.ending last.pos ("\n" ++ (scanTrivia (.start s)).1)))) q
      (Place.moved (q.offset + 1) (firstPlace s)) := by
  cases ts with
  | nil => cases hlast
  | cons t ts =>
      have hsited : Sited (firstPlace source) (t :: ts) q := ⟨Trivia.length_drop_length _, h⟩
      obtain ⟨_, ht, _⟩ := hsited.uncons
      have hscan := scanTrivia_start (ht.rest_ne_nil hproper.genuine.kind_ne)
        (hsited.trimmed_joined hproper (hopens t List.mem_cons_self) s)
      have hfirst : firstPlace (source ++ '\n' :: s) =
          ⟨(firstPlace source).offset, (firstPlace source).rest ++ '\n' :: s⟩ := congrArg Prod.snd hscan
      rw [hfirst, hscan]
      refine ⟨rfl, hsited.joined hq hproper hpairs hopens ?_ ?_ hlast⟩
      · rfl
      · rfl

end Tokens

/-! ## The first text -/

theorem stmtsPieces_append (ss us : List Stmt) (ps : List Piece) :
    stmtsPieces (ss ++ us) ps = stmtsPieces ss (stmtsPieces us ps) := by
  induction ss with
  | nil => rfl
  | cons s ss ih => rw [List.cons_append, stmtsPieces, ih, stmtsPieces]

/-- The end of the file is written as nothing. -/
theorem join_endOfFile {p q : Place} {t : Token} (h : next p = .ok (t, q)) (hk : t.kind = .endOfFile) :
    Piece.join (t.replay []) = "" := by
  rw [(endOfFile_of_next h hk).1]
  rfl

/-- The statements of the first text, read and written before a second text. They are read with the layout `g`, and
    the second text begins `d` bytes further on. -/
structure Seam (x : Program) (source s : List Char) (d : Nat) (g : Relayout) : Prop where
  /-- The parser reads them and goes on with the second text. -/
  reads : ∀ n, x.nesting ≤ n →
    (∃ t r, next (Place.moved d (firstPlace s)) = .ok (t, r) ∧ t.kind ≠ .word .else) →
    many (fun k => k = .endOfFile) (level n).statement (firstPlace (source ++ '\n' :: s)) =
      (many (fun k => k = .endOfFile) (level n).statement (Place.moved d (firstPlace s))).map fun o =>
        (stmtsRelayout g x.body ++ o.1, o.2)
  /-- Their output is that of the first text, with what the second text begins with. -/
  writes : ∀ ps, (scanTrivia (.start (source ++ '\n' :: s))).1 ++
      Piece.join (stmtsPieces (stmtsRelayout g x.body) ps) =
    x.output ++ ("\n" ++ (scanTrivia (.start s)).1 ++ Piece.join ps)

section First

variable {m : Nat} {source : List Char} {x : Program} (h : parseProgramWithin m source = .ok x)
include h

theorem output_of_parse : x.output = x.preamble ++ Piece.join (stmtsPieces x.body []) := by
  obtain ⟨q, r, _, _, hend, hk, _⟩ := body_of_parse h
  rw [Program.output, Program.pieces, join_cons, join_stmtsPieces, join_endOfFile hend hk, String.append_empty]
  rfl

/-- A text without statements is trivia, and the second text goes on with it. -/
theorem seam_of_nil (hnil : x.body = []) (s : List Char) : ∃ d g, Seam x source s d g := by
  obtain ⟨q, r, _, hreading, hend, hk, hpreamble⟩ := body_of_parse h
  rw [hnil] at hreading
  cases hreading
  have hdrop : source.drop (Trivia.length source) = [] := (endOfFile_of_next hend hk).2
  have hlength : Trivia.length source = source.length :=
    Nat.le_antisymm (Trivia.length_le source) (List.drop_eq_nil_iff.mp hdrop)
  have hscan : scanTrivia (.start (source ++ '\n' :: s)) = (String.ofList source ++
      ("\n" ++ (scanTrivia (.start s)).1), Place.moved (0 + byteLength source + 1) (firstPlace s)) :=
    scanTrivia_line hlength
  refine ⟨0 + byteLength source + 1, .id, ?_, ?_⟩
  · intro n _ _
    rw [hnil, firstPlace, hscan]
    cases many (fun k => k = .endOfFile) (level n).statement
      (Place.moved (0 + byteLength source + 1) (firstPlace s)) <;> rfl
  · intro ps
    have htext : (scanTrivia (.start source)).1 = String.ofList source := by
      change String.ofList (source.take (Trivia.length source)) = _
      rw [hlength, List.take_length]
    rw [output_of_parse h, hpreamble, htext, hscan, hnil]
    simp [stmtsRelayout, stmtsPieces, Piece.join, String.append_assoc]

/-- The last token of the first text takes what the second text begins with. -/
theorem seam_of_ne_nil (hshort : byteLength source < UInt32.size) (hne : x.body ≠ [])
    (hopens : ∀ t ∈ stmtsTokens x.body, ¬ t.OpensComment) (s : List Char) :
    ∃ d g, Seam x source s d g := by
  obtain ⟨q, r, hrun, hreading, hend, hk, hpreamble⟩ := body_of_parse h
  obtain ⟨hproper, hconcludes⟩ := body_proper h
  have htokens : stmtsTokens x.body ≠ [] := by
    intro hnil
    cases hbody : x.body with
    | nil => exact hne hbody
    | cons s ss =>
        rw [hbody] at hnil
        exact s.tokens_ne_nil (List.append_eq_nil_iff.mp hnil).1
  obtain ⟨last, hlast⟩ : ∃ last, (stmtsTokens x.body).getLast? = some last :=
    ⟨_, List.getLast?_eq_some_getLast htokens⟩
  have hpairs := (List.pairwise_append.mp (tokens_increase hshort h)).1
  obtain ⟨hscan, hparallel⟩ :=
    hreading.joined (s := s) (endOfFile_of_next hend hk).2 hproper hpairs hopens hlast
  refine ⟨q.offset + 1, .ending last.pos ("\n" ++ (scanTrivia (.start s)).1), ?_, ?_⟩
  · intro n hw hgoesOn
    have htwin := hparallel.twin (x := ⟨_, _, _, hgoesOn⟩) rfl hproper hconcludes
    exact body_run hrun htwin hw
  · intro ps
    rw [stmts_output (ending_extends hpairs hlast _), hscan, output_of_parse h, hpreamble]
    simp only [String.append_assoc]

theorem exists_seam (hshort : byteLength source < UInt32.size) (hopens : ∀ t ∈ stmtsTokens x.body, ¬ t.OpensComment)
    (s : List Char) : ∃ d g, Seam x source s d g := by
  by_cases hnil : x.body = []
  · exact seam_of_nil h hnil s
  · exact seam_of_ne_nil h hshort hnil hopens s

end First

/-! ## Both texts -/

/-- What begins a statement or the end of a text does not go on with a conditional. -/
theorem Parallel.goesOn {p p' q q' : Place} {ts ts' : List Token} (h : Parallel p p' ts ts' q q')
    (hbegins : Begins ts) : ∃ t r, next p' = .ok (t, r) ∧ t.kind ≠ .word .else := by
  obtain ⟨t, us, rfl, _, hk⟩ := hbegins
  cases h with
  | cons ht _ =>
      cases ht with
      | scanned _ hp' halike =>
          refine ⟨_, _, hp', ?_⟩
          rw [halike.kind]
          intro helse
          rw [helse] at hk
          exact hk List.mem_cons_self
      | literal _ hp' hmark hquote _ _ _ =>
          refine ⟨_, _, hp', ?_⟩
          rw [hmark]
          intro helse
          rw [helse] at hquote
          cases hquote

section Second

variable {m : Nat} {source : List Char} {x : Program} (h : parseProgramWithin m source = .ok x)
include h

/-- A program begins with the end of the file or with a statement, also further on in a text. -/
theorem goesOn_moved (d : Nat) :
    ∃ t r, next (Place.moved d (firstPlace source)) = .ok (t, r) ∧ t.kind ≠ .word .else := by
  obtain ⟨q, r, _, hreading, hend, hk, _⟩ := body_of_parse h
  cases hbody : x.body with
  | nil =>
      rw [hbody] at hreading
      cases hreading
      have hnil : (Place.moved d (firstPlace source)).rest = [] := (endOfFile_of_next hend hk).2
      exact ⟨_, _, next_of_nil hnil, by rintro ⟨⟩⟩
  | cons s ss =>
      have hformed := (parseProgramWithin_formed h).1
      have hparallel := hreading.moved (d := d) (body_proper h).1
      rw [hbody] at hformed hparallel
      exact hparallel.goesOn ((Stmt.begins hformed.1).append _)

/-- The statements of a program are read further on in a text as they were. -/
theorem body_moved (d : Nat) : ∃ e q, next q = .ok (e, q) ∧ e.kind = .endOfFile ∧
    many (fun k => k = .endOfFile) (level m).statement (Place.moved d (firstPlace source)) =
      .ok (stmtsRelayout (.moved d) x.body, q) := by
  obtain ⟨q, r, hrun, hreading, hend, hk, _⟩ := body_of_parse h
  obtain ⟨hproper, hconcludes⟩ := body_proper h
  have hend' : next (Place.moved d q) = .ok (⟨.endOfFile, "", (Place.moved d q).pos, ""⟩, Place.moved d q) :=
    next_of_nil (endOfFile_of_next hend hk).2
  have htwin := (hreading.moved (d := d) hproper).twin
    (x := ⟨.moved d, q, Place.moved d q, _, _, hend', by rintro ⟨⟩⟩) rfl hproper hconcludes
  have hbody := body_run hrun htwin (nesting_le_of_parse h)
  rw [many_nil hend' rfl] at hbody
  refine ⟨_, _, hend', rfl, hbody.trans ?_⟩
  change Except.ok (stmtsRelayout (.moved d) x.body ++ [], Place.moved d q) = _
  rw [List.append_nil]

end Second

/-- Two texts that are programs are one with a line feed between them, which has the statements of both and is
    written as both are. -/
theorem parse_joined {m : Nat} {source source' : List Char} {x y : Program}
    (hshort : byteLength source < UInt32.size) (hx : parseProgramWithin m source = .ok x)
    (hy : parseProgramWithin m source' = .ok y)
    (hopens : ∀ t ∈ stmtsTokens x.body, ¬ t.OpensComment) :
    ∃ z g g', parseProgramWithin m (source ++ '\n' :: source') = .ok z ∧
      z.body = stmtsRelayout g x.body ++ stmtsRelayout g' y.body ∧
      z.output = x.output ++ "\n" ++ y.output := by
  obtain ⟨d, g, hseam⟩ := exists_seam hx hshort hopens source'
  obtain ⟨e, q, hend, hk, hsecond⟩ := body_moved hy d
  have hbody := hseam.reads m (nesting_le_of_parse hx) (goesOn_moved hy d)
  rw [hsecond] at hbody
  refine ⟨_, g, .moved d, parse_of_body hbody hend hk, rfl, ?_⟩
  -- The second text keeps its trivia, and what it begins with stands at the end of the first one.
  have hkeeps : (Relayout.moved d).Keeps (stmtsTokens y.body) := fun t _ => rfl
  obtain ⟨_, _, _, _, _, _, hpreamble⟩ := body_of_parse hy
  have hlater : Piece.join (stmtsPieces (stmtsRelayout (.moved d) y.body) (e.replay [])) =
      Piece.join (stmtsPieces y.body []) := by
    rw [stmts_output hkeeps.extends, join_endOfFile hend hk, String.append_empty, String.append_empty]
  rw [Program.output, Program.pieces, join_cons, stmtsPieces_append]
  refine (hseam.writes _).trans ?_
  rw [hlater, output_of_parse hy, hpreamble]
  simp only [String.append_assoc]

/-- Parsing and printing are compositional. Two programs with a line feed between them are a program, unless a regular
    expression of the first one begins like a comment. It has the statements of the first and then those of the
    second one, up to the positions of tokens and the trivia after them, and its output is that of the first, a
    line feed and that of the second one. Both texts together are shorter than 4 GiB. -/
theorem parse_render_compositional {source source' : String} {x y : Program}
    (hshort : (source ++ "\n" ++ source').utf8ByteSize < UInt32.size)
    (hx : Engine.parse source.toList = .ok x) (hy : Engine.parse source'.toList = .ok y)
    (hopens : ∀ t ∈ x.tokens, ¬ t.OpensComment) :
    ∃ z g g', Engine.parse (source ++ "\n" ++ source').toList = .ok z ∧
      z.body = stmtsRelayout g x.body ++ stmtsRelayout g' y.body ∧
      Engine.render z [] = Engine.render x [] ++ "\n" ++ Engine.render y [] := by
  rw [← byteLength_toList] at hshort
  rw [Engine.parse_eq hshort]
  have hsource : (source ++ "\n" ++ source').toList = source.toList ++ '\n' :: source'.toList := by simp
  rw [hsource, byteLength_append, byteLength_cons] at hshort
  have hupper : byteLength source.toList < UInt32.size := by omega
  rw [Engine.parse_eq hupper] at hx
  rw [Engine.parse_eq (by omega)] at hy
  obtain ⟨z, g, g', hz, hbody, houtput⟩ := parse_joined hupper hx hy fun t ht => hopens t (List.mem_append_left _ ht)
  have hrender (u : Program) : Engine.render u [] = u.output := (Engine.render_eq u []).trans String.append_empty
  refine ⟨z, g, g', ?_, hbody, ?_⟩
  · rw [hsource]
    exact hz
  · rw [hrender, hrender, hrender, houtput]

/-- A source with a regular expression, which ends in a line comment without a line feed. -/
def upperSource : String := "#!run\n/* a */ var r = /a*/g; if (r) \x7b r::b; \x7d // one"

/-- A source that begins with a comment, and in which a string holds the end of one. -/
def lowerSource : String := "/* two */ else_ = (a) -> a == \"*/\";//"

theorem parse_render_compositional_upperSource :
    (upperSource ++ "\n" ++ lowerSource).utf8ByteSize < UInt32.size ∧
      ∃ x y, Engine.parse upperSource.toList = .ok x ∧ Engine.parse lowerSource.toList = .ok y ∧
        (∃ t ∈ x.tokens, t.kind = .regex) ∧ (∀ t ∈ x.tokens, ¬ t.OpensComment) ∧
        ∃ z g g', Engine.parse (upperSource ++ "\n" ++ lowerSource).toList = .ok z ∧
          z.body = stmtsRelayout g x.body ++ stmtsRelayout g' y.body ∧
          Engine.render z [] = Engine.render x [] ++ "\n" ++ Engine.render y [] := by
  have hshort : (upperSource ++ "\n" ++ lowerSource).utf8ByteSize < UInt32.size := by decide +kernel
  have hupper : (Engine.parse upperSource.toList).toOption.map (fun x => decide
      ((∃ t ∈ x.tokens, t.kind = .regex) ∧ ∀ t ∈ x.tokens, ¬ t.OpensComment)) = some true := by
    decide +kernel
  have hlower : (Engine.parse lowerSource.toList).toOption.map (·.body.length) = some 1 := by
    decide +kernel
  obtain ⟨x, hx, hliterals⟩ := ok_of_toOption hupper
  obtain ⟨y, hy, _⟩ := ok_of_toOption hlower
  obtain ⟨hregex, hopens⟩ := of_decide_eq_true hliterals
  exact ⟨hshort, x, y, hx, hy, hregex, hopens, parse_render_compositional hshort hx hy hopens⟩

end Respell
