import Respell.Proofs.Parse.Limit
import Respell.Proofs.Scope.Layout

/-!
# A program with one space after every token

The tokens of a program, written one after the other with one space after each, are read again as they are:
a space lengthens no lexeme and no literal. Nor does anything become trivia that was none. The one danger is a
literal that begins with the opening of a comment: it is a token only because nothing closes the comment in all the
text after it, and so nothing does in the tokens that are left of that text.
-/

namespace Respell

open Text Respell.Parser

/-- The texts of tokens, with one space after each. -/
def spaced (ts : List Token) : String := String.join (ts.map fun t => t.text ++ " ")

/-- The characters of the same text. -/
def spacedChars (ts : List Token) : List Char := ts.flatMap fun t => t.text.toList ++ [' ']

theorem toList_spaced (ts : List Token) : (spaced ts).toList = spacedChars ts := by
  induction ts with
  | nil => rfl
  | cons t ts ih =>
      rw [spaced] at ih
      simp [spaced, spacedChars, ih]

theorem spacedChars_cons (t : Token) (ts : List Token) (w : List Char) :
    spacedChars (t :: ts) ++ w = t.text.toList ++ ' ' :: (spacedChars ts ++ w) := by
  simp [spacedChars]

/-! ## No trivia before tokens -/

section Trimmed

variable {p q : Place} {t : Token} {ts : List Token} {w : List Char}

/-- What does not close a comment does not close one with single spaces in the place of trivia. -/
theorem Reading.throughClose?_spaced (h : Reading p ts q) (hw : ∀ c ∈ w, isBlank c = true)
    (hclose : Trivia.throughClose? p.rest = none) :
    Trivia.throughClose? (spacedChars ts ++ w) = none := by
  induction h with
  | nil => exact Trivia.throughClose?_blanks hw
  | cons ht _ ih =>
      rw [ht.rest_eq] at hclose
      obtain ⟨htext, hrest⟩ := Trivia.throughClose?_eq_none_of_append hclose
      obtain ⟨_, hrest⟩ := Trivia.throughClose?_eq_none_of_append hrest
      rw [spacedChars_cons]
      exact Trivia.throughClose?_blank rfl htext (ih hrest)

theorem Sited.trimmed_spaced (h : Sited p (t :: ts) q) (ht : t.Genuine) (hw : ∀ c ∈ w, isBlank c = true) :
    Trivia.length (spacedChars (t :: ts) ++ w) = 0 := by
  obtain ⟨r, htaken, hts⟩ := h.uncons
  obtain ⟨c, cs, htext⟩ := List.exists_cons_of_ne_nil (htaken.text_ne_nil ht.kind_ne)
  have hzero := Trivia.length_eq_zero_iff.mp h.trimmed
  rw [htaken.rest_eq, htext] at hzero
  rw [spacedChars_cons, htext, Trivia.length_eq_zero_iff]
  refine Trivia.piece_before_blank rfl hzero ?_ ?_
  · rintro rfl ds rfl
    refine htaken.ne_shebang ht (ds ++ (t.trailing.toList ++ r.rest)) ?_
    rw [htaken.rest_eq, htext]
    rfl
  · rintro ds rfl rfl
    -- The comment that the literal would open is not closed in the source.
    have hclose : Trivia.throughClose? (ds ++ (t.trailing.toList ++ r.rest)) = none := by
      have hopen : ((Trivia.throughClose? (ds ++ (t.trailing.toList ++ r.rest))).map (· + 2)).getD 0 = 0 :=
        hzero
      cases hfound : Trivia.throughClose? (ds ++ (t.trailing.toList ++ r.rest)) with
      | none => rfl
      | some k =>
          rw [hfound] at hopen
          cases hopen
    obtain ⟨hds, hrest⟩ := Trivia.throughClose?_eq_none_of_append hclose
    obtain ⟨_, hrest⟩ := Trivia.throughClose?_eq_none_of_append hrest
    exact Trivia.throughClose?_blank rfl hds (hts.reading.throughClose?_spaced hw hrest)

end Trimmed

/-! ## The tokens read again -/

section Again

variable {p q p' : Place} {t : Token} {ts : List Token} {w : List Char}

/-- A token is taken again before a space. -/
theorem Taken.before_space (h : Taken p t q) (ht : t.Genuine) {r : List Char}
    (hrest : p'.rest = t.text.toList ++ ' ' :: r) :
    ∃ t' q', Matches p p' t t' q q' ∧ q'.rest = r.drop (Trivia.length r) := by
  have hinert : Inert (' ' :: r) := inert_cons (by decide) (by decide)
  have hlex (hk : t.kind.isQuoted = false) :
      Lexeme.next? p'.rest = some (t.kind, t.text.toList.length) := by
    have hagain := next?_append (h.next? hk) (hinert.apart ht.kind_ne)
    rw [h.rest_eq, List.take_left] at hagain
    rw [hrest]
    exact hagain
  have hlen (hk : t.kind.isQuoted = true) : Quoted.length? p'.rest = some t.text.toList.length := by
    obtain ⟨c, cs, htext, _, hkind, hlength⟩ := h.length? (ht.quoted hk)
    have hapart : Apart (Quoted.kind c) (' ' :: r) := hkind ▸ hinert.apart ht.kind_ne
    rw [h.rest_eq, htext, List.cons_append] at hlength
    have hagain := Quoted.length?_append hlength hapart
    rw [← List.cons_append, List.take_left] at hagain
    rw [hrest, htext]
    exact hagain
  refine ⟨_, _, h.matches ht hrest hlex hlen, ?_⟩
  change ((p'.advance t.text.toList.length).advance _).rest = _
  rw [Place.rest_advance, Place.rest_advance, hrest, List.drop_left, Trivia.length_blank rfl, Nat.add_comm,
    List.drop_succ_cons]

/-- The tokens of a program are those of the text with one space after each of them, whatever blanks follow. -/
theorem Sited.spaced (h : Sited p (t :: ts) q) (hproper : Proper (t :: ts))
    (hw : ∀ c ∈ w, isBlank c = true) (hrest : p'.rest = spacedChars (t :: ts) ++ w) :
    ∃ ts' q', Parallel p p' (t :: ts) ts' q q' ∧ q'.rest = [] := by
  induction ts generalizing p p' t with
  | nil =>
      rw [spacedChars_cons] at hrest
      obtain ⟨t', q', hmatches, hq'⟩ := h.single.before_space hproper.genuine hrest
      refine ⟨[t'], q', .cons hmatches .nil, ?_⟩
      rw [hq']
      exact Trivia.drop_blanks hw
  | cons u us ih =>
      obtain ⟨r, ht, hus⟩ := h.uncons
      rw [spacedChars_cons] at hrest
      obtain ⟨t', r', hmatches, hr'⟩ := ht.before_space hproper.genuine hrest
      rw [hus.trimmed_spaced hproper.tail.genuine hw, List.drop_zero] at hr'
      obtain ⟨ts', q', hparallel, hq'⟩ := ih hus hproper.tail hr'
      exact ⟨t' :: ts', q', .cons hmatches hparallel, hq'⟩

end Again

/-! ## Programs -/

section Programs

variable {limit : Nat} {source w : List Char} {x : Program} (hshort : byteLength source < UInt32.size)
  (h : parseProgramWithin limit source = .ok x)
include h

/-- The tokens of a program are all there is in the text with one space after each of them. -/
theorem parallel_spaced {q : Place} (hreading : Reading (firstPlace source) (stmtsTokens x.body) q)
    (hw : ∀ c ∈ w, isBlank c = true) :
    ∃ ts' q', Parallel (firstPlace source) (firstPlace (spacedChars (stmtsTokens x.body) ++ w))
      (stmtsTokens x.body) ts' q q' ∧ q'.rest = [] := by
  have hproper := (body_proper h).1
  have hsited : Sited (firstPlace source) (stmtsTokens x.body) q :=
    ⟨Trivia.length_drop_length _, hreading⟩
  generalize stmtsTokens x.body = ts at hsited hproper
  cases ts with
  | nil =>
      cases hsited.reading
      exact ⟨[], _, .nil, Trivia.drop_blanks hw⟩
  | cons t ts =>
      refine hsited.spaced hproper hw ?_
      rw [firstPlace, scanTrivia_of_length_eq_zero (hsited.trimmed_spaced hproper.genuine hw)]
      rfl

include hshort

/-- If the tokens of a program are all there is in a second text, there is a layout that makes the one from the
    other. -/
theorem exists_layout_of_end {p' q q' r : Place} {ts' : List Token} (hend : next q = .ok (x.endOfFile, r))
    (hbody : Parallel (firstPlace source) p' (stmtsTokens x.body) ts' q q') (hq' : q'.rest = []) :
    ∃ g, ts' = (stmtsTokens x.body).map (Token.relayout g) ∧
      next q' = .ok (x.endOfFile.relayout g, q') := by
  obtain ⟨_, _, _, _, _, hk, _⟩ := body_of_parse h
  have hlast : Matches q q' x.endOfFile ⟨.endOfFile, "", q'.pos, ""⟩ r q' := by
    refine .scanned hend (next_of_nil hq') ⟨hk.symm, ?_⟩
    rw [(endOfFile_of_next hend hk).1]
  -- The positions in the first text are all different.
  have hpos := (tokens_increase hshort h).imp UInt32.ne_of_lt
  obtain ⟨g, hg⟩ := (hbody.append (.cons hlast .nil)).exists_layout hpos
  rw [List.map_append] at hg
  obtain ⟨hts', hlayout⟩ := List.append_inj' hg rfl
  refine ⟨g, hts', ?_⟩
  rw [next_of_nil hq', (List.cons.inj hlayout).1]

/-- A program written with one space after every token, with any blanks after the last one, is parsed to the
    same tree in another layout. -/
theorem parse_spaced (hw : ∀ c ∈ w, isBlank c = true) :
    ∃ g preamble, parseProgramWithin limit (spacedChars (stmtsTokens x.body) ++ w) =
      .ok (x.relayout g preamble) := by
  obtain ⟨q, r, _, hreading, hend, _, _⟩ := body_of_parse h
  obtain ⟨ts', q', hbody, hq'⟩ := parallel_spaced h hreading hw
  obtain ⟨g, rfl, hend'⟩ := exists_layout_of_end hshort h hend hbody hq'
  exact ⟨g, _, parse_again h hbody hend' (nesting_le_of_parse h)⟩

end Programs

/-- At the end of a program stands a token without a text. -/
theorem spaced_tokens {limit : Nat} {source : List Char} {x : Program}
    (h : parseProgramWithin limit source = .ok x) :
    (spaced x.tokens).toList = spacedChars (stmtsTokens x.body) ++ [' '] := by
  obtain ⟨q, r, _, _, hend, hk, _⟩ := body_of_parse h
  rw [toList_spaced, Program.tokens, spacedChars, List.flatMap_append, List.flatMap_singleton,
    (endOfFile_of_next hend hk).1]
  rfl

/-- Layout does not matter. The tokens of a program, written with one space after each and nothing before them, are
    a program again, whether or not the end of the file counts as a token. Its tree is the same up to the
    positions of tokens, the trivia after them and the preamble, and it is judged alike. All texts are shorter than
    4 GiB. -/
theorem layout_independence {source : String} {x : Program} (hshort : source.utf8ByteSize < UInt32.size)
    (h : Engine.parse source.toList = .ok x) :
    ∀ text ∈ [spaced x.tokens, spaced (stmtsTokens x.body)], text.utf8ByteSize < UInt32.size →
      ∃ g preamble, Engine.parse text.toList = .ok (x.relayout g preamble) ∧
        SameVerdict x (x.relayout g preamble) := by
  rw [← byteLength_toList] at hshort
  rw [Engine.parse_eq hshort] at h
  have hblanks {w : List Char} (hw : ∀ c ∈ w, isBlank c = true) : ∃ g preamble,
      parseProgram (spacedChars (stmtsTokens x.body) ++ w) = .ok (x.relayout g preamble) ∧
        SameVerdict x (x.relayout g preamble) := by
    obtain ⟨g, preamble, hrun⟩ := parse_spaced hshort h hw
    exact ⟨g, preamble, hrun, sameVerdict_relayout x g preamble⟩
  intro text htext hshort'
  rw [← byteLength_toList] at hshort'
  rw [Engine.parse_eq hshort']
  rcases List.mem_cons.mp htext with rfl | htext
  · rw [spaced_tokens h]
    exact hblanks (by simp [isBlank])
  · obtain rfl := List.mem_singleton.mp htext
    rw [toList_spaced, ← List.append_nil (spacedChars _)]
    exact hblanks (List.forall_mem_nil _)

/-- A source in which trivia looks like literals, literals look like trivia, and a literal begins like a comment. It
    uses a name that is not declared. -/
def entangledSource : String :=
  "#!run\n/* ' */ var s = '\"//' /* \" */, t = s/ 2;//\nif (s == t) \x7b u($if); \x7d var r = /*a/g;"

theorem layout_independence_entangledSource :
    entangledSource.utf8ByteSize < UInt32.size ∧
      ∃ x, Engine.parse entangledSource.toList = .ok x ∧ x.tokens.length = 30 ∧
        ∀ text ∈ [spaced x.tokens, spaced (stmtsTokens x.body)], text.utf8ByteSize < UInt32.size ∧
          ∃ g preamble, Engine.parse text.toList = .ok (x.relayout g preamble) ∧
            SameVerdict x (x.relayout g preamble) := by
  have hshort : entangledSource.utf8ByteSize < UInt32.size := by decide +kernel
  have hrun : (Engine.parse entangledSource.toList).toOption.map (fun x => (x.tokens.length,
      [spaced x.tokens, spaced (stmtsTokens x.body)].all (·.utf8ByteSize < UInt32.size))) = some (30, true) := by
    decide +kernel
  obtain ⟨x, hx, hvalues⟩ := ok_of_toOption hrun
  obtain ⟨hlength, htexts⟩ := Prod.mk.inj hvalues
  refine ⟨hshort, x, hx, hlength, fun text htext => ?_⟩
  have hshort' := of_decide_eq_true (List.all_eq_true.mp htexts text htext)
  exact ⟨hshort', layout_independence hshort hx text htext hshort'⟩

end Respell
