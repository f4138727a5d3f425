import Respell.Proofs.Parse.Parallel
import Respell.Proofs.Parse.Unlimited

/-!
# The nesting limit

The limit on nesting refuses a program exactly if its tree takes more levels than there are, and changes nothing
else. The parser with the limit goes through the text as the parser without it does, as long as its levels
suffice; where they do not, it is refused as nested too deeply, and not in any other way. Chains of operators,
calls and members take no levels, and nor do the branches of a conditional.
-/

namespace Respell

open Text Respell.Parser

/-- The levels of a program: those of its deepest statement. -/
def Program.nesting (x : Program) : Nat := stmtsNesting x.body

/-! ## The run behind a program -/

section Run

variable {limit : Nat} {source : List Char} {x : Program}

/-- At the end of a text the scanner gives the end of the file. -/
theorem next_of_nil {p : Place} (h : p.rest = []) : next p = .ok (⟨.endOfFile, "", p.pos, ""⟩, p) := by
  obtain ⟨offset, rest⟩ := p
  subst h
  rw [next_eq]
  simp [scan, Lexeme.next?, takeToken, scanTrivia, Place.advance, Place.text, Token.refusal?]

/-- The end of the file has neither a text nor trivia, and nothing is left there. -/
theorem endOfFile_of_next {p q : Place} {t : Token} (h : next p = .ok (t, q)) (hk : t.kind = .endOfFile) :
    t = ⟨.endOfFile, "", p.pos, ""⟩ ∧ p.rest = [] := by
  have hnil := (Taken.scanned h).endOfFile hk
  rw [next_of_nil hnil] at h
  exact ⟨(Prod.mk.inj (Except.ok.inj h)).1.symm, hnil⟩

/-- The place of the first token of a text. -/
def firstPlace (source : List Char) : Place := (scanTrivia (.start source)).2

theorem extent_firstPlace (source : List Char) : (firstPlace source).extent = byteLength source :=
  (Place.extent_advance _ _).trans (Nat.zero_add _)

/-- A program was read statement by statement, from its first token up to the end of the text. -/
theorem body_of_parse (h : parseProgramWithin limit source = .ok x) :
    ∃ q r, many (fun k => k = .endOfFile) (level limit).statement (firstPlace source) = .ok (x.body, q) ∧
      Reading (firstPlace source) (stmtsTokens x.body) q ∧ next q = .ok (x.endOfFile, r) ∧
      x.endOfFile.kind = .endOfFile ∧ x.preamble = (scanTrivia (.start source)).1 := by
  obtain ⟨r, hrun⟩ := program_of_parse h
  rw [program] at hrun
  simp only [bind_ok_iff, pure_ok_iff] at hrun
  obtain ⟨body, q, hbody, endOfFile, _, hend, rfl, rfl⟩ := hrun
  obtain ⟨hnext, hk⟩ := expect_ok_iff.mp hend
  exact ⟨q, _, hbody, reading_of_rounds (level_reads limit) (rounds_of_many hbody), hnext, hk, rfl⟩

/-- A parsed program from its statements and its end. -/
theorem parse_of_body {ss : List Stmt} {q r : Place} {e : Token}
    (hbody : many (fun k => k = .endOfFile) (level limit).statement (firstPlace source) = .ok (ss, q))
    (hend : next q = .ok (e, r)) (hk : e.kind = .endOfFile) :
    parseProgramWithin limit source = .ok ⟨(scanTrivia (.start source)).1, ss, e⟩ := by
  have hexpect : expect .endOfFile q = .ok (e, r) := expect_ok_iff.mpr ⟨hend, hk⟩
  have hrun : program limit (scanTrivia (.start source)).1 (firstPlace source) =
      .ok (⟨(scanTrivia (.start source)).1, ss, e⟩, r) := by
    rw [program, bind_of_ok hbody, bind_of_ok hexpect]
    rfl
  unfold parseProgramWithin
  change (program limit (scanTrivia (.start source)).1 (firstPlace source)).map Prod.fst = _
  rw [hrun]
  rfl

theorem parse_of_error {f : Fault}
    (hbody : many (fun k => k = .endOfFile) (level limit).statement (firstPlace source) = .error f) :
    parseProgramWithin limit source = .error f := by
  unfold parseProgramWithin
  change (program limit (scanTrivia (.start source)).1 (firstPlace source)).map Prod.fst = _
  rw [program, bind_of_error hbody]
  rfl

theorem body_proper (h : parseProgramWithin limit source = .ok x) :
    Proper (stmtsTokens x.body) ∧ Concludes (stmtsTokens x.body) := by
  have hformed := (parseProgramWithin_formed h).1
  exact ⟨stmts_proper x.body hformed, stmts_conclude x.body hformed⟩

/-- In a text shorter than 4 GiB every token of a program stands before those after it. -/
theorem tokens_increase (hshort : byteLength source < UInt32.size) (h : parseProgramWithin limit source = .ok x) :
    x.tokens.Pairwise fun t u => t.pos < u.pos := by
  obtain ⟨q, r, _, hreading, hend, _, _⟩ := body_of_parse h
  have hall := (hreading.append (.single (.scanned hend))).pos_increase (by rwa [extent_firstPlace])
  -- Only the last token is the end of the file, and nothing stands after it.
  obtain ⟨hbody, _, hlast⟩ := List.pairwise_append.mp hall
  have hgenuine := (body_proper h).1.forall_genuine
  refine List.pairwise_append.mpr ⟨hbody.imp_of_mem fun ht _ hlt => hlt (hgenuine _ ht).kind_ne,
    List.pairwise_singleton _ _, fun t ht u hu => hlast t ht u hu (hgenuine t ht).kind_ne⟩

end Run

/-! ## A second run -/

section Again

variable {m n : Nat} {source source' : List Char} {x : Program} {g : Relayout} {q q' r' : Place}
  (h : parseProgramWithin m source = .ok x)
  (hbody : Parallel (firstPlace source) (firstPlace source') (stmtsTokens x.body)
    ((stmtsTokens x.body).map (Token.relayout g)) q q')
  (hend : next q' = .ok (x.endOfFile.relayout g, r'))
include h hbody hend

theorem twin_again : ∃ hgoesOn, Twin ⟨g, q, q', hgoesOn⟩ (firstPlace source) (firstPlace source')
    (stmtsTokens x.body) := by
  obtain ⟨_, _, _, _, _, hk, _⟩ := body_of_parse h
  obtain ⟨hproper, hconcludes⟩ := body_proper h
  refine ⟨⟨_, _, hend, ?_⟩, hbody.twin rfl hproper hconcludes⟩
  rw [Token.relayout_kind, hk]
  rintro ⟨⟩

/-- A text with the same tokens as another one, read with enough levels. -/
theorem parse_again (hw : x.nesting ≤ n) :
    parseProgramWithin n source' = .ok (x.relayout g (scanTrivia (.start source')).1) := by
  obtain ⟨_, _, hrun, _, _, hk, _⟩ := body_of_parse h
  obtain ⟨_, htwin⟩ := twin_again h hbody hend
  have hnone : many (fun k => k = .endOfFile) (level n).statement q' = .ok ([], q') :=
    many_nil hend (by rw [Token.relayout_kind, hk]; rfl)
  have hsecond := body_run hrun htwin hw
  rw [hnone] at hsecond
  change _ = Except.ok (stmtsRelayout g x.body ++ [], q') at hsecond
  rw [List.append_nil] at hsecond
  exact parse_of_body hsecond hend hk

/-- A text with the same tokens as another one, read with too few levels. -/
theorem parse_again_refused (hw : n < x.nesting) :
    ∃ f, parseProgramWithin n source' = .error f ∧ f.message = .nestedTooDeeply := by
  obtain ⟨_, _, hrun, _⟩ := body_of_parse h
  obtain ⟨_, htwin⟩ := twin_again h hbody hend
  obtain ⟨f, hrefused, hf⟩ := body_refuse hrun htwin hw
  exact ⟨f, parse_of_error hrefused, hf⟩

end Again

/-! ## The same text within a limit -/

section Limit

variable {m n : Nat} {source : List Char} {x : Program} (h : parseProgramWithin m source = .ok x)
include h

/-- A text that parses stands beside itself. -/
theorem parallel_self : ∃ q r, Parallel (firstPlace source) (firstPlace source) (stmtsTokens x.body)
    ((stmtsTokens x.body).map (Token.relayout .id)) q q ∧
      next q = .ok (x.endOfFile.relayout .id, r) := by
  obtain ⟨q, r, _, hreading, hend, _, _⟩ := body_of_parse h
  have hself := hreading.moved (d := 0) (body_proper h).1
  rw [Relayout.moved_zero] at hself
  exact ⟨q, r, hself, hend⟩

theorem refused_within (hw : n < x.nesting) :
    ∃ f, parseProgramWithin n source = .error f ∧ f.message = .nestedTooDeeply := by
  obtain ⟨q, r, hbody, hend⟩ := parallel_self h
  exact parse_again_refused h hbody hend hw

/-- A program that was parsed takes no more levels than it was given. -/
theorem nesting_le_of_parse : x.nesting ≤ m := by
  refine Nat.le_of_not_lt fun hw => ?_
  obtain ⟨f, hrefused, _⟩ := refused_within h hw
  rw [h] at hrefused
  cases hrefused

theorem parse_within (hw : x.nesting ≤ n) : parseProgramWithin n source = .ok x := by
  obtain ⟨q, r, hbody, hend⟩ := parallel_self h
  have hagain := parse_again h hbody hend (nesting_le_of_parse h)
  -- The text is read again with the same levels, so the layout as it is changes nothing.
  rw [parse_again h hbody hend hw, ← hagain, h]

end Limit

/-- The limit on nesting is exact. The parser without the limit is the one whose inner parsers are itself. Where
    it succeeds, the parser of the dialect gives the same program if that takes at most 40 levels, and refuses the
    text as nested too deeply otherwise; and it never gives a program that takes more. -/
theorem nesting_limit_exact (source : String) :
    unlimited = ⟨statement unlimited, expression unlimited⟩ ∧
    (∀ x, parseProgramUnlimited source.toList = .ok x →
      (x.nesting ≤ 40 → parseProgram source.toList = .ok x) ∧
      (40 < x.nesting → ∃ f, parseProgram source.toList = .error f ∧ f.message.code = 1108)) ∧
    ∀ x, parseProgram source.toList = .ok x → x.nesting ≤ 40 := by
  refine ⟨unlimited_eq, ?_, fun x hx => nesting_le_of_parse hx⟩
  intro x hx
  rw [parseProgramUnlimited_eq (Nat.le_refl _)] at hx
  refine ⟨parse_within hx, ?_⟩
  intro hw
  obtain ⟨f, hrefused, hf⟩ := refused_within hx hw
  exact ⟨f, hrefused, by rw [hf]; rfl⟩

/-- A number in `n` pairs of parentheses. -/
def wrappedSource (n : Nat) : String :=
  String.ofList (List.replicate n '(' ++ '1' :: (List.replicate n ')' ++ [';']))

theorem nesting_limit_exact_wrappedSource :
    (∃ x, parseProgramUnlimited (wrappedSource 38).toList = .ok x ∧ x.nesting = 40 ∧
      parseProgram (wrappedSource 38).toList = .ok x) ∧
    ∃ x f, parseProgramUnlimited (wrappedSource 39).toList = .ok x ∧ x.nesting = 41 ∧
      parseProgram (wrappedSource 39).toList = .error f ∧ f.message.code = 1108 := by
  have hfits : (parseProgramUnlimited (wrappedSource 38).toList).toOption.map Program.nesting = some 40 := by
    decide +kernel
  have hdeep : (parseProgramUnlimited (wrappedSource 39).toList).toOption.map Program.nesting = some 41 := by
    decide +kernel
  obtain ⟨x, hx, hlevels⟩ := ok_of_toOption hfits
  obtain ⟨y, hy, hlevels'⟩ := ok_of_toOption hdeep
  obtain ⟨f, hrefused, hf⟩ := ((nesting_limit_exact (wrappedSource 39)).2.1 y hy).2 (by omega)
  exact ⟨⟨x, hx, hlevels, ((nesting_limit_exact (wrappedSource 38)).2.1 x hx).1 (by omega)⟩,
    y, f, hy, hlevels', hrefused, hf⟩

end Respell
