import Respell.Proofs.Engine.Compile
import Respell.Proofs.Output.Layout
import Respell.Proofs.Scope.Exact

/-!
# Lines of the output

A program is written so that every token stays on its line. What is added holds no line feed, and the
trivia of what is left out is kept, with one exception: between the mark of a passed error and the name
of its handler the trivia goes. So a text keeps its lines if and only if no line ends there.
-/

namespace Respell

open Text

/-! ## Counting line feeds -/

theorem lineFeeds_join_cons (piece : Piece) (ps : List Piece) :
    lineFeeds (Piece.join (piece :: ps)) = lineFeeds piece.text + lineFeeds (Piece.join ps) := by
  simp [Piece.join]

/-- The line feeds of tokens with their trivia. -/
def tokenLines (ts : List Token) : Nat := lineFeeds (String.join (ts.map Token.source))

theorem tokenLines_append (ts us : List Token) :
    tokenLines (ts ++ us) = tokenLines ts + tokenLines us := by
  simp [tokenLines]

theorem tokenLines_cons (t : Token) (ts : List Token) :
    tokenLines (t :: ts) = lineFeeds t.text + lineFeeds t.trailing + tokenLines ts := by
  simp [tokenLines, Token.source]

theorem tokenLines_single (t : Token) :
    tokenLines [t] = lineFeeds t.text + lineFeeds t.trailing := tokenLines_cons t []

/-- Pieces have the line feeds of the tokens that they lay out, less those they lose. -/
theorem Laid.lineFeeds {ts us : List Token} {n : Nat} {ps tail : List Piece} (h : Laid ts us n ps tail) :
    Text.lineFeeds (Piece.join ps) + n = tokenLines ts + Text.lineFeeds (Piece.join tail) := by
  induction h with
  | nil => exact Nat.add_comm _ _
  | append _ _ ih ih' =>
      rw [tokenLines_append]
      omega
  | gap hfeeds | added _ hfeeds =>
      rw [lineFeeds_join_cons, Piece.text, hfeeds]
      rfl
  | token _ _ ih =>
      rw [lineFeeds_join_cons] at ih ⊢
      rw [tokenLines_single, Piece.text]
      rw [Piece.text] at ih
      have hnil : tokenLines [] = 0 := rfl
      omega
  | bare _ hfeeds =>
      rw [lineFeeds_join_cons, tokenLines_single, hfeeds]
      rfl
  | respelt _ hfeeds =>
      rw [lineFeeds_join_cons, lineFeeds_join_cons, tokenLines_single]
      simp only [Piece.text]
      omega
  | dropped hfeeds =>
      rw [lineFeeds_join_cons, tokenLines_single, hfeeds, Piece.text]
      omega
  | lost hfeeds =>
      rw [tokenLines_single, hfeeds]
      omega

/-! ## Tokens on their lines -/

/-- The tokens stand on the lines that `line` gives for their positions, the first after `k` line
    feeds. -/
def Placed (line : Nat → Nat) : Nat → List Token → Prop
  | _, [] => True
  | k, t :: ts => line t.pos = k ∧ Placed line (k + lineFeeds t.source) ts

/-- The pieces that stand for tokens are written on the lines of these, the first piece after `k` line
    feeds. -/
def OnLine (line : Nat → Nat) : Nat → List Piece → Prop
  | _, [] => True
  | k, piece :: ps =>
    (∀ t, piece.token? = some t → line t.pos = k) ∧ OnLine line (k + lineFeeds piece.text) ps

theorem placed_append {line : Nat → Nat} {k : Nat} {ts us : List Token} :
    Placed line k (ts ++ us) ↔ Placed line k ts ∧ Placed line (k + tokenLines ts) us := by
  induction ts generalizing k with
  | nil => simp [Placed, tokenLines]
  | cons t ts ih =>
      rw [List.cons_append, Placed, Placed, ih, tokenLines_cons, and_assoc]
      simp [Token.source, Nat.add_assoc]

/-- A piece that stands for no token is on any line. -/
theorem onLine_other {line : Nat → Nat} {k : Nat} {piece : Piece} {ps : List Piece}
    (hnone : piece.token? = none) (h : OnLine line (k + lineFeeds piece.text) ps) :
    OnLine line k (piece :: ps) := by
  refine ⟨?_, h⟩
  intro t ht
  rw [hnone] at ht
  cases ht

/-- Where nothing is lost, every token is written on its line. -/
theorem Laid.onLine {line : Nat → Nat} {ts us : List Token} {n : Nat} {ps tail : List Piece}
    (h : Laid ts us n ps tail) (hn : n = 0) :
    ∀ k, Placed line k ts → OnLine line (k + tokenLines ts) tail → OnLine line k ps := by
  -- By induction on the layout. The number `k` of line feeds before the first piece varies: the second
  -- part of a concatenation begins after the line feeds of the first.
  induction h with
  | nil =>
      intro k _ htail
      exact htail
  | append _ _ ih ih' =>
      intro k hplaced htail
      obtain ⟨hts, hus⟩ := placed_append.mp hplaced
      rw [tokenLines_append, ← Nat.add_assoc] at htail
      exact ih (by omega) k hts (ih' (by omega) _ hus htail)
  | gap hfeeds | added _ hfeeds =>
      intro k _ htail
      refine onLine_other rfl ?_
      rw [Piece.text, hfeeds]
      exact htail
  | token _ _ ih =>
      intro k hplaced htail
      -- What is added stands on the line of the token, before the token's trivia.
      refine ⟨?_, ih rfl _ trivial (onLine_other rfl ?_)⟩
      · rintro _ ⟨⟩
        exact hplaced.1
      · rw [tokenLines_single, ← Nat.add_assoc] at htail
        exact htail
  | bare _ hfeeds =>
      intro k hplaced htail
      refine ⟨?_, ?_⟩
      · rintro _ ⟨⟩
        exact hplaced.1
      · rw [tokenLines_single, hfeeds] at htail
        exact htail
  | respelt _ hfeeds =>
      intro k hplaced htail
      refine ⟨?_, onLine_other rfl ?_⟩
      · rintro _ ⟨⟩
        exact hplaced.1
      · rw [tokenLines_single, ← hfeeds, ← Nat.add_assoc] at htail
        exact htail
  | dropped hfeeds =>
      intro k _ htail
      rw [tokenLines_single, hfeeds, Nat.zero_add] at htail
      exact onLine_other rfl htail
  | lost hfeeds =>
      intro k _ htail
      rw [tokenLines_single, hfeeds, hn] at htail
      exact htail

/-- A piece for a token has as many line feeds before it as the line of the token says. -/
theorem OnLine.before {line : Nat → Nat} {k : Nat} {before after : List Piece} {piece : Piece}
    {t : Token} (h : OnLine line k (before ++ piece :: after)) (ht : piece.token? = some t) :
    line t.pos = k + lineFeeds (Piece.join before) := by
  induction before generalizing k with
  | nil => exact h.1 t ht
  | cons first before ih => rw [ih h.2, lineFeeds_join_cons, Nat.add_assoc]

/-! ## Accepted texts -/

theorem analyze_ok {source : String} {x : Program} {helpers : List String}
    (h : analyze source = .ok (x, helpers)) :
    parseProgram source.toList = .ok x ∧ x.validate = .ok helpers := by
  unfold analyze at h
  obtain ⟨y, hparse, h⟩ := Parser.except_bind_ok_iff.mp h
  obtain ⟨hs, hvalidate, h⟩ := Parser.except_bind_ok_iff.mp h
  cases Parser.except_pure_ok_iff.mp h
  exact ⟨hparse, hvalidate⟩

theorem compile_ok {file source out : String} (h : compile file source = .ok out) :
    ∃ x helpers, analyze source = .ok (x, helpers) ∧ out = x.render helpers := by
  unfold compile inFile at h
  cases hrun : analyze source with
  | error f =>
      rw [hrun] at h
      cases h
  | ok result =>
      obtain ⟨x, helpers⟩ := result
      rw [hrun] at h
      cases h
      exact ⟨x, helpers, rfl, rfl⟩

theorem compile_of_analyze (file : String) {source : String} {x : Program} {helpers : List String}
    (h : analyze source = .ok (x, helpers)) : compile file source = .ok (x.render helpers) := by
  unfold compile
  rw [h]
  rfl

theorem Engine.compile_ok {file source out : String} (hshort : source.utf8ByteSize < UInt32.size)
    (h : Engine.compile file source = .ok out) :
    ∃ x helpers, Engine.analyze source = .ok (x, helpers) ∧ Respell.analyze source = .ok (x, helpers) ∧
      out = x.render helpers := by
  rw [compile_eq hshort] at h
  obtain ⟨x, helpers, hrun, hout⟩ := Respell.compile_ok h
  exact ⟨x, helpers, (analyze_eq hshort).trans hrun, hrun, hout⟩

theorem Engine.compile_of_analyze {source : String} (hshort : source.utf8ByteSize < UInt32.size) (file : String)
    {x : Program} {helpers : List String} (h : Respell.analyze source = .ok (x, helpers)) :
    Engine.compile file source = .ok (x.render helpers) :=
  (compile_eq hshort file).trans (Respell.compile_of_analyze file h)

/-! ## Programs -/

variable {limit : Nat} {source : String} {x : Program}

/-- Before a token, the source has the line feeds of the preamble and of the tokens before it. -/
theorem line_of_parse (hshort : source.utf8ByteSize < UInt32.size)
    (h : parseProgramWithin limit source.toList = .ok x) {before after : List Token} {t : Token}
    (ht : x.tokens = before ++ t :: after) :
    lineFeedsBefore source.toList t.pos = lineFeeds x.preamble + tokenLines before := by
  have hsource : source.toList =
      (x.preamble ++ String.join (before.map Token.source)).toList ++
        (String.join ((t :: after).map Token.source)).toList := by
    rw [← source_of_parse h, ht]
    simp
  rw [toNat_pos_of_parse hshort h ht, ← byteLength_toList, hsource, lineFeedsBefore_append]
  exact lineFeeds_append _ _

theorem placed_of_split {line : Nat → Nat} {k : Nat} {ts : List Token}
    (h : ∀ before t after, ts = before ++ t :: after → line t.pos = k + tokenLines before) :
    Placed line k ts := by
  induction ts generalizing k with
  | nil => trivial
  | cons t ts ih =>
      refine ⟨h [] t ts rfl, ih ?_⟩
      intro before u after hu
      have hline := h (t :: before) u after (congrArg (t :: ·) hu)
      rw [tokenLines_cons] at hline
      rw [hline, Token.source, lineFeeds_append]
      omega

/-- The pieces of a program lay out its tokens. -/
theorem Program.laid (hf : x.Formed) (hs : ∀ s ∈ x.sites, s.Sound) :
    Laid x.tokens x.desugar.tokens (lostLines x.sites) (stmtsPieces x.body (x.endOfFile.replay [])) [] :=
  (stmtsPieces_laid x.body (.program x) .program _ hf.1 hs).append (.replay hf.2 (by decide) [])

/-- The output has as many line feeds as the source, and as many before every token that is written. -/
def Program.KeepsLines (x : Program) (source : String) : Prop :=
  lineFeeds x.output = lineFeeds source ∧
    ∀ before piece after t, x.pieces = before ++ piece :: after → piece.token? = some t →
      lineFeeds (Piece.join before) = lineFeedsBefore source.toList t.pos

/-- The output has the line feeds of the source, less those that are lost. -/
theorem lineFeeds_output (h : parseProgramWithin limit source.toList = .ok x)
    (hs : ∀ s ∈ x.sites, s.Sound) : lineFeeds x.output + lostLines x.sites = lineFeeds source := by
  have hcount := (Program.laid (parseProgramWithin_formed h) hs).lineFeeds
  have hsource : lineFeeds source = lineFeeds x.preamble + tokenLines x.tokens := by
    rw [← source_of_parse h, lineFeeds_append]
    rfl
  have hnil : lineFeeds (Piece.join []) = 0 := rfl
  rw [Program.output, Program.pieces, lineFeeds_join_cons, Piece.text]
  omega

/-- A program from which nothing is lost keeps its lines, and no other does. -/
theorem keepsLines_iff_lostLines (hshort : source.utf8ByteSize < UInt32.size)
    (h : parseProgramWithin limit source.toList = .ok x) (hs : ∀ s ∈ x.sites, s.Sound) :
    x.KeepsLines source ↔ lostLines x.sites = 0 := by
  have hcount := lineFeeds_output h hs
  constructor
  · rintro ⟨hkeeps, _⟩
    omega
  · intro hlost
    refine ⟨by omega, ?_⟩
    intro before piece after t hpieces ht
    have hplaced : Placed (lineFeedsBefore source.toList) (lineFeeds x.preamble) x.tokens :=
      placed_of_split fun _ _ _ htokens => line_of_parse hshort h htokens
    have hbody := (Program.laid (parseProgramWithin_formed h) hs).onLine hlost _ hplaced trivial
    have hall : OnLine (lineFeedsBefore source.toList) 0 x.pieces := by
      refine onLine_other rfl ?_
      rw [Nat.zero_add]
      exact hbody
    rw [hpieces] at hall
    rw [hall.before ht, Nat.zero_add]

theorem paramsLost_eq_zero_iff (ps : List Param) :
    paramsLost ps = 0 ↔
      ∀ mark handler, .pass mark (some handler) ∈ ps → '\n' ∉ mark.trailing.toList := by
  induction ps with
  | nil => simp [paramsLost]
  | cons p ps ih =>
      rw [paramsLost, Nat.add_eq_zero_iff, ih]
      cases p with
      | pass mark handler =>
          cases handler with
          | none => simp [Param.lost]
          | some handler => simp [Param.lost, lineFeeds_eq_zero, or_imp, forall_and]
      | plain name => simp [Param.lost]
      | rest name dots => simp [Param.lost]

/-- Nothing is lost if and only if no line ends between a mark of a passed error and its handler. -/
theorem lostLines_eq_zero_iff (sites : List Site) :
    lostLines sites = 0 ↔ ∀ scope f isDeclaration, .function scope f isDeclaration ∈ sites →
      ∀ mark handler, .pass mark (some handler) ∈ f.params.items.items →
        '\n' ∉ mark.trailing.toList := by
  rw [lostLines, paramsLost_eq_zero_iff]
  constructor
  · intro h scope f isDeclaration hsite mark handler hmem
    exact h mark handler (List.mem_flatMap.mpr ⟨_, hsite, hmem⟩)
  · intro h mark handler hmem
    obtain ⟨s, hsite, hmem⟩ := List.mem_flatMap.mp hmem
    cases s with
    | function scope f isDeclaration => exact h scope f isDeclaration hsite mark handler hmem
    | _ => cases hmem

/-- An accepted text keeps its lines if and only if no function of it has a line end between the mark
    of a passed error and the name of its handler. -/
theorem keepsLines_iff {file source out : String} (hshort : source.utf8ByteSize < UInt32.size)
    (h : Engine.compile file source = .ok out) :
    ∃ x helpers, Engine.analyze source = .ok (x, helpers) ∧ out = x.output ++ helperText helpers ∧
      (x.KeepsLines source ↔
        ∀ scope f isDeclaration, .function scope f isDeclaration ∈ x.sites →
          ∀ mark handler, .pass mark (some handler) ∈ f.params.items.items →
            '\n' ∉ mark.trailing.toList) := by
  obtain ⟨x, helpers, hengine, hrun, hout⟩ := Engine.compile_ok hshort h
  obtain ⟨hparse, hvalidate⟩ := analyze_ok hrun
  -- That the program is well scoped is needed for arrows alone: their parameters have to be plain.
  have hscoped := x.faults_eq_nil_iff.mp (x.validate_ok_iff.mp hvalidate).1
  refine ⟨x, helpers, hengine, hout, ?_⟩
  rw [keepsLines_iff_lostLines hshort hparse hscoped.sites_sound, lostLines_eq_zero_iff]

/-- A source with line ends around what is left out or spelt otherwise, but none between a mark and its
    handler. -/
def spreadSource : String :=
  "#declare\na\n;\nvar f = (@a\n, x\n...\n)\n: me \x7b return x\n== a::\nb ? -> 'l\nm' : " ++
    "\x7b k: 1,\n\x7d; \x7d;"

theorem keepsLines_iff_spreadSource :
    spreadSource.utf8ByteSize < UInt32.size ∧
      ∃ out x helpers, Engine.compile "spread" spreadSource = .ok out ∧
        Engine.analyze spreadSource = .ok (x, helpers) ∧ out = x.output ++ helperText helpers ∧
        lineFeeds x.output = 11 ∧ x.KeepsLines spreadSource := by
  have hshort : spreadSource.utf8ByteSize < UInt32.size := by decide +kernel
  have hrun : (analyze spreadSource).toOption.map (fun r => lostLines r.1.sites) = some 0 := by
    decide +kernel
  obtain ⟨⟨y, names⟩, hanalyze, hlost⟩ := ok_of_toOption hrun
  have hcompile := Engine.compile_of_analyze hshort "spread" hanalyze
  obtain ⟨x, helpers, hengine, hout, hkeeps⟩ := keepsLines_iff hshort hcompile
  rw [Engine.analyze_eq hshort, hanalyze] at hengine
  cases hengine
  have hlines := hkeeps.mpr ((lostLines_eq_zero_iff _).mp hlost)
  have hcount : lineFeeds spreadSource = 11 := by decide +kernel
  exact ⟨hshort, _, y, names, hcompile, (Engine.analyze_eq hshort).trans hanalyze, hout,
    hlines.1.trans hcount, hlines⟩

/-- A source with a line end between a mark and its handler. -/
def splitSource : String := "var h;\nfunction f(@\nh) \x7b \x7d\n"

/-- The line end between a mark and its handler is lost. -/
theorem not_keepsLines_splitSource :
    ∃ x, analyze splitSource = .ok (x, []) ∧ lineFeeds splitSource = 3 ∧
      x.output = "var h;\nfunction f(__err) \x7b if (__err) \x7b h(__err); return; \x7d \x7d\n" ∧
      ¬ x.KeepsLines splitSource := by
  have hrun : (analyze splitSource).toOption.map (fun r => (r.1.output, r.2)) = some
      ("var h;\nfunction f(__err) \x7b if (__err) \x7b h(__err); return; \x7d \x7d\n", []) := by
    decide +kernel
  obtain ⟨⟨x, helpers⟩, hx, hout⟩ := ok_of_toOption hrun
  obtain ⟨hout, rfl⟩ := Prod.mk.inj hout
  refine ⟨x, hx, by decide, hout, ?_⟩
  rintro ⟨hcount, _⟩
  rw [hout] at hcount
  exact absurd hcount (by decide)

end Respell
