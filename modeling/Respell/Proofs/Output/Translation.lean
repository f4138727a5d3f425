import Respell.Proofs.Output.Lines

/-!
# The output is the desugared program

What is written for a program, lexeme by lexeme, are the tokens of its desugared tree. The desugared tree is
plain: it holds no construct of the dialect, and none of its tokens is a mark or a word that only the dialect
has. The latter needs the scope rule, which leaves no stray `@` or `...` in a program.
-/

namespace Respell

/-- For every source that is accepted, what is written for its program, lexeme by lexeme and without
    blanks and comments, are the tokens of the desugared tree; and the desugared tree holds no construct
    of the dialect and no token that only the dialect has. -/
theorem lexemes_eq_desugar_tokens {file source out : String} (h : compile file source = .ok out) :
    ∃ x helpers, analyze source = .ok (x, helpers) ∧ out = Piece.join x.pieces ++ helperText helpers ∧
      x.pieces.filterMap Piece.lexeme? = x.desugar.tokens.map Token.text ∧
      x.desugar.constructs = [] ∧ ∀ t ∈ x.desugar.tokens, t.Standard := by
  obtain ⟨x, helpers, hrun, hout⟩ := compile_ok h
  obtain ⟨hparse, hvalidate⟩ := analyze_ok hrun
  have hscoped := x.faults_eq_nil_iff.mp (x.validate_ok_iff.mp hvalidate).1
  have hlaid := Program.laid (parseProgramWithin_formed hparse) hscoped.sites_sound
  refine ⟨x, helpers, hrun, hout, ?_, x.constructs_desugar, hlaid.standard⟩
  rw [Program.pieces, List.filterMap_cons_none rfl, hlaid.lexemes]
  exact List.append_nil _

/-- A source with every construct that is spelt otherwise, some of them inside others. -/
def layeredSource : String :=
  "#declare log; var f = (@log, xs...): me \x7b return xs == me::run ? -> _ != 1 : " ++
    "(a, b) -> \x7b k: (@)\x7b\x7d, \x7d; \x7d;"

/-- What is written for it. -/
def layeredLexemes : List String :=
  ["var", "f", "=", "function", "(", "__err", ",", "xs", ")", "\x7b", "if", "(", "__err", ")",
    "\x7b", "log", "(", "__err", ")", ";", "return", ";", "\x7d", "var", "me", "=", "this", ";",
    "xs", "=", "[", "]", ".", "slice", ".", "call", "(", "arguments", ",", "1", ")", ";",
    "return", "xs", "===", "me", ".", "prototype", ".", "run", "?", "function", "(", "_", ")",
    "\x7b", "return", "_", "!==", "1", ";", "\x7d", ":", "function", "(", "a", ",", "b", ")",
    "\x7b", "return", "\x7b", "k", ":", "function", "(", "__err", ")", "\x7b", "if", "(", "__err",
    ")", "\x7b", "throw", "__err", ";", "\x7d", "\x7d", "\x7d", ";", "\x7d", ";", "\x7d", ";", ""]

theorem lexemes_eq_desugar_tokens_layeredSource :
    ∃ out x helpers, compile "layered" layeredSource = .ok out ∧
      analyze layeredSource = .ok (x, helpers) ∧ out = Piece.join x.pieces ++ helperText helpers ∧
      x.desugar.tokens.map Token.text = layeredLexemes ∧
      x.pieces.filterMap Piece.lexeme? = x.desugar.tokens.map Token.text ∧
      x.desugar.constructs = [] ∧ ∀ t ∈ x.desugar.tokens, t.Standard := by
  have hrun : (analyze layeredSource).toOption.map (fun r => r.1.desugar.tokens.map Token.text) = some
      layeredLexemes := by
    decide +kernel
  obtain ⟨⟨y, names⟩, hanalyze, htexts⟩ := ok_of_toOption hrun
  have hcompile := compile_of_analyze "layered" hanalyze
  obtain ⟨x, helpers, hanalyze', hout, hlexemes, hplain, hstandard⟩ :=
    lexemes_eq_desugar_tokens hcompile
  rw [hanalyze] at hanalyze'
  cases hanalyze'
  exact ⟨_, y, names, hcompile, hanalyze, hout, htexts, hlexemes, hplain, hstandard⟩

end Respell
