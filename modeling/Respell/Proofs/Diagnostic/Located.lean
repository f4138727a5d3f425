import Respell.Proofs.Engine.Compile
import Respell.Proofs.Parse.Location
import Respell.Proofs.Scope.Stage
import Respell.Proofs.Text.ByteOrder

/-!
# Diagnostics are located

What a text is refused with names its file, points at one lexeme of the text and gives the line on which that begins;
and it tells whether the text is no program of the grammar or a program that breaks a rule on scopes.

Spans and lines are given in bytes, while texts are read by characters. A span is the length of a text before
another one, so it begins and ends where characters do. In a text shorter than 4 GiB 32 bits hold every offset and
the number of every line on which something is refused.
-/

namespace Respell

open Text

/-! ## Bytes -/

/-- The number of line feeds among the first bytes of a text. -/
def Text.lineFeedBytes (s : String) (n : Nat) : Nat := (s.toByteArray.data.toList.take n).count 10

/-- A byte of a longer form has its highest bit set, so it is no line feed. -/
theorem ofNat_ne_lineFeed {n : Nat} (hlow : 128 ≤ n) (hhigh : n < 256) : ¬ UInt8.ofNat n = 10 := by
  intro h
  have hnat := congrArg UInt8.toNat h
  rw [UInt8.toNat_ofNat_of_lt' hhigh] at hnat
  simp at hnat
  omega

/-- The form of a line feed is its one byte, and no other character has that byte in its form. -/
theorem count_utf8EncodeChar (c : Char) :
    (String.utf8EncodeChar c).count 10 = if c = '\n' then 1 else 0 := by
  have hfeed : c = '\n' ↔ c.val.toNat = 10 := by
    constructor
    · rintro rfl
      rfl
    · exact fun h => Char.ext (UInt32.toNat_inj.mp h)
  unfold String.utf8EncodeChar
  dsimp only
  split
  · next h =>
      have hbyte : UInt8.ofNat c.val.toNat = 10 ↔ c.val.toNat = 10 := by
        rw [← UInt8.toNat_inj, UInt8.toNat_ofNat_of_lt' (Nat.lt_of_le_of_lt h (by decide))]
        rfl
      simp only [List.count_singleton, beq_iff_eq, hfeed, hbyte]
  · next h =>
      have hne : ¬ c = '\n' := by
        rw [hfeed]
        omega
      rw [if_neg hne, List.count_eq_zero]
      split
      · simp only [eq_comm (a := (10 : UInt8)), List.mem_cons, List.not_mem_nil, or_false, not_or]
        refine ⟨ofNat_ne_lineFeed ?_ ?_, ofNat_ne_lineFeed ?_ ?_⟩ <;> omega
      split
      · simp only [eq_comm (a := (10 : UInt8)), List.mem_cons, List.not_mem_nil, or_false, not_or]
        refine ⟨ofNat_ne_lineFeed ?_ ?_, ofNat_ne_lineFeed ?_ ?_, ofNat_ne_lineFeed ?_ ?_⟩ <;> omega
      · simp only [eq_comm (a := (10 : UInt8)), List.mem_cons, List.not_mem_nil, or_false, not_or]
        refine ⟨ofNat_ne_lineFeed ?_ ?_, ofNat_ne_lineFeed ?_ ?_, ofNat_ne_lineFeed ?_ ?_,
          ofNat_ne_lineFeed ?_ ?_⟩ <;> omega

theorem count_flatMap_utf8EncodeChar (cs : List Char) :
    (cs.flatMap String.utf8EncodeChar).count 10 = cs.count '\n' := by
  induction cs with
  | nil => rfl
  | cons c cs ih =>
      rw [List.flatMap_cons, List.count_append, ih, count_utf8EncodeChar, List.count_cons, Nat.add_comm]
      simp

/-- The line feeds among the bytes of a first part are those of its characters. -/
theorem lineFeedBytes_append (before after : String) :
    lineFeedBytes (before ++ after) before.utf8ByteSize = lineFeeds before := by
  have hlength : before.toByteArray.data.toList.length = before.utf8ByteSize := by
    rw [← String.size_toByteArray]
    rfl
  rw [lineFeedBytes, String.toByteArray_append, ByteArray.data_append, Array.toList_append,
    List.take_append_of_le_length (by omega), List.take_of_length_le (by omega), toList_toByteArray,
    count_flatMap_utf8EncodeChar, lineFeeds]

/-! ## Lexemes -/

/-- The characters are one lexeme of the text that begins with them: what the scanner recognises, or the
    literal that a mark opens. -/
inductive OneLexeme (rest : List Char) : List Char → Prop where
  | scanned {k : Kind} {n : Nat} (h : Lexeme.next? rest = some (k, n)) : OneLexeme rest (rest.take n)
  | literal {k : Kind} {m n : Nat} (h : Lexeme.next? rest = some (k, m)) (hk : k.isQuote = true)
      (hlength : Quoted.length? rest = some n) : OneLexeme rest (rest.take n)

theorem OneLexeme.append_drop {rest w : List Char} (h : OneLexeme rest w) :
    w ++ rest.drop w.length = rest := by
  cases h <;> simp [← List.drop_eq_drop_min]

/-- Only where nothing is left is a lexeme empty. -/
theorem OneLexeme.eq_nil {rest w : List Char} (h : OneLexeme rest w) (hw : w = []) : rest = [] := by
  cases h with
  | @scanned k n h =>
      have hlexeme := lexemeAt_of_next? h
      by_cases hk : k = .endOfFile
      · subst hk
        exact hlexeme.eq_nil
      · have hpos := hlexeme.length_pos hk
        exact (List.take_eq_nil_iff.mp hw).resolve_left (by omega)
  | literal _ _ hlength =>
      cases rest with
      | nil => rfl
      | cons c cs =>
          obtain ⟨m, _, rfl⟩ := Option.map_eq_some_iff.mp hlength
          exact (List.take_eq_nil_iff.mp hw).resolve_left (by omega)

theorem Token.StandsAt.oneLexeme {t : Token} {p : Place} (h : t.StandsAt p) :
    OneLexeme p.rest t.text.toList ∧ t.pos = p.pos := by
  cases h with
  | lexeme h ht =>
      rw [text_of_takeToken ht]
      exact ⟨.scanned h, (congrArg Token.pos (Prod.mk.inj ht).1).symm⟩
  | literal hmark hk ht =>
      obtain ⟨k, m, hlex, htake, _⟩ := next_ok hmark
      obtain ⟨n, hlength, htoken⟩ := quoted_ok ht
      rw [kind_of_takeToken htake] at hk
      rw [text_of_takeToken htoken]
      exact ⟨.literal hlex hk hlength, (congrArg Token.pos (Prod.mk.inj htoken).1).symm⟩

/-! ## Places as parts of a text -/

theorem Cut.taken {p q : Place} {t : Token} (h : Cut p t q) : Taken p t q := by
  cases h with
  | scanned h _ => exact .scanned h
  | literal _ _ h => exact .quoted h

theorem Cuts.reading {o p : Place} {ts : List Token} (h : Cuts o ts p) : Reading o ts p := by
  induction h with
  | nil => exact .nil
  | concat _ hcut ih => exact ih.append (.single hcut.taken)

/-- A place between tokens stands after a first part of the text. -/
theorem Reached.split {source : String} {p : Place} (h : Reached (firstPlace source.toList) p) :
    ∃ before after : String, source = before ++ after ∧ p = ⟨before.utf8ByteSize, after.toList⟩ := by
  obtain ⟨ts, hcuts⟩ := h
  have hreading := hcuts.reading
  refine ⟨(scanTrivia (.start source.toList)).1 ++ String.join (ts.map Token.source), String.ofList p.rest,
    ?_, ?_⟩
  · apply String.toList_injective
    have hrest := hreading.rest
    rw [String.toList_append, String.toList_append, String.toList_ofList, List.append_assoc, ← hrest]
    exact (toList_scanTrivia (.start source.toList)).symm
  · have hoffset := hreading.offset
    rw [firstPlace, offset_scanTrivia, Place.start, Nat.zero_add, ← String.utf8ByteSize_append] at hoffset
    rw [Place.start, ← hoffset, String.toList_ofList]

/-! ## What diagnostics point at -/

/-- The diagnostic points at `text`, which stands in the source between `before` and `after`. -/
structure Diagnostic.PointsAt (d : Diagnostic) (source before text after : String) : Prop where
  source_eq : source = before ++ text ++ after
  start_eq : d.span.start.toNat = before.utf8ByteSize
  length_eq : d.span.length.toNat = text.utf8ByteSize
  /-- What stands before is cut into tokens. -/
  reached : Reached (firstPlace source.toList) ⟨before.utf8ByteSize, (text ++ after).toList⟩
  /-- The text is one lexeme, or there is none. -/
  lexeme : d.code ≠ Message.invalidToken.code → OneLexeme (text ++ after).toList text.toList
  /-- Where there is none, the text is one character. -/
  invalid : d.code = Message.invalidToken.code →
    text.length = 1 ∧ Lexeme.next? (text ++ after).toList = none
  /-- The text is empty only at the end of the source. -/
  ending : text = "" → after = ""

theorem Message.code_eq_invalidToken {m : Message} : m.code = invalidToken.code ↔ m = .invalidToken := by
  cases m <;> decide

/-- A fault about a place between tokens points at what begins there. -/
theorem Fault.Found.pointsAt {source : String} {f : Fault} (hshort : source.utf8ByteSize < UInt32.size)
    (h : f.Found (firstPlace source.toList)) (file : String) :
    ∃ before text after, (f.inFile file source).PointsAt source before text after := by
  obtain ⟨p, hreached, hmarks⟩ := h
  obtain ⟨before, rest, rfl, rfl⟩ := hreached.split
  rw [String.utf8ByteSize_append] at hshort
  have hbefore : (UInt32.ofNat before.utf8ByteSize).toNat = before.utf8ByteSize :=
    UInt32.toNat_ofNat_of_lt' (Nat.lt_of_le_of_lt (Nat.le_add_right _ _) hshort)
  have htext {text after : String} (h : text ++ after = rest) :
      (UInt32.ofNat text.utf8ByteSize).toNat = text.utf8ByteSize := by
    rw [← h, String.utf8ByteSize_append] at hshort
    exact UInt32.toNat_ofNat_of_lt' (by omega)
  cases hmarks with
  | @token t ht hspan hm =>
      obtain ⟨hlexeme, hpos⟩ := ht.oneLexeme
      have hrest : t.text ++ String.ofList (rest.toList.drop t.text.toList.length) = rest := by
        apply String.toList_injective
        rw [String.toList_append, String.toList_ofList]
        exact hlexeme.append_drop
      refine ⟨before, t.text, String.ofList (rest.toList.drop t.text.toList.length), ?_⟩
      constructor
      · rw [String.append_assoc, hrest]
      · rw [Fault.inFile, hspan, Token.span, hpos]
        exact hbefore
      · rw [Fault.inFile, hspan]
        exact htext hrest
      · rw [hrest]
        exact hreached
      · intro _
        rw [hrest]
        exact hlexeme
      · exact fun hcode => absurd (Message.code_eq_invalidToken.mp hcode) hm
      · intro htext
        rw [htext] at hlexeme
        have hnil : rest.toList = [] := hlexeme.eq_nil rfl
        rw [hnil, List.drop_nil, String.ofList_nil]
  | invalid hnone hf =>
      have hspan : f.span = ⟨.ofNat before.utf8ByteSize, .ofNat (byteLength (rest.toList.take 1))⟩ := by
        rw [hf]
        rfl
      cases hchars : rest.toList with
      | nil =>
          rw [hchars] at hnone
          cases hnone
      | cons c cs =>
          have hrest : String.singleton c ++ String.ofList cs = rest := by
            apply String.toList_injective
            simp [hchars]
          refine ⟨before, String.singleton c, String.ofList cs, ?_⟩
          constructor
          · rw [String.append_assoc, hrest]
          · rw [Fault.inFile, hspan]
            exact hbefore
          · have hlength := htext hrest
            rw [← byteLength_toList, String.toList_singleton] at hlength ⊢
            rw [Fault.inFile, hspan, hchars]
            exact hlength
          · rw [hrest]
            exact hreached
          · exact fun hcode => absurd (by rw [Fault.inFile, hf]; rfl) hcode
          · intro _
            rw [hrest]
            exact ⟨String.length_singleton, hnone⟩
          · intro htext
            have := congrArg String.toList htext
            simp at this

/-! ## What a text is refused with -/

/-- The diagnostic is located in its file and its text, in bytes. -/
structure Diagnostic.Located (d : Diagnostic) (file source : String) : Prop where
  file_eq : d.file = file
  /-- It points at one lexeme. -/
  points : ∃ before text after, d.PointsAt source before text after
  start_le : d.span.start ≤ d.span.stop
  stop_le : d.span.stop.toNat ≤ source.utf8ByteSize
  /-- The span begins and ends where characters do. -/
  start_valid : String.Pos.Raw.IsValid source ⟨d.span.start.toNat⟩
  stop_valid : String.Pos.Raw.IsValid source ⟨d.span.stop.toNat⟩
  /-- The line is the number of line feeds before, and one. -/
  line_eq : d.line.toNat = 1 + lineFeedBytes source d.span.start.toNat

/-- The diagnostic tells the stage that refuses the text. -/
structure Diagnostic.TellsStage (d : Diagnostic) (source : String) : Prop where
  code_lt_iff : d.code < 2000 ↔ d.stage = .grammar
  le_code_iff : 2000 ≤ d.code ↔ d.stage = .scope
  grammar_iff : d.stage = .grammar ↔ ∃ f, Engine.parse source.toList = .error f
  scope_iff : d.stage = .scope ↔ ∃ x f, Engine.parse source.toList = .ok x ∧ Engine.validate x = .error f

/-- A text of blanks is a program without statements, and accepted. -/
theorem parse_blanks {source : List Char} (h : ∀ c ∈ source, isBlank c = true) :
    ∃ x, parseProgram source = .ok x ∧ x.validate = .ok [] := by
  have hnil : (firstPlace source).rest = [] := Trivia.drop_blanks h
  exact ⟨_, parse_of_body (Parser.many_nil (next_of_nil hnil) rfl) (next_of_nil hnil) rfl, rfl⟩

theorem count_le_byteLength (cs : List Char) : cs.count '\n' ≤ byteLength cs := by
  induction cs with
  | nil => exact Nat.le_refl _
  | cons c cs ih =>
      have hsize := c.utf8Size_pos
      rw [List.count_cons, byteLength_cons]
      split <;> omega

/-- A text that does not consist of line feeds has fewer of them than bytes. -/
theorem lineFeeds_lt {s : String} (h : ∃ c ∈ s.toList, c ≠ '\n') : lineFeeds s < s.utf8ByteSize := by
  obtain ⟨c, hmem, hc⟩ := h
  obtain ⟨before, after, hs⟩ := List.append_of_mem hmem
  have hbefore := count_le_byteLength before
  have hafter := count_le_byteLength after
  have hsize := c.utf8Size_pos
  rw [← byteLength_toList, lineFeeds, hs, List.count_append, List.count_cons_of_ne hc, byteLength_append,
    byteLength_cons]
  omega

theorem Diagnostic.PointsAt.located {f : Fault} {file source before text after : String}
    (hshort : source.utf8ByteSize < UInt32.size) (hrefused : ∃ c ∈ source.toList, c ≠ '\n')
    (h : (f.inFile file source).PointsAt source before text after) :
    (f.inFile file source).Located file source := by
  have hsize := congrArg String.utf8ByteSize h.source_eq
  rw [String.utf8ByteSize_append, String.utf8ByteSize_append] at hsize
  have hstop : (f.inFile file source).span.stop.toNat = (before ++ text).utf8ByteSize := by
    rw [Span.stop, UInt32.toNat_add, h.start_eq, h.length_eq, String.utf8ByteSize_append]
    exact Nat.mod_eq_of_lt (b := UInt32.size) (by omega)
  have hline : (f.inFile file source).line.toNat = 1 + lineFeeds before := by
    have hlt := lineFeeds_lt hrefused
    rw [h.source_eq, lineFeeds_append, lineFeeds_append, String.utf8ByteSize_append,
      String.utf8ByteSize_append] at hlt
    have hcount : lineFeedsBefore source.toList before.utf8ByteSize = lineFeeds before := by
      rw [h.source_eq, String.append_assoc, String.toList_append, ← byteLength_toList, lineFeedsBefore_append,
        lineFeeds]
    show (lineNumber source (f.inFile file source).span.start).toNat = _
    rw [lineNumber, h.start_eq, hcount, UInt32.toNat_add, UInt32.toNat_ofNat_of_lt' (by omega),
      Nat.add_comm]
    exact Nat.mod_eq_of_lt (a := 1 + lineFeeds before) (b := UInt32.size) (by omega)
  refine ⟨rfl, ⟨before, text, after, h⟩, ?_, ?_, ?_, ?_, ?_⟩
  · rw [UInt32.le_iff_toNat_le, hstop, h.start_eq, String.utf8ByteSize_append]
    exact Nat.le_add_right _ _
  · rw [hstop, String.utf8ByteSize_append]
    omega
  · rw [h.start_eq, String.Pos.Raw.isValid_iff_exists_append]
    exact ⟨before, text ++ after, by rw [h.source_eq, String.append_assoc], rfl⟩
  · rw [hstop, String.Pos.Raw.isValid_iff_exists_append]
    exact ⟨before ++ text, after, h.source_eq, rfl⟩
  · rw [hline, h.start_eq, h.source_eq, String.append_assoc, lineFeedBytes_append]

theorem Message.code_lt_iff (m : Message) : m.code < 2000 ↔ m.stage = .grammar := by
  cases m <;> decide

theorem Message.le_code_iff (m : Message) : 2000 ≤ m.code ↔ m.stage = .scope := by
  cases m <;> decide

/-- What a text is refused with was found in reading it, or in checking its program. -/
theorem compile_error {file source : String} {d : Diagnostic} (h : compile file source = .error d) :
    ∃ f, d = f.inFile file source ∧ (parseProgram source.toList = .error f ∨
      ∃ x, parseProgram source.toList = .ok x ∧ x.validate = .error f) := by
  unfold compile inFile analyze at h
  cases hparse : parseProgram source.toList with
  | error f =>
      rw [hparse] at h
      cases h
      exact ⟨f, rfl, .inl rfl⟩
  | ok x =>
      rw [hparse] at h
      cases hvalidate : x.validate with
      | error f =>
          simp only [bind, Except.bind, hvalidate] at h
          cases h
          exact ⟨f, rfl, .inr ⟨x, rfl, hvalidate⟩⟩
      | ok helpers =>
          simp only [bind, Except.bind, hvalidate] at h
          cases h

/-- What refuses a parsed program is found at a token of it, so at a place between tokens. -/
theorem found_of_validate {source : List Char} {x : Program} {f : Fault}
    (hparse : parseProgram source = .ok x) (hvalidate : x.validate = .error f) :
    f.Found (firstPlace source) := by
  obtain ⟨hstage, t, ht, hspan⟩ := validate_error hparse hvalidate
  obtain ⟨p, hreached, hstands⟩ := allSeen_of_parse hparse t ht
  refine ⟨p, hreached, .token hstands hspan ?_⟩
  intro hm
  rw [hm] at hstage
  cases hstage

/-- A text is refused with a diagnostic that names its file, points at one lexeme of the text, and tells the
    stage that refuses it. -/
theorem diagnostic_located {file source : String} {d : Diagnostic} (hshort : source.utf8ByteSize < UInt32.size)
    (h : Engine.compile file source = .error d) : d.Located file source ∧ d.TellsStage source := by
  rw [Engine.compile_eq hshort] at h
  obtain ⟨f, rfl, hf⟩ := compile_error h
  have hengine : Engine.parse source.toList = parseProgram source.toList :=
    Engine.parse_eq (by rwa [byteLength_toList])
  -- A text of line feeds is accepted, so some other character counts no line.
  have hrefused : ∃ c ∈ source.toList, c ≠ '\n' := by
    refine Classical.byContradiction fun hnone => ?_
    have hblank : ∀ c ∈ source.toList, isBlank c = true := by
      intro c hc
      rw [Classical.not_not.mp fun hne => hnone ⟨c, hc, hne⟩]
      rfl
    obtain ⟨x, hparse, hvalidate⟩ := parse_blanks hblank
    rcases hf with hf | ⟨y, hy, hf⟩
    · rw [hparse] at hf
      cases hf
    · rw [hparse] at hy
      cases hy
      rw [hvalidate] at hf
      cases hf
  rcases hf with hparse | ⟨x, hparse, hvalidate⟩
  · have hfault := refused_of_parse hparse
    obtain ⟨before, text, after, hpoints⟩ := hfault.found.pointsAt hshort file
    refine ⟨hpoints.located hshort hrefused, f.message.code_lt_iff, f.message.le_code_iff, ?_, ?_⟩
    · exact ⟨fun _ => ⟨f, hengine.trans hparse⟩, fun _ => hfault.stage⟩
    · constructor
      · intro hscope
        cases hfault.stage.symm.trans hscope
      · rintro ⟨x, g, hok, _⟩
        rw [hengine, hparse] at hok
        cases hok
  · obtain ⟨before, text, after, hpoints⟩ := (found_of_validate hparse hvalidate).pointsAt hshort file
    have hstage := (validate_error hparse hvalidate).1
    refine ⟨hpoints.located hshort hrefused, f.message.code_lt_iff, f.message.le_code_iff, ?_, ?_⟩
    · constructor
      · intro hgrammar
        cases hstage.symm.trans hgrammar
      · rintro ⟨g, herror⟩
        rw [hengine, hparse] at herror
        cases herror
    · exact ⟨fun _ => ⟨x, f, hengine.trans hparse, (Engine.validate_eq x).trans hvalidate⟩, fun _ => hstage⟩

/-- A source with a name that is not declared, after a wide character, a line end in a literal and a
    regular expression with a quotation mark in it. -/
def strayingSource : String := "var a = 'é\n' + /[\"]/;\n\n  a = stray;\n"

theorem diagnostic_located_strayingSource :
    strayingSource.utf8ByteSize < UInt32.size ∧
      ∃ d, Engine.compile "straying" strayingSource = .error d ∧ d.span = ⟨30, 5⟩ ∧ d.line = 4 ∧
        d.Located "straying" strayingSource ∧ d.TellsStage strayingSource := by
  have hshort : strayingSource.utf8ByteSize < UInt32.size := by decide +kernel
  have hrun : failure? (compile "straying" strayingSource) =
      some ⟨"straying", ⟨30, 5⟩, 4, "'stray' has not been declared", 2002, .scope⟩ := by
    decide +kernel
  have herror := (Engine.compile_eq hshort "straying").trans (error_of_failure? hrun)
  exact ⟨hshort, _, herror, rfl, rfl, diagnostic_located hshort herror⟩

end Respell
