import Respell.Proofs.Token.Reading
import Respell.Token.Cursor
import Respell.Token.Stream

/-!
# Scanning is faithful

A cursor that is asked for one token after the other, and after some of them for the literal they begin,
comes to the end of every text or to a fault, whatever the rule by which literals are asked for. Up to
there it has skipped nothing and read nothing twice: what came before the first token and the tokens spell
the text as far as it was read.

A literal is read from the position of its opening mark, which is a byte offset into the whole text, kept in
32 bits. So the invariant of a run is not on the place of the cursor alone but on all three of its parts: the
place is one of the text, the text is short enough for its offset to be kept as it is, and no token is held
back.
-/

namespace Respell

open Text

/-- Dropping as many bytes as the first part of a text has leaves the second part. -/
theorem Text.dropBytes_byteLength (before rest : List Char) :
    dropBytes (byteLength before) (before ++ rest) = rest := by
  induction before with
  | nil => cases rest <;> rfl
  | cons c cs ih =>
      obtain ⟨n, hn⟩ := Nat.exists_eq_add_of_lt c.utf8Size_pos
      have hsize : byteLength (c :: cs) = (n + byteLength cs) + 1 := by simp [hn]; omega
      have hrest : (n + byteLength cs) + 1 - c.utf8Size = byteLength cs := by omega
      rw [hsize, List.cons_append, dropBytes, hrest, ih]

/-! ## Places of a text -/

/-- A place of a text: between two of its characters, or at one of its ends. -/
def Text.Place.Within (source : List Char) (p : Place) : Prop :=
  ∃ before, source = before ++ p.rest ∧ p.offset = byteLength before

namespace Text.Place.Within

variable {source : List Char} {p : Place}

theorem start (source : List Char) : (Place.start source).Within source := ⟨[], rfl, rfl⟩

/-- A place of a text is found again by its offset. -/
theorem ofOffset (h : p.Within source) : Place.ofOffset source p.offset = p := by
  obtain ⟨before, hsource, hoffset⟩ := h
  rw [Place.ofOffset, hsource, hoffset, dropBytes_byteLength, ← hoffset]

/-- In a text shorter than 4 GiB the position that is kept for a place is its offset. -/
theorem toNat_pos (h : p.Within source) (hshort : byteLength source < UInt32.size) : p.pos.toNat = p.offset := by
  obtain ⟨before, rfl, hoffset⟩ := h
  refine Place.toNat_pos ?_
  rwa [extent, hoffset, ← byteLength_append]

theorem advance (h : p.Within source) (n : Nat) : (p.advance n).Within source := by
  obtain ⟨before, hsource, hoffset⟩ := h
  refine ⟨before ++ p.rest.take n, ?_, ?_⟩
  · rw [List.append_assoc, rest_advance, List.take_append_drop]
    exact hsource
  · rw [offset_advance, hoffset, byteLength_append]

theorem takeToken (h : p.Within source) (kind : Kind) (n : Nat) :
    (takeToken p kind n).2.Within source := (h.advance n).advance _

/-- The place to go on from after a token, or after a fault, is one of the same text. -/
theorem scan (h : p.Within source) : (scan p).2.Within source := by
  unfold Respell.scan
  split
  · exact h
  · next kind n _ =>
      dsimp only
      split <;> exact h.takeToken kind n

theorem readQuoted {opening t : Token} {q : Place} (h : p.Within source)
    (hread : readQuoted opening p = .ok (t, q)) : q.Within source := by
  unfold Respell.readQuoted at hread
  dsimp only at hread
  split at hread
  · next n _ =>
      cases hread
      exact h.takeToken (Quoted.kind (p.rest.headD '"')) n
  · cases hread

end Text.Place.Within

/-! ## One token at a place -/

variable {d : Discipline} {p q : Place} {t : Token} {f : Fault}

/-- A token that is read under a discipline was taken where it stands. -/
theorem taken_of_readToken (h : readToken d p = .ok (t, q)) : Taken p t q := by
  unfold readToken at h
  split at h
  · next s after hscan =>
      split at h
      · refine .quoted ?_
        rw [Parser.quoted_eq, hscan]
        exact h
      · cases h
        refine .scanned ?_
        rw [Parser.next_eq, hscan]
  · cases h

/-- A scanned token has the position of its place. -/
theorem pos_of_scan {after : Place} (h : scan p = (.ok t, after)) : t.pos = p.pos := by
  refine Taken.pos (q := after) (.scanned ?_)
  rw [Parser.next_eq, h]

/-- A fault of the scanner is reported where the token should begin. -/
theorem start_of_scan {after : Place} (h : scan p = (.error f, after)) : f.span.start = p.pos := by
  unfold scan at h
  split at h
  · cases h
    rfl
  · next kind n _ =>
      dsimp only at h
      split at h
      · next g hrefusal =>
          cases h
          -- A refused token has been read, and its fault is its own span.
          unfold Token.refusal? at hrefusal
          split at hrefusal <;> cases hrefusal <;> rfl
      · cases h

/-- A fault is reported at the place from which nothing could be read. -/
theorem start_of_readToken (h : readToken d p = .error f) : f.span.start = p.pos := by
  unfold readToken at h
  split at h
  · next s after hscan =>
      split at h
      · unfold readQuoted at h
        dsimp only at h
        split at h
        · cases h
        · cases h
          exact pos_of_scan hscan
      · cases h
  · next g after hscan =>
      cases h
      exact start_of_scan hscan

/-! ## Cursors -/

namespace Cursor

/-- Takes the next token, and the literal it begins where the discipline asks for it. -/
def read (d : Discipline) (c : Cursor) : Except Fault Token × Cursor :=
  match c.next with
  | (.ok t, after) => if d.reads t.kind then after.quoted t else (.ok t, after)
  | (.error f, after) => (.error f, after)

/-- What a cursor gives when it is read again and again: tokens up to the end of the file, or up to a
    fault. A run has finitely many steps. -/
inductive Run (d : Discipline) : Cursor → List Token → Option Fault → Prop where
  | ended {c after : Cursor} {t : Token} :
      c.read d = (.ok t, after) → t.kind = .endOfFile → Run d c [t] none
  | failed {c after : Cursor} {f : Fault} : c.read d = (.error f, after) → Run d c [] (some f)
  | more {c after : Cursor} {t : Token} {ts : List Token} {stopped : Option Fault} :
      c.read d = (.ok t, after) → t.kind ≠ .endOfFile → Run d after ts stopped →
      Run d c (t :: ts) stopped

/-- A cursor has one run at most. -/
theorem Run.unique {c : Cursor} {ts us : List Token} {stopped stopped' : Option Fault}
    (h : Run d c ts stopped) (h' : Run d c us stopped') : ts = us ∧ stopped = stopped' := by
  induction h generalizing us with
  | ended hread hk =>
      cases h' <;> simp_all
  | failed hread =>
      cases h' <;> simp_all
  | more hread hk _ ih =>
      cases h' with
      | ended hread' hk' => simp_all
      | failed hread' => simp_all
      | more hread' _ hrest =>
          rw [hread] at hread'
          cases hread'
          obtain ⟨rfl, rfl⟩ := ih hrest
          exact ⟨rfl, rfl⟩

/-- The cursor stands at a place of its text, which is shorter than 4 GiB, and holds no token back. -/
structure Stands (c : Cursor) : Prop where
  held : c.held = none
  place : c.place.Within c.source
  short : byteLength c.source < UInt32.size

namespace Stands

variable {c : Cursor}

/-- After the preamble the cursor stands at the first token. -/
theorem preamble {source : List Char} (hshort : byteLength source < UInt32.size) :
    (start source).preamble.2.Stands where
  held := rfl
  place := (Place.Within.start source).advance _
  short := hshort

/-- The position of a token leads back to where it was scanned. -/
theorem ofOffset_pos {after : Place} (h : c.Stands) (hscan : scan c.place = (.ok t, after)) :
    Place.ofOffset c.source t.pos = c.place := by
  rw [pos_of_scan hscan, h.place.toNat_pos h.short, h.place.ofOffset]

theorem next_of_scan {after : Place} (h : c.Stands) (hscan : scan c.place = (.ok t, after)) :
    c.next = (.ok t, { c with place := after }) := by
  rw [Cursor.next, h.held]
  dsimp only
  rw [hscan]

/-- A cursor reads what can be read from its place, and goes on after the token. -/
theorem read_eq (h : c.Stands) : (c.read d).1 = (readToken d c.place).map Prod.fst ∧
    ∀ t q, readToken d c.place = .ok (t, q) → (c.read d).2 = { c with place := q } := by
  unfold readToken
  split
  · next s after hscan =>
      rw [read, h.next_of_scan hscan]
      dsimp only
      split
      · -- A literal is read again from the position of its mark, which is the place of the cursor.
        rw [Cursor.quoted]
        dsimp only
        rw [h.ofOffset_pos hscan]
        cases readQuoted s c.place with
        | error f =>
            refine ⟨rfl, ?_⟩
            rintro _ _ ⟨⟩
        | ok result =>
            refine ⟨rfl, ?_⟩
            rintro _ _ ⟨⟩
            rfl
      · refine ⟨rfl, ?_⟩
        rintro _ _ ⟨⟩
        rfl
  · next g after hscan =>
      rw [read, Cursor.next, h.held]
      dsimp only
      rw [hscan]
      refine ⟨rfl, ?_⟩
      rintro _ _ ⟨⟩

theorem read_of_ok (h : c.Stands) (hread : readToken d c.place = .ok (t, q)) :
    c.read d = (.ok t, { c with place := q }) := by
  refine Prod.ext ?_ (h.read_eq.2 t q hread)
  rw [h.read_eq.1, hread]
  rfl

/-- What a cursor reads stands at its place. -/
theorem ok_of_read {after : Cursor} (h : c.Stands) (hread : c.read d = (.ok t, after)) :
    readToken d c.place = .ok (t, after.place) ∧ after = { c with place := after.place } := by
  have hfirst := (h.read_eq (d := d)).1
  rw [hread] at hfirst
  cases hplace : readToken d c.place with
  | error f =>
      rw [hplace] at hfirst
      cases hfirst
  | ok result =>
      have hs := h.read_of_ok hplace
      rw [hread] at hs
      cases hs
      exact ⟨rfl, rfl⟩

/-- The fault that a cursor meets is the fault of its place. -/
theorem error_of_read {after : Cursor} (h : c.Stands)
    (hread : c.read d = (.error f, after)) : readToken d c.place = .error f := by
  have hfirst := (h.read_eq (d := d)).1
  rw [hread] at hfirst
  cases hplace : readToken d c.place with
  | error g =>
      rw [hplace] at hfirst
      cases hfirst
      rfl
  | ok result =>
      rw [hplace] at hfirst
      cases hfirst

/-- After a token the cursor stands where the text goes on. -/
theorem advance (h : c.Stands) (ht : Taken c.place t q) : Stands { c with place := q } where
  held := h.held
  place := by
    obtain ⟨before, hsource, hoffset⟩ := h.place
    refine ⟨before ++ t.source.toList, ?_, ?_⟩
    · rw [List.append_assoc, ← ht.rest]
      exact hsource
    · rw [ht.offset, hoffset, byteLength_append]
  short := h.short

/-- The stream of tokens from the place of a cursor is its run. -/
theorem run (h : c.Stands) :
    Run d c (tokensFrom d c.place).1 (tokensFrom d c.place).2 := by
  generalize hplace : c.place = p
  fun_induction tokensFrom d p generalizing c with
  | case1 p f hread =>
    subst hplace
    have hfault : (c.read d).1 = .error f := by
      rw [h.read_eq.1, hread]
      rfl
    exact .failed (Prod.ext hfault rfl)
  | case2 p t q hread hlt ts stopped hrest ih =>
    subst hplace
    have ht := taken_of_readToken hread
    refine .more (h.read_of_ok hread) ?_ ?_
    · intro hk
      rw [ht.endOfFile hk] at hlt
      exact absurd hlt (Nat.not_lt_zero _)
    · have hrun := ih (h.advance ht) rfl
      rw [hrest] at hrun
      exact hrun
  | case3 p t q hread hlt =>
    subst hplace
    have ht := taken_of_readToken hread
    refine .ended (h.read_of_ok hread) ?_
    -- Any other token would have left less.
    by_cases hk : t.kind = .endOfFile
    · exact hk
    · exact absurd (ht.length_lt hk) hlt

end Stands

/-- The tokens of a run were taken one after the other, up to the end of the text or up to the place
    where the fault is reported. -/
theorem Run.reading {c : Cursor} {ts : List Token} {stopped : Option Fault}
    (h : Run d c ts stopped) (hc : c.Stands) :
    ∃ q, Reading c.place ts q ∧ (stopped = none → q.rest = []) ∧
      ∀ f, stopped = some f → f.span.start = q.pos := by
  induction h with
  | @ended c after t hread hk =>
      have ht := taken_of_readToken (hc.ok_of_read hread).1
      refine ⟨after.place, .single ht, ?_, by simp⟩
      intro _
      have hrest := ht.rest
      rw [ht.endOfFile hk] at hrest
      exact (List.append_eq_nil_iff.mp hrest.symm).2
  | @failed c after f hread =>
      refine ⟨c.place, .nil, by simp, ?_⟩
      intro g hg
      cases hg
      exact start_of_readToken (hc.error_of_read hread)
  | @more c after t ts stopped hread hk _ ih =>
      obtain ⟨hplace, hafter⟩ := hc.ok_of_read hread
      have ht := taken_of_readToken hplace
      have hstands := hc.advance ht
      rw [← hafter] at hstands
      obtain ⟨q, hreading, hstopped⟩ := ih hstands
      exact ⟨q, .cons ht hreading, hstopped⟩

/-- A run that no fault stops has the end of the file as its last token. -/
theorem Run.endOfFile {c : Cursor} {ts : List Token} {stopped : Option Fault}
    (h : Run d c ts stopped) (hstopped : stopped = none) :
    ∃ body e, ts = body ++ [e] ∧ e.kind = .endOfFile ∧ ∀ t ∈ body, t.kind ≠ .endOfFile := by
  induction h with
  | ended _ hk => exact ⟨[], _, rfl, hk, by simp⟩
  | failed _ => cases hstopped
  | @more _ _ t _ _ _ hk _ ih =>
      obtain ⟨body, e, rfl, he, hbody⟩ := ih hstopped
      refine ⟨t :: body, e, rfl, he, ?_⟩
      intro s hs
      rcases List.mem_cons.mp hs with rfl | hs
      · exact hk
      · exact hbody s hs

end Cursor

/-! ## Streams -/

/-- A preamble, tokens and possibly a fault account for a text. -/
structure Faithful (source preamble : String) (tokens : List Token) (stopped : Option Fault) :
    Prop where
  /-- The position of a token is the number of bytes before it. -/
  positions : ∀ before t after, tokens = before ++ t :: after →
    t.pos.toNat = (preamble ++ String.join (before.map Token.source)).utf8ByteSize
  /-- Without a fault the tokens go up to the end of the file, and all of them spell the text. -/
  finished : stopped = none →
    preamble ++ String.join (tokens.map Token.source) = source ∧
      ∃ body e, tokens = body ++ [e] ∧ e.kind = .endOfFile ∧ ∀ t ∈ body, t.kind ≠ .endOfFile
  /-- The tokens before a fault spell the text up to where the fault is reported. -/
  interrupted : ∀ f, stopped = some f → ∃ rest,
    preamble ++ String.join (tokens.map Token.source) ++ rest = source ∧
      (preamble ++ String.join (tokens.map Token.source)).utf8ByteSize = f.span.start.toNat

/-- Whatever a run gives after the preamble accounts for the text. -/
theorem Cursor.Run.faithful {source : String} {ts : List Token} {stopped : Option Fault}
    (hshort : byteLength source.toList < UInt32.size)
    (h : (Cursor.start source.toList).preamble.2.Run d ts stopped) :
    Faithful source (Cursor.start source.toList).preamble.1 ts stopped := by
  obtain ⟨q, hreading, hend, hfault⟩ := h.reading (.preamble hshort)
  have hoffset : (Cursor.start source.toList).preamble.2.place.offset =
      (Cursor.start source.toList).preamble.1.utf8ByteSize := by
    rw [← byteLength_toList]
    simp [Cursor.preamble, Cursor.start, scanTrivia, Place.start]
  -- The whole text: the preamble, what was read after it, and what is left.
  have hsource {ts : List Token} {q : Place}
      (hreading : Reading (Cursor.start source.toList).preamble.2.place ts q) :
      ((Cursor.start source.toList).preamble.1 ++ String.join (ts.map Token.source)).toList ++ q.rest =
        source.toList := by
    rw [String.toList_append, List.append_assoc, ← hreading.rest]
    exact text_append_rest (.start source.toList) _
  have hkept {ts : List Token} {q : Place}
      (hreading : Reading (Cursor.start source.toList).preamble.2.place ts q) : q.pos.toNat =
        ((Cursor.start source.toList).preamble.1 ++ String.join (ts.map Token.source)).utf8ByteSize := by
    rw [Place.pos, hreading.offset, hoffset, ← String.utf8ByteSize_append, ← byteLength_toList]
    rw [← hsource hreading] at hshort
    exact toNat_ofNat_byteLength hshort
  constructor
  · intro before t after hts
    rw [hts] at hreading
    obtain ⟨r, hbefore, hrest⟩ := hreading.split
    cases hrest with
    | cons ht _ => rw [ht.pos, hkept hbefore]
  · intro hstopped
    refine ⟨?_, h.endOfFile hstopped⟩
    apply String.toList_injective
    have hall := hsource hreading
    rw [hend hstopped, List.append_nil] at hall
    exact hall
  · intro f hf
    refine ⟨String.ofList q.rest, ?_, ?_⟩
    · apply String.toList_injective
      rw [String.toList_append, String.toList_ofList, hsource hreading]
    · rw [hfault f hf, hkept hreading]

/-- Reading a text token by token under any discipline comes to an end, in one way only, and what it gives
    accounts for the text. The text is shorter than 4 GiB: further on, the position of an opening mark
    would not lead back to it. -/
theorem tokensOf_faithful (d : Discipline) {source : String} (hshort : source.utf8ByteSize < UInt32.size) :
    (tokensOf d source.toList).1 = (Cursor.start source.toList).preamble.1 ∧
      (∀ tokens stopped, (Cursor.start source.toList).preamble.2.Run d tokens stopped ↔
        (tokens, stopped) = (tokensOf d source.toList).2) ∧
      Faithful source (tokensOf d source.toList).1 (tokensOf d source.toList).2.1
        (tokensOf d source.toList).2.2 := by
  rw [← byteLength_toList] at hshort
  have hrun : (Cursor.start source.toList).preamble.2.Run d (tokensOf d source.toList).2.1
      (tokensOf d source.toList).2.2 := (Cursor.Stands.preamble hshort).run
  refine ⟨rfl, ?_, hrun.faithful hshort⟩
  intro tokens stopped
  constructor
  · intro h
    obtain ⟨rfl, rfl⟩ := h.unique hrun
    rfl
  · intro h
    rw [show tokens = _ from congrArg Prod.fst h, show stopped = _ from congrArg Prod.snd h]
    exact hrun

/-- A source with trivia of every kind, a character of two bytes, a string with an escape and a regular
    expression with flags. -/
def annotatedSource : String :=
  "// \u00e9\nvar s = \"a\\\"b\" /* ; */;\r\n\ts.test(/a\\//g) "

theorem tokensOf_faithful_annotatedSource :
    annotatedSource.utf8ByteSize < UInt32.size ∧
      (tokensOf .always annotatedSource.toList).1 = "// \u00e9\n" ∧
      (tokensOf .always annotatedSource.toList).2.1.map (fun t => (t.source, t.pos)) =
        [("var ", 6), ("s ", 10), ("= ", 12), ("\"a\\\"b\" /* ; */", 14), (";\r\n\t", 28), ("s", 32), (".", 33),
          ("test", 34), ("(", 38), ("/a\\//g", 39), (") ", 45), ("", 47)] ∧
      (tokensOf .always annotatedSource.toList).2.2 = none ∧
      (Cursor.start annotatedSource.toList).preamble.2.Run .always
        (tokensOf .always annotatedSource.toList).2.1 none ∧
      Faithful annotatedSource (tokensOf .always annotatedSource.toList).1
        (tokensOf .always annotatedSource.toList).2.1 none := by
  have hshort : annotatedSource.utf8ByteSize < UInt32.size := by decide +kernel
  have hended : (tokensOf .always annotatedSource.toList).2.2 = none := by decide +kernel
  obtain ⟨_, hruns, hfaithful⟩ := tokensOf_faithful .always hshort
  rw [hended] at hfaithful
  refine ⟨hshort, by decide +kernel, by decide +kernel, hended, (hruns _ _).mpr ?_, hfaithful⟩
  rw [← hended]

end Respell
