import Respell.Proofs.Token.Fidelity

/-!
# Sessions

A cursor under any order of operations: tokens are taken and looked at, marks are set and gone back to at
any later time, several tokens are looked at at once, and literals are read from delimiters taken earlier. A
session remembers what these operations may refer to.

Two parts of a cursor change, its place and the token it holds, and each operation changes them in its own
way. All of them keep what `Mark.Sound` says about the two together. What an operation answers is
decided by one position alone, that of the next token (`Cursor.position`).

To look leaves that position where it is, but it may leave a token held that was not held before. So two
sessions that differ only in looks go through different cursors. `Mark.Ahead` relates them, and the
operations cannot tell them apart.
-/

namespace Respell

open Text

/-! ## Cursors that are brought back -/

/-- What a cursor can be brought back to: a place, and the token that was held there. -/
structure Mark where
  place : Place
  held : Option Token
deriving DecidableEq

/-- The position of the next token: that of the token held, or else that of the place. -/
def Mark.position (m : Mark) : Nat := (m.held.map fun t => t.pos.toNat).getD m.place.offset

namespace Cursor

/-- The mark of where the cursor is. -/
def mark (c : Cursor) : Mark := ⟨c.place, c.held⟩

/-- The cursor, brought back to a mark. -/
def restore (c : Cursor) (m : Mark) : Cursor := { c with place := m.place, held := m.held }

/-- The cursor after taking `n` tokens, whatever they are. -/
def skip : Nat → Cursor → Cursor
  | 0, c => c
  | n + 1, c => skip n c.next.2

/-- Takes `n` tokens and goes back to where the first of them was taken. -/
def lookAhead (n : Nat) (c : Cursor) : List (Except Fault Token) × Cursor :=
  (c.look n, (c.skip n).restore c.mark)

/-- The position of the next token. -/
def position (c : Cursor) : Nat := c.mark.position

end Cursor

/-! ## Operations -/

/-- An operation of a session. -/
inductive Step where
  | next
  | peek
  | peekKind
  /-- Sets a mark. -/
  | save
  /-- Goes back to the mark with this number, counted from the first one set. -/
  | restore (number : Nat)
  | look (count : Nat)
  /-- Reads the literal that a token taken before begins. -/
  | quoted (opening : Token)
deriving DecidableEq

/-- What an operation answers. -/
inductive Answer where
  | token (result : Except Fault Token)
  | kind (result : Except Fault Kind)
  | tokens (results : List (Except Fault Token))
  | done

/-- An operation with its answer. -/
structure Event where
  step : Step
  answer : Answer

/-- A cursor, with all the marks set and all the tokens taken so far. -/
structure Session where
  cursor : Cursor
  marks : List Mark
  taken : List Token

namespace Session

/-- A session at the beginning of a text, before its first trivia or after it. -/
def start (source : String) (trimmed : Bool) : Session :=
  let c := Cursor.start source.toList
  ⟨if trimmed then c.preamble.2 else c, [], []⟩

/-- Performs an operation. There is none for a mark that was not set; and a literal is read only for a
    delimiter that was taken, and only while no token is held. -/
def perform (s : Session) : Step → Option (Answer × Session)
  | .next => some (.token s.cursor.next.1,
      { s with cursor := s.cursor.next.2, taken := s.cursor.next.1.toOption.toList ++ s.taken })
  | .peek => some (.token s.cursor.peek.1, { s with cursor := s.cursor.peek.2 })
  | .peekKind =>
    some (.kind (s.cursor.peek.1.map Token.kind), { s with cursor := s.cursor.peek.2 })
  | .save => some (.done, { s with marks := s.marks ++ [s.cursor.mark] })
  | .restore number =>
    s.marks[number]?.map fun m => (.done, { s with cursor := s.cursor.restore m })
  | .look count => some (.tokens (s.cursor.lookAhead count).1,
      { s with cursor := (s.cursor.lookAhead count).2 })
  | .quoted opening =>
    if opening ∈ s.taken ∧ opening.kind.isQuote ∧ s.cursor.held = none then
      some (.token (s.cursor.quoted opening).1, { s with cursor := (s.cursor.quoted opening).2 })
    else none

/-- Performs operations one after the other, if they are all there. -/
def run (s : Session) : List Step → Option (List Event × Session)
  | [] => some ([], s)
  | step :: steps => do
    let (answer, after) ← s.perform step
    let (events, last) ← after.run steps
    return (⟨step, answer⟩ :: events, last)

/-- A run begins with its first operation. -/
theorem run_cons {s last : Session} {step : Step} {steps : List Step} {events : List Event} :
    s.run (step :: steps) = some (events, last) ↔ ∃ answer after rest,
      s.perform step = some (answer, after) ∧ after.run steps = some (rest, last) ∧
        events = ⟨step, answer⟩ :: rest := by
  rw [run]
  constructor
  · intro h
    obtain ⟨⟨answer, after⟩, hp, h⟩ := Option.bind_eq_some_iff.mp h
    obtain ⟨⟨rest, last'⟩, hrest, heq⟩ := Option.bind_eq_some_iff.mp h
    obtain ⟨rfl, rfl⟩ := Prod.mk.inj (Option.some.inj heq)
    exact ⟨answer, after, rest, hp, hrest, rfl⟩
  · rintro ⟨answer, after, rest, hp, hrest, rfl⟩
    rw [hp, Option.bind_eq_bind, Option.bind_some]
    dsimp only
    rw [hrest]
    rfl

end Session

/-! ## Places of a text -/

/-- The bytes of a text from `first` up to `last` are those of `text`. -/
def Text.Spans (source : List Char) (first last : Nat) (text : List Char) : Prop :=
  ∃ before after, source = before ++ text ++ after ∧ byteLength before = first ∧
    byteLength (before ++ text) = last

/-! ## The invariant -/

variable {source : List Char}

/-- A mark that can be gone back to: its place is one of the text, and the token held was scanned from the
    text and ends at that place. The text is short enough for the position of that token to be its offset. -/
structure Mark.Sound (source : List Char) (m : Mark) : Prop where
  short : byteLength source < UInt32.size
  place : m.place.Within source
  held : ∀ t, m.held = some t → ∃ p : Place, p.Within source ∧ scan p = (.ok t, m.place)

namespace Mark.Sound

variable {m : Mark}

/-- The position of a mark that holds a token is where the token was scanned. -/
theorem position_eq {t : Token} {p after : Place} (h : m.Sound source) (ht : m.held = some t)
    (hp : p.Within source) (hscan : scan p = (.ok t, after)) : m.position = p.offset := by
  rw [Mark.position, ht, ← hp.toNat_pos h.short, ← pos_of_scan hscan]
  rfl

/-- Scanning at the position of a mark gives the token held. -/
theorem scan_position {t : Token} (h : m.Sound source) (ht : m.held = some t) :
    scan (.ofOffset source m.position) = (.ok t, m.place) := by
  obtain ⟨p, hp, hscan⟩ := h.held t ht
  rw [h.position_eq ht hp hscan, hp.ofOffset]
  exact hscan

/-- Without a token held, the position of a mark is that of its place. -/
theorem ofOffset_position (h : m.Sound source) (hnone : m.held = none) :
    Place.ofOffset source m.position = m.place := by
  rw [Mark.position, hnone]
  exact h.place.ofOffset

/-- The token held is what stands between its position and the place. -/
theorem spans {t : Token} (h : m.Sound source) (ht : m.held = some t) :
    Spans source t.pos.toNat m.place.offset t.source.toList := by
  obtain ⟨p, hp, hscan⟩ := h.held t ht
  have htaken : Taken p t m.place := .scanned (by rw [Parser.next_eq, hscan])
  have hpos : t.pos.toNat = p.offset := by rw [htaken.pos, hp.toNat_pos h.short]
  obtain ⟨before, hsource, hoffset⟩ := hp
  refine ⟨before, m.place.rest, ?_, ?_, ?_⟩
  · rw [List.append_assoc, ← htaken.rest]
    exact hsource
  · rw [hpos, hoffset]
  · rw [byteLength_append, htaken.offset, hoffset]

end Mark.Sound

namespace Cursor

variable {c : Cursor}

/-- A cursor takes the token at its position and goes on after it, whether the token was held or not. -/
theorem next_eq (h : c.mark.Sound c.source) :
    c.next = ((scan (.ofOffset c.source c.position)).1,
      ⟨c.source, (scan (.ofOffset c.source c.position)).2, none⟩) := by
  unfold next
  split
  · next t ht =>
      rw [position, h.scan_position ht]
      rfl
  · next hnone =>
      have hplace : Place.ofOffset c.source c.position = c.place := h.ofOffset_position hnone
      rw [hplace, ← hnone]

/-- A cursor that looks at the token at its position goes on after it, and holds it if there is one. -/
theorem peek_eq (h : c.mark.Sound c.source) :
    c.peek = ((scan (.ofOffset c.source c.position)).1,
      ⟨c.source, (scan (.ofOffset c.source c.position)).2,
        (scan (.ofOffset c.source c.position)).1.toOption⟩) := by
  unfold peek
  split
  · next t ht =>
      rw [position, h.scan_position ht]
      show _ = (Except.ok t, (⟨c.source, c.place, some t⟩ : Cursor))
      rw [← ht]
  · next hnone =>
      have hplace : Place.ofOffset c.source c.position = c.place := h.ofOffset_position hnone
      rw [hplace]
      split
      · next t after hscan =>
          rw [hscan]
          rfl
      · next f after hscan =>
          rw [hscan]
          show _ = (Except.error f, (⟨c.source, after, none⟩ : Cursor))
          rw [← hnone]

/-- A place at the position of a cursor, from which it scans. -/
theorem within_position (h : c.mark.Sound c.source) :
    (Place.ofOffset c.source c.position).Within c.source := by
  cases ht : c.held with
  | none =>
      rw [position, h.ofOffset_position ht]
      exact h.place
  | some t =>
      obtain ⟨p, hp, hscan⟩ := h.held t ht
      rw [position, h.position_eq ht hp hscan, hp.ofOffset]
      exact hp

theorem source_next (c : Cursor) : c.next.2.source = c.source := by
  unfold next
  split <;> rfl

theorem source_skip (n : Nat) (c : Cursor) : (c.skip n).source = c.source := by
  induction n generalizing c with
  | zero => rfl
  | succ n ih => rw [skip, ih, source_next]

/-- Looking ahead leaves the cursor as it was, whatever is found there. -/
theorem lookAhead_eq (n : Nat) (c : Cursor) : c.lookAhead n = (c.look n, c) := by
  have hrestored : (c.skip n).restore c.mark = c := by
    unfold restore
    rw [source_skip]
    rfl
  rw [lookAhead, hrestored]

/-- A cursor that has looked at a token is still before it. -/
theorem position_peek {t : Token} {after : Cursor} (h : c.mark.Sound c.source)
    (hpeek : c.peek = (.ok t, after)) : after.position = c.position := by
  rw [peek_eq h] at hpeek
  obtain ⟨hresult, rfl⟩ := Prod.mk.inj hpeek
  have hpos := pos_of_scan (t := t) (Prod.ext hresult rfl)
  rw [hresult]
  exact (congrArg UInt32.toNat hpos).trans ((within_position h).toNat_pos h.short)

/-- Taking a token keeps the invariant. -/
theorem sound_next (h : c.mark.Sound c.source) : c.next.2.mark.Sound c.source := by
  rw [next_eq h]
  exact ⟨h.short, (within_position h).scan, by simp [mark]⟩

/-- Looking at a token keeps the invariant. -/
theorem sound_peek (h : c.mark.Sound c.source) : c.peek.2.mark.Sound c.source := by
  rw [peek_eq h]
  refine ⟨h.short, (within_position h).scan, ?_⟩
  intro t ht
  refine ⟨_, within_position h, Prod.ext ?_ rfl⟩
  change (scan (.ofOffset c.source c.position)).1.toOption = some t at ht
  cases hresult : (scan (.ofOffset c.source c.position)).1 with
  | error f =>
      rw [hresult] at ht
      cases ht
  | ok u =>
      rw [hresult] at ht
      cases ht
      rfl

end Cursor

/-- A session on a text: the cursor and all marks are sound, and the tokens taken were scanned from the
    text. -/
structure Session.Sound (source : List Char) (s : Session) : Prop where
  text : s.cursor.source = source
  cursor : s.cursor.mark.Sound source
  marks : ∀ m ∈ s.marks, m.Sound source
  taken : ∀ t ∈ s.taken, ∃ p after, p.Within source ∧ scan p = (.ok t, after)

namespace Session.Sound

variable {s s' : Session} {answer : Answer}

theorem start {source : String} (hshort : byteLength source.toList < UInt32.size) (trimmed : Bool) :
    (Session.start source trimmed).Sound source.toList where
  text := by cases trimmed <;> rfl
  cursor := by
    have hstart := Place.Within.start source.toList
    cases trimmed with
    | false => exact ⟨hshort, hstart, by simp [Session.start, Cursor.mark, Cursor.start]⟩
    | true =>
        refine ⟨hshort, hstart.advance _, ?_⟩
        simp [Session.start, Cursor.mark, Cursor.start, Cursor.preamble]
  marks := by simp [Session.start]
  taken := by simp [Session.start]

/-- A session stays sound if its cursor moves to a sound mark. -/
theorem move {c : Cursor} (h : s.Sound source) (hc : c.source = source) (hmark : c.mark.Sound source) :
    Session.Sound source { s with cursor := c } :=
  ⟨hc, hmark, h.marks, h.taken⟩

theorem next (h : s.Sound source) (hp : s.perform .next = some (answer, s')) : s'.Sound source := by
  obtain ⟨rfl, hcursor, hmarks, htaken⟩ := h
  obtain ⟨rfl, rfl⟩ := Prod.mk.inj (Option.some.inj hp)
  refine ⟨Cursor.source_next _, Cursor.sound_next hcursor, hmarks, ?_⟩
  intro t ht
  rcases List.mem_append.mp ht with hnew | hold
  · refine ⟨_, _, Cursor.within_position hcursor, Prod.ext ?_ rfl⟩
    rw [Cursor.next_eq hcursor] at hnew
    dsimp only at hnew ⊢
    cases hresult : (scan (.ofOffset s.cursor.source s.cursor.position)).1 with
    | error f =>
        rw [hresult] at hnew
        cases hnew
    | ok u =>
        rw [hresult] at hnew
        rw [List.mem_singleton.mp hnew]
  · exact htaken t hold

/-- Looking at a token keeps a session sound. -/
theorem peek (h : s.Sound source) : Session.Sound source { s with cursor := s.cursor.peek.2 } := by
  obtain ⟨rfl, hcursor, _, _⟩ := id h
  refine h.move ?_ (Cursor.sound_peek hcursor)
  rw [Cursor.peek_eq hcursor]

/-- A literal is read at the place of its delimiter, which was scanned from the same text. -/
theorem quoted {opening : Token} (h : s.Sound source)
    (hp : s.perform (.quoted opening) = some (answer, s')) : s'.Sound source := by
  rw [perform] at hp
  split at hp
  · next hpermitted =>
      obtain ⟨p, after, hwithin, hscan⟩ := h.taken opening hpermitted.1
      have hplace : Place.ofOffset s.cursor.source opening.pos = p := by
        rw [h.text, pos_of_scan hscan, hwithin.toNat_pos h.cursor.short, hwithin.ofOffset]
      obtain ⟨rfl, rfl⟩ := Prod.mk.inj (Option.some.inj hp)
      unfold Cursor.quoted
      rw [hplace]
      split
      · next t q hread =>
          refine h.move h.text ⟨h.cursor.short, hwithin.readQuoted hread, ?_⟩
          simp [Cursor.mark, hpermitted.2.2]
      · exact h
  · cases hp

/-- Every operation keeps a session sound. -/
theorem perform {step : Step} (h : s.Sound source) (hp : s.perform step = some (answer, s')) :
    s'.Sound source := by
  cases step with
  | next => exact h.next hp
  | peek =>
      obtain ⟨rfl, rfl⟩ := Prod.mk.inj (Option.some.inj hp)
      exact h.peek
  | peekKind =>
      obtain ⟨rfl, rfl⟩ := Prod.mk.inj (Option.some.inj hp)
      exact h.peek
  | save =>
      obtain ⟨rfl, rfl⟩ := Prod.mk.inj (Option.some.inj hp)
      refine ⟨h.text, h.cursor, ?_, h.taken⟩
      intro m hm
      rcases List.mem_append.mp hm with hm | hm
      · exact h.marks m hm
      · rw [List.mem_singleton.mp hm]
        exact h.cursor
  | restore number =>
      obtain ⟨m, hm, heq⟩ := Option.map_eq_some_iff.mp hp
      obtain ⟨rfl, rfl⟩ := Prod.mk.inj heq
      exact h.move h.text (h.marks m (List.mem_of_getElem? hm))
  | look count =>
      rw [Session.perform, Cursor.lookAhead_eq] at hp
      obtain ⟨rfl, rfl⟩ := Prod.mk.inj (Option.some.inj hp)
      exact h
  | quoted opening => exact h.quoted hp

/-- What operations one after the other lead to is sound. -/
theorem run {steps : List Step} {events : List Event} (h : s.Sound source)
    (hrun : s.run steps = some (events, s')) : s'.Sound source := by
  induction steps generalizing s events with
  | nil =>
      cases hrun
      exact h
  | cons step steps ih =>
      obtain ⟨answer, after, rest, hp, hrest, _⟩ := run_cons.mp hrun
      exact ih (h.perform hp) hrest

end Session.Sound

/-! ## Looks make no difference -/

/-- The mark `m'` is at the position of `m`, and may hold the token there although `m` does not. -/
structure Mark.Ahead (m m' : Mark) : Prop where
  position : m'.position = m.position
  held : m'.held = none → m.held = none

theorem Mark.Ahead.refl (m : Mark) : m.Ahead m := ⟨rfl, id⟩

namespace Cursor

variable {c c' : Cursor}

theorem next_congr (h : c.mark.Sound source) (h' : c'.mark.Sound source) (hc : c.source = source)
    (hc' : c'.source = source) (hpos : c'.position = c.position) : c'.next = c.next := by
  subst hc
  rw [next_eq h, next_eq (hc' ▸ h'), hc', hpos]

theorem peek_congr (h : c.mark.Sound source) (h' : c'.mark.Sound source) (hc : c.source = source)
    (hc' : c'.source = source) (hpos : c'.position = c.position) : c'.peek = c.peek := by
  subst hc
  rw [peek_eq h, peek_eq (hc' ▸ h'), hc', hpos]

theorem look_congr (h : c.mark.Sound source) (h' : c'.mark.Sound source) (hc : c.source = source)
    (hc' : c'.source = source) (hpos : c'.position = c.position) (n : Nat) :
    c'.look n = c.look n := by
  cases n with
  | zero => rfl
  | succ n => rw [look, look, next_congr h h' hc hc' hpos]

/-- Two cursors on one text that hold no token are the same if their positions are. -/
theorem eq_of_held (h : c.mark.Sound source) (h' : c'.mark.Sound source) (hc : c.source = source)
    (hc' : c'.source = source) (hpos : c'.position = c.position) (hheld : c.held = none)
    (hheld' : c'.held = none) : c' = c := by
  have hplace := h.ofOffset_position hheld
  have hplace' := h'.ofOffset_position hheld'
  have hsame : c'.place = c.place := by
    rw [show c'.place = c'.mark.place from rfl, ← hplace',
      show c'.mark.position = c.mark.position from hpos, hplace]
    rfl
  cases c
  cases c'
  simp_all

end Cursor

/-- The session `s'` is what `s` is, but for tokens that were only looked at. -/
structure Session.Ahead (s s' : Session) : Prop where
  cursor : s.cursor.mark.Ahead s'.cursor.mark
  length : s.marks.length = s'.marks.length
  marks : ∀ (number : Nat) (m' : Mark), s'.marks[number]? = some m' →
    ∃ m : Mark, s.marks[number]? = some m ∧ m.Ahead m'
  taken : s'.taken = s.taken

namespace Session.Ahead

variable {s s' t' : Session} {answer : Answer}

theorem refl (s : Session) : s.Ahead s :=
  ⟨.refl _, rfl, fun _ m hm => ⟨m, hm, .refl m⟩, rfl⟩

/-- Two sessions stay related when their cursors become related. -/
theorem move {c c' : Cursor} (h : s.Ahead s') (hc : c.mark.Ahead c'.mark) :
    Session.Ahead { s with cursor := c } { s' with cursor := c' } :=
  ⟨hc, h.length, h.marks, h.taken⟩

theorem save (h : s.Ahead s') : Session.Ahead { s with marks := s.marks ++ [s.cursor.mark] }
    { s' with marks := s'.marks ++ [s'.cursor.mark] } where
  cursor := h.cursor
  length := by simp [h.length]
  marks := by
    intro number m' hm
    dsimp only at hm ⊢
    rcases Nat.lt_trichotomy number s'.marks.length with hlt | heq | hgt
    · rw [List.getElem?_append_left hlt] at hm
      rw [List.getElem?_append_left (h.length ▸ hlt)]
      exact h.marks number m' hm
    · rw [heq, List.getElem?_concat_length] at hm
      cases hm
      refine ⟨_, ?_, h.cursor⟩
      rw [heq, ← h.length, List.getElem?_concat_length]
    · rw [List.getElem?_eq_none (by simp; omega)] at hm
      cases hm
  taken := h.taken

/-- What an operation answers does not depend on whether the next token was looked at before. -/
theorem perform {step : Step} (h : s.Ahead s') (hs : s.Sound source) (hs' : s'.Sound source)
    (hp : s'.perform step = some (answer, t')) :
    ∃ t, s.perform step = some (answer, t) ∧ t.Ahead t' := by
  have hpos := h.cursor.position
  have hpeek := Cursor.peek_congr hs.cursor hs'.cursor hs.text hs'.text hpos
  cases step with
  | next =>
      have hnext := Cursor.next_congr hs.cursor hs'.cursor hs.text hs'.text hpos
      obtain ⟨rfl, rfl⟩ := Prod.mk.inj (Option.some.inj hp)
      refine ⟨_, by rw [Session.perform, hnext], ?_⟩
      rw [hnext]
      exact ⟨.refl _, h.length, h.marks, by rw [h.taken]⟩
  | peek =>
      obtain ⟨rfl, rfl⟩ := Prod.mk.inj (Option.some.inj hp)
      refine ⟨_, by rw [Session.perform, hpeek], h.move ?_⟩
      rw [hpeek]
      exact .refl _
  | peekKind =>
      obtain ⟨rfl, rfl⟩ := Prod.mk.inj (Option.some.inj hp)
      refine ⟨_, by rw [Session.perform, hpeek], h.move ?_⟩
      rw [hpeek]
      exact .refl _
  | save =>
      obtain ⟨rfl, rfl⟩ := Prod.mk.inj (Option.some.inj hp)
      exact ⟨_, rfl, h.save⟩
  | restore number =>
      obtain ⟨m', hm', heq⟩ := Option.map_eq_some_iff.mp hp
      obtain ⟨rfl, rfl⟩ := Prod.mk.inj heq
      obtain ⟨m, hm, hahead⟩ := h.marks number m' hm'
      exact ⟨{ s with cursor := s.cursor.restore m }, by rw [Session.perform, hm]; rfl,
        h.move hahead⟩
  | look count =>
      have hlook := Cursor.look_congr hs.cursor hs'.cursor hs.text hs'.text hpos count
      rw [Session.perform, Cursor.lookAhead_eq, hlook] at hp
      obtain ⟨rfl, rfl⟩ := Prod.mk.inj (Option.some.inj hp)
      exact ⟨s, by rw [Session.perform, Cursor.lookAhead_eq], h⟩
  | quoted opening =>
      rw [Session.perform] at hp
      split at hp
      · next hpermitted =>
          -- Neither cursor holds a token here, so they are one and the same.
          have hheld := h.cursor.held hpermitted.2.2
          have hsame := Cursor.eq_of_held hs.cursor hs'.cursor hs.text hs'.text hpos hheld
            hpermitted.2.2
          obtain ⟨rfl, rfl⟩ := Prod.mk.inj (Option.some.inj hp)
          refine ⟨{ s with cursor := (s.cursor.quoted opening).2 }, ?_, h.move (hsame ▸ .refl _)⟩
          rw [Session.perform, if_pos ⟨h.taken ▸ hpermitted.1, hpermitted.2.1, hheld⟩, hsame]
      · cases hp

end Session.Ahead

/-- Whether an event only looked: ahead, whatever was found there, or at a next token that there was. -/
def Event.isLook : Event → Bool
  | ⟨.look _, _⟩ => true
  | ⟨.peek, .token (.ok _)⟩ => true
  | ⟨.peekKind, .kind (.ok _)⟩ => true
  | _ => false

/-- The second list of events is the first one with looks put between them. -/
inductive Interspersed : List Event → List Event → Prop where
  | nil : Interspersed [] []
  | keep {events events' : List Event} (event : Event) :
      Interspersed events events' → Interspersed (event :: events) (event :: events')
  | look {events events' : List Event} {event : Event} :
      event.isLook = true → Interspersed events events' → Interspersed events (event :: events')

namespace Session.Ahead

variable {s s' t' : Session}

/-- A look that found a token leads to a cursor at the same position that holds it. -/
theorem peeked {t : Token} (h : s.Ahead s') (hs' : s'.Sound source) (ht : s'.cursor.peek.1 = .ok t) :
    s.Ahead { s' with cursor := s'.cursor.peek.2 } := by
  have hsound : s'.cursor.mark.Sound s'.cursor.source := hs'.text ▸ hs'.cursor
  have hpos := Cursor.position_peek hsound (Prod.ext ht rfl)
  refine ⟨⟨hpos.trans h.cursor.position, ?_⟩, h.length, h.marks, h.taken⟩
  intro hnone
  rw [Cursor.peek_eq hsound] at ht hnone
  dsimp only at ht
  simp [Cursor.mark, ht, Except.toOption] at hnone

/-- A look leaves a session what it was. -/
theorem look {event : Event} (h : s.Ahead s') (hs' : s'.Sound source) (hlook : event.isLook = true)
    (hp : s'.perform event.step = some (event.answer, t')) : s.Ahead t' := by
  unfold Event.isLook at hlook
  split at hlook
  · rw [Session.perform, Cursor.lookAhead_eq] at hp
    obtain ⟨_, rfl⟩ := Prod.mk.inj (Option.some.inj hp)
    exact h
  · obtain ⟨hanswer, rfl⟩ := Prod.mk.inj (Option.some.inj hp)
    exact h.peeked hs' (Answer.token.inj hanswer)
  · next kind =>
      obtain ⟨hanswer, rfl⟩ := Prod.mk.inj (Option.some.inj hp)
      have hkind := Answer.kind.inj hanswer
      cases hresult : s'.cursor.peek.1 with
      | error f =>
          rw [hresult] at hkind
          cases hkind
      | ok t => exact h.peeked hs' hresult
  · cases hlook

/-- Taking looks out of a run leaves a run, with the same answers to all other operations. -/
theorem run {events events' : List Event} (hevents : Interspersed events events') (h : s.Ahead s')
    (hs : s.Sound source) (hs' : s'.Sound source)
    (hrun : s'.run (events'.map Event.step) = some (events', t')) :
    ∃ t, s.run (events.map Event.step) = some (events, t) ∧ t.Ahead t' := by
  induction hevents generalizing s s' with
  | nil =>
      obtain ⟨_, rfl⟩ := Prod.mk.inj (Option.some.inj hrun)
      exact ⟨s, rfl, h⟩
  | keep event _ ih =>
      obtain ⟨step, answer⟩ := event
      obtain ⟨answer, after, rest, hp, hrest, heq⟩ := run_cons.mp hrun
      cases heq
      obtain ⟨t, ht, hahead⟩ := h.perform hs hs' hp
      obtain ⟨u, hu, hlast⟩ := ih hahead (hs.perform ht) (hs'.perform hp) hrest
      exact ⟨u, run_cons.mpr ⟨_, t, _, ht, hu, rfl⟩, hlast⟩
  | @look _ _ event hlook _ ih =>
      obtain ⟨step, answer⟩ := event
      obtain ⟨answer, after, rest, hp, hrest, heq⟩ := run_cons.mp hrun
      cases heq
      exact ih (h.look hs' hlook hp) hs (hs'.perform hp) hrest

end Session.Ahead

/-! ## Every session -/

/-- A run gives one event for each of its operations. -/
theorem Session.map_step_of_run {s last : Session} {steps : List Step} {events : List Event}
    (h : s.run steps = some (events, last)) : events.map Event.step = steps := by
  induction steps generalizing s events with
  | nil =>
      obtain ⟨rfl, rfl⟩ := Prod.mk.inj (Option.some.inj h)
      rfl
  | cons step steps ih =>
      obtain ⟨answer, after, rest, _, hrest, rfl⟩ := run_cons.mp h
      rw [List.map_cons, ih hrest]

/-- Looking ahead can be put anywhere into a run. -/
theorem Session.run_look {s last : Session} {before after : List Event} (n : Nat)
    (h : s.run ((before ++ after).map Event.step) = some (before ++ after, last)) :
    ∃ results, s.run (before.map Event.step ++ .look n :: after.map Event.step) =
      some (before ++ ⟨.look n, .tokens results⟩ :: after, last) := by
  induction before generalizing s with
  | nil =>
      refine ⟨s.cursor.look n, run_cons.mpr ⟨_, s, after, ?_, h, rfl⟩⟩
      rw [perform, Cursor.lookAhead_eq]
  | cons event before ih =>
      obtain ⟨step, answer⟩ := event
      obtain ⟨answer, t, rest, hp, hrest, heq⟩ := run_cons.mp h
      cases heq
      obtain ⟨results, hrun⟩ := ih hrest
      exact ⟨results, run_cons.mpr ⟨_, t, _, hp, hrun, rfl⟩⟩

/-- What is true of the session on a text that some events have led to. -/
structure Session.Orderly (source : String) (trimmed : Bool) (events : List Event) (s : Session) :
    Prop where
  /-- The cursor is between two characters of the text, or at one of its ends. -/
  place : s.cursor.place.Within source.toList
  /-- A token held is the text from its position up to the place of the cursor. -/
  spans : ∀ t, s.cursor.held = some t →
    Spans source.toList t.pos.toNat s.cursor.place.offset (t.text ++ t.trailing).toList
  /-- A token held is what scanning at its position gives. -/
  scanned : ∀ t, s.cursor.held = some t →
    scan (.ofOffset source.toList t.pos.toNat) = (.ok t, s.cursor.place)
  /-- To take the next token is to scan at the position of the cursor. -/
  next : s.cursor.next.1 = (scan (.ofOffset source.toList s.cursor.position)).1
  /-- To look at the next token is to scan at the position of the cursor. -/
  peek : s.cursor.peek.1 = (scan (.ofOffset source.toList s.cursor.position)).1
  /-- Looking at a token leaves the cursor before it. -/
  position_peek : ∀ t c, s.cursor.peek = (.ok t, c) → c.position = s.cursor.position
  /-- Looking ahead leaves the cursor where it was, whatever is found there. -/
  position_look : ∀ n, (s.cursor.lookAhead n).2.position = s.cursor.position
  /-- Without some of its looks, the session would have given the same answers to everything else, and
      would have come to the same position. -/
  without : ∀ fewer, Interspersed fewer events → ∃ t : Session,
    (Session.start source trimmed).run (fewer.map Event.step) = some (fewer, t) ∧
      t.cursor.position = s.cursor.position
  /-- Had it looked ahead once more, at any time, the session would have given the same answers to
      everything else, and would have come to the same state. -/
  more : ∀ before after n, events = before ++ after → ∃ results,
    (Session.start source trimmed).run (before.map Event.step ++ .look n :: after.map Event.step) =
      some (before ++ ⟨.look n, .tokens results⟩ :: after, s)

/-- A cursor is one under any order of operations: wherever a session on a text shorter than 4 GiB has come
    to, with faults on the way or without, it answers by its position, and looks make no difference. -/
theorem orderly_of_run {source : String} {trimmed : Bool} {steps : List Step} {events : List Event}
    {s : Session} (hshort : source.utf8ByteSize < UInt32.size)
    (h : (Session.start source trimmed).run steps = some (events, s)) :
    s.Orderly source trimmed events := by
  rw [← byteLength_toList] at hshort
  have hstart := Session.Sound.start hshort trimmed
  have hsound := hstart.run h
  have hmark : s.cursor.mark.Sound s.cursor.source := hsound.text ▸ hsound.cursor
  rw [← Session.map_step_of_run h] at h
  constructor
  · exact hsound.cursor.place
  · intro t ht
    exact hsound.cursor.spans ht
  · intro t ht
    have hpos : s.cursor.mark.position = t.pos.toNat := by rw [Mark.position, Cursor.mark, ht]; rfl
    rw [← hpos]
    exact hsound.cursor.scan_position ht
  · rw [Cursor.next_eq hmark, hsound.text]
  · rw [Cursor.peek_eq hmark, hsound.text]
  · intro t c hpeek
    exact Cursor.position_peek hmark hpeek
  · intro n
    rw [Cursor.lookAhead_eq]
  · intro fewer hfewer
    obtain ⟨t, hrun, hahead⟩ := Session.Ahead.run hfewer (.refl _) hstart hstart h
    exact ⟨t, hrun, hahead.cursor.position.symm⟩
  · rintro before after n rfl
    exact Session.run_look n h

/-- A text with a refused word, and with a literal that holds the opening of a comment. -/
def wanderingSource : String := "this 'a /* b' é\n(x) this y"

/-- Operations that meet the refused word twice, once by looking, and that go back behind the literal after
    it was read. -/
def wanderingSteps : List Step :=
  [.peek, .peek, .save, .look 4, .next, .quoted ⟨.punct .singleQuote, "'", 5, ""⟩, .next, .next, .next,
    .next, .next, .peekKind, .restore 0, .next, .peek]

theorem orderly_of_run_wanderingSource :
    ∃ events s, wanderingSource.utf8ByteSize < UInt32.size ∧
      (Session.start wanderingSource false).run wanderingSteps = some (events, s) ∧
      s.cursor.held.map Token.text = some "a" ∧ s.cursor.position = 6 ∧ s.cursor.place.offset = 8 ∧
      s.Orderly wanderingSource false events := by
  have hrun : ((Session.start wanderingSource false).run wanderingSteps).map (fun r =>
      (r.2.cursor.held.map Token.text, r.2.cursor.position, r.2.cursor.place.offset)) =
        some (some "a", 6, 8) := by
    decide +kernel
  obtain ⟨⟨events, s⟩, hevents, hvalues⟩ := Option.map_eq_some_iff.mp hrun
  obtain ⟨hheld, hplaces⟩ := Prod.mk.inj hvalues
  obtain ⟨hposition, hoffset⟩ := Prod.mk.inj hplaces
  have hshort : wanderingSource.utf8ByteSize < UInt32.size := by decide
  exact ⟨events, s, hshort, hevents, hheld, hposition, hoffset, orderly_of_run hshort hevents⟩

end Respell
