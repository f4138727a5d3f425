import Respell.Engine.Parse
import Respell.Proofs.Parse.Simulation
import Respell.Proofs.Token.Session

/-!
# A cursor and its place

A cursor that holds a token has gone past it, so its place is not where the next token begins. Where that is
follows from its position (`Cursor.stand`). In a text shorter than 4 GiB a cursor answers every request as
the place where it stands does, and stands afterwards where that place leads (`Cursor.Follows`). So parsers
cannot tell them apart, and the engine reads the same programs as the parsers of places.
-/

namespace Respell

open Text Parser

namespace Cursor

/-- The place where the next token begins. -/
def stand (c : Cursor) : Place := .ofOffset c.source c.position

/-- The cursor stands at the place, in a text shorter than 4 GiB. -/
structure Follows (c : Cursor) (p : Place) : Prop where
  sound : c.mark.Sound c.source
  stand : c.stand = p

namespace Follows

variable {c : Cursor} {p q : Place} {t : Token} {f : Fault}

theorem within (h : c.Follows p) : p.Within c.source := by
  rw [← h.stand]
  exact within_position h.sound

/-- A cursor that holds no token stands at its own place. -/
theorem of_within {source : List Char} (hp : p.Within source) (hshort : byteLength source < UInt32.size) :
    (⟨source, p, none⟩ : Cursor).Follows p where
  sound := ⟨hshort, hp, by simp [mark]⟩
  stand := hp.ofOffset

theorem next (h : c.Follows p) : c.next = ((scan p).1, ⟨c.source, (scan p).2, none⟩) := by
  rw [next_eq h.sound, ← h.stand]
  rfl

theorem peek (h : c.Follows p) :
    c.peek = ((scan p).1, ⟨c.source, (scan p).2, (scan p).1.toOption⟩) := by
  rw [peek_eq h.sound, ← h.stand]
  rfl

/-- A cursor stands after the token that it has taken. -/
theorem after_next (h : c.Follows p) : (⟨c.source, (scan p).2, none⟩ : Cursor).Follows (scan p).2 :=
  of_within h.within.scan h.sound.short

/-- A cursor stands still while it looks. -/
theorem after_peek (h : c.Follows p) (hscan : scan p = (.ok t, q)) :
    (⟨c.source, q, some t⟩ : Cursor).Follows p := by
  have hpeek : c.peek = (.ok t, ⟨c.source, q, some t⟩) := by
    rw [h.peek, hscan]
    rfl
  have hsound := sound_peek h.sound
  rw [hpeek] at hsound
  refine ⟨hsound, ?_⟩
  rw [Cursor.stand, position_peek h.sound hpeek]
  exact h.stand

/-- The position of a token leads back to where it was scanned. -/
theorem ofOffset_pos (h : c.Follows p) (hscan : scan p = (.ok t, q)) :
    Place.ofOffset c.source t.pos = p := by
  rw [pos_of_scan hscan, h.within.toNat_pos h.sound.short, h.within.ofOffset]

/-- What a cursor has not taken is what stands from its place on. -/
theorem remaining (h : c.Follows p) : c.remaining = p.rest.length := by
  unfold Cursor.remaining
  cases ht : c.held with
  | none =>
      have hplace : c.stand = c.place := h.sound.ofOffset_position ht
      rw [← h.stand, hplace]
      exact Nat.zero_add _
  | some t =>
      -- The token held is the one that stands where the cursor does.
      have hscan : scan c.stand = (.ok t, c.place) := h.sound.scan_position ht
      have htaken : Taken c.stand t c.place := .scanned (by rw [Parser.next_eq, hscan])
      rw [← h.stand, htaken.rest, List.length_append]
      rfl

end Follows

/-- Cursors answer as the places do that they stand at. -/
instance : Simulation fun _ => Follows where
  succ h := h
  remaining h := h.remaining
  next {_ c p} h := by
    show Alike Follows (answer c.next) (Parser.next p)
    rw [h.next, Parser.next_eq]
    have hafter := h.after_next
    revert hafter
    cases scan p with | mk result q => ?_
    intro hafter
    cases result with
    | error f => exact .fault f
    | ok t => exact .result t hafter
  peek {_ c p} h := by
    show Alike Follows (answer c.peek) (Parser.peek p)
    rw [h.peek, Parser.peek_eq]
    cases hscan : scan p with | mk result q => ?_
    cases result with
    | error f => exact .fault f
    | ok t => exact .result t (h.after_peek hscan)
  quoted {_ c p} h := by
    show Alike Follows (answer c.next >>= fun x => answer (x.2.quoted x.1)) (Parser.quoted p)
    rw [h.next, Parser.quoted_eq]
    cases hscan : scan p with | mk result q => ?_
    cases result with
    | error f => exact .fault f
    | ok t =>
        show Alike Follows (answer (Cursor.quoted t ⟨c.source, q, none⟩)) (readQuoted t p)
        -- This is where the text has to be short: the position of the delimiter leads back to it.
        rw [Cursor.quoted, h.ofOffset_pos hscan]
        cases hread : readQuoted t p with
        | error f => exact .fault f
        | ok outcome =>
            obtain ⟨literal, r⟩ := outcome
            exact .result literal (.of_within (h.within.readQuoted hread) h.sound.short)

end Cursor

namespace Engine

variable {source : List Char}

/-- The engine begins at the first token of the text. -/
theorem follows_start (hshort : byteLength source < UInt32.size) :
    (start source).2.Follows (scanTrivia (.start source)).2 :=
  .of_within ((Place.Within.start source).advance _) hshort

/-- Below 4 GiB, a cursor reads the programs that are read from places. -/
theorem parse_eq (hshort : byteLength source < UInt32.size) : parse source = parseProgram source :=
  ((program_agrees (R := fun _ => Cursor.Follows) maxNesting (start source).1).alike (Nat.le_refl 0)
    (follows_start hshort)).map_fst

end Engine

end Respell
