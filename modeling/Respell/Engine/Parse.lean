import Respell.Parse.Program
import Respell.Token.Cursor

/-!
# Parsing with a cursor

Texts are compiled with a cursor as their scanner: a token that was looked at is held until it is taken, and a
literal is read from the position that its delimiter has. That position has 32 bits. In a text of 4 GiB or
more a delimiter may have the position of an earlier place, and then the literal is read from there; in a
shorter text a cursor answers as a place does.
-/

namespace Respell

namespace Cursor

/-- What a cursor answers, without the cursor that a fault leaves. -/
def answer : Except Fault Token × Cursor → Except Fault (Token × Cursor)
  | (.ok t, after) => .ok (t, after)
  | (.error f, _) => .error f

/-- The number of characters that have not been taken: those of the token held and those after it. -/
def remaining (c : Cursor) : Nat :=
  (c.held.elim 0 fun t => t.source.toList.length) + c.place.rest.length

end Cursor

instance : Scanner Cursor where
  next c := Cursor.answer c.next
  peek c := Cursor.answer c.peek
  quoted c := do
    let (opening, after) ← Cursor.answer c.next
    -- The cursor is set back to the position of the delimiter.
    Cursor.answer (after.quoted opening)
  remaining := Cursor.remaining

namespace Engine

/-- The cursor at the first token of a text, and the trivia before it. -/
def start (source : List Char) : String × Cursor := (Cursor.start source).preamble

/-- The program with this text, read by a cursor. -/
def parse (source : List Char) : Except Fault Program :=
  (Parser.program maxNesting (start source).1 (start source).2).map Prod.fst

end Engine

end Respell
