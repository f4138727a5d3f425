import Respell.Text.Span

/-!
# Places in a text

A `Place` is a position inside a text, given by the characters that are still to be read and by
the number of bytes before them. Positions that leave the library are byte offsets of the UTF-8
form, so a place keeps both views: the characters to go on with, and the offset to report. What is reported
is `Place.pos`, the offset as it is kept.
-/

namespace Respell.Text

/-- The length in bytes of the UTF-8 form. -/
def byteLength : List Char → Nat
  | [] => 0
  | c :: cs => c.utf8Size + byteLength cs

@[simp] theorem byteLength_nil : byteLength [] = 0 := rfl

@[simp] theorem byteLength_cons (c : Char) (cs : List Char) :
    byteLength (c :: cs) = c.utf8Size + byteLength cs := rfl

@[simp] theorem byteLength_append (xs ys : List Char) :
    byteLength (xs ++ ys) = byteLength xs + byteLength ys := by
  induction xs with
  | nil => simp
  | cons c cs ih => simp [ih, Nat.add_assoc]

/-- The characters from byte offset `n` on. An offset inside a character counts as the end of it. -/
def dropBytes : Nat → List Char → List Char
  | 0, cs => cs
  | _ + 1, [] => []
  | n + 1, c :: cs => dropBytes (n + 1 - c.utf8Size) cs

/-- A position in a text: the characters still to be read, and the bytes before them. -/
structure Place where
  /-- The number of bytes before this place. -/
  offset : Nat
  /-- The characters from this place to the end of the text. -/
  rest : List Char
deriving DecidableEq, Repr

namespace Place

/-- The first place of a text. -/
def start (source : List Char) : Place := ⟨0, source⟩

/-- The place of `source` at a byte offset. -/
def ofOffset (source : List Char) (offset : Nat) : Place := ⟨offset, dropBytes offset source⟩

/-- The position that is kept for the place. -/
def pos (p : Place) : TextPos := p.offset

/-- The text of the next `n` characters. -/
def text (p : Place) (n : Nat) : String := String.ofList (p.rest.take n)

/-- The place `n` characters further on. -/
def advance (p : Place) (n : Nat) : Place :=
  ⟨p.offset + byteLength (p.rest.take n), p.rest.drop n⟩

@[simp] theorem rest_advance (p : Place) (n : Nat) : (p.advance n).rest = p.rest.drop n := rfl

@[simp] theorem offset_advance (p : Place) (n : Nat) :
    (p.advance n).offset = p.offset + byteLength (p.rest.take n) := rfl

@[simp] theorem toList_text (p : Place) (n : Nat) : (p.text n).toList = p.rest.take n := by
  simp [text]

end Place

end Respell.Text
