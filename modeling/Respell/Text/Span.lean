/-!
# Spans and line numbers

A `Span` is a stretch of a text given by byte offsets. Offsets are kept as positions of 32 bits. In a text
shorter than 4 GiB that is all of them; further on, an offset is kept by its last 32 bits alone.

Lines are counted by line feeds alone, and their numbers have 32 bits as well.
-/

namespace Respell.Text

/-- A byte offset as it is kept. -/
abbrev TextPos := UInt32

/-- An offset is kept. -/
instance : Coe Nat TextPos := ⟨UInt32.ofNat⟩

/-- A position is used as an offset. -/
instance : Coe TextPos Nat := ⟨UInt32.toNat⟩

/-- A stretch of a text: its first byte offset and its length in bytes. -/
structure Span where
  start : TextPos
  length : TextPos
deriving DecidableEq, Repr

namespace Span

/-- The byte offset right after the span. -/
def stop (s : Span) : TextPos := s.start + s.length

/-- The span as `start..stop`. -/
def dotted (s : Span) : String := s!"{s.start}..{s.stop}"

/-- The span as the half-open interval `[start, stop)`. -/
def halfOpen (s : Span) : String := s!"[{s.start}, {s.stop})"

end Span

/-- The number of line feeds that begin before the byte offset. -/
def lineFeedsBefore : List Char → Nat → Nat
  | [], _ => 0
  | _ :: _, 0 => 0
  | c :: cs, n + 1 => (if c = '\n' then 1 else 0) + lineFeedsBefore cs (n + 1 - c.utf8Size)

/-- The line of a position, counted from one. A position past the end is on the last line. -/
def lineNumber (text : String) (pos : TextPos) : UInt32 :=
  .ofNat (lineFeedsBefore text.toList pos) + 1

end Respell.Text
