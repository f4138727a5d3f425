import Respell.Diagnostic.Basic
import Respell.Token.Kind

/-!
# Tokens

A token holds its own text and the blanks and comments that follow it, so that the tokens of a text,
written one after the other, give the text back.
-/

namespace Respell

open Text

/-- A token of a source text. -/
structure Token where
  kind : Kind
  /-- The characters of the token itself. -/
  text : String
  /-- The position of its first character. -/
  pos : TextPos
  /-- The blanks and comments between this token and the next one. -/
  trailing : String
deriving DecidableEq, Repr

namespace Token

/-- The stretch of the source that the token itself takes, without its trivia. -/
def span (t : Token) : Span := ⟨t.pos, t.text.utf8ByteSize⟩

/-- The token as messages quote it: its text, or the name of its kind if it has none. -/
def quotation (t : Token) : String := if t.text.isEmpty then t.kind.describe else t.text

/-- The source text of the token, with the trivia that follows it. -/
def source (t : Token) : String := t.text ++ t.trailing

/-- A fault located at this token. -/
def fault (t : Token) (message : Message) (args : List String) : Fault := ⟨message, args, t.span⟩

end Token

end Respell
