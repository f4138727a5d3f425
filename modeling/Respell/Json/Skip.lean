import Respell.Json.Number

/-!
# Passing over JSON values

Values that are not asked for are passed over, but must be well formed. Lists and objects nest as
deeply as they like: the open ones are kept on a stack, so that the text is read once from left to
right.
-/

namespace Respell.Json

/-- A list or an object that has been opened and not yet closed. -/
inductive Frame where
  | list
  | object
deriving DecidableEq, Repr

/-- The bracket that closes a frame. -/
def Frame.closing : Frame → Char
  | .list => ']'
  | .object => '\x7d'

/-- Passes over a simple value, or over the bracket that opens a frame. -/
def skipSimple (cs : List Char) : Except Flaw (Option Frame × List Char) :=
  match skipBlanks cs with
  | [] => .error .truncated
  | c :: rest =>
    let simple (r : Except Flaw (List Char)) := r.map fun after => (none, after)
    if c = 'n' then simple (readWord ['u', 'l', 'l'] rest)
    else if c = 't' then simple (readWord ['r', 'u', 'e'] rest)
    else if c = 'f' then simple (readWord ['a', 'l', 's', 'e'] rest)
    else if c = '-' then simple (skipNumber rest)
    else if isDigit c then simple (skipNumber (c :: rest))
    else if c = '"' then simple (skipString rest)
    else if c = '[' then .ok (some .list, rest)
    else if c = '\x7b' then .ok (some .object, rest)
    else .error .malformed

/-- Passes over the colon between a key and its value. -/
def skipColon (cs : List Char) : Except Flaw (List Char) :=
  match skipBlanks cs with
  | [] => .error .truncated
  | c :: rest => if c = ':' then .ok rest else .error .malformed

/-- Passes over what stands before a value in a frame: nothing in a list, a key in an object. -/
def skipKey (f : Frame) (cs : List Char) : Except Flaw (List Char) :=
  match f with
  | .list => .ok cs
  | .object =>
    match skipBlanks cs with
    | [] => .error .truncated
    | c :: rest =>
      if c = '"' then do
        let after ← skipString rest
        skipColon after
      else .error .malformed

/-- Goes on to the next value inside the innermost open frame, closing frames on the way. The flag
    tells whether a value has just ended, so that a comma may follow. The stack that is left is empty
    when everything has been closed. -/
def settle : Bool → List Frame → List Char → Except Flaw (List Frame × List Char)
  | _, [], cs => .ok ([], cs)
  | ended, f :: fs, cs =>
    match skipBlanks cs with
    | [] => .error .truncated
    | c :: rest =>
      if ended && c == ',' then do
        let after ← skipKey f rest
        return (f :: fs, after)
      else if c = f.closing then settle true fs rest
      else if ended then .error .malformed
      else do
        let after ← skipKey f (c :: rest)
        return (f :: fs, after)

/-- Passes over values until all frames of the stack are closed, at most `rounds` of them. -/
def skipValues : Nat → List Frame → List Char → Except Flaw (List Char)
  | 0, _, _ => .error .truncated
  | rounds + 1, stack, cs => do
    let (opened, after) ← skipSimple cs
    let (open', rest) ← settle opened.isNone (opened.toList ++ stack) after
    if open' = [] then return rest else skipValues rounds open' rest

/-- Passes over one value. Every round reads a character, so the text bounds their number. -/
def skipValue (cs : List Char) : Except Flaw (List Char) := skipValues (cs.length + 1) [] cs

end Respell.Json
