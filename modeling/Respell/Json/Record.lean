import Respell.Json.Skip

/-!
# Records in JSON text

A record has a fixed list of keys. It is written as an object, in which other keys are passed over and
no key of the record may stand twice, or as a list of the values of all keys in order.

Reading stops at the first flaw. A value of another kind than the one asked for is still looked at
before it is refused, so that a number, word or string that is itself ill formed is told apart from one
that is merely in the wrong place. The inside of a list or an object is not looked at.

Texts and their flaws are those of `serde_json` 1.0 without further features, for records with named fields
that may be missing: keys that are not known are ignored, and the flaw is the one of the first error in the
order of reading. Flaws are told apart only by its three categories.
-/

namespace Respell.Json

/-- The flaw of a simple value of another kind than the one asked for. -/
def refuse (r : Except Flaw (List Char)) : Flaw :=
  match r with
  | .ok _ => .mismatched
  | .error e => e

/-- The flaw of a value of another kind than the one asked for, from its first character. -/
def refusal : List Char → Flaw
  | [] => .malformed
  | c :: cs =>
    if c = 'n' then refuse (readWord ['u', 'l', 'l'] cs)
    else if c = 't' then refuse (readWord ['r', 'u', 'e'] cs)
    else if c = 'f' then refuse (readWord ['a', 'l', 's', 'e'] cs)
    else if c = '-' then refuse (readNumber cs)
    else if isDigit c then refuse (readNumber (c :: cs))
    else if c = '"' then refuse ((readString cs).map (·.2))
    else if c = '[' ∨ c = '\x7b' then .mismatched
    else .malformed

/-- A value that may also be `null`. -/
def optional {α : Type} (value : Reader α) : Reader (Option α) := fun cs =>
  match skipBlanks cs with
  | 'n' :: rest => (readWord ['u', 'l', 'l'] rest).map fun after => (none, after)
  | start => (value start).map fun (v, after) => (some v, after)

/-- A string. -/
def string : Reader String := fun cs =>
  match skipBlanks cs with
  | [] => .error .truncated
  | '"' :: rest => (readString rest).map fun (s, after) => (String.ofList s, after)
  | start => .error (refusal start)

/-! ## Records written as objects -/

/-- What comes next in an object: a key, with the text after its quotation mark, or the end, with the
    text after it. -/
inductive Upcoming where
  | key (start : List Char)
  | done (rest : List Char)

/-- Goes on to the next key of an object. `first` tells that no key has been read yet. -/
def nextKey (first : Bool) (cs : List Char) : Except Flaw Upcoming :=
  match skipBlanks cs with
  | [] => .error .truncated
  | c :: rest =>
    if c = '\x7d' then .ok (.done rest)
    else if first then if c = '"' then .ok (.key rest) else .error .malformed
    else if c = ',' then
      match skipBlanks rest with
      | [] => .error .truncated
      | d :: after => if d = '"' then .ok (.key after) else .error .malformed
    else .error .malformed

/-- Reads one entry from inside its key, after those that have been read. -/
def readEntry {α : Type} (keys : List String) (value : Reader α) (seen : List (String × α))
    (start : List Char) : Except Flaw (List (String × α) × List Char) := do
  let (name, afterKey) ← readString start
  let key := String.ofList name
  if key ∈ keys then
    if (seen.lookup key).isSome then .error .mismatched
    else
      let (v, rest) ← value (← skipColon afterKey)
      return (seen ++ [(key, v)], rest)
  else
    let rest ← skipValue (← skipColon afterKey)
    return (seen, rest)

/-- Reads the entries of an object up to its end, after those that have been read and at most `rounds`
    of them. -/
def readEntries {α : Type} (keys : List String) (value : Reader α) :
    Nat → Bool → List (String × α) → List Char → Except Flaw (List (String × α) × List Char)
  | 0, _, _, _ => .error .truncated
  | rounds + 1, first, seen, cs => do
    match ← nextKey first cs with
    | .done rest => return (seen, rest)
    | .key start =>
      let (seen', rest) ← readEntry keys value seen start
      readEntries keys value rounds false seen' rest

/-! ## Records written as lists -/

/-- Goes on to the next element of a list, of which there must be one. -/
def nextElement (first : Bool) (cs : List Char) : Except Flaw (List Char) :=
  match skipBlanks cs with
  | [] => .error .truncated
  | c :: rest =>
    if c = ']' then .error .mismatched
    else if first then .ok (c :: rest)
    else if c = ',' then
      match skipBlanks rest with
      | [] => .error .truncated
      | d :: after => if d = ']' then .error .malformed else .ok (d :: after)
    else .error .malformed

/-- Reads the end of a list that has all its elements. -/
def closeList (cs : List Char) : Except Flaw (List Char) :=
  match skipBlanks cs with
  | [] => .error .truncated
  | c :: rest => if c = ']' then .ok rest else .error .malformed

/-- Reads one element for each key, and the end of the list. -/
def readElements {α : Type} (value : Reader α) :
    List String → Bool → List Char → Except Flaw (List (String × α) × List Char)
  | [], _, cs => (closeList cs).map fun rest => ([], rest)
  | key :: keys, first, cs => do
    let (v, rest) ← value (← nextElement first cs)
    let (vs, after) ← readElements value keys false rest
    return ((key, v) :: vs, after)

/-! ## Records -/

/-- A record: the values of those of its keys that are written. Every entry has characters of its own,
    so the text bounds their number. -/
def record {α : Type} (keys : List String) (value : Reader α) : Reader (List (String × α)) :=
  fun cs =>
    match skipBlanks cs with
    | [] => .error .truncated
    | c :: rest =>
      if c = '\x7b' then readEntries keys value (rest.length + 1) true [] rest
      else if c = '[' then readElements value keys true rest
      else .error (refusal (c :: rest))

/-- The value that makes up a whole text. -/
def whole {α : Type} (value : Reader α) (cs : List Char) : Except Flaw α := do
  let (v, rest) ← value cs
  if skipBlanks rest = [] then return v else .error .malformed

end Respell.Json
