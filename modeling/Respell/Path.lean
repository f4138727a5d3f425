/-!
# Paths

Paths of files and directories, as text whose names are divided by slashes. A part that is empty or a
single dot names nothing new, so it is passed over wherever a name is asked for; only a dot that opens
a relative path counts as a part of its own.
-/

namespace Respell

/-- A path, as it is written. -/
structure Path where
  text : String
deriving DecidableEq, Repr

namespace Path

/-- The characters of a path. -/
def chars (p : Path) : List Char := p.text.toList

/-- The path written with these characters. -/
def ofChars (cs : List Char) : Path := ⟨String.ofList cs⟩

/-- The path of nothing at all. -/
def empty : Path := ⟨""⟩

/-- Whether a path starts at the root. -/
def isAbsolute (p : Path) : Bool := p.chars.head? == some '/'

/-- The path `p` seen from the directory `base`. An absolute path stays as it is. -/
def join (base p : Path) : Path :=
  if p.isAbsolute then p
  else if base.chars.getLast?.all (· == '/') then ofChars (base.chars ++ p.chars)
  else ofChars (base.chars ++ '/' :: p.chars)

/-! ## How a path divides -/

/-- The pieces of a text between its slashes. -/
def splitSlash : List Char → List (List Char)
  | [] => [[]]
  | c :: cs =>
    if c = '/' then [] :: splitSlash cs
    else match splitSlash cs with
      | [] => [[c]]
      | w :: ws => (c :: w) :: ws

/-- Pieces with a slash between any two. -/
def joinSlash (ws : List (List Char)) : List Char := ['/'].intercalate ws

/-- What stands before the parts of a path: the slash of the root, or the dot that opens a relative
    path, or nothing. -/
def lead : List Char → List Char
  | '/' :: _ => ['/']
  | ['.'] => ['.']
  | '.' :: '/' :: _ => ['.']
  | _ => []

/-- Whether a part names nothing new. -/
def isIdle (w : List Char) : Bool := w == [] || w == ['.']

/-- Parts without the idle ones at their end. -/
def trimIdle (ws : List (List Char)) : List (List Char) := (ws.reverse.dropWhile isIdle).reverse

/-- The parts of a path after its lead, up to the last one that names something. -/
def parts (p : Path) : List (List Char) := trimIdle (splitSlash (p.chars.drop (lead p.chars).length))

/-- The path with a given lead and parts. -/
def ofParts (lead : List Char) (ws : List (List Char)) : Path := ofChars (lead ++ joinSlash ws)

/-! ## Names -/

/-- The last name of a path. A path that ends in two dots has none. -/
def fileName? (p : Path) : Option (List Char) := p.parts.getLast?.filter (· != ['.', '.'])

/-- The directory that holds what a path names. The root and the empty path have none. -/
def parent? (p : Path) : Option Path :=
  match p.parts with
  | [] => if lead p.chars = ['.'] then some empty else none
  | w :: ws => some (ofParts (lead p.chars) (trimIdle (w :: ws).dropLast))

/-- A name at its last dot: what stands before the dot, and the extension after it. A name whose only
    dot opens it has no extension. -/
def splitName (name : List Char) : List Char × Option (List Char) :=
  let ext := (name.reverse.takeWhile (· != '.')).reverse
  let stem := name.take (name.length - ext.length - 1)
  if stem = [] then (name, none) else (stem, some ext)

/-- The extension of a path's last name. -/
def extension? (p : Path) : Option (List Char) := p.fileName?.bind fun n => (splitName n).2

/-- Replaces the extension of the last name, or adds one. What follows the name is dropped, and an
    empty extension takes the dot with it. A path without a last name stays as it is. -/
def setExtension (p : Path) (ext : List Char) : Path :=
  match p.fileName? with
  | none => p
  | some name =>
    let stem := (splitName name).1
    let renamed := if ext = [] then stem else stem ++ '.' :: ext
    ofParts (lead p.chars) (p.parts.dropLast ++ [renamed])

/-- The path with another extension, if that holds no slash. As many characters as the present
    extension has are first cut from the end of the text, so that slashes after the last name take
    its place there. -/
def withExtension? (p : Path) (ext : List Char) : Option Path :=
  if ext.contains '/' then none
  else match p.extension? with
    | none => some (p.setExtension ext)
    | some old => some ((ofChars (p.chars.take (p.chars.length - old.length))).setExtension ext)

end Path

end Respell
