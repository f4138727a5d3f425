import Respell.Storage.Basic

/-!
# Disks

A storage that is a plain value: a finite map from locations to bytes, with the directories that exist
and the one that relative paths start from. A location is the list of names from the root; a path is
resolved to it part by part, through directories that exist.
-/

namespace Respell

/-- The names that lead to a file or a directory from the root. -/
abbrev Location := List String

/-- Files and directories. -/
structure Disk where
  /-- Where relative paths start. -/
  current : Location
  /-- The directories apart from the root. -/
  dirs : List Location
  files : List (Location × ByteArray)

namespace Disk

/-- A disk with no file, on which only the current directory and those above it exist. -/
def fresh (current : Location) : Disk :=
  ⟨current, (List.range (current.length + 1)).map current.take, []⟩

/-- Whether a location is a directory. -/
def isDir (d : Disk) (l : Location) : Bool := l.isEmpty || d.dirs.contains l

/-- The bytes of the file at a location. -/
def bytes? (d : Disk) (l : Location) : Option ByteArray := d.files.lookup l

/-- Gives the file at a location these bytes. -/
def put (d : Disk) (l : Location) (bytes : ByteArray) : Disk :=
  { d with files := (l, bytes) :: d.files.filter (·.1 != l) }

/-- A file holds the bytes that it was given last. -/
@[simp] theorem bytes?_put_self (d : Disk) (l : Location) (bytes : ByteArray) :
    (d.put l bytes).bytes? l = some bytes := by
  simp [bytes?, put]

/-- Giving a file bytes leaves every other file as it is. -/
theorem bytes?_put_of_ne (d : Disk) {l k : Location} (bytes : ByteArray) (h : k ≠ l) :
    (d.put l bytes).bytes? k = d.bytes? k := by
  have hk : (k == l) = false := by simpa using h
  simp only [bytes?, put, List.lookup_cons, hk]
  induction d.files with
  | nil => rfl
  | cons f fs ih =>
    obtain ⟨n, b⟩ := f
    by_cases hn : n = l
    · subst hn
      simp only [List.filter_cons, bne_self_eq_false, Bool.false_eq_true, ↓reduceIte, List.lookup_cons, hk]
      exact ih
    · have hb : (n != l) = true := by simpa using hn
      simp only [List.filter_cons, hb, ↓reduceIte, List.lookup_cons]
      split
      · rfl
      · exact ih

/-! ## Resolving paths -/

/-- The largest number of bytes in a name. -/
def maxNameBytes : Nat := 255

/-- The number of bytes that a path has to stay below. -/
def maxPathBytes : Nat := 4096

/-- Goes one part further from a location, which must be a directory. -/
def step (d : Disk) (l : Location) (part : String) : Except StorageError Location :=
  if !d.isDir l then .error .notDirectory
  else if part = "" ∨ part = "." then .ok l
  else if part = ".." then .ok l.dropLast
  else if maxNameBytes < part.utf8ByteSize then .error .nameTooLong
  else
    let inner := l ++ [part]
    if d.isDir inner || (d.bytes? inner).isSome then .ok inner else .error .notFound

/-- The parts of a path, in order. -/
def partsOf (p : Path) : List String := (Path.splitSlash p.chars).map String.ofList

/-- Where the parts of a path start. -/
def startOf (d : Disk) (p : Path) : Location := if p.isAbsolute then [] else d.current

/-- Refuses paths that name nothing whatever the disk holds. -/
def checkPath (p : Path) : Except StorageError Unit :=
  if p.chars.contains '\x00' then .error .badName
  else if p.text = "" then .error .notFound
  else if maxPathBytes ≤ p.text.utf8ByteSize then .error .nameTooLong
  else .ok ()

/-- The location of the file or directory that a path names. -/
def resolve (d : Disk) (p : Path) : Except StorageError Location := do
  checkPath p
  (partsOf p).foldlM d.step (d.startOf p)

/-- The location that a path would name if something were made there. -/
def resolveNew (d : Disk) (p : Path) : Except StorageError Location := do
  checkPath p
  let l ← (partsOf p).dropLast.foldlM d.step (d.startOf p)
  if d.isDir l then return l ++ (partsOf p).getLast?.toList else .error .notDirectory

/-! ## Operations -/

/-- The text of the file that a path names. -/
def read (d : Disk) (p : Path) : Except StorageError String := do
  let l ← d.resolve p
  match d.bytes? l with
  | none => .error .isDirectory
  | some bytes =>
    match String.fromUTF8? bytes with
    | some text => .ok text
    | none => .error .notText

/-- Gives the file that a path names these bytes, and makes it if it does not exist. -/
def write (d : Disk) (p : Path) (bytes : ByteArray) : Except StorageError Disk :=
  match d.resolve p with
  | .ok l => if d.isDir l then .error .isDirectory else .ok (d.put l bytes)
  | .error .notFound => (d.resolveNew p).map fun l => d.put l bytes
  | .error e => .error e

/-- Makes the directory that a path names. -/
def makeDir (d : Disk) (p : Path) : Except StorageError Disk :=
  match d.resolve p with
  | .ok _ => .error .alreadyExists
  | .error .notFound => (d.resolveNew p).map fun l => { d with dirs := l :: d.dirs }
  | .error e => .error e

/-- Whether a path names a directory. -/
def namesDir (d : Disk) (p : Path) : Bool :=
  match d.resolve p with
  | .ok l => d.isDir l
  | .error _ => false

/-- Makes a directory unless it exists; `absent` is the result when the one it is in is missing. -/
def ensureDir (d : Disk) (p : Path) (absent : Disk × Except StorageError Unit) :
    Disk × Except StorageError Unit :=
  match d.makeDir p with
  | .ok made => (made, .ok ())
  | .error .notFound => absent
  | .error e => (d, if d.namesDir p then .ok () else .error e)

/-- Makes the directory that a path names and those it is in, going up at most `depth` of them. -/
def makeDirsWithin : Nat → Disk → Path → Disk × Except StorageError Unit
  | 0, d, _ => (d, .ok ())
  | depth + 1, d, p =>
    if p.text = "" then (d, .ok ())
    else
      d.ensureDir p <|
        match p.parent? with
        | none => (d, .error (.other "failed to create whole tree"))
        | some outer =>
          match makeDirsWithin depth d outer with
          | (above, .ok ()) => above.ensureDir p (above, .error .notFound)
          | failed => failed

/-- Makes the directory that a path names and those it is in, as far as they are missing. -/
def makeDirs (d : Disk) (p : Path) : Disk × Except StorageError Unit :=
  makeDirsWithin (p.parts.length + 2) d p

/-- The names that lead from one location to another below it. -/
def below? : Location → Location → Option (List String)
  | [], l => some l
  | _ :: _, [] => none
  | n :: ns, k :: ks => if n = k then below? ns ks else none

/-- The order in which files are found: by their first name, then by what it leads to. -/
def foundBefore : List String → List String → Bool
  | [], _ => true
  | _ :: _, [] => false
  | n :: ns, k :: ks => n < k || (n == k && foundBefore ns ks)

/-- The files under a location, by the names that lead to them. -/
def filesUnder (d : Disk) (l : Location) : List (List String) :=
  (d.files.filterMap fun f => below? l f.1).mergeSort foundBefore

/-- The files under a path. -/
def walk (d : Disk) (p : Path) : Except Failure (List (List String)) :=
  match d.resolve p with
  | .ok l => .ok (d.filesUnder l)
  | .error e => .error ⟨p, e⟩

end Disk

instance : Storage (StateM Disk) where
  walk p := fun d => (d.walk p, d)
  readText p := fun d => (d.read p, d)
  createDirs p := fun d => ((d.makeDirs p).2, (d.makeDirs p).1)
  writeText p text := fun d =>
    match d.write p text.toUTF8 with
    | .ok written => (.ok (), written)
    | .error e => (.error e, d)

end Respell
