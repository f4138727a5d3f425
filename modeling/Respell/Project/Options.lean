import Respell.Path

/-!
# Options of a project

Where the sources of a project are, where its output goes, and which extensions they have. Options are
written down with any of them left out, and resolved by filling in the defaults.
-/

namespace Respell

/-- Options as they are written; each may be left out. -/
structure Settings where
  rootDir : Option String := none
  outDir : Option String := none
  extension : Option String := none
  outExtension : Option String := none
deriving DecidableEq, Repr

/-- Options with every default filled in. Extensions are kept without a dot in front. -/
structure Options where
  rootDir : Path
  outDir : Path
  extension : List Char
  outExtension : List Char
deriving DecidableEq, Repr

/-- An extension without the dots in front of it. -/
def trimDots (ext : List Char) : List Char := ext.dropWhile (· == '.')

/-- Fills in the default of everything that was left out. -/
def Settings.resolve (s : Settings) : Options where
  rootDir := ⟨s.rootDir.getD "src"⟩
  outDir := ⟨s.outDir.getD "lib"⟩
  extension := trimDots (s.extension.getD "neat").toList
  outExtension := trimDots (s.outExtension.getD "js").toList

namespace Options

/-- The options seen from outside the directory `base`. -/
def relativeTo (o : Options) (base : Path) : Options :=
  { o with rootDir := base.join o.rootDir, outDir := base.join o.outDir }

/-- Whether a path has the extension of a source. -/
def isSource (o : Options) (p : Path) : Bool := p.extension? == some o.extension

/-- The path with the extension of the output in place of its own. There is none if that extension
    holds a slash. -/
def outputPath? (o : Options) (p : Path) : Option Path := p.withExtension? o.outExtension

end Options

end Respell
