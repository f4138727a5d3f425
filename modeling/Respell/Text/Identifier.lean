import Respell.Text.Blank
import Respell.Text.IdentifierTable

/-!
# Characters of words and identifiers

A *word* is a run of ASCII letters, digits and underscores; reserved words are recognised on words.
An *identifier* may also hold `$` and characters beyond ASCII, so a word and the identifier at the same
place need not have the same length.

Which characters beyond ASCII belong to identifiers is a parameter, an `IdentifierClass`. All that is said
about lexemes holds for every such class. The one that texts are scanned with is given by the tables of
Unicode.
-/

namespace Respell.Text

/-- ASCII letters, ASCII digits and the underscore. -/
def isWordChar (c : Char) : Bool :=
  c == '_' || c.isAlphanum

/-- The characters beyond ASCII that identifiers are made of. -/
class IdentifierClass where
  /-- May begin an identifier. -/
  start : Char → Bool
  /-- May stand in an identifier after its first character. -/
  part : Char → Bool
  part_of_start {c : Char} : start c = true → part c = true
  part_of_isBlank {c : Char} : isBlank c = true → part c = false

/-- A character that may begin an identifier. -/
def isIdentifierStart [IdentifierClass] (c : Char) : Bool :=
  c == '_' || c == '$' || c.isAlpha || (0x7F < c.toNat && IdentifierClass.start c)

/-- A character that may stand in an identifier after its first one. -/
def isIdentifierPart [IdentifierClass] (c : Char) : Bool :=
  c == '_' || c == '$' || c.isAlphanum || (0x7F < c.toNat && IdentifierClass.part c)

/-- The code points of the blanks, one by one. -/
def blankCodes : List Nat :=
  [0x09, 0x0A, 0x0B, 0x0C, 0x0D, 0x20, 0x85, 0xA0, 0x1680, 0x2000, 0x2001, 0x2002, 0x2003, 0x2004, 0x2005,
    0x2006, 0x2007, 0x2008, 0x2009, 0x200A, 0x2028, 0x2029, 0x202F, 0x205F, 0x3000]

theorem toNat_mem_blankCodes {c : Char} (h : isBlank c = true) : c.toNat ∈ blankCodes := by
  simp only [isBlank, Bool.or_eq_true, Bool.and_eq_true, decide_eq_true_eq, beq_iff_eq] at h
  simp only [blankCodes, List.mem_cons, List.not_mem_nil, or_false]
  omega

/-- The class of the tables: *XID_Start* and *XID_Continue*. -/
instance : IdentifierClass where
  start c := inRuns identifierStartRuns c.toNat
  part c := inRuns identifierStartRuns c.toNat || inRuns identifierExtraRuns c.toNat
  part_of_start h := by simp [h]
  part_of_isBlank {c} h := by
    have hnone : ∀ n ∈ blankCodes, (inRuns identifierStartRuns n || inRuns identifierExtraRuns n) = false := by
      decide +kernel
    exact hnone _ (toNat_mem_blankCodes h)

end Respell.Text
