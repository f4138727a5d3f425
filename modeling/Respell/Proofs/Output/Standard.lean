import Respell.Proofs.Output.Desugar
import Respell.Proofs.Parse.Formed
import Respell.Proofs.Text.Runs
import Respell.Proofs.Token.Spelling

/-!
# Standard tokens

The tokens that only the dialect has, by kind and by text. What the scanner gives is none of them unless
its kind says so, and neither is what desugaring adds.
-/

namespace Respell

open Text

/-- The kinds of tokens that the output has not: `@`, `...`, `->`, `::`, the comparisons that are
    not strict, and the words of pragmas. -/
def dialectKinds : List Kind :=
  [.punct .atSign, .punct .ellipsis, .punct .arrow, .punct .doubleColon, .punct .equal,
    .punct .unequal, .includePragma, .declarePragma]

/-- Neither the kind nor the text of the token is one of the dialect's own. -/
def Token.Standard (t : Token) : Prop :=
  t.kind ∉ dialectKinds ∧ t.text ∉ dialectKinds.map Kind.describe

instance (t : Token) : Decidable t.Standard :=
  inferInstanceAs (Decidable (t.kind ∉ dialectKinds ∧ t.text ∉ dialectKinds.map Kind.describe))

/-- The characters that the dialect's own tokens begin with. -/
def dialectStarts : List Char := ['@', '.', '-', ':', '=', '!', '#']

theorem standard_of_head {t : Token} {c : Char} {cs : List Char} (hk : t.kind ∉ dialectKinds)
    (ht : t.text.toList = c :: cs) (hc : c ∉ dialectStarts) : t.Standard := by
  refine ⟨hk, ?_⟩
  have hstarts : ∀ s ∈ dialectKinds.map Kind.describe, s.toList.head?.any dialectStarts.contains = true := by
    decide
  intro hmem
  have hstart := hstarts _ hmem
  rw [ht] at hstart
  exact hc (List.contains_iff_mem.mp hstart)

/-- What the scanner gives is standard, unless its kind is one of the dialect's own. -/
theorem Token.Scanned.standard {t : Token} {k : Kind} (h : t.Scanned k) (hk : k ∉ dialectKinds) :
    t.Standard := by
  have hkind : t.kind ∉ dialectKinds := by rwa [h.kind]
  obtain ⟨cs, n, hlex, htext⟩ := h.lexemeAt
  cases hlex with
  | endOfFile =>
      refine ⟨hkind, ?_⟩
      rw [show t.text = "" from String.toList_inj.mp htext]
      decide
  | @number c cs hc =>
      obtain ⟨m, hm⟩ : ∃ m, Lexeme.number (c :: cs) = m + 1 :=
        Nat.exists_eq_add_one.mpr (LexemeAt.number_pos hc)
      rw [hm, List.take_succ_cons] at htext
      exact standard_of_head hkind htext (notMem_of_class hc (by decide))
  | @mark cs m _ =>
      refine ⟨hkind, ?_⟩
      rw [h.text_punct]
      revert hk
      cases m <;> decide
  | @word cs w _ =>
      refine ⟨hkind, ?_⟩
      rw [h.text_word]
      cases w <;> decide
  | @identifier c cs hc =>
      rw [Nat.add_comm, List.take_succ_cons] at htext
      exact standard_of_head hkind htext (notMem_of_class hc (by decide))
  | includePragma _ => exact (hk (by decide)).elim
  | declarePragma _ => exact (hk (by decide)).elim

theorem Token.Quoted.standard {t : Token} (h : t.Quoted) : t.Standard := by
  obtain ⟨c, cs, htext, hc, hkind⟩ := h.head
  have hstart : dialectStarts.contains c = false := eq_false_of_mem hc (by decide)
  refine standard_of_head ?_ htext (by simpa using hstart)
  rw [hkind, Quoted.kind]
  split <;> decide

theorem standard_toString (index : Nat) : (generated .number (toString index)).Standard := by
  cases htext : (toString index).toList with
  | nil =>
      rw [String.toList_eq_nil_iff.mp htext]
      decide
  | cons c cs =>
      have hkind : Kind.number ∉ dialectKinds := by decide
      refine standard_of_head hkind htext ?_
      have hdigit : c.isDigit = true := by
        have hmem : c ∈ (toString index).toList := htext ▸ List.mem_cons_self
        exact Nat.isDigit_of_mem_toDigits (b := 10) (by decide) (by decide) (by simpa using hmem)
      exact notMem_of_class hdigit (by decide)

/-- A class of kinds that none of the dialect's own belongs to. -/
theorem notMem_dialectKinds {f : Kind → Bool} {k : Kind} (hf : ∀ k ∈ dialectKinds, f k = false)
    (hk : f k = true) : k ∉ dialectKinds := by
  intro hmem
  rw [hf k hmem] at hk
  cases hk

theorem Token.IsKey.standard {t : Token} (h : t.IsKey) : t.Standard := by
  rcases h with h | ⟨h, _⟩
  · exact h.standard (by decide)
  · exact h.standard

end Respell
