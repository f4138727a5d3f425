import Respell.Parse.Precedence

/-!
# Strengths of operators

When an operator binds at a threshold, in terms of strengths, and what follows for a second threshold or
a second operator. The parser compares strengths in `Precedence.binds` only, so these lemmas are all that
facts about operators rest on.
-/

namespace Respell.Precedence

/-- Every operator binds at the lowest threshold. -/
theorem binds_lowest {k : Kind} {s : Precedence} (h : ofKind? k = some s) :
    s.binds .lowest = true := by
  have hs : s ≠ .lowest := by
    unfold ofKind? at h
    split at h
    case h_16 =>
      split at h
      · cases h
        decide
      · cases h
    all_goals
      cases h
      decide
  revert hs
  cases s <;> decide

/-- No operator binds in the operand of a unary operator. -/
theorem binds_unary (s : Precedence) : s.binds .unary = false := by
  cases s <;> decide

theorem binds_eq_false_of_left {s p : Precedence} (hs : s.isRightAssociative = false) :
    s.binds p = false ↔ s.strength ≤ p.strength := by
  simp [binds, hs]

theorem binds_eq_false_of_right {s p : Precedence} (hs : s.isRightAssociative = true) :
    s.binds p = false ↔ s.strength < p.strength := by
  simp [binds, hs]

/-- At the strength of an operator that groups to the left only stronger operators bind. -/
theorem strength_lt_of_binds {s p : Precedence} (hp : p.isRightAssociative = false)
    (hlowest : p ≠ .lowest) (h : s.binds p = true) : p.strength < s.strength := by
  revert hp hlowest h
  cases p <;> cases s <;> decide

/-- The question mark is the only operator of its strength. -/
theorem eq_question_of_ofKind? {k : Kind} (h : ofKind? k = some .conditional) :
    k = .punct .question := by
  unfold ofKind? at h
  split at h
  case h_15 => rfl
  case h_16 => split at h <;> cases h
  all_goals cases h

theorem le_of_binds {s p : Precedence} (h : s.binds p = true) : p.strength ≤ s.strength := by
  unfold binds at h
  split at h
  · simpa using h
  · exact Nat.le_of_lt (by simpa using h)

theorem binds_of_lt {s p : Precedence} (h : p.strength < s.strength) : s.binds p = true := by
  unfold binds
  split
  · simpa using Nat.le_of_lt h
  · simpa using h

/-- What does not bind at a threshold does not bind at a higher one. -/
theorem not_binds_of_le {o s p : Precedence} (hle : s.strength ≤ p.strength)
    (h : o.binds s = false) : o.binds p = false := by
  cases ho : o.isRightAssociative with
  | true =>
      rw [binds_eq_false_of_right ho] at h ⊢
      omega
  | false =>
      rw [binds_eq_false_of_left ho] at h ⊢
      omega

/-- Between a threshold and an operand that an operator does not bind more strongly than, the operand's
    own operator binds too. -/
theorem binds_trans {o s p : Precedence} (h : o.binds p = true) (h' : o.binds s = false) :
    s.binds p = true := by
  refine binds_of_lt ?_
  cases ho : o.isRightAssociative with
  | true =>
      have hlt := (binds_eq_false_of_right ho).mp h'
      have hle := le_of_binds h
      omega
  | false =>
      have hle := (binds_eq_false_of_left ho).mp h'
      have hlt : p.strength < o.strength := by simpa [binds, ho] using h
      omega

theorem le_unary (p : Precedence) : p.strength ≤ Precedence.unary.strength := by
  cases p <;> decide

/-- Every operator binds in the right operand of an assignment. -/
theorem binds_assignment {k : Kind} {s : Precedence} (h : ofKind? k = some s) :
    s.binds .assignment = true := by
  have hlowest := binds_lowest h
  revert hlowest
  cases s <;> decide

end Respell.Precedence
