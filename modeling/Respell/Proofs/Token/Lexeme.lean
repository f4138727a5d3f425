import Respell.Token.Lexeme

/-!
# The lexemes there are

`Lexeme.next?` tries one family of lexemes after the other. `LexemeAt` lists the families side by side, so
that a fact about all lexemes is proved by one case split.
-/

namespace Respell

open Text

/-- The first `n` of the characters are a lexeme of the kind. -/
inductive LexemeAt [IdentifierClass] : List Char → Kind → Nat → Prop where
  | endOfFile : LexemeAt [] .endOfFile 0
  | number {c : Char} {cs : List Char} :
      c.isDigit = true → LexemeAt (c :: cs) .number (Lexeme.number (c :: cs))
  | mark {cs : List Char} {m : Punct} : m.chars <+: cs → LexemeAt cs (.punct m) m.chars.length
  | word {cs : List Char} {w : Word} :
      Word.ofText? (String.ofList (cs.takeWhile isWordChar)) = some w →
      LexemeAt cs (.word w) (cs.takeWhile isWordChar).length
  | identifier {c : Char} {cs : List Char} :
      isIdentifierStart c = true →
      LexemeAt (c :: cs) .identifier (1 + (cs.takeWhile isIdentifierPart).length)
  | includePragma {cs : List Char} :
      Lexeme.includeChars <+: cs → LexemeAt cs .includePragma Lexeme.includeChars.length
  | declarePragma {cs : List Char} :
      Lexeme.declareChars <+: cs → LexemeAt cs .declarePragma Lexeme.declareChars.length

theorem lexemeAt_of_mark? [IdentifierClass] {cs : List Char} {k : Kind} {n : Nat}
    (h : Lexeme.mark? cs = some (k, n)) : LexemeAt cs k n := by
  unfold Lexeme.mark? at h
  obtain ⟨m, hfind, hm⟩ := Option.map_eq_some_iff.mp h
  obtain ⟨rfl, rfl⟩ := Prod.mk.inj hm
  have hprefix : m.chars.isPrefixOf cs = true :=
    List.find?_some (p := fun m : Punct => m.chars.isPrefixOf cs) hfind
  exact .mark (by simpa using hprefix)

theorem lexemeAt_of_word? [IdentifierClass] {cs : List Char} {k : Kind} {n : Nat}
    (h : Lexeme.word? cs = some (k, n)) : LexemeAt cs k n := by
  unfold Lexeme.word? at h
  cases hword : Word.ofText? (String.ofList (cs.takeWhile isWordChar)) with
  | some w =>
      simp only [hword, Option.some.injEq, Prod.mk.injEq] at h
      obtain ⟨rfl, rfl⟩ := h
      exact .word hword
  | none =>
      simp only [hword] at h
      cases cs with
      | nil => simp at h
      | cons c cs =>
          by_cases hc : isIdentifierStart c = true
          · simp only [hc, if_true, Option.some.injEq, Prod.mk.injEq] at h
            obtain ⟨rfl, rfl⟩ := h
            exact .identifier hc
          · simp [hc] at h

theorem prefix_of_isWhole {text cs : List Char} (h : Lexeme.isWhole text cs = true) :
    text <+: cs := by
  unfold Lexeme.isWhole at h
  simpa using (Bool.and_eq_true_iff.mp h).1

theorem lexemeAt_of_pragma? [IdentifierClass] {cs : List Char} {k : Kind} {n : Nat}
    (h : Lexeme.pragma? cs = some (k, n)) : LexemeAt cs k n := by
  unfold Lexeme.pragma? at h
  split at h
  · next hwhole =>
      obtain ⟨rfl, rfl⟩ := Prod.mk.inj (Option.some.inj h)
      exact .includePragma (prefix_of_isWhole hwhole)
  · split at h
    · next hwhole =>
        obtain ⟨rfl, rfl⟩ := Prod.mk.inj (Option.some.inj h)
        exact .declarePragma (prefix_of_isWhole hwhole)
    · simp at h

/-- What is recognised is a lexeme of one of the families. -/
theorem lexemeAt_of_next? [IdentifierClass] {cs : List Char} {k : Kind} {n : Nat}
    (h : Lexeme.next? cs = some (k, n)) : LexemeAt cs k n := by
  cases cs with
  | nil =>
      obtain ⟨rfl, rfl⟩ := Prod.mk.inj (Option.some.inj h)
      exact .endOfFile
  | cons c cs =>
      unfold Lexeme.next? at h
      by_cases hc : c.isDigit = true
      · simp only [hc, if_true, Option.some.injEq, Prod.mk.injEq] at h
        obtain ⟨rfl, rfl⟩ := h
        exact .number hc
      · simp only [hc] at h
        rcases Option.or_eq_some_iff.mp h with hmark | ⟨_, h⟩
        · exact lexemeAt_of_mark? hmark
        · rcases Option.or_eq_some_iff.mp h with hword | ⟨_, hpragma⟩
          · exact lexemeAt_of_word? hword
          · exact lexemeAt_of_pragma? hpragma

namespace LexemeAt

/-- Only where nothing is left does a file end. -/
theorem eq_nil [IdentifierClass] {cs : List Char} {n : Nat} (h : LexemeAt cs .endOfFile n) : cs = [] := by
  cases h
  rfl

/-- Where a mark is recognised, its characters stand. -/
theorem mark_chars [IdentifierClass] {cs : List Char} {m : Punct} {n : Nat} (h : LexemeAt cs (.punct m) n) :
    m.chars <+: cs := by
  cases h with
  | mark h => exact h

/-- No lexeme is a literal. -/
theorem isQuoted [IdentifierClass] {cs : List Char} {k : Kind} {n : Nat} (h : LexemeAt cs k n) :
    k.isQuoted = false := by
  cases h <;> rfl

/-- The digits of a number are at least the one it begins with. -/
theorem number_pos {c : Char} {cs : List Char} (h : c.isDigit = true) :
    0 < Lexeme.number (c :: cs) := by
  have hdigits : 0 < Lexeme.digits (c :: cs) := by simp [Lexeme.digits, h]
  unfold Lexeme.number
  dsimp only
  split
  · split <;> omega
  · exact hdigits

/-- Only the end of a file takes no character. -/
theorem length_pos [IdentifierClass] {cs : List Char} {k : Kind} {n : Nat} (h : LexemeAt cs k n)
    (hk : k ≠ .endOfFile) : 0 < n := by
  cases h with
  | endOfFile => exact absurd rfl hk
  | number hc => exact number_pos hc
  | @mark _ m _ => cases m <;> decide
  | @word cs w hword =>
      -- The empty text is no reserved word.
      cases hrun : cs.takeWhile isWordChar with
      | nil =>
          rw [hrun] at hword
          cases hword
      | cons c run => exact Nat.succ_pos _
  | identifier _ => omega
  | includePragma _ => decide
  | declarePragma _ => decide

theorem number_le (cs : List Char) : Lexeme.number cs ≤ cs.length := by
  have hdigits (ds : List Char) : Lexeme.digits ds ≤ ds.length := (List.takeWhile_sublist _).length_le
  have hwhole := hdigits cs
  unfold Lexeme.number
  dsimp only
  split
  · next fraction hdrop =>
      have hfraction := hdigits fraction
      have hlength := congrArg List.length hdrop
      rw [List.length_drop, List.length_cons] at hlength
      split <;> omega
  · exact hwhole

/-- A lexeme takes no more characters than there are. -/
theorem length_le [IdentifierClass] {cs : List Char} {k : Kind} {n : Nat} (h : LexemeAt cs k n) : n ≤ cs.length := by
  cases h with
  | endOfFile => exact Nat.le_refl 0
  | number _ => exact number_le _
  | mark hm => exact hm.length_le
  | word _ => exact (List.takeWhile_sublist _).length_le
  | identifier _ =>
      rw [List.length_cons, Nat.add_comm]
      exact Nat.add_le_add_right (List.takeWhile_sublist _).length_le 1
  | includePragma hp => exact hp.length_le
  | declarePragma hp => exact hp.length_le

/-! ## Line feeds -/

/-- As many characters as a run has are the run itself. -/
theorem take_run (p : Char → Bool) (cs : List Char) :
    cs.take (cs.takeWhile p).length = cs.takeWhile p :=
  (List.prefix_iff_eq_take.mp ( List.takeWhile_prefix p)).symm

/-- A line feed is in no run of characters of a class that it does not belong to. -/
theorem lineFeed_notMem_run {p : Char → Bool} (hp : p '\n' = false) (cs : List Char) :
    '\n' ∉ cs.takeWhile p := by
  intro hmem
  have hall := List.all_takeWhile (p := p) (l := cs)
  rw [List.all_eq_true] at hall
  rw [hall _ hmem] at hp
  cases hp

/-- A line feed is in no prefix of a text that it is not in. -/
theorem lineFeed_notMem_mark {text cs : List Char} (h : text <+: cs) (ht : '\n' ∉ text) :
    '\n' ∉ cs.take text.length := by
  rwa [← List.prefix_iff_eq_take.mp h]

theorem lineFeed_notMem_number (cs : List Char) : '\n' ∉ cs.take (Lexeme.number cs) := by
  have hrun (ds : List Char) : '\n' ∉ ds.take (Lexeme.digits ds) := by
    rw [Lexeme.digits, take_run]
    exact lineFeed_notMem_run (by decide) ds
  unfold Lexeme.number
  dsimp only
  split
  · next fraction hdrop =>
      split
      -- The characters are the whole part, the dot, and the digits of the fraction.
      · rw [Nat.add_assoc, List.take_add, hdrop, Nat.add_comm 1, List.take_succ_cons]
        simp [hrun]
      · exact hrun cs
  · exact hrun cs

/-- No lexeme holds a line feed. -/
theorem lineFeed_notMem [IdentifierClass] {cs : List Char} {k : Kind} {n : Nat} (h : LexemeAt cs k n) :
    '\n' ∉ cs.take n := by
  cases h with
  | endOfFile => simp
  | number _ => exact lineFeed_notMem_number _
  | mark hm =>
      rename_i m
      exact lineFeed_notMem_mark hm (by cases m <;> decide)
  | word _ =>
      rw [take_run]
      exact lineFeed_notMem_run (by decide) _
  | identifier hc =>
      rw [Nat.add_comm, List.take_succ_cons, take_run, List.mem_cons, not_or]
      refine ⟨?_, lineFeed_notMem_run rfl _⟩
      rintro rfl
      exact absurd hc Bool.false_ne_true
  | includePragma hp => exact lineFeed_notMem_mark hp (by decide)
  | declarePragma hp => exact lineFeed_notMem_mark hp (by decide)

end LexemeAt

end Respell
