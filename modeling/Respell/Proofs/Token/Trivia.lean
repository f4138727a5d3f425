import Respell.Proofs.Text.Runs
import Respell.Token.Trivia

/-!
# Trivia before other text

How much trivia stands somewhere depends on what follows it: an open comment may be closed by text far
away, and a line comment runs on to the end of its line. Trivia that was found before a token is *closed*:
whatever else is put in the token's place, the trivia before it is skipped in full and the scanner goes on
right after it.
-/

namespace Respell.Trivia

open Text

variable {cs w s : List Char}

/-! ## Pieces -/

theorem length_of_piece (h : piece cs ≠ 0) : length cs = piece cs + length (cs.drop (piece cs)) := by
  rw [length, dif_neg h]

theorem length_eq_zero_iff : length cs = 0 ↔ piece cs = 0 := by
  constructor
  · intro h
    by_cases hpiece : piece cs = 0
    · exact hpiece
    · rw [length_of_piece hpiece] at h
      omega
  · intro h
    rw [length, dif_pos h]

@[simp] theorem length_nil : length [] = 0 := length_eq_zero_iff.mpr rfl

/-- After the trivia at a place there is no more of it. -/
theorem length_drop_length (cs : List Char) : length (cs.drop (length cs)) = 0 := by
  by_cases h : piece cs = 0
  · rw [length_eq_zero_iff.mpr h, List.drop_zero]
    exact length_eq_zero_iff.mpr h
  · have hshorter : (cs.drop (piece cs)).length < cs.length := by
      have hpos : 0 < cs.length := List.length_pos_iff.mpr (ne_nil_of_piece h)
      rw [List.length_drop]
      omega
    have hrest := length_drop_length (cs.drop (piece cs))
    rwa [List.drop_drop, ← length_of_piece h] at hrest
termination_by cs.length

theorem throughClose?_le {k : Nat} (h : throughClose? cs = some k) : k ≤ cs.length := by
  fun_induction throughClose? cs generalizing k with
  | case1 cs =>
      cases h
      exact Nat.le_add_left 2 cs.length
  | case2 c cs _ ih =>
      obtain ⟨j, hj, rfl⟩ := Option.map_eq_some_iff.mp h
      exact Nat.add_le_add_right (ih hj) 1
  | case3 => cases h

theorem piece_le (cs : List Char) : piece cs ≤ cs.length := by
  have hline (ds : List Char) : toLineBreak ds ≤ ds.length := (List.takeWhile_sublist _).length_le
  unfold piece
  split
  · next ds =>
      have hds := hline ds
      simp only [List.length_cons]
      omega
  · next ds =>
      cases hclose : throughClose? ds with
      | none => exact Nat.zero_le _
      | some k => exact Nat.add_le_add_right (throughClose?_le hclose) 2
  · next c ds =>
      have hds := hline ds
      simp only [List.length_cons]
      split <;> omega
  · exact (List.takeWhile_sublist _).length_le

/-- There is no more trivia than there are characters. -/
theorem length_le (cs : List Char) : length cs ≤ cs.length := by
  by_cases h : piece cs = 0
  · rw [length_eq_zero_iff.mpr h]
    exact Nat.zero_le _
  · have hpiece := piece_le cs
    have hpos : 0 < cs.length := List.length_pos_iff.mpr (ne_nil_of_piece h)
    have hrest := length_le (cs.drop (piece cs))
    rw [List.length_drop] at hrest
    rw [length_of_piece h]
    omega
termination_by cs.length
decreasing_by
  rw [List.length_drop]
  omega

/-- Trivia begins with a blank, or with the first character of a comment or of a `#!` line. -/
theorem head_of_piece {c : Char} (h : piece (c :: cs) ≠ 0) : isBlank c = true ∨ c = '/' ∨ c = '#' := by
  unfold piece at h
  split at h
  · next heq => exact .inr (.inl (List.cons.inj heq).1)
  · next heq => exact .inr (.inl (List.cons.inj heq).1)
  · next heq => exact .inr (.inr (List.cons.inj heq).1)
  · cases hc : isBlank c with
    | true => exact .inl rfl
    | false =>
        rw [List.takeWhile_cons_of_neg (by simp [hc])] at h
        exact (h rfl).elim

theorem piece_eq_zero {c : Char} (hblank : isBlank c = false) (hc : c ∉ ['/', '#']) :
    piece (c :: cs) = 0 := by
  cases h : piece (c :: cs) with
  | zero => rfl
  | succ n =>
      rcases head_of_piece (by rw [h]; exact Nat.succ_ne_zero n) with hb | hslash | hhash
      · rw [hblank] at hb
        cases hb
      · exact (hc (by simp [hslash])).elim
      · exact (hc (by simp [hhash])).elim

theorem piece_blank {c : Char} (h : isBlank c = true) :
    piece (c :: cs) = 1 + (cs.takeWhile isBlank).length := by
  unfold piece
  split
  · next heq =>
      rw [(List.cons.inj heq).1] at h
      cases h
  · next heq =>
      rw [(List.cons.inj heq).1] at h
      cases h
  · next heq =>
      rw [(List.cons.inj heq).1] at h
      cases h
  · rw [List.takeWhile_cons_of_pos h, List.length_cons, Nat.add_comm]

/-- A blank is trivia, whatever follows it. -/
theorem length_blank {c : Char} (h : isBlank c = true) (cs : List Char) :
    length (c :: cs) = 1 + length cs := by
  have hpiece : piece (c :: cs) ≠ 0 := by
    rw [piece_blank h]
    omega
  rw [length_of_piece hpiece, piece_blank h, Nat.add_comm 1, List.drop_succ_cons]
  cases cs with
  | nil => simp
  | cons d ds =>
      by_cases hd : isBlank d = true
      -- The blanks after this one are the piece that begins there.
      · have hrest : piece (d :: ds) = ((d :: ds).takeWhile isBlank).length := by
          rw [piece_blank hd, List.takeWhile_cons_of_pos hd, List.length_cons, Nat.add_comm]
        have hne : piece (d :: ds) ≠ 0 := by
          rw [piece_blank hd]
          omega
        rw [length_of_piece hne, hrest]
        omega
      · rw [List.takeWhile_cons_of_neg hd]
        simp

/-! ## Comments -/

theorem two_le_throughClose? {k : Nat} (h : throughClose? cs = some k) : 2 ≤ k := by
  fun_induction throughClose? cs generalizing k with
  | case1 => exact Nat.le_of_eq (Option.some.inj h)
  | case2 c cs _ ih =>
      obtain ⟨j, hj, rfl⟩ := Option.map_eq_some_iff.mp h
      exact Nat.le_succ_of_le (ih hj)
  | case3 => cases h

/-- A comment that is closed within some text is closed there whatever follows the text. -/
theorem throughClose?_append {k : Nat} (h : throughClose? (w ++ s) = some k) (hk : k ≤ w.length)
    (r : List Char) : throughClose? (w ++ r) = some k := by
  induction w generalizing k with
  | nil =>
      have htwo := two_le_throughClose? h
      rw [List.length_nil] at hk
      omega
  | cons c w ih =>
      cases w with
      | nil =>
          have htwo := two_le_throughClose? h
          rw [List.length_singleton] at hk
          omega
      | cons d w =>
          by_cases hclose : c = '*' ∧ d = '/'
          · obtain ⟨rfl, rfl⟩ := hclose
            exact h
          · have hstep (r : List Char) : throughClose? (c :: d :: w ++ r) =
                (throughClose? (d :: w ++ r)).map (· + 1) := by
              rw [List.cons_append, throughClose?]
              rintro ds rfl hd
              exact hclose ⟨rfl, (List.cons.inj hd).1⟩
            rw [hstep] at h ⊢
            obtain ⟨j, hj, rfl⟩ := Option.map_eq_some_iff.mp h
            rw [ih hj (by simpa using hk)]
            rfl

theorem throughClose?_of_notMem (h : '*' ∉ w) (r : List Char) :
    throughClose? (w ++ '*' :: '/' :: r) = some (w.length + 2) := by
  induction w with
  | nil => rfl
  | cons c w ih =>
      rw [List.mem_cons, not_or] at h
      rw [List.cons_append, throughClose?, ih h.2]
      · rfl
      · intro _ hc _
        exact h.1 hc.symm

theorem throughClose?_cons_eq_none {c : Char} : throughClose? (c :: cs) = none ↔
    (c = '*' → cs.head? ≠ some '/') ∧ throughClose? cs = none := by
  constructor
  · intro h
    unfold throughClose? at h
    split at h
    · cases h
    · next hclose heq =>
        obtain ⟨rfl, rfl⟩ := List.cons.inj heq
        refine ⟨?_, Option.map_eq_none_iff.mp h⟩
        rintro rfl hhead
        obtain ⟨ds, rfl⟩ := List.head?_eq_some_iff.mp hhead
        exact hclose ds rfl rfl
    · next heq => cases heq
  · rintro ⟨hhead, hcs⟩
    unfold throughClose?
    split
    · next heq =>
        obtain ⟨rfl, rfl⟩ := List.cons.inj heq
        exact (hhead rfl rfl).elim
    · next heq =>
        obtain ⟨_, rfl⟩ := List.cons.inj heq
        rw [hcs]
        rfl
    · rfl

/-- A text in which nothing closes a comment does not close one in either of its parts. -/
theorem throughClose?_eq_none_of_append (h : throughClose? (w ++ s) = none) :
    throughClose? w = none ∧ throughClose? s = none := by
  induction w with
  | nil => exact ⟨rfl, h⟩
  | cons c w ih =>
      obtain ⟨hhead, hrest⟩ := throughClose?_cons_eq_none.mp h
      obtain ⟨hw, hs⟩ := ih hrest
      refine ⟨throughClose?_cons_eq_none.mpr ⟨fun hc => ?_, hw⟩, hs⟩
      cases w with
      | nil => simp
      | cons d w => exact hhead hc

/-- Nothing closes a comment across a blank. -/
theorem throughClose?_blank {c : Char} (hc : isBlank c = true) (hw : throughClose? w = none)
    (hs : throughClose? s = none) : throughClose? (w ++ c :: s) = none := by
  induction w with
  | nil =>
      refine throughClose?_cons_eq_none.mpr ⟨?_, hs⟩
      rintro rfl
      cases hc
  | cons d w ih =>
      obtain ⟨hhead, hrest⟩ := throughClose?_cons_eq_none.mp hw
      refine throughClose?_cons_eq_none.mpr ⟨fun hd => ?_, ih hrest⟩
      cases w with
      | nil =>
          intro hslash
          cases hslash
          cases hc
      | cons e w => exact hhead hd

theorem throughClose?_blanks (h : ∀ c ∈ w, isBlank c = true) : throughClose? w = none := by
  induction w with
  | nil => rfl
  | cons c w ih =>
      obtain ⟨hc, hw⟩ := List.forall_mem_cons.mp h
      exact throughClose?_blank (w := []) hc rfl (ih hw)

/-! ## Closed trivia -/

/-- Trivia that does not run on into what follows, whatever that is. -/
def Closed (w : List Char) : Prop := ∀ r, length (w ++ r) = w.length + length r

theorem closed_nil : Closed [] := by
  intro r
  rw [List.nil_append, List.length_nil, Nat.zero_add]

theorem closed_blanks (h : ∀ c ∈ w, isBlank c = true) : Closed w := by
  intro r
  induction w with
  | nil => exact closed_nil r
  | cons c w ih =>
      obtain ⟨hc, hw⟩ := List.forall_mem_cons.mp h
      rw [List.cons_append, length_blank hc, ih hw, List.length_cons]
      omega

/-- Nothing is left after blanks. -/
theorem drop_blanks (h : ∀ c ∈ w, isBlank c = true) : w.drop (length w) = [] := by
  have hclosed := closed_blanks h []
  rw [List.append_nil, length_nil] at hclosed
  rw [hclosed]
  exact List.drop_length

/-- A block comment without a star inside is closed. -/
theorem closed_comment (h : '*' ∉ w) : Closed ('/' :: '*' :: (w ++ ['*', '/'])) := by
  intro r
  have hpiece : piece ('/' :: '*' :: (w ++ ['*', '/']) ++ r) = w.length + 2 + 2 := by
    change ((throughClose? (w ++ ['*', '/'] ++ r)).map (· + 2)).getD 0 = _
    rw [List.append_assoc, List.cons_append, List.singleton_append, throughClose?_of_notMem h]
    rfl
  rw [length_of_piece (by rw [hpiece]; omega), hpiece]
  have hlength : w.length + 2 + 2 = ('/' :: '*' :: (w ++ ['*', '/'])).length := by simp
  rw [hlength, List.drop_left]

theorem isBlank_of_isLineBreak {c : Char} (h : isLineBreak c = true) : isBlank c = true := by
  simp only [isLineBreak, Bool.or_eq_true, beq_iff_eq] at h
  rcases h with ((rfl | rfl) | rfl) | rfl <;> decide

/-- A line that ends within some text ends there whatever follows the text, if the text is not followed by a
    line break: that would be trivia. -/
theorem toLineBreak_append (hs : s ≠ []) (hzero : length s = 0) (hle : toLineBreak (w ++ s) ≤ w.length)
    (r : List Char) : toLineBreak (w ++ r) = toLineBreak (w ++ s) := by
  rcases Nat.lt_or_eq_of_le hle with hlt | heq
  · exact congrArg List.length (takeWhile_append_of_lt hlt r)
  · obtain ⟨_, hhead⟩ := takeWhile_eq_of_length heq
    cases s with
    | nil => exact (hs rfl).elim
    | cons c s =>
        have hbreak : isLineBreak c = true := by simpa using hhead c rfl
        rw [length_blank (isBlank_of_isLineBreak hbreak)] at hzero
        omega

/-- A slash begins trivia only with a second slash or with a star. -/
theorem piece_slash (h : piece ('/' :: cs) ≠ 0) :
    2 ≤ piece ('/' :: cs) ∧ ∃ c ds, cs = c :: ds ∧ (c = '/' ∨ c = '*') := by
  unfold piece at h ⊢
  split at h
  · next ds heq => exact ⟨Nat.le_add_right _ _, '/', ds, (List.cons.inj heq).2, .inl rfl⟩
  · next ds heq =>
      refine ⟨?_, '*', ds, (List.cons.inj heq).2, .inr rfl⟩
      cases hclose : throughClose? ds with
      | none => exact (h (by rw [hclose]; rfl)).elim
      | some k => exact Nat.le_add_left _ _
  · next heq => cases heq
  · rw [List.takeWhile_cons_of_neg (by decide)] at h
    exact (h rfl).elim

/-- A `#` begins trivia only with a `!` and one more character. -/
theorem piece_hash (h : piece ('#' :: cs) ≠ 0) :
    3 ≤ piece ('#' :: cs) ∧ ∃ c ds, cs = '!' :: c :: ds := by
  unfold piece at h ⊢
  split at h
  · next heq => cases heq
  · next heq => cases heq
  · next c ds heq =>
      refine ⟨?_, c, ds, (List.cons.inj heq).2⟩
      split at h
      · exact (h rfl).elim
      · next hc =>
          rw [if_neg hc]
          exact Nat.le_add_right _ _
  · rw [List.takeWhile_cons_of_neg (by decide)] at h
    exact (h rfl).elim

/-- Where no trivia stands, none stands if the text goes on after a blank, unless that closes a comment. -/
theorem piece_before_blank {b c : Char} {r : List Char} (hb : isBlank b = true)
    (hzero : piece (c :: w ++ s) = 0) (hhash : c = '#' → ∀ cs, w ≠ '!' :: cs)
    (hclose : ∀ cs, c = '/' → w = '*' :: cs → throughClose? (cs ++ b :: r) = none) :
    piece (c :: w ++ b :: r) = 0 := by
  have hblank : isBlank c = false := by
    cases hc : isBlank c with
    | false => rfl
    | true =>
        rw [List.cons_append, piece_blank hc] at hzero
        omega
  by_cases hslash : c = '/'
  · subst hslash
    refine Decidable.byContradiction fun hne => ?_
    rw [List.cons_append] at hne
    obtain ⟨_, d, ds, hcons, hd⟩ := piece_slash hne
    cases w with
    | nil =>
        rw [(List.cons.inj hcons).1] at hb
        rcases hd with rfl | rfl <;> cases hb
    | cons e w =>
        obtain ⟨rfl, _⟩ := List.cons.inj hcons
        rcases hd with rfl | rfl
        · exact absurd hzero (by simp [piece])
        · apply hne
          change ((throughClose? (w ++ b :: r)).map (· + 2)).getD 0 = 0
          rw [hclose w rfl rfl]
          rfl
  · by_cases hmark : c = '#'
    · subst hmark
      refine Decidable.byContradiction fun hne => ?_
      rw [List.cons_append] at hne
      obtain ⟨_, d, ds, hcons⟩ := piece_hash hne
      cases w with
      | nil =>
          rw [(List.cons.inj hcons).1] at hb
          cases hb
      | cons e w =>
          rw [(List.cons.inj hcons).1] at hhash
          exact hhash rfl w rfl
    · exact piece_eq_zero hblank (by simp [hslash, hmark])

section Append

variable {r : List Char}
  (hline : ∀ v, toLineBreak (v ++ s) ≤ v.length → toLineBreak (v ++ r) = toLineBreak (v ++ s))
include hline

theorem piece_append_slash (hne : piece ('/' :: w ++ s) ≠ 0)
    (hle : piece ('/' :: w ++ s) ≤ ('/' :: w).length) : piece ('/' :: w ++ r) = piece ('/' :: w ++ s) := by
  obtain ⟨htwo, c, ds, hcons, hc⟩ := piece_slash hne
  cases w with
  | nil =>
      rw [List.length_singleton] at hle
      exact absurd (Nat.le_trans htwo hle) (by decide)
  | cons d w =>
      obtain ⟨rfl, _⟩ := List.cons.inj hcons
      rcases hc with rfl | rfl
      · have hpiece (r : List Char) : piece ('/' :: '/' :: w ++ r) = 2 + toLineBreak (w ++ r) := rfl
        rw [hpiece, List.length_cons, List.length_cons] at hle
        rw [hpiece, hpiece, hline w (by omega)]
      · have hpiece (r : List Char) : piece ('/' :: '*' :: w ++ r) =
            ((throughClose? (w ++ r)).map (· + 2)).getD 0 := rfl
        rw [hpiece] at hne hle
        cases hclose : throughClose? (w ++ s) with
        | none => exact (hne (by rw [hclose]; rfl)).elim
        | some k =>
            rw [hclose] at hle
            rw [hpiece, hpiece, hclose, throughClose?_append hclose (Nat.le_of_add_le_add_right hle) r]

theorem piece_append_hash (hne : piece ('#' :: w ++ s) ≠ 0)
    (hle : piece ('#' :: w ++ s) ≤ ('#' :: w).length) : piece ('#' :: w ++ r) = piece ('#' :: w ++ s) := by
  obtain ⟨hthree, c, ds, hcons⟩ := piece_hash hne
  match w with
  | [] => exact absurd (Nat.le_trans hthree hle) (by simp)
  | [_] => exact absurd (Nat.le_trans hthree hle) (by simp)
  | _ :: d :: w =>
      obtain ⟨rfl, hcons⟩ := List.cons.inj hcons
      have hpiece (r : List Char) : piece ('#' :: '!' :: d :: w ++ r) =
          if isLineBreak d then 0 else 3 + toLineBreak (w ++ r) := rfl
      rw [hpiece, List.length_cons, List.length_cons, List.length_cons] at hle
      rw [hpiece] at hne
      by_cases hd : isLineBreak d = true
      · exact (hne (if_pos hd)).elim
      · rw [if_neg hd] at hle
        rw [hpiece, hpiece, if_neg hd, if_neg hd, hline w (by omega)]

/-- The piece that trivia begins with stays if its line ends where it did, unless the trivia is all blanks. -/
theorem piece_append (hne : piece (w ++ s) ≠ 0) (hle : piece (w ++ s) ≤ w.length) :
    (∀ c ∈ w, isBlank c = true) ∨ piece (w ++ r) = piece (w ++ s) := by
  cases w with
  | nil => exact .inl (List.forall_mem_nil _)
  | cons c w =>
      rcases head_of_piece hne with hc | rfl | rfl
      · have hpiece (r : List Char) : piece (c :: w ++ r) = 1 + ((w ++ r).takeWhile isBlank).length :=
          piece_blank hc
        rw [hpiece, List.length_cons] at hle
        rcases Nat.lt_or_eq_of_le (Nat.le_of_add_le_add_left (Nat.add_comm _ 1 ▸ hle)) with hlt | heq
        · refine .inr ?_
          rw [hpiece, hpiece, takeWhile_append_of_lt hlt r]
        · exact .inl (List.forall_mem_cons.mpr ⟨hc, (takeWhile_eq_of_length heq).1⟩)
      · exact .inr (piece_append_slash hline hne hle)
      · exact .inr (piece_append_hash hline hne hle)

/-- Trivia before some text is skipped in full before another one, if its lines end where they did. -/
theorem length_append {w : List Char} (h : length (w ++ s) = w.length) :
    length (w ++ r) = w.length + length r := by
  by_cases hpiece : piece (w ++ s) = 0
  · rw [length_eq_zero_iff.mpr hpiece] at h
    rw [List.eq_nil_of_length_eq_zero h.symm]
    exact closed_nil r
  · have hsum := length_of_piece hpiece
    have hle : piece (w ++ s) ≤ w.length := by omega
    rw [List.drop_append_of_le_length hle, h] at hsum
    have hrest : length (w.drop (piece (w ++ s)) ++ r) = (w.drop (piece (w ++ s))).length + length r := by
      refine length_append ?_
      rw [List.length_drop]
      omega
    rcases piece_append hline hpiece hle with hblanks | hsame
    · exact closed_blanks hblanks r
    · rw [length_of_piece (by rw [hsame]; exact hpiece), hsame, List.drop_append_of_le_length hle, hrest,
        List.length_drop]
      omega
termination_by w.length
decreasing_by
  rw [List.length_drop]
  omega

end Append

/-- Trivia that was found before something is closed. -/
theorem closed_of_length (hs : s ≠ []) (h : length (w ++ s) = w.length) : Closed w := by
  have hzero : length s = 0 := by
    have hdrop := length_drop_length (w ++ s)
    rwa [h, List.drop_left] at hdrop
  intro r
  exact length_append (fun v hle => toLineBreak_append hs hzero hle r) h

/-- Trivia at the end of a text does not run on over the end of its line. -/
theorem length_line (h : length w = w.length) (r : List Char) :
    length (w ++ '\n' :: r) = w.length + 1 + length r := by
  have hline (v : List Char) : toLineBreak (v ++ '\n' :: r) = toLineBreak (v ++ []) := by
    rw [List.append_nil]
    exact congrArg List.length (takeWhile_append_of_stop (by decide) r)
  rw [length_append (fun v _ => hline v) (by rw [List.append_nil]; exact h), length_blank rfl, Nat.add_assoc]

end Respell.Trivia
