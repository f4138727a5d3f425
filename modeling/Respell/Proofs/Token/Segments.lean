import Respell.Proofs.Token.Fidelity
import Respell.Proofs.Token.Trivia

/-!
# Trivia is taken piece by piece

What trivia is, said without a scanner: whole runs of blanks, comments up to the end of their line, `#!` lines, and
block comments up to the first close after their opening, one after the other. The scanner takes one such piece
in each round, as long as one begins where it stands. A text can be divided in one way only into pieces and a rest
at which none begins, so what is taken is all the trivia there is and nothing else.
-/

namespace Respell.Trivia

open Text

variable {cs w r : List Char} {ws : List (List Char)}

/-! ## Pieces of trivia -/

/-- A piece of trivia, before what follows it. -/
inductive Segment : List Char → List Char → Prop where
  /-- A run of blanks, which no further blank follows. -/
  | blanks {w r : List Char} : w ≠ [] → (∀ c ∈ w, isBlank c = true) → (∀ c ∈ r.head?, isBlank c = false) →
      Segment w r
  /-- A comment up to the next line break, or to the end of the text. -/
  | line {w r : List Char} : (∀ c ∈ w, isLineBreak c = false) → (∀ c ∈ r.head?, isLineBreak c = true) →
      Segment ('/' :: '/' :: w) r
  /-- A line that begins with `#!` and at least one character more. -/
  | hashBang {w r : List Char} : w ≠ [] → (∀ c ∈ w, isLineBreak c = false) →
      (∀ c ∈ r.head?, isLineBreak c = true) → Segment ('#' :: '!' :: w) r
  /-- A comment up to the first close after its opening. -/
  | block {w r : List Char} :
      (∀ u v, w ++ '*' :: '/' :: r = u ++ '*' :: '/' :: v → w.length ≤ u.length) →
      Segment ('/' :: '*' :: (w ++ ['*', '/'])) r

/-- Pieces of trivia one after the other, before what follows them all. -/
inductive Segments : List (List Char) → List Char → Prop where
  | nil {r : List Char} : Segments [] r
  | cons {w r : List Char} {ws : List (List Char)} :
      Segment w (ws.flatten ++ r) → Segments ws r → Segments (w :: ws) r

/-- No piece of trivia begins here. -/
structure Stops (r : List Char) : Prop where
  blank : ∀ c ∈ r.head?, isBlank c = false
  line : ¬ ['/', '/'] <+: r
  /-- A comment may be opened here, but then nothing closes it. -/
  block : ∀ u v, r ≠ '/' :: '*' :: (u ++ '*' :: '/' :: v)
  hashBang : ∀ c cs, r = '#' :: '!' :: c :: cs → isLineBreak c = true

/-! ## Closes -/

/-- The close that is found is one, and none comes before it. -/
theorem throughClose?_first {k : Nat} (h : throughClose? cs = some k) :
    ∃ w r, cs = w ++ '*' :: '/' :: r ∧ k = w.length + 2 ∧
      ∀ u v, cs = u ++ '*' :: '/' :: v → w.length ≤ u.length := by
  fun_induction throughClose? cs generalizing k with
  | case1 cs =>
      cases h
      exact ⟨[], cs, rfl, rfl, fun u v _ => Nat.zero_le _⟩
  | case2 c cs hopen ih =>
      obtain ⟨j, hj, rfl⟩ := Option.map_eq_some_iff.mp h
      obtain ⟨w, r, rfl, rfl, hfirst⟩ := ih hj
      refine ⟨c :: w, r, rfl, rfl, ?_⟩
      intro u v heq
      cases u with
      | nil =>
          obtain ⟨hc, hrest⟩ := List.cons.inj heq
          exact (hopen v hc hrest).elim
      | cons d u =>
          have hle := hfirst u v (List.cons.inj heq).2
          exact Nat.succ_le_succ hle
  | case3 => cases h

theorem throughClose?_eq_none_iff : throughClose? cs = none ↔ ∀ u v, cs ≠ u ++ '*' :: '/' :: v := by
  constructor
  · rintro h u v rfl
    cases (throughClose?_eq_none_of_append h).2
  · intro h
    cases hclose : throughClose? cs with
    | none => rfl
    | some k =>
        obtain ⟨w, r, heq, _, _⟩ := throughClose?_first hclose
        exact (h w r heq).elim

/-- The first close is found. -/
theorem throughClose?_of_first
    (h : ∀ u v, w ++ '*' :: '/' :: r = u ++ '*' :: '/' :: v → w.length ≤ u.length) :
    throughClose? (w ++ '*' :: '/' :: r) = some (w.length + 2) := by
  cases hclose : throughClose? (w ++ '*' :: '/' :: r) with
  | none => exact (throughClose?_eq_none_iff.mp hclose w r rfl).elim
  | some k =>
      obtain ⟨u, v, heq, rfl, hfirst⟩ := throughClose?_first hclose
      have hle := h u v heq
      have hge := hfirst w r rfl
      rw [Nat.le_antisymm hle hge]

/-! ## What a round takes -/

theorem line_takeWhile (cs : List Char) : (∀ c ∈ cs.takeWhile fun c => !isLineBreak c, isLineBreak c = false) ∧
    ∀ c ∈ (cs.dropWhile fun c => !isLineBreak c).head?, isLineBreak c = true := by
  constructor
  · intro c hc
    simpa using of_mem_takeWhile c hc
  · intro c hc
    simpa using head_dropWhile cs c hc

/-- A piece that is found is one. -/
theorem exists_segment (h : piece cs ≠ 0) : ∃ w r, cs = w ++ r ∧ piece cs = w.length ∧ Segment w r := by
  unfold piece at h ⊢
  split at h
  · next ds =>
      obtain ⟨htaken, hstop⟩ := line_takeWhile ds
      refine ⟨_, _, ?_, ?_, .line htaken hstop⟩
      · rw [List.cons_append, List.cons_append, List.takeWhile_append_dropWhile]
      · exact Nat.add_comm _ _
  · next ds =>
      cases hclose : throughClose? ds with
      | none =>
          rw [hclose] at h
          exact (h rfl).elim
      | some k =>
          obtain ⟨w, r, rfl, rfl, hfirst⟩ := throughClose?_first hclose
          exact ⟨_, r, by simp, by simp, .block hfirst⟩
  · next c ds =>
      have hc : isLineBreak c = false := by
        cases hc : isLineBreak c with
        | false => rfl
        | true =>
            rw [if_pos hc] at h
            exact (h rfl).elim
      obtain ⟨htaken, hstop⟩ := line_takeWhile ds
      refine ⟨_, _, ?_, ?_, .hashBang (List.cons_ne_nil c _) (List.forall_mem_cons.mpr ⟨hc, htaken⟩) hstop⟩
      · rw [List.cons_append, List.cons_append, List.cons_append, List.takeWhile_append_dropWhile]
      · rw [if_neg (by simp [hc])]
        exact Nat.add_comm _ _
  · refine ⟨_, _, List.takeWhile_append_dropWhile.symm, rfl, .blanks ?_ of_mem_takeWhile (head_dropWhile cs)⟩
    intro hnil
    rw [hnil] at h
    exact h rfl

theorem Segment.ne_nil (h : Segment w r) : w ≠ [] := by
  cases h with
  | blanks hne _ _ => exact hne
  | line _ _ => exact List.cons_ne_nil _ _
  | hashBang _ _ _ => exact List.cons_ne_nil _ _
  | block _ => exact List.cons_ne_nil _ _

/-- A line is taken up to where it ends. -/
theorem toLineBreak_eq (hw : ∀ c ∈ w, isLineBreak c = false) (hr : ∀ c ∈ r.head?, isLineBreak c = true) :
    toLineBreak (w ++ r) = w.length := by
  have hrun : (w ++ r).takeWhile (fun c => !isLineBreak c) = w :=
    takeWhile_run (fun c hc => by simp [hw c hc]) (fun c hc => by simp [hr c hc])
  rw [toLineBreak, hrun]

/-- Each piece is found as a whole. -/
theorem Segment.piece_eq (h : Segment w r) : piece (w ++ r) = w.length := by
  cases h with
  | blanks hne hw hr =>
      cases w with
      | nil => exact (hne rfl).elim
      | cons c w =>
          obtain ⟨hc, hw⟩ := List.forall_mem_cons.mp hw
          rw [List.cons_append, piece_blank hc, takeWhile_run hw hr, List.length_cons, Nat.add_comm]
  | @line w _ hw hr =>
      change 2 + toLineBreak (w ++ r) = _
      rw [toLineBreak_eq hw hr, List.length_cons, List.length_cons]
      omega
  | @hashBang w _ hne hw hr =>
      cases w with
      | nil => exact (hne rfl).elim
      | cons c w =>
          obtain ⟨hc, hw⟩ := List.forall_mem_cons.mp hw
          change (if isLineBreak c then 0 else 3 + toLineBreak (w ++ r)) = _
          rw [if_neg (by simp [hc]), toLineBreak_eq hw hr]
          simp only [List.length_cons]
          omega
  | @block w _ hfirst =>
      change ((throughClose? (w ++ ['*', '/'] ++ r)).map (· + 2)).getD 0 = _
      rw [List.append_assoc, List.cons_append, List.singleton_append, throughClose?_of_first hfirst]
      simp

/-- The scanner finds no piece exactly where none begins. -/
theorem stops_iff : Stops r ↔ piece r = 0 := by
  constructor
  · intro h
    refine Decidable.byContradiction fun hne => ?_
    obtain ⟨w, s, rfl, _, hsegment⟩ := exists_segment hne
    cases hsegment with
    | blanks hnil hw _ =>
        cases w with
        | nil => exact hnil rfl
        | cons c w =>
            have hblank := hw c List.mem_cons_self
            rw [h.blank c rfl] at hblank
            cases hblank
    | line _ _ => exact h.line ⟨_, rfl⟩
    | @hashBang w _ hnil hw _ =>
        cases w with
        | nil => exact hnil rfl
        | cons c w =>
            have hbreak := hw c List.mem_cons_self
            rw [h.hashBang c (w ++ s) rfl] at hbreak
            cases hbreak
    | @block w _ _ => exact h.block w s (by simp)
  · intro h
    -- Each of the ways to begin is the way in which a piece begins.
    refine ⟨?_, ?_, ?_, ?_⟩
    · intro c hc
      obtain ⟨cs, rfl⟩ := List.head?_eq_some_iff.mp hc
      cases hblank : isBlank c with
      | false => rfl
      | true =>
          rw [piece_blank hblank] at h
          omega
    · rintro ⟨cs, rfl⟩
      exact absurd h (by simp [piece])
    · rintro u v rfl
      have hnone : throughClose? (u ++ '*' :: '/' :: v) = none := by
        cases hclose : throughClose? (u ++ '*' :: '/' :: v) with
        | none => rfl
        | some k => exact absurd h (by simp [piece, hclose])
      exact throughClose?_eq_none_iff.mp hnone u v rfl
    · rintro c cs rfl
      cases hbreak : isLineBreak c with
      | true => rfl
      | false => exact absurd h (by simp [piece, hbreak])

/-! ## Rounds -/

/-- The rounds of the scanner from one place to another, each with the text it takes. It goes on as long as it
    finds a piece. -/
inductive Rounds : List (List Char) → Place → Place → Prop where
  | leave {p : Place} : piece p.rest = 0 → Rounds [] p p
  | round {p q : Place} {ws : List (List Char)} : piece p.rest ≠ 0 → Rounds ws (p.advance (piece p.rest)) q →
      Rounds (p.rest.take (piece p.rest) :: ws) p q

/-- The rounds come to an end, and that is where the scanner goes on. -/
theorem exists_rounds (p : Place) : ∃ ws, Rounds ws p (scanTrivia p).2 := by
  by_cases h : piece p.rest = 0
  · have hzero : (scanTrivia p).2 = p := by
      simp [scanTrivia, length_eq_zero_iff.mpr h, Place.advance]
    rw [hzero]
    exact ⟨[], .leave h⟩
  · have hshorter : (p.advance (piece p.rest)).rest.length < p.rest.length := by
      have hpos : 0 < p.rest.length := List.length_pos_iff.mpr (ne_nil_of_piece h)
      rw [Place.rest_advance, List.length_drop]
      omega
    obtain ⟨ws, hws⟩ := exists_rounds (p.advance (piece p.rest))
    have hlast : (scanTrivia (p.advance (piece p.rest))).2 = (scanTrivia p).2 := by
      simp only [scanTrivia, Place.rest_advance]
      rw [← advance_add, ← length_of_piece h]
    exact ⟨_, .round h (hlast ▸ hws)⟩
termination_by p.rest.length

/-- One round takes a piece. -/
theorem segment_of_round (h : piece cs ≠ 0) : Segment (cs.take (piece cs)) (cs.drop (piece cs)) := by
  obtain ⟨w, r, rfl, hlength, hsegment⟩ := exists_segment h
  rwa [hlength, List.take_left, List.drop_left]

/-- All rounds together take pieces, up to where no more begins. -/
theorem Rounds.segments {p q : Place} (h : Rounds ws p q) :
    p.rest = ws.flatten ++ q.rest ∧ Segments ws q.rest ∧ Stops q.rest := by
  induction h with
  | leave hzero => exact ⟨rfl, .nil, stops_iff.mpr hzero⟩
  | @round p q ws hpiece _ ih =>
      obtain ⟨hrest, hsegments, hstops⟩ := ih
      have hsegment := segment_of_round hpiece
      rw [Place.rest_advance] at hrest
      refine ⟨?_, .cons (hrest ▸ hsegment) hsegments, hstops⟩
      rw [List.flatten_cons, List.append_assoc, ← hrest, List.take_append_drop]

/-- There are no more pieces than bytes. -/
theorem Segments.length_le (h : Segments ws r) : ws.length ≤ byteLength ws.flatten := by
  induction h with
  | nil => exact Nat.le_refl 0
  | @cons w r ws hsegment _ ih =>
      cases w with
      | nil => exact (hsegment.ne_nil rfl).elim
      | cons c w =>
          have hpos := c.utf8Size_pos
          simp only [List.flatten_cons, byteLength_append, byteLength_cons, List.length_cons]
          omega

/-- What is divided into pieces and a rest at which none begins is skipped up to there. -/
theorem Segments.length_eq (h : Segments ws r) (hr : Stops r) : length (ws.flatten ++ r) = ws.flatten.length := by
  induction h with
  | nil => exact length_eq_zero_iff.mpr (stops_iff.mp hr)
  | @cons w r ws hsegment _ ih =>
      have hpiece := hsegment.piece_eq
      have hne : piece (w ++ (ws.flatten ++ r)) ≠ 0 := by
        rw [hpiece]
        exact fun hzero => hsegment.ne_nil (List.eq_nil_of_length_eq_zero hzero)
      rw [List.flatten_cons, List.append_assoc, length_of_piece hne, hpiece, List.drop_left, ih hr,
        List.length_append]

theorem Segments.scanTrivia_eq (h : Segments ws r) (hr : Stops r) (offset : Nat) :
    scanTrivia ⟨offset, ws.flatten ++ r⟩ = (String.ofList ws.flatten, ⟨offset + byteLength ws.flatten, r⟩) :=
  scanTrivia_split (h.length_eq hr)

/-! ## One division only -/

/-- Where a piece stands, the text does not stop. -/
theorem Segment.not_stops (h : Segment w r) : ¬Stops (w ++ r) := by
  intro hstops
  have hzero := stops_iff.mp hstops
  rw [h.piece_eq] at hzero
  exact h.ne_nil (List.eq_nil_of_length_eq_zero hzero)

/-- A text is divided in one way into pieces and a rest at which none begins. -/
theorem Segments.unique {ws' : List (List Char)} {r' : List Char} (h : Segments ws r) (hr : Stops r)
    (h' : Segments ws' r') (hr' : Stops r') (heq : ws.flatten ++ r = ws'.flatten ++ r') :
    ws = ws' ∧ r = r' := by
  induction h generalizing ws' with
  | nil =>
      cases h' with
      | nil => exact ⟨rfl, heq⟩
      | cons hsegment _ =>
          rw [List.flatten_nil, List.nil_append, List.flatten_cons, List.append_assoc] at heq
          exact (hsegment.not_stops (heq ▸ hr)).elim
  | cons hsegment _ ih =>
      rw [List.flatten_cons, List.append_assoc] at heq
      cases h' with
      | nil => exact (hsegment.not_stops (heq.symm ▸ hr' : Stops _)).elim
      | cons hsegment' hrest' =>
          rw [List.flatten_cons, List.append_assoc] at heq
          -- Both first pieces are the one that is found there.
          have hlength := hsegment.piece_eq
          rw [heq, hsegment'.piece_eq] at hlength
          obtain ⟨rfl, hafter⟩ := List.append_inj heq hlength.symm
          obtain ⟨rfl, rfl⟩ := ih hr hrest' hafter
          exact ⟨rfl, rfl⟩

end Trivia

/-! ## The trivia at a place -/

open Text Trivia

/-- The trivia at the place `p` of a text are the pieces `ws`, and the text goes on at `q`. -/
structure Skips (source : List Char) (p : Place) (ws : List (List Char)) (q : Place) : Prop where
  /-- The pieces are the text from the one place up to the other. -/
  between : p.rest = ws.flatten ++ q.rest
  place : q = .ofOffset source (p.offset + byteLength ws.flatten)
  answer : scanTrivia p = (String.ofList ws.flatten, q)
  pieces : Segments ws q.rest
  stops : Stops q.rest
  /-- No other pieces come to a place where none begins. -/
  unique : ∀ ws' r, p.rest = ws'.flatten ++ r → Segments ws' r → Stops r → ws' = ws ∧ r = q.rest
  /-- Each round takes one piece. -/
  rounds : Rounds ws p q
  rounds_le : ws.length ≤ byteLength ws.flatten
  /-- To skip trivia once more skips nothing. -/
  again : scanTrivia q = ("", q)

/-- At every place of every text, whole pieces of trivia are skipped, all that stand there, in no more rounds than
    they have bytes. -/
theorem scanTrivia_exact (before rest : List Char) :
    ∃ ws q, Skips (before ++ rest) (.ofOffset (before ++ rest) (byteLength before)) ws q := by
  have hplace (w r : List Char) : Place.ofOffset (w ++ r) (byteLength w) = ⟨byteLength w, r⟩ := by
    rw [Place.ofOffset, dropBytes_byteLength]
  rw [hplace]
  obtain ⟨ws, hrounds⟩ := exists_rounds ⟨byteLength before, rest⟩
  obtain ⟨hrest, hsegments, hstops⟩ := hrounds.segments
  generalize (scanTrivia ⟨byteLength before, rest⟩).2.rest = r at hrest hsegments hstops
  dsimp only at hrest
  subst hrest
  have hscan := hsegments.scanTrivia_eq hstops (byteLength before)
  rw [hscan] at hrounds
  refine ⟨ws, ⟨byteLength before + byteLength ws.flatten, r⟩, ?_⟩
  constructor
  · rfl
  · rw [← List.append_assoc, ← byteLength_append, hplace]
  · exact hscan
  · exact hsegments
  · exact hstops
  · intro ws' r' heq hsegments' hstops'
    exact hsegments'.unique hstops' hsegments hstops heq.symm
  · exact hrounds
  · exact hsegments.length_le
  · exact Segments.nil.scanTrivia_eq hstops _

end Respell
