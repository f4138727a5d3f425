import Respell.Parse.Basic
import Respell.Proofs.Token.Reading

/-!
# What successful parsers did

A parser that answers with a result went through its steps one by one. The lemmas here take a successful
run apart: a sequence into the runs of its parts, a test for a token into the token it saw, and a loop
into the list of its rounds.
-/

namespace Respell.Parser

open Text

variable {α β : Type} {p q r : Place}

/-! ## Sequences -/

theorem bind_ok_iff {x : Parser α} {f : α → Parser β} {b : β} :
    (x >>= f) p = .ok (b, r) ↔ ∃ a q, x p = .ok (a, q) ∧ f a q = .ok (b, r) := by
  change StateT.bind x f p = _ ↔ _
  unfold StateT.bind
  cases hx : x p with
  | error e => simp [bind, Except.bind]
  | ok result =>
      obtain ⟨a, q⟩ := result
      constructor
      · intro h
        exact ⟨a, q, rfl, h⟩
      · rintro ⟨a', q', heq, h⟩
        cases heq
        exact h

theorem pure_ok_iff {a b : α} : (pure a : Parser α) p = .ok (b, q) ↔ a = b ∧ p = q := by
  change Except.ok (a, p) = Except.ok (b, q) ↔ _
  simp

theorem throw_ok_iff {f : Fault} {b : α} : (throw f : Parser α) p = .ok (b, q) ↔ False := by
  change Except.error f = Except.ok (b, q) ↔ _
  simp

/-- A sequence of results without places, as the loops are written. -/
theorem except_bind_ok_iff {x : Except Fault α} {f : α → Except Fault β} {b : β} :
    (x >>= f) = .ok b ↔ ∃ a, x = .ok a ∧ f a = .ok b := by
  cases x with
  | error e => simp [bind, Except.bind]
  | ok a => simp [bind, Except.bind]

theorem except_pure_ok_iff {a b : α} : (pure a : Except Fault α) = .ok b ↔ a = b := by
  change Except.ok a = Except.ok b ↔ _
  simp

/-! ## Single tokens -/

variable {k : Kind} {t : Token}

/-- Looking at a token finds the one that would be taken, and stays. -/
theorem peek_ok (h : peek p = .ok (t, q)) : q = p ∧ ∃ r, next p = .ok (t, r) := by
  rw [peek_eq] at h
  rw [next_eq]
  split at h
  · next s r hscan =>
      cases h
      exact ⟨rfl, r, rfl⟩
  · cases h

theorem peekKind_ok (h : peekKind p = .ok (k, q)) : q = p ∧ ∃ t r, next p = .ok (t, r) ∧ t.kind = k := by
  rw [peekKind, bind_ok_iff] at h
  obtain ⟨t, p', hpeek, h⟩ := h
  obtain ⟨rfl, rfl⟩ := pure_ok_iff.mp h
  obtain ⟨rfl, r, hnext⟩ := peek_ok hpeek
  exact ⟨rfl, t, r, hnext, rfl⟩

theorem expect_ok_iff : expect k p = .ok (t, q) ↔ next p = .ok (t, q) ∧ t.kind = k := by
  rw [expect, bind_ok_iff]
  constructor
  · rintro ⟨s, r, hnext, h⟩
    split at h
    · next hk =>
        obtain ⟨rfl, rfl⟩ := pure_ok_iff.mp h
        exact ⟨hnext, hk⟩
    · exact (throw_ok_iff.mp h).elim
  · rintro ⟨hnext, hk⟩
    refine ⟨t, q, hnext, ?_⟩
    rw [if_pos hk]
    exact pure_ok_iff.mpr ⟨rfl, rfl⟩

/-- The token that is taken is the one that was seen. -/
theorem expect_of_seen {s : Token} (hseen : next p = .ok (t, r)) (hk : t.kind = k)
    (h : next p = .ok (s, q)) : expect k p = .ok (s, q) := by
  rw [hseen] at h
  cases h
  exact expect_ok_iff.mpr ⟨hseen, hk⟩

theorem expectPeek_ok (h : expectPeek k p = .ok (t, q)) :
    q = p ∧ (∃ r, next p = .ok (t, r)) ∧ t.kind = k := by
  rw [expectPeek, bind_ok_iff] at h
  obtain ⟨s, p', hpeek, h⟩ := h
  obtain ⟨rfl, hnext⟩ := peek_ok hpeek
  split at h
  · next hk =>
      obtain ⟨rfl, rfl⟩ := pure_ok_iff.mp h
      exact ⟨rfl, hnext, hk⟩
  · exact (throw_ok_iff.mp h).elim

/-- A token that need not be there was taken, or another kind of token was seen. -/
theorem optional_ok {o : Option Token} (h : optional k p = .ok (o, q)) :
    (∃ t, o = some t ∧ expect k p = .ok (t, q)) ∨
      (o = none ∧ q = p ∧ ∃ t r, next p = .ok (t, r) ∧ t.kind ≠ k) := by
  rw [optional, bind_ok_iff] at h
  obtain ⟨k', p', hpeek, h⟩ := h
  obtain ⟨rfl, t, r, hnext, rfl⟩ := peekKind_ok hpeek
  split at h
  · next hk =>
      obtain ⟨s, q', hnext', h⟩ := bind_ok_iff.mp h
      obtain ⟨rfl, rfl⟩ := pure_ok_iff.mp h
      exact .inl ⟨s, rfl, expect_of_seen hnext hk hnext'⟩
  · next hk =>
      obtain ⟨rfl, rfl⟩ := pure_ok_iff.mp h
      exact .inr ⟨rfl, rfl, t, r, hnext, hk⟩

/-- A test ahead stays where it began. -/
theorem lookAhead_ok {test : Parser Bool} {b : Bool} (h : lookAhead test p = .ok (b, q)) : q = p := by
  unfold lookAhead at h
  split at h <;> cases h <;> rfl

/-- A token that was expected was taken. -/
theorem taken_of_expect (h : expect k p = .ok (t, q)) : Taken p t q :=
  .scanned (expect_ok_iff.mp h).1

theorem kind_of_expect (h : expect k p = .ok (t, q)) : t.kind = k := (expect_ok_iff.mp h).2

/-! ## Loops -/

/-- The rounds of `many`: each item was read where the one before it ended. -/
inductive Rounds (item : Parser α) : Place → List α → Place → Prop where
  | nil {p : Place} : Rounds item p [] p
  | cons {p q r : Place} {a : α} {as : List α} :
      item p = .ok (a, q) → Rounds item q as r → Rounds item p (a :: as) r

theorem rounds_of_many {ends : Kind → Bool} {item : Parser α} {as : List α}
    (h : many ends item p = .ok (as, q)) : Rounds item p as q := by
  fun_induction many ends item p generalizing as q with
  | case1 p ih =>
    obtain ⟨⟨k, _⟩, hpeek, h⟩ := except_bind_ok_iff.mp h
    obtain ⟨rfl, _⟩ := peekKind_ok hpeek
    dsimp only at h
    split at h
    · cases except_pure_ok_iff.mp h
      exact .nil
    · obtain ⟨⟨a, r⟩, hitem, h⟩ := except_bind_ok_iff.mp h
      dsimp only at h
      split at h
      · next hlt =>
          obtain ⟨⟨rest, s⟩, hrest, h⟩ := except_bind_ok_iff.mp h
          cases except_pure_ok_iff.mp h
          exact .cons hitem (ih r hlt hrest)
      -- The definition stops after an item that took nothing, which is one more round.
      · cases except_pure_ok_iff.mp h
        exact .cons hitem .nil

/-- The rounds of `commaList`: items with the commas that were taken between them. -/
inductive CommaRounds (item : Parser α) : Place → Separated α → Place → Prop where
  | nil {p : Place} : CommaRounds item p .nil p
  | one {p q : Place} {a : α} : item p = .ok (a, q) → CommaRounds item p (.one a) q
  | more {p q r s : Place} {a : α} {comma : Token} {rest : Separated α} :
      item p = .ok (a, q) → expect (.punct .comma) q = .ok (comma, r) → CommaRounds item r rest s →
      CommaRounds item p (.more a comma rest) s

theorem commaRounds_of_commaList {ends : Kind → Bool} {item : Parser α} {items : Separated α}
    (h : commaList ends item p = .ok (items, q)) : CommaRounds item p items q := by
  fun_induction commaList ends item p generalizing items q with
  | case1 p ih =>
    obtain ⟨⟨k, _⟩, hpeek, h⟩ := except_bind_ok_iff.mp h
    obtain ⟨rfl, _⟩ := peekKind_ok hpeek
    dsimp only at h
    split at h
    · cases except_pure_ok_iff.mp h
      exact .nil
    · obtain ⟨⟨a, r⟩, hitem, h⟩ := except_bind_ok_iff.mp h
      obtain ⟨⟨o, s⟩, hcomma, h⟩ := except_bind_ok_iff.mp h
      rcases optional_ok hcomma with ⟨comma, rfl, htaken⟩ | ⟨rfl, rfl, _⟩
      · dsimp only at h
        split at h
        · next hlt =>
            obtain ⟨⟨rest, s'⟩, hrest, h⟩ := except_bind_ok_iff.mp h
            cases except_pure_ok_iff.mp h
            exact .more hitem htaken (ih s hlt hrest)
        · cases except_pure_ok_iff.mp h
          exact .more hitem htaken .nil
      · cases except_pure_ok_iff.mp h
        exact .one hitem

/-- The rounds of `extend`: each round that had something to add, from the value it began with. -/
inductive Growth (round : α → Parser (Option α)) : α → Place → α → Place → Prop where
  | refl {a : α} {p : Place} : Growth round a p a p
  | stop {a : α} {p q : Place} : round a p = .ok (none, q) → Growth round a p a q
  | step {a b c : α} {p q r : Place} :
      round a p = .ok (some b, q) → Growth round b q c r → Growth round a p c r

theorem growth_of_extend {round : α → Parser (Option α)} {a b : α}
    (h : extend round a p = .ok (b, q)) : Growth round a p b q := by
  fun_induction extend round a p generalizing b q with
  | case1 a p ih =>
    obtain ⟨⟨o, r⟩, hround, h⟩ := except_bind_ok_iff.mp h
    cases o with
    | none =>
        cases except_pure_ok_iff.mp h
        exact .stop hround
    | some c =>
        dsimp only at h
        split at h
        · next hlt => exact .step hround (ih c r hlt h)
        · cases except_pure_ok_iff.mp h
          exact .step hround .refl

/-- A loop whose rounds all read something ends because a round has nothing to add. -/
theorem stop_of_extend {round : α → Parser (Option α)} {a b : α}
    (hround : ∀ {a b p q}, round a p = .ok (some b, q) → q.rest.length < p.rest.length)
    (h : extend round a p = .ok (b, q)) : ∃ r, round b r = .ok (none, q) := by
  fun_induction extend round a p generalizing b q with
  | case1 a p ih =>
    obtain ⟨⟨o, r⟩, hrun, h⟩ := except_bind_ok_iff.mp h
    cases o with
    | none =>
        cases except_pure_ok_iff.mp h
        exact ⟨p, hrun⟩
    | some c =>
        dsimp only at h
        have hlt : Scanner.remaining r < Scanner.remaining p := hround hrun
        rw [if_pos hlt] at h
        exact ih c r hlt h

/-! ## Running parsers -/

theorem bind_of_ok {x : Parser α} {f : α → Parser β} {a : α} (h : x p = .ok (a, q)) :
    (x >>= f) p = f a q := by
  change StateT.bind x f p = _
  unfold StateT.bind
  rw [h]
  rfl

theorem bind_of_error {x : Parser α} {f : α → Parser β} {e : Fault} (h : x p = .error e) :
    (x >>= f) p = .error e := by
  change StateT.bind x f p = _
  unfold StateT.bind
  rw [h]
  rfl

theorem peek_of_next (h : next p = .ok (t, q)) : peek p = .ok (t, p) := by
  rw [next_eq] at h
  rw [peek_eq]
  split at h
  · cases h
    rfl
  · cases h

theorem peekKind_of_next (h : next p = .ok (t, q)) : peekKind p = .ok (t.kind, p) :=
  bind_ok_iff.mpr ⟨t, p, peek_of_next h, rfl⟩

theorem optional_of_expect (h : expect k p = .ok (t, q)) : optional k p = .ok (some t, q) := by
  obtain ⟨hnext, hk⟩ := expect_ok_iff.mp h
  refine bind_ok_iff.mpr ⟨t.kind, p, peekKind_of_next hnext, ?_⟩
  rw [if_pos hk]
  exact bind_ok_iff.mpr ⟨t, q, hnext, rfl⟩

theorem optional_of_ne (h : next p = .ok (t, q)) (hk : t.kind ≠ k) : optional k p = .ok (none, p) := by
  refine bind_ok_iff.mpr ⟨t.kind, p, peekKind_of_next h, ?_⟩
  rw [if_neg hk]
  rfl

theorem lookAhead_of_ok {test : Parser Bool} {b : Bool} (h : test p = .ok (b, q)) :
    lookAhead test p = .ok (b, p) := by
  unfold lookAhead
  rw [h]

section

variable {ends : Kind → Bool} {item : Parser α} {a : α}

theorem many_nil (hnext : next p = .ok (t, q)) (hends : ends t.kind = true) :
    many ends item p = .ok ([], p) := by
  unfold many
  refine except_bind_ok_iff.mpr ⟨_, peekKind_of_next hnext, ?_⟩
  dsimp only
  rw [if_pos hends]
  rfl

/-- An item, and the items after it or their fault. -/
theorem many_cons (hnext : next p = .ok (t, r)) (hends : ends t.kind = false)
    (hitem : item p = .ok (a, q)) (hlt : q.rest.length < p.rest.length) :
    many ends item p = (many ends item q).map fun y => (a :: y.1, y.2) := by
  rw [many, peekKind_of_next hnext]
  change (if ends t.kind = true then _ else _) = _
  rw [if_neg (by simp [hends]), hitem]
  change (if q.rest.length < p.rest.length then _ else _) = _
  rw [if_pos hlt]
  cases many ends item q <;> rfl

theorem many_error {e : Fault} (hnext : next p = .ok (t, r)) (hends : ends t.kind = false)
    (hitem : item p = .error e) : many ends item p = .error e := by
  rw [many, peekKind_of_next hnext]
  change (if ends t.kind = true then _ else _) = _
  rw [if_neg (by simp [hends]), hitem]
  rfl

theorem commaList_error {e : Fault} (hnext : next p = .ok (t, r)) (hends : ends t.kind = false)
    (hitem : item p = .error e) : commaList ends item p = .error e := by
  rw [commaList, peekKind_of_next hnext]
  change (if ends t.kind = true then _ else _) = _
  rw [if_neg (by simp [hends]), hitem]
  rfl

/-- An item with its comma, and the list after them or its fault. -/
theorem commaList_cons {comma : Token} {p₁ r : Place} (hnext : next p = .ok (t, p₁))
    (hends : ends t.kind = false) (hitem : item p = .ok (a, q))
    (hcomma : expect (.punct .comma) q = .ok (comma, r)) (hlt : r.rest.length < p.rest.length) :
    commaList ends item p = (commaList ends item r).map fun y => (.more a comma y.1, y.2) := by
  rw [commaList, peekKind_of_next hnext]
  change (if ends t.kind = true then _ else _) = _
  rw [if_neg (by simp [hends]), hitem]
  change (optional (.punct .comma) q >>= _) = _
  rw [optional_of_expect hcomma]
  change (if r.rest.length < p.rest.length then _ else _) = _
  rw [if_pos hlt]
  cases commaList ends item r <;> rfl

theorem commaList_nil (hnext : next p = .ok (t, q)) (hends : ends t.kind = true) :
    commaList ends item p = .ok (.nil, p) := by
  unfold commaList
  refine except_bind_ok_iff.mpr ⟨_, peekKind_of_next hnext, ?_⟩
  dsimp only
  rw [if_pos hends]
  rfl

/-- A last item: no comma follows. -/
theorem commaList_one {after : Token} {r s : Place} (hnext : next p = .ok (t, r))
    (hends : ends t.kind = false) (hitem : item p = .ok (a, q)) (hafter : next q = .ok (after, s))
    (hcomma : after.kind ≠ .punct .comma) : commaList ends item p = .ok (.one a, q) := by
  unfold commaList
  refine except_bind_ok_iff.mpr ⟨_, peekKind_of_next hnext, ?_⟩
  dsimp only
  rw [if_neg (by simp [hends])]
  refine except_bind_ok_iff.mpr ⟨_, hitem, ?_⟩
  exact except_bind_ok_iff.mpr ⟨_, optional_of_ne hafter hcomma, rfl⟩

/-- An item with its comma, and the list after them. -/
theorem commaList_more {comma : Token} {rest : Separated α} {p₁ r s : Place}
    (hnext : next p = .ok (t, p₁)) (hends : ends t.kind = false) (hitem : item p = .ok (a, q))
    (hcomma : expect (.punct .comma) q = .ok (comma, r)) (hlt : r.rest.length < p.rest.length)
    (hrest : commaList ends item r = .ok (rest, s)) :
    commaList ends item p = .ok (.more a comma rest, s) := by
  rw [commaList_cons hnext hends hitem hcomma hlt, hrest]
  rfl

end

theorem extend_some {round : α → Parser (Option α)} {a b : α} (h : round a p = .ok (some b, q))
    (hlt : q.rest.length < p.rest.length) : extend round a p = extend round b q := by
  rw [extend, h]
  exact if_pos hlt

theorem extend_error {round : α → Parser (Option α)} {a : α} {e : Fault}
    (h : round a p = .error e) : extend round a p = .error e := by
  rw [extend, h]
  rfl

theorem extend_none {round : α → Parser (Option α)} {a : α} (h : round a p = .ok (none, q)) :
    extend round a p = .ok (a, q) := by
  rw [extend, h]
  rfl

end Respell.Parser
