import Respell.Proofs.Tree.Relayout

/-!
# Two readings in step

A parser looks at kinds of tokens and at nothing else, so it goes the same way through two texts whose tokens
are of the same kinds, whatever their positions and whatever trivia stands between them. `Twin` says that
two places are followed by such tokens. The tokens are those of a reading that has been made, each as it was
taken there: where a literal was taken, the two texts have to agree on the literal and on the kind of its
opening mark, but not on what would follow that mark if it were a token of its own.

The common part of the two texts may end before the second text does. A parser that ends with a token it takes
does not look beyond, with one exception: after a branch of a conditional it looks for another one. So the
second text must not go on with `else` there.

The second run may have fewer nesting levels than the first one. `Echo` says both what becomes of it if they
suffice and that it is refused if they do not.
-/

namespace Respell

open Text

namespace Parser

/-- The tokens with which statements end. -/
def endsStatement : Kind → Bool
  | .punct .semicolon | .punct .closeBrace => true
  | _ => false

/-- Two texts that are to be read alike: the layout of the second one, and where the common part ends in each.
    The second text does not go on with another branch of a conditional. -/
structure Pair where
  layout : Relayout
  left : Place
  right : Place
  goesOn : ∃ t r, next right = .ok (t, r) ∧ t.kind ≠ .word .else

/-- The tokens are ahead of both places, up to the end of the common part: those of the first text at `p`, and
    the same in the layout of the second text at `p'`. -/
inductive Twin (x : Pair) : Place → Place → List Token → Prop where
  | done : Twin x x.left x.right []
  | scanned {p p' q q' : Place} {t : Token} {ts : List Token} :
      next p = .ok (t, q) → next p' = .ok (t.relayout x.layout, q') → t.kind ≠ .endOfFile →
      (ts = [] → endsStatement t.kind = true) → Twin x q q' ts → Twin x p p' (t :: ts)
  | literal {p p' q q' r r' : Place} {t mark mark' : Token} {ts : List Token} :
      next p = .ok (mark, r) → next p' = .ok (mark', r') → mark'.kind = mark.kind →
      mark.kind.isQuote = true → quoted p = .ok (t, q) →
      quoted p' = .ok (t.relayout x.layout, q') → ts ≠ [] → Twin x q q' ts → Twin x p p' (t :: ts)

variable {x : Pair} {p p' q q' r : Place} {t : Token} {ts us vs : List Token}

/-! ## One token ahead -/

theorem isQuoted_of_next (h : next p = .ok (t, q)) : t.kind.isQuoted = false := by
  obtain ⟨kind, n, hlex, htake, _⟩ := next_ok h
  rw [kind_of_takeToken htake]
  exact (lexemeAt_of_next? hlex).isQuoted

theorem isQuoted_of_quoted (h : quoted p = .ok (t, q)) : t.kind.isQuoted = true := by
  obtain ⟨n, _, htake⟩ := quoted_ok h
  rw [kind_of_takeToken htake, Quoted.kind]
  split <;> rfl

/-- After a token of kind `k` both texts go on alike, unless the token opens a literal. Only a token that ends a
    statement may be the last one. -/
def GoesOn (x : Pair) (k : Kind) (p p' : Place) : Prop :=
  k.isQuote = true ∨ ∃ ts, Twin x p p' ts ∧ (ts = [] → endsStatement k = true)

/-- Where a token is ahead, both texts show a token of the same kind. -/
theorem Twin.ahead (h : Twin x p p' (t :: ts)) :
    ∃ s r s' r', next p = .ok (s, r) ∧ next p' = .ok (s', r') ∧ s'.kind = s.kind ∧
      GoesOn x s.kind r r' := by
  cases h with
  | scanned hp hp' _ hend h => exact ⟨_, _, _, _, hp, hp', rfl, .inr ⟨_, h, hend⟩⟩
  | literal hp hp' hk hquote _ _ _ _ => exact ⟨_, _, _, _, hp, hp', hk, .inl hquote⟩

theorem GoesOn.ahead {k : Kind} (h : GoesOn x k p p') (hquote : k.isQuote = false)
    (hend : endsStatement k = false) :
    ∃ s r s' r', next p = .ok (s, r) ∧ next p' = .ok (s', r') ∧ s'.kind = s.kind ∧
      GoesOn x s.kind r r' := by
  rcases h with h | ⟨ts, htwin, hts⟩
  · rw [hquote] at h
    cases h
  · cases ts with
    | nil =>
        rw [hts rfl] at hend
        cases hend
    | cons t ts => exact htwin.ahead

/-- A token that the scanner gave at the first place is given at the second place too. -/
theorem Twin.of_next (h : Twin x p p' (t :: ts)) (ht : next p = .ok (t, q)) :
    ∃ q', next p' = .ok (t.relayout x.layout, q') ∧ Twin x q q' ts ∧ t.kind ≠ .endOfFile := by
  cases h with
  | scanned hp hp' hk _ h =>
      rw [hp] at ht
      cases ht
      exact ⟨_, hp', h, hk⟩
  | literal _ _ _ _ hq _ _ _ =>
      have hscanned := isQuoted_of_next ht
      rw [isQuoted_of_quoted hq] at hscanned
      cases hscanned

/-- A literal that was read at the first place is read at the second place too. -/
theorem Twin.of_quoted (h : Twin x p p' (t :: ts)) (ht : quoted p = .ok (t, q)) :
    ∃ q', quoted p' = .ok (t.relayout x.layout, q') ∧ Twin x q q' ts ∧
      t.kind ≠ .endOfFile := by
  cases h with
  | scanned hp _ _ _ _ =>
      have hquoted := isQuoted_of_quoted ht
      rw [isQuoted_of_next hp] at hquoted
      cases hquoted
  | literal _ _ _ _ hq hq' _ h =>
      rw [hq] at ht
      cases ht
      refine ⟨_, hq', h, ?_⟩
      intro hk
      have hquoted := isQuoted_of_quoted hq
      rw [hk] at hquoted
      cases hquoted

/-! ## Echoes -/

/-- Both readings have taken the tokens `us`, and `ts` are still ahead. -/
structure Arrives (x : Pair) (p p' : Place) (us : List Token) (q q' : Place) (ts : List Token) : Prop where
  twin : Twin x q q' ts
  left : q.rest.length + us.length ≤ p.rest.length
  right : q'.rest.length + us.length ≤ p'.rest.length

/-- A reading took `us` from `p` to `q`, and needed `w` nesting levels. With `n` levels, the parser `y` takes the
    same tokens in the second text and answers `b` if they suffice, and finds the nesting too deep if they do
    not. Unless `closed` holds, this is said only where further tokens are ahead. -/
structure Echo {β : Type} (x : Pair) (n : Nat) (closed : Prop) (p q : Place) (us : List Token) (w : Nat)
    (y : Parser β) (b : β) : Prop where
  run {p' : Place} {ts : List Token} : (ts = [] → closed) → Twin x p p' (us ++ ts) → w ≤ n →
    ∃ q', y p' = .ok (b, q') ∧ Arrives x p p' us q q' ts
  refuse {p' : Place} {ts : List Token} : (ts = [] → closed) → Twin x p p' (us ++ ts) → n < w →
    ∃ f, y p' = .error f ∧ f.message = .nestedTooDeeply

namespace Echo

variable {α β : Type} {n w v : Nat} {c d : Prop} {y : Parser α} {f : α → Parser β} {a : α} {b : β}

/-- The same echo, with its tokens and levels written in another way. -/
theorem cast (h : Echo x n c p q us w y a) (hus : us = vs) (hw : w = v) : Echo x n c p q vs v y a := by
  subst hus hw
  exact h

/-- The same echo, said only where further tokens are ahead. -/
theorem ahead (h : Echo x n c p q us w y a) : Echo x n False p q us w y a where
  run hts := h.run fun hnil => (hts hnil).elim
  refuse hts := h.refuse fun hnil => (hts hnil).elim

/-- One more level on both sides. -/
theorem deepen (h : Echo x n c p q us w y a) : Echo x (n + 1) c p q us (w + 1) y a where
  run hts htwin hw := h.run hts htwin (Nat.le_of_succ_le_succ hw)
  refuse hts htwin hw := h.refuse hts htwin (Nat.lt_of_succ_lt_succ hw)

theorem pure : Echo x n c p p [] 0 (pure b) b where
  run _ htwin _ := ⟨_, rfl, htwin, Nat.le_refl _, Nat.le_refl _⟩
  refuse _ _ hw := absurd hw (Nat.not_lt_zero _)

/-- Two parts in sequence. The parser `z` goes on with the second part where the first one ended, and is refused
    if the first part is. The first part must not be closed only if the second takes no tokens. -/
theorem seq {γ : Type} {y' : Parser β} {z : Parser γ} {k : β → γ} (hy : Echo x n c p q us w y a)
    (hy' : Echo x n d q r vs v y' b) (hclosed : vs = [] → d → c)
    (hrun : ∀ {p' q' ts}, (ts = [] → d) → Twin x p p' (us ++ (vs ++ ts)) → y p' = .ok (a, q') →
      q'.rest.length + us.length ≤ p'.rest.length → z p' = (y' q').map fun o => (k o.1, o.2))
    (hrefuse : ∀ {p' ts}, (ts = [] → d) → Twin x p p' (us ++ (vs ++ ts)) → n < w →
      ∃ f, z p' = .error f ∧ f.message = .nestedTooDeeply) :
    Echo x n d p r (us ++ vs) (max w v) z (k b) := by
  have hfirst {ts : List Token} (hts : ts = [] → d) : vs ++ ts = [] → c := by
    intro hnil
    obtain ⟨hvs, hnil⟩ := List.append_eq_nil_iff.mp hnil
    exact hclosed hvs (hts hnil)
  constructor
  · intro p' ts hts htwin hw
    rw [List.append_assoc] at htwin
    obtain ⟨q', hq', hq⟩ := hy.run (hfirst hts) htwin (by omega)
    obtain ⟨r', hr', hr⟩ := hy'.run hts hq.twin (by omega)
    refine ⟨r', ?_, hr.twin, ?_, ?_⟩
    · rw [hrun hts htwin hq' hq.right, hr']
      rfl
    · have := hq.left
      have := hr.left
      rw [List.length_append]
      omega
    · have := hq.right
      have := hr.right
      rw [List.length_append]
      omega
  · intro p' ts hts htwin hw
    rw [List.append_assoc] at htwin
    by_cases hfits : w ≤ n
    -- The first part goes through, so the second is refused.
    · obtain ⟨q', hq', hq⟩ := hy.run (hfirst hts) htwin hfits
      obtain ⟨e, hr', he⟩ := hy'.refuse hts hq.twin (by omega)
      refine ⟨e, ?_, he⟩
      rw [hrun hts htwin hq' hq.right, hr']
      rfl
    · exact hrefuse hts htwin (by omega)

theorem bind (hy : Echo x n c p q us w y a) (hf : Echo x n d q r vs v (f a) b)
    (hclosed : vs = [] → d → c) : Echo x n d p r (us ++ vs) (max w v) (y >>= f) b := by
  refine hy.seq (k := fun o => o) hf hclosed ?_ ?_
  · intro p' q' ts _ _ hrun _
    rw [bind_of_ok hrun]
    cases f a q' <;> rfl
  · intro p' ts hts htwin hw
    have hopen : vs ++ ts = [] → c := by
      intro hnil
      obtain ⟨hvs, hnil⟩ := List.append_eq_nil_iff.mp hnil
      exact hclosed hvs (hts hnil)
    obtain ⟨e, hrun, he⟩ := hy.refuse hopen htwin hw
    exact ⟨e, bind_of_error hrun, he⟩

/-- What follows a parser, where it takes a token. -/
theorem bind_cons (hy : Echo x n c p q us w y a) (hf : Echo x n d q r (t :: vs) v (f a) b) :
    Echo x n d p r (us ++ t :: vs) (max w v) (y >>= f) b :=
  hy.bind hf fun hnil => nomatch hnil

/-- The last part of a sequence, from which the answer is made. -/
theorem ending (hy : Echo x n c p q us w y a) (hf : f a = Pure.pure b) :
    Echo x n c p q us w (y >>= f) b := by
  have hpure : Echo x n c q q [] 0 (f a) b := by
    rw [hf]
    exact pure
  exact (hy.bind hpure fun _ hc => hc).cast (List.append_nil us) (Nat.max_zero w)

/-- A parser that takes one token, and what comes after it. -/
theorem cons {y : Parser α} {f : α → Parser β} (hy : Echo x n True p q [t] 0 y a)
    (hf : Echo x n d q r vs v (f a) b) : Echo x n d p r (t :: vs) v (y >>= f) b :=
  (hy.bind hf fun _ _ => trivial).cast rfl (Nat.zero_max v)

/-- What follows a parser that answers by looking ahead. -/
theorem look {y : Parser α} {f : α → Parser β} (hy : Echo x n c p p [] 0 y a)
    (hclosed : vs = [] → d → c) (hf : Echo x n d p r vs v (f a) b) :
    Echo x n d p r vs v (y >>= f) b :=
  (hy.bind hf hclosed).cast rfl (Nat.zero_max v)

end Echo

/-! ## Single tokens -/

section Tokens

variable {n w : Nat} {c : Prop} {k : Kind} {β : Type} {b : β}

theorem next_echo (h : next p = .ok (t, q)) :
    Echo x n True p q [t] 0 next (t.relayout x.layout) := by
  constructor
  · intro p' ts _ htwin _
    obtain ⟨q', hrun, hq, hk⟩ := htwin.of_next h
    exact ⟨q', hrun, hq, Taken.length_lt (.scanned h) hk, Taken.length_lt (.scanned hrun) hk⟩
  · intro p' ts _ _ hw
    exact absurd hw (Nat.not_lt_zero _)

theorem quoted_echo (h : quoted p = .ok (t, q)) :
    Echo x n True p q [t] 0 quoted (t.relayout x.layout) := by
  constructor
  · intro p' ts _ htwin _
    obtain ⟨q', hrun, hq, hk⟩ := htwin.of_quoted h
    exact ⟨q', hrun, hq, Taken.length_lt (.quoted h) hk, Taken.length_lt (.quoted hrun) hk⟩
  · intro p' ts _ _ hw
    exact absurd hw (Nat.not_lt_zero _)

theorem expect_echo (h : expect k p = .ok (t, q)) :
    Echo x n True p q [t] 0 (expect k) (t.relayout x.layout) := by
  obtain ⟨hnext, hk⟩ := expect_ok_iff.mp h
  constructor
  · intro p' ts hts htwin hw
    obtain ⟨q', hrun, hq⟩ := (next_echo hnext).run hts htwin hw
    exact ⟨q', expect_ok_iff.mpr ⟨hrun, hk⟩, hq⟩
  · intro p' ts _ _ hw
    exact absurd hw (Nat.not_lt_zero _)

/-- What the scanner shows at the first place it shows at the second place too, up to the kind, unless the
    common part has ended. -/
theorem Twin.shows (htwin : Twin x p p' ts) (hts : ts ≠ []) (h : next p = .ok (t, q)) :
    ∃ t' q', next p' = .ok (t', q') ∧ t'.kind = t.kind := by
  obtain ⟨s, ss, rfl⟩ := List.exists_cons_of_ne_nil hts
  obtain ⟨_, _, t', q', hp, hp', hk, _⟩ := htwin.ahead
  rw [h] at hp
  cases hp
  exact ⟨t', q', hp', hk⟩

theorem append_ne_nil (hts : ts = [] → c) (hus : us = [] → ¬ c) : us ++ ts ≠ [] := by
  intro hnil
  obtain ⟨hus', hts'⟩ := List.append_eq_nil_iff.mp hnil
  exact hus hus' (hts hts')

/-- Looking at a token that is there: whatever is done depends on its kind only. -/
theorem Echo.peek_bind {f : Token → Parser β} (h : next p = .ok (t, r))
    (hus : us = [] → ¬ c) (hf : ∀ t', t'.kind = t.kind → Echo x n c p q us w (f t') b) :
    Echo x n c p q us w (peek >>= f) b := by
  constructor
  · intro p' ts hts htwin hw
    obtain ⟨t', r', hnext, hk⟩ := htwin.shows (append_ne_nil hts hus) h
    rw [bind_of_ok (peek_of_next hnext)]
    exact (hf t' hk).run hts htwin hw
  · intro p' ts hts htwin hw
    obtain ⟨t', r', hnext, hk⟩ := htwin.shows (append_ne_nil hts hus) h
    rw [bind_of_ok (peek_of_next hnext)]
    exact (hf t' hk).refuse hts htwin hw

theorem Echo.peekKind_bind {f : Kind → Parser β} (h : next p = .ok (t, r))
    (hus : us = [] → ¬ c) (hf : Echo x n c p q us w (f t.kind) b) :
    Echo x n c p q us w (peekKind >>= f) b := by
  rw [peekKind, bind_assoc]
  refine .peek_bind h hus ?_
  intro t' hk
  rw [pure_bind, hk]
  exact hf

theorem expectPeek_echo {f : Token → Parser β} (h : next p = .ok (t, r)) (hk : t.kind = k)
    (hus : us = [] → ¬ c) (hf : ∀ t', Echo x n c p q us w (f t') b) :
    Echo x n c p q us w (expectPeek k >>= f) b := by
  rw [expectPeek, bind_assoc]
  refine .peek_bind h hus ?_
  intro t' hk'
  rw [if_pos (hk'.trans hk), pure_bind]
  exact hf t'

theorem optional_echo {o : Option Token} (h : optional k p = .ok (o, q)) :
    Echo x n False p q o.toList 0 (optional k) (o.map (Token.relayout x.layout)) := by
  rcases optional_ok h with ⟨t, rfl, ht⟩ | ⟨rfl, rfl, t, r, ht, hk⟩
  · obtain ⟨hnext, hk⟩ := expect_ok_iff.mp ht
    refine .peekKind_bind hnext (by simp) ?_
    rw [if_pos hk]
    exact .cons (next_echo hnext) .pure
  · refine .peekKind_bind ht (by simp) ?_
    rw [if_neg hk]
    exact .pure

/-- A token that is looked for after a branch of a conditional, and not there. The second text does not have
    it either, also where the common part ends. -/
theorem optional_else_echo (h : next p = .ok (t, r)) (hk : t.kind ≠ .word .else) :
    Echo x n True p p [] 0 (optional (.word .else)) none := by
  constructor
  · intro p' ts _ htwin _
    cases ts with
    | nil =>
        cases htwin
        obtain ⟨t', r', hnext, hk'⟩ := x.goesOn
        exact ⟨_, optional_of_ne hnext hk', .done, Nat.le_refl _, Nat.le_refl _⟩
    | cons s ss =>
        obtain ⟨t', r', hnext, hk'⟩ := htwin.shows (List.cons_ne_nil _ _) h
        refine ⟨p', optional_of_ne hnext ?_, htwin, Nat.le_refl _, Nat.le_refl _⟩
        rw [hk']
        exact hk
  · intro p' ts _ _ hw
    exact absurd hw (Nat.not_lt_zero _)

/-- The innermost level refuses whatever is there. -/
theorem tooDeep_echo (hus : us ≠ []) (hw : 0 < w) : Echo x 0 c p q us w tooDeep b := by
  constructor
  · intro p' ts _ _ hle
    omega
  · intro p' ts hts htwin _
    obtain ⟨u, us, rfl⟩ := List.exists_cons_of_ne_nil hus
    obtain ⟨_, _, t', r', _, hnext, _⟩ := htwin.ahead
    refine ⟨t'.fault .nestedTooDeeply [], ?_, rfl⟩
    rw [tooDeep, bind_of_ok (peek_of_next hnext)]
    rfl

end Tokens

/-! ## Looking further ahead -/

section LookAhead

variable {n : Nat} {b : Bool}

/-- What a test finds. -/
def finds (test : Parser Bool) (p : Place) : Bool :=
  match test p with
  | .ok (found, _) => found
  | .error _ => false

theorem lookAhead_eq (test : Parser Bool) (p : Place) : lookAhead test p = .ok (finds test p, p) := by
  unfold lookAhead finds
  cases test p <;> rfl

theorem finds_next {f : Token → Parser Bool} (h : next p = .ok (t, q)) :
    finds (next >>= f) p = finds (f t) q := by
  unfold finds
  rw [bind_of_ok h]

/-- A test that finds the same wherever the same is ahead. -/
theorem lookAhead_echo {test : Parser Bool} (hrun : lookAhead test p = .ok (b, q))
    (h : ∀ {p' t ts}, Twin x p p' (t :: ts) → finds test p' = finds test p) :
    Echo x n False p q [] 0 (lookAhead test) b := by
  rw [lookAhead_eq] at hrun
  cases hrun
  constructor
  · intro p' ts hts htwin _
    cases ts with
    | nil => exact (hts rfl).elim
    | cons t ts =>
        refine ⟨p', ?_, htwin, Nat.le_refl _, Nat.le_refl _⟩
        rw [lookAhead_eq, h htwin]
  · intro p' ts _ _ hw
    exact absurd hw (Nat.not_lt_zero _)

theorem atReceiver_echo (h : atReceiver p = .ok (b, q)) : Echo x n False p q [] 0 atReceiver b := by
  refine lookAhead_echo h ?_
  intro p' t ts htwin
  obtain ⟨colon, r, colon', r', hp, hp', hk, hgo⟩ := htwin.ahead
  rw [finds_next hp, finds_next hp', hk]
  by_cases hcolon : colon.kind = .punct .colon
  · rw [if_pos hcolon]
    rw [hcolon] at hgo
    obtain ⟨name, s, name', s', hr, hr', hk, hgo⟩ := hgo.ahead rfl rfl
    rw [finds_next hr, finds_next hr', hk]
    by_cases hname : name.kind = .identifier
    · rw [if_pos hname]
      rw [hname] at hgo
      obtain ⟨brace, u, brace', u', hs, hs', hk, _⟩ := hgo.ahead rfl rfl
      rw [finds_next hs, finds_next hs', hk]
      rfl
    · rw [if_neg hname]
      rfl
  · rw [if_neg hcolon]
    rfl

theorem atForIn_echo (h : atForIn p = .ok (b, q)) : Echo x n False p q [] 0 atForIn b := by
  -- From the name on, with or without `var` before it.
  have hname {name name' : Token} {r r' : Place} (hk : name'.kind = name.kind)
      (hgo : GoesOn x name.kind r r') :
      finds (if name'.kind = .identifier then do
        let word ← next
        return word.kind = .word .in
      else return false) r' =
      finds (if name.kind = .identifier then do
        let word ← next
        return word.kind = .word .in
      else return false) r := by
    rw [hk]
    by_cases hname : name.kind = .identifier
    · rw [if_pos hname]
      rw [hname] at hgo
      obtain ⟨word, s, word', s', hr, hr', hk, _⟩ := hgo.ahead rfl rfl
      rw [finds_next hr, finds_next hr', hk]
      rfl
    · rw [if_neg hname]
      rfl
  refine lookAhead_echo h ?_
  intro p' t ts htwin
  obtain ⟨first, r, first', r', hp, hp', hk, hgo⟩ := htwin.ahead
  rw [finds_next hp, finds_next hp', hk]
  by_cases hvar : first.kind = .word .var
  · rw [if_pos hvar, if_pos hvar]
    rw [hvar] at hgo
    obtain ⟨name, s, name', s', hr, hr', hk, hgo⟩ := hgo.ahead rfl rfl
    rw [finds_next hr, finds_next hr']
    exact hname hk hgo
  · rw [if_neg hvar, if_neg hvar, pure_bind, pure_bind]
    exact hname hk hgo

end LookAhead

/-! ## Loops -/

section Loops

variable {α β : Type} {n : Nat} {ends : Kind → Bool} {item : Parser α} {item' : Parser β} {f : α → β}
  {tok : α → List Token} {wt : α → Nat}

/-- The greatest of the numbers that the items have. -/
def deepest (wt : α → Nat) (as : List α) : Nat := as.foldr (fun a w => max (wt a) w) 0

theorem deepest_zero (as : List α) : deepest (fun _ => 0) as = 0 := by
  induction as with
  | nil => rfl
  | cons a as ih => exact (Nat.zero_max _).trans ih

theorem many_nil_echo (hnext : next p = .ok (t, r)) (hends : ends t.kind = true) :
    Echo x n False p p [] 0 (many ends item') [] := by
  constructor
  · intro p' ts hts htwin _
    obtain ⟨t', r', hnext', hk⟩ := htwin.shows (append_ne_nil hts (by simp)) hnext
    exact ⟨p', many_nil hnext' (by rw [hk]; exact hends), htwin, Nat.le_refl _, Nat.le_refl _⟩
  · intro p' ts _ _ hw
    exact absurd hw (Nat.not_lt_zero _)

theorem many_cons_echo {b : β} {bs : List β} {w v : Nat} {s : Place} (hnext : next p = .ok (t, s))
    (hends : ends t.kind = false) (hus : us ≠ []) (hitem : Echo x n False p q us w item' b)
    (hrest : Echo x n False q r vs v (many ends item') bs) :
    Echo x n False p r (us ++ vs) (max w v) (many ends item') (b :: bs) := by
  have hlength : 0 < us.length := List.length_pos_iff.mpr hus
  refine hitem.seq (k := (b :: ·)) hrest (by simp) ?_ ?_
  · intro p' q' ts hts htwin hrun hright
    obtain ⟨t', s', hnext', hk⟩ := htwin.shows (by simp [hus]) hnext
    exact many_cons hnext' (by rw [hk]; exact hends) hrun (by omega)
  · intro p' ts hts htwin hw
    obtain ⟨t', s', hnext', hk⟩ := htwin.shows (by simp [hus]) hnext
    obtain ⟨e, hrun, he⟩ := hitem.refuse (fun hnil => hts (List.append_eq_nil_iff.mp hnil).2) htwin hw
    exact ⟨e, many_error hnext' (by rw [hk]; exact hends) hrun, he⟩

/-- Items up to a token that ends the list. Each item takes a token, so neither loop stops halfway. -/
theorem many_echo (hitem : ∀ {p q a}, item p = .ok (a, q) → Echo x n False p q (tok a) (wt a) item' (f a))
    (htok : ∀ a, tok a ≠ []) {as : List α} (h : many ends item p = .ok (as, q)) :
    Echo x n False p q (as.flatMap tok) (deepest wt as) (many ends item') (as.map f) := by
  fun_induction many ends item p generalizing as q with
  | case1 start ih =>
    obtain ⟨⟨k, p⟩, hpeek, h⟩ := except_bind_ok_iff.mp h
    obtain ⟨rfl, t, r, hnext, rfl⟩ := peekKind_ok hpeek
    dsimp only at h
    split at h
    · next hends =>
        cases except_pure_ok_iff.mp h
        exact many_nil_echo hnext hends
    · next hends =>
        have hends : ends t.kind = false := by simpa using hends
        obtain ⟨⟨a, p₁⟩, ha, h⟩ := except_bind_ok_iff.mp h
        dsimp only at h
        split at h
        · next hlt =>
            obtain ⟨⟨rest, p₂⟩, hrest, h⟩ := except_bind_ok_iff.mp h
            cases except_pure_ok_iff.mp h
            exact many_cons_echo hnext hends (htok a) (hitem ha) (ih p₁ hlt hrest)
        · next hlt =>
            cases except_pure_ok_iff.mp h
            have hlength : 0 < (tok a).length := List.length_pos_iff.mpr (htok a)
            suffices hstuck : Echo x n False p q (tok a) (wt a) (many ends item') [f a] from
              hstuck.cast (by simp) (by simp [deepest])
            constructor
            · intro p' ts hts htwin hw
              obtain ⟨_, _, ha'⟩ := (hitem ha).run hts htwin hw
              have hleft := ha'.left
              rw [remaining_eq, remaining_eq] at hlt
              omega
            · intro p' ts hts htwin hw
              obtain ⟨t', r', hnext', hk⟩ := htwin.shows (append_ne_nil hts (by simp)) hnext
              obtain ⟨e, hrun, he⟩ := (hitem ha).refuse hts htwin hw
              exact ⟨e, many_error hnext' (by rw [hk]; exact hends) hrun, he⟩

theorem commaList_nil_echo (hnext : next p = .ok (t, r)) (hends : ends t.kind = true) :
    Echo x n False p p [] 0 (commaList ends item') .nil := by
  constructor
  · intro p' ts hts htwin _
    obtain ⟨t', r', hnext', hk⟩ := htwin.shows (append_ne_nil hts (by simp)) hnext
    exact ⟨p', commaList_nil hnext' (by rw [hk]; exact hends), htwin, Nat.le_refl _, Nat.le_refl _⟩
  · intro p' ts _ _ hw
    exact absurd hw (Nat.not_lt_zero _)

section Item

variable {b : β} {w v : Nat} {s : Place} (hnext : next p = .ok (t, s)) (hends : ends t.kind = false)
  (hitem : Echo x n False p q us w item' b)
include hnext hends hitem

/-- A list fails where its first item does. -/
theorem commaList_refuse (hts : ts = [] → False) (htwin : Twin x p p' (us ++ ts)) (hw : n < w) :
    ∃ f, commaList ends item' p' = .error f ∧ f.message = .nestedTooDeeply := by
  obtain ⟨t', s', hnext', hk⟩ := htwin.shows (append_ne_nil hts (by simp)) hnext
  obtain ⟨e, hrun, he⟩ := hitem.refuse hts htwin hw
  exact ⟨e, commaList_error hnext' (by rw [hk]; exact hends) hrun, he⟩

/-- A last item, without a comma after it. -/
theorem commaList_one_echo {after : Token} (hafter : next q = .ok (after, r))
    (hcomma : after.kind ≠ .punct .comma) :
    Echo x n False p q us w (commaList ends item') (.one b) := by
  refine ⟨?_, commaList_refuse hnext hends hitem⟩
  intro p' ts hts htwin hw
  obtain ⟨t', s', hnext', hk⟩ := htwin.shows (append_ne_nil hts (by simp)) hnext
  obtain ⟨q', hrun, hq⟩ := hitem.run hts htwin hw
  obtain ⟨after', r', hafter', hk'⟩ := hq.twin.shows hts hafter
  refine ⟨q', ?_, hq⟩
  exact commaList_one hnext' (by rw [hk]; exact hends) hrun hafter' (by rw [hk']; exact hcomma)

theorem commaList_cons_echo {comma : Token} {p₁ : Place} {bs : Separated β}
    (hcomma : expect (.punct .comma) q = .ok (comma, p₁))
    (hrest : Echo x n False p₁ r vs v (commaList ends item') bs) :
    Echo x n False p r (us ++ comma :: vs) (max w v) (commaList ends item')
      (.more b (comma.relayout x.layout) bs) := by
  -- The item with its comma, on the way to the rest of the list.
  have hfirst : Echo x n True p p₁ (us ++ [comma]) w
      (item' >>= fun b => expect (.punct .comma) >>= fun comma => pure (b, comma))
      (b, comma.relayout x.layout) := by
    refine Echo.cast ?_ rfl (Nat.max_zero w)
    exact hitem.bind_cons (.cons (expect_echo hcomma) .pure)
  have hsplit : us ++ comma :: vs = us ++ [comma] ++ vs := by simp
  rw [hsplit]
  refine hfirst.seq (k := Separated.more b (comma.relayout x.layout)) hrest (by simp) ?_ ?_
  · intro p' q' ts hts htwin hrun hright
    obtain ⟨t', s', hnext', hk⟩ := htwin.shows (by simp) hnext
    simp only [bind_ok_iff, pure_ok_iff] at hrun
    obtain ⟨b', p₂, hitem', comma', _, hcomma', heq, rfl⟩ := hrun
    cases heq
    simp only [List.length_append, List.length_singleton] at hright
    exact commaList_cons hnext' (by rw [hk]; exact hends) hitem' hcomma' (by omega)
  · intro p' ts hts htwin hw
    rw [List.append_assoc] at htwin
    exact commaList_refuse hnext hends hitem (by simp) htwin hw

end Item

/-- Items with commas between them. -/
theorem commaList_echo
    (hitem : ∀ {p q a}, item p = .ok (a, q) → Echo x n False p q (tok a) (wt a) item' (f a))
    {as : Separated α} (h : commaList ends item p = .ok (as, q)) :
    Echo x n False p q (as.tokens tok) (deepest wt as.items) (commaList ends item')
      (as.relayout x.layout f) := by
  fun_induction commaList ends item p generalizing as q with
  | case1 start ih =>
    obtain ⟨⟨k, p⟩, hpeek, h⟩ := except_bind_ok_iff.mp h
    obtain ⟨rfl, t, s, hnext, rfl⟩ := peekKind_ok hpeek
    dsimp only at h
    split at h
    · next hends =>
        cases except_pure_ok_iff.mp h
        exact commaList_nil_echo hnext hends
    · next hends =>
        have hends : ends t.kind = false := by simpa using hends
        obtain ⟨⟨a, p₁⟩, ha, h⟩ := except_bind_ok_iff.mp h
        obtain ⟨⟨o, p₂⟩, hcomma, h⟩ := except_bind_ok_iff.mp h
        rcases optional_ok hcomma with ⟨comma, rfl, htaken⟩ | ⟨rfl, rfl, after, r, hafter, hk⟩
        · dsimp only at h
          split at h
          · next hlt =>
              obtain ⟨⟨rest, p₃⟩, hrest, h⟩ := except_bind_ok_iff.mp h
              cases except_pure_ok_iff.mp h
              exact commaList_cons_echo hnext hends (hitem ha) htaken (ih p₂ hlt hrest)
          · next hlt =>
              -- The comma takes something, so this happens only if the item is refused.
              cases except_pure_ok_iff.mp h
              have hlt' := (taken_of_expect htaken).length_lt (by rw [kind_of_expect htaken]; simp)
              suffices hstuck : Echo x n False p q (tok a ++ [comma]) (wt a) (commaList ends item')
                  (.more (f a) (comma.relayout x.layout) .nil) from
                hstuck.cast rfl (by simp [deepest, Separated.items])
              constructor
              · intro p' ts hts htwin hw
                rw [List.append_assoc] at htwin
                obtain ⟨_, _, ha'⟩ := (hitem ha).run (by simp) htwin hw
                have hleft := ha'.left
                dsimp only at hlt'
                rw [remaining_eq, remaining_eq] at hlt
                omega
              · intro p' ts hts htwin hw
                rw [List.append_assoc] at htwin
                exact commaList_refuse hnext hends (hitem ha) (by simp) htwin hw
        · cases except_pure_ok_iff.mp h
          exact (commaList_one_echo hnext hends (hitem ha) hafter hk).cast rfl
            (by simp [deepest, Separated.items])

end Loops

end Parser

end Respell
