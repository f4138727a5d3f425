import Respell.Proofs.Parse.ReplayStmts
import Respell.Proofs.Parse.Sequence

/-!
# Two texts with the same tokens

`Parallel` compares two texts token by token, where the tokens of the first one were taken. Where a token of
the first text stands in the second one, possibly with other text after it, it is taken there too, provided that
what follows does not lengthen it. If all tokens of a text are taken in a second one, there is a layout that makes
the ones from the others, and a parser that goes through the first text goes through the second one.
-/

namespace Respell

open Text Respell.Parser

/-! ## Marks that open literals -/

/-- A slash is lengthened by an equals sign only. -/
theorem apart_slash {c : Char} (hc : c ≠ '=') (cs : List Char) : Apart (.punct .slash) (c :: cs) := by
  have hmarks : ∀ m ∈ Punct.all, Punct.slash.chars <+: m.chars →
      m.chars.length ≤ 1 ∨ m.chars = ['/', '='] := by decide +kernel
  intro m hm
  refine Nat.le_of_not_lt fun hlt => ?_
  have hprefix : Punct.slash.chars <+: m.chars :=
    List.prefix_of_prefix_length_le (List.prefix_append _ _) hm (Nat.le_of_lt hlt)
  rcases hmarks m (mem_marks m) hprefix with hle | heq
  · exact Nat.not_le_of_lt hlt hle
  · rw [heq] at hm
    obtain ⟨r, hr⟩ := hm
    exact hc (List.cons.inj (List.cons.inj hr).2).1.symm

/-- The mark that opens a literal is known from the first two characters. -/
theorem next?_quote {c : Char} (hc : c ∈ ['"', '\'', '/']) (d : Char) :
    ∃ m : Punct, (Kind.punct m).isQuote = true ∧
      ∀ cs, Lexeme.next? (c :: d :: cs) = some (.punct m, m.chars.length) := by
  simp only [List.mem_cons, List.not_mem_nil, or_false] at hc
  rcases hc with rfl | rfl | rfl
  · have hfinal : Punct.doubleQuote.IsFinal := by decide
    exact ⟨.doubleQuote, rfl, fun cs => next?_mark (hfinal.apart (d :: cs))⟩
  · have hfinal : Punct.singleQuote.IsFinal := by decide
    exact ⟨.singleQuote, rfl, fun cs => next?_mark (hfinal.apart (d :: cs))⟩
  · by_cases hd : d = '='
    · have hfinal : Punct.divideAssign.IsFinal := by decide
      subst hd
      exact ⟨.divideAssign, rfl, fun cs => next?_mark (hfinal.apart cs)⟩
    · exact ⟨.slash, rfl, fun cs => next?_mark (apart_slash hd cs)⟩

/-! ## One token in two texts -/

theorem Token.Genuine.kind_ne {t : Token} (h : t.Genuine) : t.kind ≠ .endOfFile := by
  intro hk
  rcases h with ⟨k, hscanned, hne⟩ | hquoted
  · exact hne (hscanned.kind.symm.trans hk)
  · obtain ⟨c, _, _, _, hc⟩ := hquoted.head
    rw [hk, Quoted.kind] at hc
    split at hc <;> cases hc

theorem Token.Genuine.quoted {t : Token} (h : t.Genuine) (hk : t.kind.isQuoted = true) : t.Quoted := by
  rcases h with ⟨k, ⟨_, _, hexpect⟩, _⟩ | hquoted
  · rw [isQuoted_of_next (expect_ok_iff.mp hexpect).1] at hk
    cases hk
  · exact hquoted

/-- The tokens are of the same kind and have the same text. -/
structure Token.Alike (t t' : Token) : Prop where
  kind : t'.kind = t.kind
  text : t'.text = t.text

/-- Where `t` was taken in one text, `t'` is taken in another one in the same way. -/
inductive Matches (p p' : Place) (t t' : Token) (q q' : Place) : Prop where
  | scanned : next p = .ok (t, q) → next p' = .ok (t', q') → t.Alike t' → Matches p p' t t' q q'
  | literal {mark mark' : Token} {r r' : Place} :
      next p = .ok (mark, r) → next p' = .ok (mark', r') → mark'.kind = mark.kind →
      mark.kind.isQuote = true → quoted p = .ok (t, q) → quoted p' = .ok (t', q') → t.Alike t' →
      Matches p p' t t' q q'

section Again

variable {p p' q : Place} {t : Token}

/-- Whether a token is refused depends on its kind. -/
theorem refusal?_of_kind {u : Token} (h : t.refusal? = none) (hk : u.kind = t.kind) : u.refusal? = none := by
  unfold Token.refusal? at h ⊢
  rw [hk]
  generalize t.kind = k at h
  split at h <;> first | rfl | cases h

theorem next_of_lexeme {n : Nat} {k : Kind} (hlex : Lexeme.next? p.rest = some (k, n))
    (hrefusal : (takeToken p k n).1.refusal? = none) : next p = .ok (takeToken p k n) := by
  rw [next_eq, scan]
  rw [hlex]
  dsimp only
  rw [hrefusal]

/-- A mark that opens a literal is never refused. -/
theorem next_quote {c d : Char} {cs : List Char} (hc : c ∈ ['"', '\'', '/']) (hrest : p.rest = c :: d :: cs) :
    ∃ m : Punct, (Kind.punct m).isQuote = true ∧ (∀ ds, Lexeme.next? (c :: d :: ds) =
      some (.punct m, m.chars.length)) ∧ next p = .ok (takeToken p (.punct m) m.chars.length) := by
  obtain ⟨m, hquote, hlex⟩ := next?_quote hc d
  refine ⟨m, hquote, hlex, next_of_lexeme (by rw [hrest]; exact hlex cs) ?_⟩
  change (Token.refusal? ⟨.punct m, _, _, _⟩) = none
  revert hquote
  cases m <;> intro hquote <;> first | rfl | cases hquote

/-- A literal has at least two characters, of which the first one opens it. -/
theorem literal_chars (h : Taken p t q) (ht : t.Quoted) :
    ∃ c d cs, t.text.toList = c :: d :: cs ∧ c ∈ ['"', '\'', '/'] ∧ t.kind = Quoted.kind c := by
  obtain ⟨c, ds, htext, hc, hk, hlen⟩ := h.length? ht
  rw [h.rest_eq, htext, List.cons_append] at hlen
  have htwo := Quoted.two_le_length? hlen
  cases ds with
  | nil =>
      rw [List.length_singleton] at htwo
      omega
  | cons d cs => exact ⟨c, d, cs, htext, hc, hk⟩

/-- No token stands where a `#!` line begins. -/
theorem Taken.ne_shebang (h : Taken p t q) (ht : t.Genuine) (cs : List Char) :
    p.rest ≠ '#' :: '!' :: cs := by
  intro hrest
  cases hk : t.kind.isQuoted with
  | true =>
      obtain ⟨c, ds, htext, hc, _⟩ := (ht.quoted hk).head
      rw [h.rest_eq, htext] at hrest
      obtain ⟨rfl, _⟩ := List.cons.inj hrest
      exact absurd hc (by decide)
  | false =>
      have hlex := h.next? hk
      rw [hrest, next?_hash] at hlex
      simp [Lexeme.pragma?, Lexeme.isWhole, Lexeme.includeChars, Lexeme.declareChars] at hlex

/-- A token is what its kind and its length make it. -/
theorem Taken.takeToken_eq (h : Taken p t q) (ht : t.Genuine) : takeToken p t.kind t.text.toList.length = (t, q) := by
  cases hk : t.kind.isQuoted with
  | false =>
      cases h with
      | scanned h =>
          obtain ⟨kind, n, hlex, htake, _⟩ := next_ok h
          have hsame := (Taken.scanned h).next? hk
          rw [hlex] at hsame
          cases hsame
          exact htake
      | quoted h =>
          rw [isQuoted_of_quoted h] at hk
          cases hk
  | true =>
      cases h with
      | scanned h =>
          rw [isQuoted_of_next h] at hk
          cases hk
      | quoted h =>
          obtain ⟨n, hlen, htake⟩ := quoted_ok h
          obtain ⟨_, _, _, _, _, hsame⟩ := (Taken.quoted h).length? (ht.quoted hk)
          rw [hlen] at hsame
          cases hsame
          rw [kind_of_takeToken htake]
          exact htake

/-- A token that was taken in one text is taken wherever it stands, if it is recognised there. -/
theorem Taken.matches {r : List Char} (h : Taken p t q) (ht : t.Genuine)
    (hrest : p'.rest = t.text.toList ++ r)
    (hlex : t.kind.isQuoted = false → Lexeme.next? p'.rest = some (t.kind, t.text.toList.length))
    (hlen : t.kind.isQuoted = true → Quoted.length? p'.rest = some t.text.toList.length) :
    Matches p p' t (takeToken p' t.kind t.text.toList.length).1 q
      (takeToken p' t.kind t.text.toList.length).2 := by
  have hlike : t.Alike (takeToken p' t.kind t.text.toList.length).1 := by
    refine ⟨rfl, ?_⟩
    change p'.text t.text.toList.length = t.text
    rw [Place.text, hrest, List.take_left, String.ofList_toList]
  cases h with
  | scanned h =>
      obtain ⟨_, _, _, _, hrefusal⟩ := next_ok h
      exact .scanned h (next_of_lexeme (hlex (isQuoted_of_next h)) (refusal?_of_kind hrefusal rfl)) hlike
  | quoted h =>
      have hquoted : t.Quoted := ht.quoted (isQuoted_of_quoted h)
      obtain ⟨c, d, cs, htext, hc, hk⟩ := literal_chars (.quoted h) hquoted
      have hleft := (Taken.quoted h).rest_eq
      rw [htext, List.cons_append, List.cons_append] at hleft
      have hright := hrest
      rw [htext, List.cons_append, List.cons_append] at hright
      obtain ⟨m, hquote, hmark, hnext⟩ := next_quote hc hleft
      obtain ⟨m', _, hmark', hnext'⟩ := next_quote hc hright
      -- Both marks are what the first two characters make them.
      obtain rfl : m = m' := by
        have hsame := (hmark []).symm.trans (hmark' [])
        cases hsame
        rfl
      refine .literal hnext hnext' rfl hquote h ?_ hlike
      have hscan : scan p' = (.ok (takeToken p' (.punct m) m.chars.length).1,
          (takeToken p' (.punct m) m.chars.length).2) := by
        rw [Parser.next_eq] at hnext'
        split at hnext'
        · next hscan =>
            cases hnext'
            exact hscan
        · cases hnext'
      rw [Parser.quoted_eq]
      rw [hscan]
      change readQuoted _ p' = _
      unfold readQuoted
      have hhead : p'.rest.headD '"' = c := by rw [hright]; rfl
      rw [hlen (isQuoted_of_quoted h), hhead, hk]

end Again

/-! ## Many tokens in two texts -/

/-- The tokens `ts` were taken in one text, and the tokens `ts'` are taken in another one in the same way. -/
inductive Parallel : Place → Place → List Token → List Token → Place → Place → Prop where
  | nil {p p' : Place} : Parallel p p' [] [] p p'
  | cons {p p' q q' r r' : Place} {t t' : Token} {ts ts' : List Token} :
      Matches p p' t t' q q' → Parallel q q' ts ts' r r' → Parallel p p' (t :: ts) (t' :: ts') r r'

section Parallel

variable {p p' q q' r r' : Place} {t t' : Token} {ts ts' us us' : List Token}

theorem Matches.alike (h : Matches p p' t t' q q') : t.Alike t' := by
  cases h with
  | scanned _ _ h => exact h
  | literal _ _ _ _ _ _ h => exact h

theorem Parallel.append (h : Parallel p p' ts ts' q q') (h' : Parallel q q' us us' r r') :
    Parallel p p' (ts ++ us) (ts' ++ us') r r' := by
  induction h with
  | nil => exact h'
  | cons ht _ ih => exact .cons ht (ih h')

/-- The layout in which the tokens at the position of `t` are laid out like `t'`. -/
def Relayout.set (g : Relayout) (t t' : Token) : Relayout where
  pos u := if u.pos = t.pos then t'.pos else g.pos u
  trailing u := if u.pos = t.pos then t'.trailing else g.trailing u

theorem Token.Alike.relayout_set (h : t.Alike t') (g : Relayout) : t.relayout (g.set t t') = t' := by
  obtain ⟨hk, htext⟩ := h
  simp [Token.relayout, Relayout.set, ← hk, ← htext]

theorem relayout_set_of_ne {u : Token} (h : u.pos ≠ t.pos) (g : Relayout) :
    u.relayout (g.set t t') = u.relayout g := by
  simp [Token.relayout, Relayout.set, h]

/-- Tokens at different positions can be given any positions and any trivia. -/
theorem Parallel.exists_layout (h : Parallel p p' ts ts' q q')
    (hpos : ts.Pairwise fun t u => t.pos ≠ u.pos) : ∃ g, ts' = ts.map (Token.relayout g) := by
  induction h with
  | nil => exact ⟨.id, rfl⟩
  | @cons p p' q q' r r' t t' ts ts' ht _ ih =>
      obtain ⟨hfirst, hrest⟩ := List.pairwise_cons.mp hpos
      obtain ⟨g, rfl⟩ := ih hrest
      refine ⟨g.set t t', ?_⟩
      rw [List.map_cons, ht.alike.relayout_set]
      congr 1
      refine List.map_congr_left ?_
      intro u hu
      exact (relayout_set_of_ne (hfirst u hu).symm g).symm

/-- Texts with the same tokens, of which the last one ends a statement, are read alike. -/
theorem Parallel.twin {x : Pair} (h : Parallel p p' ts ts' x.left x.right)
    (hlayout : ts' = ts.map (Token.relayout x.layout)) (hproper : Proper ts) (hend : Concludes ts) :
    Twin x p p' ts := by
  generalize hq : x.left = q at h
  generalize hq' : x.right = q' at h
  induction h with
  | nil =>
      subst hq hq'
      exact .done
  | @cons p p' q q' r r' t t' ts ts' ht _ ih =>
      obtain ⟨rfl, rfl⟩ := List.cons.inj hlayout
      have hlast : ts = [] → endsStatement t.kind = true := by
        rintro rfl
        exact hend t rfl
      have hrest : Concludes ts := by
        intro u hu
        refine hend u ?_
        rw [List.getLast?_cons, Option.mem_def.mp hu]
        rfl
      have htwin := ih rfl hproper.tail hrest hq hq'
      cases ht with
      | scanned hp hp' _ =>
          exact .scanned hp hp' hproper.genuine.kind_ne hlast htwin
      | literal hp hp' hk hquote hquoted hquoted' _ =>
          refine .literal hp hp' hk hquote hquoted hquoted' ?_ htwin
          intro hnil
          have hends := hlast hnil
          have hk := isQuoted_of_quoted hquoted
          revert hends hk
          cases t.kind <;> intro hends hk <;> first | cases hends | cases hk

end Parallel

/-! ## Texts further on -/

/-- The same text, `d` bytes further on. -/
def Place.moved (d : Nat) (p : Place) : Place := ⟨p.offset + d, p.rest⟩

/-- The layout of the same text, `d` bytes further on. -/
def Relayout.moved (d : Nat) : Relayout := ⟨fun t => t.pos + .ofNat d, Token.trailing⟩

theorem Relayout.moved_zero : Relayout.moved 0 = .id := by
  simp [Relayout.moved, Relayout.id]

section Moved

variable {p q : Place} {t : Token} {d : Nat}

theorem Place.pos_moved (d : Nat) (p : Place) : (Place.moved d p).pos = p.pos + .ofNat d :=
  UInt32.ofNat_add ..

theorem takeToken_moved {k : Kind} {n : Nat} (h : takeToken p k n = (t, q)) :
    takeToken (Place.moved d p) k n = (t.relayout (.moved d), Place.moved d q) := by
  obtain ⟨rfl, rfl⟩ := Prod.mk.inj h
  simp only [takeToken, Token.relayout, Relayout.moved, Place.pos_moved]
  simp [scanTrivia, Place.moved, Place.advance, Place.text, Nat.add_right_comm]

theorem Taken.moved (h : Taken p t q) (ht : t.Genuine) :
    Matches p (Place.moved d p) t (t.relayout (.moved d)) q (Place.moved d q) := by
  have hlen (hk : t.kind.isQuoted = true) : Quoted.length? p.rest = some t.text.toList.length := by
    obtain ⟨_, _, _, _, _, hlen⟩ := h.length? (ht.quoted hk)
    exact hlen
  have hrest : (Place.moved d p).rest = t.text.toList ++ (t.trailing.toList ++ q.rest) := h.rest_eq
  have hmatches := h.matches ht hrest h.next? hlen
  rwa [takeToken_moved (h.takeToken_eq ht)] at hmatches

/-- A text that is read is read in the same way further on. -/
theorem Reading.moved {ts : List Token} (h : Reading p ts q) (hproper : Proper ts) :
    Parallel p (Place.moved d p) ts (ts.map (Token.relayout (.moved d))) q (Place.moved d q) := by
  induction h with
  | nil => exact .nil
  | cons ht _ ih => exact .cons (ht.moved hproper.genuine) (ih hproper.tail)

end Moved

end Respell
