import Respell.Proofs.Engine.Parse
import Respell.Proofs.Parse.Grouping
import Respell.Proofs.Parse.Limit

/-!
# Parsing ends

The loops of the parsers are written with a test: a loop goes on only if its round has left less of the
text than there was. The test makes the loops end, and it could hide a loop that stands still. Here it
is shown never to decide anything in a text shorter than 4 GiB. Each loop is stated once more as a body
without the test, whose runs may go on forever as far as their definition is concerned. Every round of
every body that goes on leaves the cursor further on in the text, so the runs are finite, and the loops of
the parsers answer what the runs answer. In a longer text this fails: a literal whose delimiter lies past
4 GiB is read from an earlier place, and a loop can come back to where it was.

The other way not to end is recursion. Parsers call each other through statements and expressions only,
and each of these counts one level of nesting. A chain of calls is cut off where the budget of levels is
used up, so what would stand at the end of a longer chain does not matter.
-/

namespace Respell.Parser

open Text

variable {σ τ ω α : Type} {p q r : Place}

/-! ## Moving ahead -/

/-- The place `q` is further on than `p`: a text that is not empty stands between them. -/
def Advances (p q : Place) : Prop :=
  ∃ w : String, w ≠ "" ∧ p.rest = w.toList ++ q.rest ∧ q.offset = p.offset + w.utf8ByteSize

theorem Advances.length_lt (h : Advances p q) : q.rest.length < p.rest.length := by
  obtain ⟨w, hw, hrest, _⟩ := h
  have hpos : 0 < w.toList.length := List.length_pos_iff.mpr (by simpa using hw)
  rw [hrest, List.length_append]
  omega

/-- A reading that leaves less of the text has advanced. -/
theorem advances_of_lt {ts : List Token} (h : Reading p ts q) (hlt : q.rest.length < p.rest.length) :
    Advances p q := by
  refine ⟨String.join (ts.map Token.source), ?_, h.rest, h.offset⟩
  intro hnil
  have hrest := h.rest
  rw [hnil] at hrest
  rw [hrest] at hlt
  exact Nat.lt_irrefl _ hlt

/-- Where the text has not ended, every token that is taken advances. -/
theorem advances_of_reading {ts : List Token} (h : Reading p ts q) (hts : ts ≠ [])
    (hp : p.rest ≠ []) : Advances p q := by
  refine advances_of_lt h ?_
  cases h with
  | nil => exact absurd rfl hts
  | cons ht hrest =>
      have hlt := ht.length_lt (fun hk => hp (ht.endOfFile hk))
      have hle := hrest.length_le
      omega

/-- What is read after advancing does not lead back. -/
theorem Advances.append {ts : List Token} (h : Advances p q) (hread : Reading q ts r) :
    Advances p r := by
  obtain ⟨w, hw, hrest, hoffset⟩ := h
  refine ⟨w ++ String.join (ts.map Token.source), ?_, ?_, ?_⟩
  · intro hnil
    exact hw (String.append_eq_empty_iff.mp hnil).1
  · rw [hrest, hread.rest, String.toList_append, List.append_assoc]
  · rw [hread.offset, hoffset, String.utf8ByteSize_append, Nat.add_assoc]

/-- A token of any kind but the end of the file is expected in vain at the end of the text. -/
theorem rest_ne_nil_of_expect {k : Kind} {t : Token} (hk : k ≠ .endOfFile)
    (h : expect k p = .ok (t, q)) : p.rest ≠ [] := by
  intro hnil
  obtain ⟨hnext, hkind⟩ := expect_ok_iff.mp h
  rw [next_of_nil hnil] at hnext
  cases hnext
  exact hk hkind.symm

/-- Wherever the parser succeeds, it has advanced. -/
def Advancing (x : Parser α) : Prop :=
  ∀ {p : Place} {a : α} {q : Place}, x p = .ok (a, q) → Advances p q

/-! ## Loops without a test -/

/-- The body of a loop: from the state of the loop, one round either goes on with another state or
    leaves with a result. -/
abbrev Loop (σ ω α : Type) := ω → ParserOf σ (ω ⊕ α)

/-- The finite runs of a loop, with the number of rounds after which they went on. Nothing makes a run
    finite but that it comes to a fault or leaves. -/
inductive Runs (body : Loop σ ω α) : Nat → ω → σ → Except Fault (α × σ) → Prop where
  | fault {w : ω} {s : σ} {f : Fault} : body w s = .error f → Runs body 0 w s (.error f)
  | leave {w : ω} {s s' : σ} {a : α} : body w s = .ok (.inr a, s') → Runs body 0 w s (.ok (a, s'))
  | again {n : Nat} {w w' : ω} {s s' : σ} {result : Except Fault (α × σ)} :
      body w s = .ok (.inl w', s') → Runs body n w' s' result → Runs body (n + 1) w s result

theorem pure_apply (a : α) (s : σ) : (pure a : ParserOf σ α) s = .ok (a, s) := rfl

/-- The function does one round, and itself again where the round goes on and has left less of the text.
    Where the round has not, the function makes do with the state it has come to. -/
def Tests [Scanner σ] (body : Loop σ ω α) (stop : ω → α) (x : ω → ParserOf σ α) : Prop :=
  ∀ w s, x w s = body w s >>= fun o => o.1.elim
    (fun w' => if Scanner.remaining o.2 < Scanner.remaining s then x w' o.2 else .ok (stop w', o.2))
    (fun a => .ok (a, o.2))

/-- Every round that goes on leads a cursor further on in the text. -/
def Progresses (body : Loop Cursor ω α) : Prop :=
  ∀ {w : ω} {c : Cursor} {p : Place} {w' : ω} {c' : Cursor}, c.Follows p →
    body w c = .ok (.inl w', c') → ∃ q, c'.Follows q ∧ Advances p q

/-- The test decides nothing in a loop that progresses: what solves the equation of the loop is the outcome
    of a finite run. The run goes on after no more rounds than there are characters left. -/
theorem runs_of_tests {body : Loop Cursor ω α} {stop : ω → α} {x : ω → ParserOf Cursor α}
    (hbody : Progresses body) (hx : Tests body stop x) (w : ω) {c : Cursor} {p : Place}
    (h : c.Follows p) : ∃ n ≤ p.rest.length, Runs body n w c (x w c) := by
  -- By recursion on what is left of the text: a round that goes on has advanced, so the test is passed.
  rw [hx w c]
  cases hround : body w c with
  | error f => exact ⟨0, Nat.zero_le _, .fault hround⟩
  | ok outcome =>
      obtain ⟨o, c'⟩ := outcome
      cases o with
      | inr a => exact ⟨0, Nat.zero_le _, .leave hround⟩
      | inl w' =>
          obtain ⟨q, hq, hadvances⟩ := hbody h hround
          have hlt := hadvances.length_lt
          have htest : c'.remaining < c.remaining := by rwa [hq.remaining, h.remaining]
          obtain ⟨n, hn, hruns⟩ := runs_of_tests hbody hx w' hq
          refine ⟨n + 1, by omega, ?_⟩
          show Runs body (n + 1) w c (if c'.remaining < c.remaining then x w' c' else _)
          rw [if_pos htest]
          exact .again hround hruns
termination_by p.rest.length

/-- A run that ends with a result left the loop in its last round. -/
theorem Runs.last {body : Loop Cursor ω α} (hbody : Progresses body) {n : Nat} {w : ω} {c c' : Cursor} {a : α}
    (h : Runs body n w c (.ok (a, c'))) {p : Place} (hc : c.Follows p) :
    ∃ w₁ c₁ p₁, c₁.Follows p₁ ∧ body w₁ c₁ = .ok (.inr a, c') := by
  -- Along the run the cursor stays in step with a place, which is what the last round is asked about.
  generalize hresult : Except.ok (a, c') = result at h
  induction h generalizing p with
  | fault _ => cases hresult
  | leave hround =>
      cases hresult
      exact ⟨_, _, p, hc, hround⟩
  | again hround _ ih =>
      obtain ⟨q, hq, _⟩ := hbody hc hround
      exact ih hq hresult

/-- The parser `x` is the loop with this body: each round advances or leaves, and wherever a cursor stands
    the loop ends with the answer of the parser, after no more rounds than there are characters left. -/
structure Realizes (body : Loop Cursor ω α) (init : ω) (x : ParserOf Cursor α) : Prop where
  progresses : Progresses body
  runs : ∀ {c : Cursor} {p : Place}, c.Follows p → ∃ n ≤ p.rest.length, Runs body n init c (x c)

/-- The rounds of a loop over places that go on advance. -/
def LoopAdvances (body : Loop Place ω α) : Prop :=
  ∀ {w : ω} {p : Place} {w' : ω} {q : Place}, body w p = .ok (.inl w', q) → Advances p q

/-- A cursor does the rounds that its place does. So it is enough that these advance. -/
theorem realizes {body : Loop Cursor ω α} {body' : Loop Place ω α} {stop : ω → α}
    {x : ω → ParserOf Cursor α} {init : ω} {y : ParserOf Cursor α}
    (hagrees : ∀ w, Agrees (fun _ => Cursor.Follows) 0 (body w) (body' w)) (hadvances : LoopAdvances body')
    (hx : Tests body stop x) (hinit : ∀ c, x init c = y c) : Realizes body init y := by
  have hbody : Progresses body := by
    intro w c p w' c' h hround
    obtain ⟨q, hround', hq⟩ := ((hagrees w).alike (Nat.le_refl 0) h).ok_left hround
    exact ⟨q, hq, hadvances hround'⟩
  refine ⟨hbody, ?_⟩
  intro c p h
  rw [← hinit c]
  exact runs_of_tests hbody hx init h

/-! ## The loops of the parsers -/

variable [Scanner σ] [Scanner τ] {R : Nat → σ → τ → Prop} [Simulation R] {n : Nat}

section Many

/-- One round of `many`, with the items that have been read. -/
def manyBody (ends : Kind → Bool) (item : ParserOf σ α) : Loop σ (List α) (List α) := fun before => do
  if ends (← peekKind) then return .inr before
  else return .inl (before ++ [← item])

variable {ends : Kind → Bool}

theorem manyBody_agrees {item : ParserOf σ α} {item' : ParserOf τ α} (h : Agrees R n item item')
    (before : List α) : Agrees R n (manyBody ends item before) (manyBody ends item' before) := by
  refine .bind .peekKind fun k => ?_
  split
  · exact .pure
  · exact .bind h fun _ => .pure

theorem manyBody_advances {item : Parser α} (hitem : Advancing item) :
    LoopAdvances (manyBody ends item) := by
  intro before p after q h
  rw [manyBody, bind_ok_iff] at h
  obtain ⟨k, p', hpeek, h⟩ := h
  obtain ⟨rfl, _⟩ := peekKind_ok hpeek
  split at h
  · cases (pure_ok_iff.mp h).1
  · obtain ⟨a, q', hrun, h⟩ := bind_ok_iff.mp h
    obtain ⟨_, rfl⟩ := pure_ok_iff.mp h
    exact hitem hrun

theorem many_tests (item : ParserOf σ α) : Tests (manyBody ends item) id fun before s =>
    (many ends item s).map fun o => (before ++ o.1, o.2) := by
  intro before s
  -- Both sides begin with the same round, so the cases are those of the round. Where it goes on, they differ in
  -- where the item that was read is put: before what follows, or after what came before.
  simp only [many.eq_def ends item s, manyBody, bind, StateT.bind, Except.bind]
  cases peekKind s with
  | error f => rfl
  | ok o =>
      obtain ⟨k, seen⟩ := o
      dsimp only
      cases ends k with
      | true => exact congrArg (fun l => Except.ok (l, seen)) (List.append_nil before)
      | false =>
          simp only [Bool.false_eq_true, if_false, StateT.bind, bind, Except.bind]
          cases item seen with
          | error f => rfl
          | ok o =>
              obtain ⟨a, s'⟩ := o
              simp only [pure_apply, Sum.elim_inl]
              simp only [pure, Except.pure]
              split
              · cases many ends item s' <;> simp [Except.map]
              · rfl

theorem many_realizes {item : ParserOf Cursor α} {item' : Parser α}
    (hagrees : Agrees (fun _ => Cursor.Follows) 0 item item') (hitem : Advancing item') :
    Realizes (manyBody ends item) [] (many ends item) := by
  refine realizes (manyBody_agrees hagrees) (manyBody_advances hitem) (many_tests item) fun c => ?_
  cases many ends item c <;> rfl

end Many

section CommaList

/-- Items with their commas before the rest of a list. -/
def separate (before : List (α × Token)) (rest : Separated α) : Separated α :=
  before.foldr (fun x list => .more x.1 x.2 list) rest

/-- One round of `commaList`, with the items and the commas that have been read. -/
def commaBody (ends : Kind → Bool) (item : ParserOf σ α) : Loop σ (List (α × Token)) (Separated α) :=
  fun before => do
    if ends (← peekKind) then return .inr (separate before .nil)
    else
      let a ← item
      match ← optional (.punct .comma) with
      | none => return .inr (separate before (.one a))
      | some comma => return .inl (before ++ [(a, comma)])

variable {ends : Kind → Bool}

theorem commaBody_agrees {item : ParserOf σ α} {item' : ParserOf τ α} (h : Agrees R n item item')
    (before : List (α × Token)) : Agrees R n (commaBody ends item before) (commaBody ends item' before) := by
  refine .bind .peekKind fun k => ?_
  split
  · exact .pure
  · refine .bind h fun a => .bind .optional fun o => ?_
    cases o <;> exact .pure

theorem commaBody_advances {item : Parser α} (hitem : Advancing item) :
    LoopAdvances (commaBody ends item) := by
  intro before p after r h
  rw [commaBody, bind_ok_iff] at h
  obtain ⟨k, p', hpeek, h⟩ := h
  obtain ⟨rfl, _⟩ := peekKind_ok hpeek
  split at h
  · cases (pure_ok_iff.mp h).1
  · obtain ⟨a, q, hrun, h⟩ := bind_ok_iff.mp h
    obtain ⟨o, r', hcomma, h⟩ := bind_ok_iff.mp h
    rcases optional_ok hcomma with ⟨comma, rfl, htaken⟩ | ⟨rfl, _⟩
    · obtain ⟨_, rfl⟩ := pure_ok_iff.mp h
      exact (hitem hrun).append (.single (taken_of_expect htaken))
    · cases (pure_ok_iff.mp h).1

theorem commaList_tests (item : ParserOf σ α) : Tests (commaBody ends item) (fun before => separate before .nil)
    fun before s => (commaList ends item s).map fun o => (separate before o.1, o.2) := by
  intro before s
  simp only [commaList.eq_def ends item s, commaBody, bind, StateT.bind, Except.bind]
  cases peekKind s with
  | error f => rfl
  | ok o =>
      obtain ⟨k, seen⟩ := o
      dsimp only
      cases ends k with
      | true => rfl
      | false =>
          simp only [Bool.false_eq_true, if_false, StateT.bind, bind, Except.bind]
          cases item seen with
          | error f => rfl
          | ok o =>
              obtain ⟨a, s₁⟩ := o
              dsimp only
              cases optional (.punct .comma) s₁ with
              | error f => rfl
              | ok o =>
                  obtain ⟨_ | comma, s₂⟩ := o
                  · rfl
                  · simp only [pure_apply, Sum.elim_inl]
                    simp only [pure, Except.pure]
                    split
                    · cases commaList ends item s₂ <;> simp [Except.map, separate]
                    · simp [Except.map, separate]

theorem commaList_realizes {item : ParserOf Cursor α} {item' : Parser α}
    (hagrees : Agrees (fun _ => Cursor.Follows) 0 item item') (hitem : Advancing item') :
    Realizes (commaBody ends item) [] (commaList ends item) := by
  refine realizes (commaBody_agrees hagrees) (commaBody_advances hitem) (commaList_tests item) fun c => ?_
  cases commaList ends item c <;> rfl

end CommaList

section Extend

/-- One round of `extend`. -/
def extendBody (round : α → ParserOf σ (Option α)) : Loop σ α α := fun a => do
  match ← round a with
  | none => return .inr a
  | some b => return .inl b

omit [Scanner σ] [Scanner τ] [Simulation R] in
theorem extendBody_agrees {round : α → ParserOf σ (Option α)} {round' : α → ParserOf τ (Option α)}
    (h : ∀ a, Agrees R n (round a) (round' a)) (a : α) :
    Agrees R n (extendBody round a) (extendBody round' a) := by
  refine .bind (h a) fun o => ?_
  cases o <;> exact .pure

theorem extendBody_advances {round : α → Parser (Option α)}
    (hround : ∀ {a b p q}, round a p = .ok (some b, q) → Advances p q) : LoopAdvances (extendBody round) := by
  intro a p b q h
  obtain ⟨o, q', hrun, h⟩ := bind_ok_iff.mp h
  cases o with
  | none => cases (pure_ok_iff.mp h).1
  | some b' =>
      obtain ⟨_, rfl⟩ := pure_ok_iff.mp h
      exact hround hrun

theorem extend_tests (round : α → ParserOf σ (Option α)) : Tests (extendBody round) id (extend round) := by
  intro a s
  simp only [extend.eq_def round a s, extendBody, bind, StateT.bind, Except.bind]
  cases round a s with
  | error f => rfl
  | ok o => obtain ⟨_ | b, s'⟩ := o <;> rfl

theorem extend_realizes {round : α → ParserOf Cursor (Option α)} {round' : α → Parser (Option α)}
    (hagrees : ∀ a, Agrees (fun _ => Cursor.Follows) 0 (round a) (round' a))
    (hround : ∀ {a b p q}, round' a p = .ok (some b, q) → Advances p q) (a : α) :
    Realizes (extendBody round) a (extend round a) :=
  realizes (extendBody_agrees hagrees) (extendBody_advances hround) (extend_tests round) fun _ => rfl

end Extend

section Branches

/-- Branches before the rest of a conditional. -/
def chain (before : List (Token × Guarded)) (rest : Ladder) : Ladder :=
  before.foldr (fun x others => .branch x.1 x.2 others) rest

/-- One round of `ladder`, with the branches that have been read. -/
def ladderBody (inner : InnerOf σ) : Loop σ (List (Token × Guarded)) Ladder := fun before => do
  match ← optional (.word .else) with
  | none => return .inr (chain before .done)
  | some keyword =>
    if (← peekKind) = .word .if then return .inl (before ++ [(keyword, ← guarded inner .if)])
    else return .inr (chain before (.otherwise keyword (← block inner)))

theorem ladderBody_agrees {inner : InnerOf σ} {inner' : InnerOf τ} (h : InnerAgrees R n n inner inner')
    (before : List (Token × Guarded)) : Agrees R n (ladderBody inner before) (ladderBody inner' before) := by
  refine .bind .optional fun o => ?_
  cases o with
  | none => exact .pure
  | some keyword =>
      refine .bind .peekKind fun k => ?_
      split
      · exact .bind (guarded_agrees h).mono fun _ => .pure
      · exact .bind (block_agrees h).mono fun _ => .pure

theorem ladderBody_advances {inner : Inner} (hinner : InnerReads inner) :
    LoopAdvances (ladderBody inner) := by
  intro before p after r h
  rw [ladderBody, bind_ok_iff] at h
  obtain ⟨o, q, helse, h⟩ := h
  -- Only a round that has taken an `else` and has seen an `if` after it goes on.
  rcases optional_ok helse with ⟨keyword, rfl, hkeyword⟩ | ⟨rfl, _⟩
  · rw [bind_ok_iff] at h
    obtain ⟨k, q', hpeek, h⟩ := h
    obtain ⟨rfl, _⟩ := peekKind_ok hpeek
    split at h
    · obtain ⟨g, r', hguarded, h⟩ := bind_ok_iff.mp h
      obtain ⟨_, rfl⟩ := pure_ok_iff.mp h
      exact advances_of_reading (.cons (taken_of_expect hkeyword) (guarded_reading hinner hguarded))
        (List.cons_ne_nil _ _) (rest_ne_nil_of_expect Kind.noConfusion hkeyword)
    · obtain ⟨body, r', _, h⟩ := bind_ok_iff.mp h
      cases (pure_ok_iff.mp h).1
  · cases (pure_ok_iff.mp h).1

theorem ladder_tests (inner : InnerOf σ) : Tests (ladderBody inner) (fun before => chain before .done)
    fun before s => (ladder inner s).map fun o => (chain before o.1, o.2) := by
  intro before s
  simp only [ladder.eq_def inner s, ladderBody, bind, StateT.bind, Except.bind]
  cases optional (.word .else) s with
  | error f => rfl
  | ok o =>
      obtain ⟨_ | keyword, s₁⟩ := o
      · rfl
      · simp only [StateT.bind, bind, Except.bind]
        cases peekKind s₁ with
        | error f => rfl
        | ok o =>
            obtain ⟨k, s₂⟩ := o
            dsimp only
            split
            · simp only [StateT.bind, bind, Except.bind]
              cases guarded inner .if s₂ with
              | error f => rfl
              | ok o =>
                  obtain ⟨g, s₃⟩ := o
                  simp only [pure_apply, Sum.elim_inl]
                  simp only [pure, Except.pure]
                  split
                  · cases ladder inner s₃ <;> simp [Except.map, chain]
                  · simp [Except.map, chain]
            · simp only [StateT.bind, bind, Except.bind]
              cases block inner s₂ <;> rfl

theorem ladder_realizes {inner : InnerOf Cursor} {inner' : Inner}
    (hagrees : InnerAgrees (fun _ => Cursor.Follows) 0 0 inner inner') (hinner : InnerReads inner') :
    Realizes (ladderBody inner) [] (ladder inner) := by
  refine realizes (ladderBody_agrees hagrees) (ladderBody_advances hinner) (ladder_tests inner) fun c => ?_
  cases ladder inner c <;> rfl

end Branches

/-! ## What the rounds read -/

section Items

variable {inner : Inner} {colon : Colon}

theorem member_advancing : Advancing member := by
  intro p m q h
  obtain ⟨_, hdot, _⟩ := member_ok h
  exact advances_of_reading (member_reading h) (List.cons_ne_nil _ _)
    (rest_ne_nil_of_expect Kind.noConfusion hdot)

theorem pragmaItem_advancing (groups : Bool) : Advancing (pragmaItem groups) := by
  intro p i q h
  have hread := pragmaItem_reading h
  cases pragmaItem_ok h with
  | group _ hcolon _ =>
      exact advances_of_reading hread (List.cons_ne_nil _ _)
        (rest_ne_nil_of_expect Kind.noConfusion hcolon)
  | single hname =>
      exact advances_of_reading hread (List.cons_ne_nil _ _)
        (rest_ne_nil_of_expect Kind.noConfusion hname)

/-- No key of an object begins at the end of the text. -/
theorem rest_ne_nil_of_key {t : Token} (h : key p = .ok (t, q)) : p.rest ≠ [] := by
  rcases key_ok h with hname | ⟨mark, r, hnext, hmark, _⟩
  · exact rest_ne_nil_of_expect Kind.noConfusion hname
  · intro hnil
    rw [next_of_nil hnil] at hnext
    cases hnext
    rcases hmark with hmark | hmark <;> cases hmark

variable (hinner : InnerReads inner)
include hinner

theorem decl_advancing : Advancing (decl inner) := by
  intro p d q h
  obtain ⟨_, hname, _⟩ := decl_ok h
  have htokens : d.tokens ≠ [] := by
    obtain ⟨name, init⟩ := d
    cases init <;> exact List.cons_ne_nil _ _
  exact advances_of_reading (decl_reading hinner h) htokens
    (rest_ne_nil_of_expect Kind.noConfusion hname)

theorem entry_advancing : Advancing (entry inner colon) := by
  intro p e q h
  obtain ⟨_, _, hkey, _, _⟩ := entry_ok h
  exact advances_of_reading (entry_reading hinner h) (List.cons_ne_nil _ _) (rest_ne_nil_of_key hkey)

theorem clause_advancing : Advancing (clause inner) := by
  intro p c q h
  obtain ⟨_, _, hhead, _, _⟩ := clause_ok h
  obtain ⟨keyword, test, colon, body⟩ := c
  have hp : p.rest ≠ [] := by
    cases hhead with
    | case hcase _ => exact rest_ne_nil_of_expect Kind.noConfusion hcase
    | default hdefault => exact rest_ne_nil_of_expect Kind.noConfusion hdefault
  exact advances_of_reading (clause_reading hinner h) (by simp [Clause.tokens]) hp

/-- A round that adds a suffix, or makes a name a rest parameter, has taken its tokens. -/
theorem suffix?_advances {threshold : Precedence} {e e' : Expr}
    (h : suffix? inner colon threshold e p = .ok (some e', q)) : Advances p q := by
  have hrule := suffix?_ok h
  have hlt := hrule.length_lt hinner
  cases hrule with
  | operator _ _ _ hsuffix => exact advances_of_lt (hsuffix.reading hinner) hlt
  | tight _ _ hsuffix => exact advances_of_lt (hsuffix.reading hinner) hlt
  | rest _ hdots => exact advances_of_lt (.single (taken_of_expect hdots)) hlt

end Items

/-- At the end of the text no level reads an expression: it is refused there, or none begins. -/
theorem level_expression_of_nil (n : Nat) (colon : Colon) (threshold : Precedence) (offset : Nat) :
    ∃ f, (level n).expression colon threshold (⟨offset, []⟩ : Place) = .error f := by
  cases n with
  | zero => exact ⟨_, rfl⟩
  | succ n => exact ⟨_, expression_of_nil _ _ _ _⟩

theorem level_statement_of_nil (n : Nat) (offset : Nat) :
    ∃ f, (level n).statement (⟨offset, []⟩ : Place) = .error f := by
  cases n with
  | zero => exact ⟨_, rfl⟩
  | succ n =>
      obtain ⟨f, hf⟩ := level_expression_of_nil n .free .lowest offset
      exact ⟨f, statement_of_nil hf⟩

theorem level_expression_advancing (n : Nat) (colon : Colon) (threshold : Precedence) :
    Advancing ((level n).expression colon threshold) := by
  intro p e q h
  -- At the end of the text there is nothing to advance over, but no expression is read there either.
  refine advances_of_reading ((level_reads n).expression h) e.tokens_ne_nil ?_
  intro hnil
  obtain ⟨offset, rest⟩ := p
  subst hnil
  obtain ⟨f, hf⟩ := level_expression_of_nil n colon threshold offset
  rw [hf] at h
  cases h

theorem level_statement_advancing (n : Nat) : Advancing (level n).statement := by
  intro p s q h
  refine advances_of_reading ((level_reads n).statement h) s.tokens_ne_nil ?_
  intro hnil
  obtain ⟨offset, rest⟩ := p
  subst hnil
  obtain ⟨f, hf⟩ := level_statement_of_nil n offset
  rw [hf] at h
  cases h

/-! ## All the loops -/

/-- The loops of the parsers with these parsers inside. -/
structure LoopsEnd (inner : InnerOf Cursor) : Prop where
  /-- The statements of a program. -/
  programStatements : Realizes (manyBody (fun k => k = .endOfFile) inner.statement) []
    (many (fun k => k = .endOfFile) inner.statement)
  /-- The statements of a block. -/
  blockStatements : Realizes (manyBody endsBlock inner.statement) [] (many endsBlock inner.statement)
  /-- The clauses of a `switch`. -/
  clauses : Realizes (manyBody (fun k => k = .punct .closeBrace) (clause inner)) []
    (many (fun k => k = .punct .closeBrace) (clause inner))
  /-- The statements of a clause. -/
  clauseStatements : Realizes (manyBody endsClause inner.statement) []
    (many endsClause inner.statement)
  /-- The branches of a conditional after its first one. -/
  branches : Realizes (ladderBody inner) [] (ladder inner)
  /-- The names after `var`. -/
  decls : Realizes (commaBody (fun _ => false) (decl inner)) []
    (commaList (fun _ => false) (decl inner))
  /-- The names of a pragma. -/
  pragmaItems : ∀ groups, Realizes (commaBody (fun _ => false) (pragmaItem groups)) []
    (commaList (fun _ => false) (pragmaItem groups))
  /-- The expressions between delimiters, and those in the head of a `for`. -/
  expressions : ∀ colon, Realizes (commaBody endsList (inner.expression colon .lowest)) []
    (expressions inner colon)
  /-- The entries of an object. -/
  entries : ∀ colon, Realizes (commaBody (fun k => k = .punct .closeBrace) (entry inner colon)) []
    (commaList (fun k => k = .punct .closeBrace) (entry inner colon))
  /-- The operators, the members and the calls after a head. -/
  suffixes : ∀ colon threshold e, Realizes (extendBody (suffix? inner colon threshold)) e
    (extend (suffix? inner colon threshold) e)
  /-- The members of the name after `new`. -/
  members : Realizes (manyBody (fun k => k ≠ .punct .dot) member) []
    (many (fun k => k ≠ .punct .dot) member)

/-- On every level, every loop ends because its rounds come to an end, never by its test. -/
theorem level_loopsEnd (n : Nat) : LoopsEnd (level n) :=
  have hagrees : InnerAgrees (fun _ => Cursor.Follows) 0 0 (level n) (level n) := level_agrees n 0
  { programStatements := many_realizes hagrees.statement (level_statement_advancing n)
    blockStatements := many_realizes hagrees.statement (level_statement_advancing n)
    clauses := many_realizes (clause_agrees hagrees) (clause_advancing (level_reads n))
    clauseStatements := many_realizes hagrees.statement (level_statement_advancing n)
    branches := ladder_realizes hagrees (level_reads n)
    decls := commaList_realizes (decl_agrees hagrees) (decl_advancing (level_reads n))
    pragmaItems := fun groups => commaList_realizes pragmaItem_agrees (pragmaItem_advancing groups)
    expressions := fun colon =>
      commaList_realizes (hagrees.expression _ _) (level_expression_advancing n colon .lowest)
    entries := fun _ => commaList_realizes (entry_agrees hagrees) (entry_advancing (level_reads n))
    suffixes := fun _ _ e =>
      extend_realizes (fun e => (suffix?_agrees hagrees e).mono) (suffix?_advances (level_reads n)) e
    members := many_realizes member_agrees member_advancing }

/-! ## Recursion -/

/-- Reads one level further in, at the depth `depth`, unless the budget is used up. -/
def enter (depth : Nat) (x : ParserOf σ α) : ParserOf σ α :=
  if maxNesting < depth then tooDeep else x

/-- The parsers at a depth, as they call those at the next depth and so on, up to a number of calls.
    What the last of them calls is not said. -/
def unroll (last : InnerOf σ) : Nat → Nat → InnerOf σ
  | 0, _ => last
  | calls + 1, depth =>
    { statement := enter (depth + 1) (statement (unroll last calls (depth + 1)))
      expression := fun colon threshold =>
        enter (depth + 1) (expression (unroll last calls (depth + 1)) colon threshold) }

/-- Every call lowers the budget that remains, so more calls than the budget are never made: the
    parsers do not depend on what such calls would meet. -/
theorem unroll_eq_level (last : InnerOf σ) {calls depth : Nat} (h : maxNesting - depth < calls) :
    unroll last calls depth = level (maxNesting - depth) := by
  induction calls generalizing depth with
  | zero => exact absurd h (Nat.not_lt_zero _)
  | succ calls ih =>
      rw [unroll]
      -- At the depth of the budget both refuse, so what is further in is not asked.
      by_cases hdepth : depth < maxNesting
      · have hbudget : maxNesting - depth = maxNesting - (depth + 1) + 1 := by omega
        rw [ih (by omega), hbudget, level]
        simp only [enter, if_neg (Nat.not_lt.mpr (Nat.succ_le_of_lt hdepth))]
      · have hbudget : maxNesting - depth = 0 := by omega
        rw [hbudget, level]
        simp only [enter, if_pos (show maxNesting < depth + 1 by omega)]

end Respell.Parser

namespace Respell

open Text Respell.Parser

/-- A loop over items leaves before a token that ends it, and that token is taken next. -/
theorem manyBody_leave {α : Type} {ends : Kind → Bool} {item : ParserOf Cursor α} {before items : List α}
    {c c' : Cursor} {p : Place} (hc : c.Follows p)
    (h : manyBody ends item before c = .ok (.inr items, c')) :
    ∃ t c'', next c' = .ok (t, c'') ∧ ends t.kind = true := by
  obtain ⟨⟨k, seen⟩, hpeek, h⟩ := except_bind_ok_iff.mp h
  obtain ⟨p', hpeek', hseen⟩ := ((Agrees.peekKind (R := fun _ => Cursor.Follows)).alike
    (Nat.le_refl 0) hc).ok_left hpeek
  obtain ⟨rfl, t, q, hnext, rfl⟩ := peekKind_ok hpeek'
  dsimp only at h
  split at h
  · next hends =>
      cases h
      have hnext' := (Agrees.next (R := fun _ => Cursor.Follows)).alike (Nat.le_refl 0) hseen
      rw [hnext] at hnext'
      generalize next c' = outcome at hnext'
      cases hnext' with | result _ _ => exact ⟨t, _, rfl, hends⟩
  · obtain ⟨⟨a, c₁⟩, _, h⟩ := except_bind_ok_iff.mp h
    cases h

theorem expect_of_next {c c' : Cursor} {k : Kind} {t : Token} (h : next c = .ok (t, c')) (hk : t.kind = k) :
    expect k c = .ok (t, c') := by
  show (next c >>= fun o =>
    (if o.1.kind = k then pure o.1 else throw (mismatch k o.1) : ParserOf Cursor Token) o.2) = _
  rw [h]
  show (if t.kind = k then pure t else throw (mismatch k t) : ParserOf Cursor Token) c' = _
  rw [if_pos hk]
  rfl

theorem parse_eq_bind (source : List Char) : Engine.parse source =
    many (fun k => k = .endOfFile) (level maxNesting).statement (Engine.start source).2 >>= fun o =>
      (expect .endOfFile o.2).map fun e => ⟨(Engine.start source).1, o.1, e.1⟩ := by
  show ((program maxNesting _ _).map Prod.fst : Except Fault Program) = _
  simp only [program, bind, StateT.bind, Except.bind]
  cases many _ _ (Engine.start source).2 with
  | error f => rfl
  | ok o =>
      dsimp only
      cases expect (.endOfFile) o.2 <;> rfl

/-- **Parsing ends on every text shorter than 4 GiB.** On every level each round of each loop advances or
    leaves its loop, and the loop ends after no more rounds than there are characters left. Calls beyond the
    budget of nesting levels are never made, whatever they would meet. So the statements of the text are
    read in a finite run, and the answer is its fault, or the tree of the statements up to the end of the
    file. -/
theorem parse_terminates {source : List Char} (hshort : byteLength source < UInt32.size) :
    (∀ n, LoopsEnd (level n)) ∧
    (∀ (last : InnerOf Cursor) calls depth, maxNesting - depth < calls →
      unroll last calls depth = level (maxNesting - depth)) ∧
    ∃ n ≤ source.length, ∃ result,
      Runs (manyBody (fun k => k = .endOfFile) (level maxNesting).statement) n [] (Engine.start source).2
        result ∧
      ((∃ f, result = .error f ∧ Engine.parse source = .error f) ∨
        ∃ body c t c', result = .ok (body, c) ∧ next c = .ok (t, c') ∧ t.kind = .endOfFile ∧
          Engine.parse source = .ok ⟨(Engine.start source).1, body, t⟩) := by
  refine ⟨level_loopsEnd, fun last _ _ h => unroll_eq_level last h, ?_⟩
  have hloop := (level_loopsEnd maxNesting).programStatements
  have hstart := Engine.follows_start hshort
  obtain ⟨n, hn, hruns⟩ := hloop.runs hstart
  have hrest : (scanTrivia (.start source)).2.rest.length ≤ source.length := by
    obtain ⟨before, hsource, _⟩ : (scanTrivia (.start source)).2.Within source := hstart.within
    have hlength := congrArg List.length hsource
    rw [List.length_append] at hlength
    omega
  refine ⟨n, Nat.le_trans hn hrest, _, hruns, ?_⟩
  rw [parse_eq_bind]
  cases hbody : many (fun k => k = .endOfFile) (level maxNesting).statement (Engine.start source).2 with
  | error f => exact .inl ⟨f, rfl, rfl⟩
  | ok outcome =>
      obtain ⟨body, c⟩ := outcome
      rw [hbody] at hruns
      -- The last round has seen the end of the file without taking it, so it is there to be expected.
      obtain ⟨before, c₁, p, hc₁, hlast⟩ := hruns.last hloop.progresses hstart
      obtain ⟨t, c', hnext, hk⟩ := manyBody_leave hc₁ hlast
      have hkind : t.kind = .endOfFile := of_decide_eq_true hk
      refine .inr ⟨body, c, t, c', rfl, hnext, hkind, ?_⟩
      show (expect .endOfFile c).map _ = _
      rw [expect_of_next hnext hkind]
      rfl

/-- A source that ends inside a loop of every kind: statements, branches, clauses, lists and an operand. -/
def truncatedSource : String :=
  "#declare a, b;\nif (a) \x7b a.b.c(1, 2); \x7d else if (b) \x7b \x7d\n" ++
    "switch (a) \x7b case 1: var c = [new a.b(), 2], d = \x7b e: -> _, f: 3 \x7d; default: b("

theorem parse_terminates_truncatedSource :
    byteLength truncatedSource.toList < UInt32.size ∧ LoopsEnd (level maxNesting) ∧
      ∃ n ≤ truncatedSource.toList.length, ∃ f,
        Runs (manyBody (fun k => k = .endOfFile) (level maxNesting).statement) n []
          (Engine.start truncatedSource.toList).2 (.error f) ∧
        Engine.parse truncatedSource.toList = .error f ∧ f.span = ⟨134, 0⟩ := by
  have hshort : byteLength truncatedSource.toList < UInt32.size := by decide +kernel
  have hrun : failure? (parseProgram truncatedSource.toList) =
      some ⟨.invalidExpression, [], ⟨134, 0⟩⟩ := by
    decide +kernel
  have hparse := (Engine.parse_eq hshort).trans (error_of_failure? hrun)
  obtain ⟨hloops, _, n, hn, result, hruns, hresult⟩ := parse_terminates hshort
  rcases hresult with ⟨f, rfl, hf⟩ | ⟨_, _, _, _, _, _, _, hok⟩
  · cases hf.symm.trans hparse
    exact ⟨hshort, hloops _, n, hn, _, hruns, hparse, rfl⟩
  · cases hok.symm.trans hparse

end Respell
