import Respell.Proofs.Parse.Placed
import Respell.Proofs.Parse.Strength

/-!
# Operators group by strength

An expression is read at a threshold, and the loop that adds suffixes decides from the threshold and the
next token alone. What a parsed tree looks like follows from where each part of it stopped: an operand
that was read at a threshold stands before a token that does not bind there (`Stops`), and an
expression that has grown by an operator stands before a token that does not bind at the strength of
that operator (`Settled`). So whatever extends it afterwards is weaker, and every argument about the
tree is arithmetic on strengths.
-/

namespace Respell

open Text Respell.Parser

/-! ## Expressions as operands -/

/-- The strength of the operator that a suffix adds, if it adds one. -/
def Suffix.operation? : Suffix → Option Precedence
  | .binary operator _ => Precedence.ofKind? operator.kind
  | .ternary _ _ _ _ => some .conditional
  | _ => none

/-- The strength of the operator that joins the operands of an expression, if one does. -/
def Expr.operation? : Expr → Option Precedence
  | .head _ => none
  | .suffix _ s => s.operation?

mutual

/-- The expression is an arrow function, or the operand at its right end is one. -/
def Expr.endsInArrow : Expr → Bool
  | .head h => h.endsInArrow
  | .suffix _ s => s.endsInArrow

/-- The head is an arrow function, or a unary operator whose operand ends in one. -/
def Head.endsInArrow : Head → Bool
  | .arrow _ _ _ => true
  | .simpleArrow _ _ => true
  | .unary _ operand => operand.endsInArrow
  | _ => false

/-- The operand at the right end of an operation ends in an arrow function. -/
def Suffix.endsInArrow : Suffix → Bool
  | .binary _ right => right.endsInArrow
  | .ternary _ _ _ alternate => alternate.endsInArrow
  | _ => false

end

/-- The expression applies a unary operator. -/
def Expr.isUnary : Expr → Bool
  | .head (.unary _ _) => true
  | _ => false

/-- The expression is a member access. -/
def Expr.isProperty : Expr → Bool
  | .suffix _ (.property _) => true
  | _ => false

/-- The expression can be called, indexed or asked for a member: it is no operation and no arrow. -/
def Expr.isTarget (e : Expr) : Bool := e.operation?.isNone && !e.isUnary && !e.endsInArrow

/-- The expression is no operation, or one that is at least as strong as `p`. -/
def Expr.AtLeast (e : Expr) (p : Precedence) : Prop := ∀ s ∈ e.operation?, p.strength ≤ s.strength

/-- The expression is no operation, or one that is stronger than `p`. -/
def Expr.Above (e : Expr) (p : Precedence) : Prop := ∀ s ∈ e.operation?, p.strength < s.strength

instance (e : Expr) (p : Precedence) : Decidable (e.AtLeast p) :=
  inferInstanceAs (Decidable (∀ s ∈ e.operation?, p.strength ≤ s.strength))

instance (e : Expr) (p : Precedence) : Decidable (e.Above p) :=
  inferInstanceAs (Decidable (∀ s ∈ e.operation?, p.strength < s.strength))

/-! ## Grouped nodes -/

/-- A suffix fits the operand before it, and its own operands fit its operator. -/
def Suffix.Grouped (leading : Expr) : Suffix → Prop
  | .binary operator right =>
    operator.kind ≠ .punct .question ∧ ∃ p ∈ Precedence.ofKind? operator.kind,
      -- Of the binary operators only assignments group to the right.
      if p.isRightAssociative then leading.Above p else leading.AtLeast p ∧ right.Above p
  | .ternary _ _ _ alternate => leading.Above .conditional ∧ alternate.AtLeast .conditional
  | .call _ => leading.isTarget = true ∧ leading.isProperty = false
  | .invoke _ _ => leading.isTarget = true
  | .index _ _ _ => leading.isTarget = true
  | .property _ => leading.isTarget = true
  | .prototype _ _ => leading.isTarget = true

/-- The operands of this node are as strong as its operator asks for, and no leading operand ends in an
    arrow function, whose body would have taken all that follows. -/
def Expr.Grouped : Expr → Prop
  | .head (.unary _ operand) => operand.operation? = none
  | .head _ => True
  | .suffix leading s => leading.endsInArrow = false ∧ s.Grouped leading

instance (leading : Expr) : (s : Suffix) → Decidable (s.Grouped leading)
  | .binary _ _ => inferInstanceAs (Decidable (_ ∧ ∃ p ∈ _, _))
  | .ternary _ _ _ _ => inferInstanceAs (Decidable (_ ∧ _))
  | .call _ => inferInstanceAs (Decidable (_ ∧ _))
  | .invoke _ _ => inferInstanceAs (Decidable (_ = _))
  | .index _ _ _ => inferInstanceAs (Decidable (_ = _))
  | .property _ => inferInstanceAs (Decidable (_ = _))
  | .prototype _ _ => inferInstanceAs (Decidable (_ = _))

instance : (e : Expr) → Decidable e.Grouped
  | .suffix _ _ => inferInstanceAs (Decidable (_ ∧ _))
  | .head (.unary _ operand) => inferInstanceAs (Decidable (operand.operation? = none))
  | .head (.literal _) => .isTrue trivial
  | .head (.ident _) => .isTrue trivial
  | .head (.pass _ _) => .isTrue trivial
  | .head (.rest _ _) => .isTrue trivial
  | .head (.construct _ _ _) => .isTrue trivial
  | .head (.array _) => .isTrue trivial
  | .head (.object _ _ _) => .isTrue trivial
  | .head (.group _ _ _) => .isTrue trivial
  | .head (.function _) => .isTrue trivial
  | .head (.arrow _ _ _) => .isTrue trivial
  | .head (.simpleArrow _ _) => .isTrue trivial

namespace Parser

variable {inner : Inner} {colon : Colon} {threshold : Precedence} {p q r : Place}

/-! ## Where reading stops -/

/-- The token at `q` extends no expression that is read at the threshold. -/
def Stops (threshold : Precedence) (q : Place) : Prop :=
  ∃ t r, next q = .ok (t, r) ∧ isTight t.kind = false ∧
    ∀ s ∈ Precedence.ofKind? t.kind, s.binds threshold = false

theorem Stops.of_next {t : Token} (h : Stops threshold q) (hnext : next q = .ok (t, r)) :
    isTight t.kind = false ∧ ∀ s ∈ Precedence.ofKind? t.kind, s.binds threshold = false := by
  obtain ⟨u, r', hnext', hstops⟩ := h
  rw [hnext] at hnext'
  cases hnext'
  exact hstops

/-- An operator is no tight token. -/
theorem isTight_of_ofKind? {k : Kind} {s : Precedence} (h : Precedence.ofKind? k = some s) :
    isTight k = false := by
  revert h
  unfold isTight
  split <;> simp [Precedence.ofKind?, Kind.isAssignment]

/-- The first token of a suffix is its operator, or one that binds at every threshold. -/
theorem SuffixRule.first {x : Suffix} (hrule : SuffixRule inner colon p x q) :
    ∃ t r, next p = .ok (t, r) ∧ Precedence.ofKind? t.kind = x.operation? ∧
      (x.operation? = none → isTight t.kind = true) := by
  have hfirst {k : Kind} {t : Token} {r : Place} (hexpect : expect k p = .ok (t, r))
      (hprec : Precedence.ofKind? k = none) (htight : isTight k = true) :
      ∃ t r, next p = .ok (t, r) ∧ Precedence.ofKind? t.kind = none ∧
        (none = (none : Option Precedence) → isTight t.kind = true) := by
    have hk := kind_of_expect hexpect
    subst hk
    exact ⟨t, r, (expect_ok_iff.mp hexpect).1, hprec, fun _ => htight⟩
  cases hrule with
  | binary hnext hs _ _ =>
      refine ⟨_, _, hnext, rfl, ?_⟩
      intro hnone
      rw [Suffix.operation?, hs] at hnone
      cases hnone
  | ternary hquestion _ _ _ _ =>
      obtain ⟨hnext, hk⟩ := expect_ok_iff.mp hquestion
      refine ⟨_, _, hnext, ?_, ?_⟩
      · rw [hk]
        rfl
      · intro hnone
        cases hnone
  | call hargs =>
      obtain ⟨_, _, ho, _⟩ := enclosed_ok hargs
      exact hfirst ho rfl rfl
  | invoke hdot _ _ _ => exact hfirst hdot rfl rfl
  | property hdot _ _ _ _ => exact hfirst hdot rfl rfl
  | index ho _ _ => exact hfirst ho rfl rfl
  | prototype hcolons _ => exact hfirst hcolons rfl rfl

theorem SuffixRule.operation?_eq {x : Suffix} {t : Token} (hrule : SuffixRule inner colon p x q)
    (hnext : next p = .ok (t, r)) : x.operation? = Precedence.ofKind? t.kind := by
  obtain ⟨_, _, hfirst, hoperation, _⟩ := hrule.first
  rw [hnext] at hfirst
  cases hfirst
  exact hoperation.symm

theorem SuffixRule.length_lt {x : Suffix} (hinner : InnerReads inner)
    (hrule : SuffixRule inner colon p x q) : q.rest.length < p.rest.length := by
  obtain ⟨t, r, hnext, hprec, htight⟩ := hrule.first
  have hk : t.kind ≠ .endOfFile := by
    intro hk
    rw [hk] at hprec htight
    exact Bool.false_ne_true (htight hprec.symm)
  have hreading := hrule.reading hinner
  cases htokens : x.tokens with
  | nil => cases x <;> simp [Suffix.tokens, Enclosed.tokens_eq, Member.tokens] at htokens
  | cons u us =>
      rw [htokens] at hreading
      cases hreading with
      | cons hu hus =>
          have hlt := hu.length_lt_of_next hnext hk
          have hle := hus.length_le
          omega

/-- Every round that adds something takes a token. -/
theorem RoundRule.length_lt {e e' : Expr} (hinner : InnerReads inner)
    (hrule : RoundRule inner colon threshold e p (some e') q) : q.rest.length < p.rest.length := by
  cases hrule with
  | operator _ _ _ hsuffix => exact hsuffix.length_lt hinner
  | tight _ _ hsuffix => exact hsuffix.length_lt hinner
  | rest _ hdots =>
      refine (taken_of_expect hdots).length_lt ?_
      rw [kind_of_expect hdots]
      exact Kind.noConfusion

/-- A whole expression ends before a token that does not extend it. -/
theorem expression_stops {e : Expr} (hinner : InnerReads inner)
    (h : expression inner colon threshold p = .ok (e, q)) : Stops threshold q := by
  rw [expression, bind_ok_iff] at h
  obtain ⟨first, p₁, _, h⟩ := h
  have hround {a b : Expr} {p q : Place}
      (hrun : suffix? inner colon threshold a p = .ok (some b, q)) :
      q.rest.length < p.rest.length := (suffix?_ok hrun).length_lt hinner
  obtain ⟨r, hstop⟩ := stop_of_extend hround h
  cases suffix?_ok hstop with
  | weak hnext hprec hbinds =>
      refine ⟨_, _, hnext, isTight_of_ofKind? hprec, ?_⟩
      intro s hs
      rw [hprec] at hs
      cases hs
      exact hbinds
  | stop hnext hprec htight =>
      refine ⟨_, _, hnext, htight, ?_⟩
      intro s hs
      rw [hprec] at hs
      cases hs

/-! ## Expressions and what stands after them -/

/-- What an expression that was read at the threshold says about the place after it. -/
structure Settled (threshold : Precedence) (e : Expr) (q : Place) : Prop where
  /-- The operator of the expression binds, and nothing that binds more strongly follows. -/
  operation : ∀ s ∈ e.operation?, s.binds threshold = true ∧ Stops s q
  unary : e.isUnary = true → Stops .unary q
  arrow : e.endsInArrow = true → Stops .lowest q
  property : e.isProperty = true → ∀ t r, next q = .ok (t, r) → t.kind ≠ .punct .openParen

/-- An expression that is no operation, no arrow and no member access says nothing. -/
theorem Settled.of_closed {e : Expr} (htarget : e.isTarget = true) (hproperty : e.isProperty = false) :
    Settled threshold e q := by
  simp only [Expr.isTarget, Bool.and_eq_true, Option.isNone_iff_eq_none, Bool.not_eq_true'] at htarget
  obtain ⟨⟨hoperation, hunary⟩, harrow⟩ := htarget
  constructor
  · simp [hoperation]
  · simp [hunary]
  · simp [harrow]
  · simp [hproperty]

/-- A head that goes on to the end of its last expression, and applies no operator. -/
theorem Settled.of_body {h : Head} (hunary : (Expr.head h).isUnary = false) (hstops : Stops .lowest q) :
    Settled threshold (.head h) q := by
  constructor
  · simp [Expr.operation?]
  · simp [hunary]
  · exact fun _ => hstops
  · simp [Expr.isProperty]

/-- What the expressions of a level say about the places after them. -/
abbrev InnerSettles (inner : Inner) : Prop :=
  Keeps inner (fun _ _ _ => True) (fun _ threshold _ e q => Stops threshold q ∧ Settled threshold e q)

theorem HeadRule.settled {h : Head} (hinner : InnerSettles inner)
    (hrule : HeadRule inner colon p h q) : Settled threshold (.head h) q := by
  cases hrule with
  | unary _ _ hoperand =>
      obtain ⟨hstops, hsettled⟩ := hinner.expression hoperand
      constructor
      · simp [Expr.operation?]
      · exact fun _ => hstops
      · exact hsettled.arrow
      · simp [Expr.isProperty]
  | simpleArrow _ hbody => exact .of_body rfl (hinner.expression hbody).1
  | paren hrule =>
      cases hrule with
      | arrow _ _ _ hbody => exact .of_body rfl (hinner.expression hbody).1
      | function _ _ _ _ => exact .of_closed rfl rfl
      | bound _ _ _ _ _ _ _ => exact .of_closed rfl rfl
      | group _ _ _ _ _ _ _ => exact .of_closed rfl rfl
  | constant _ _ => exact .of_closed rfl rfl
  | quoted _ _ _ => exact .of_closed rfl rfl
  | ident _ => exact .of_closed rfl rfl
  | pass _ _ => exact .of_closed rfl rfl
  | array _ => exact .of_closed rfl rfl
  | object _ _ _ => exact .of_closed rfl rfl
  | construct _ _ _ _ => exact .of_closed rfl rfl
  | function _ _ _ => exact .of_closed rfl rfl

theorem SuffixRule.settled {e : Expr} {x : Suffix} (hinner : InnerSettles inner)
    (hrule : SuffixRule inner colon p x q)
    (hbinds : ∀ s ∈ x.operation?, s.binds threshold = true) :
    Settled threshold (.suffix e x) q := by
  cases hrule with
  | binary hnext hs hquestion hright =>
      obtain ⟨hstops, hsettled⟩ := hinner.expression hright
      constructor
      · intro s' hs'
        have hsame : some _ = some s' := hs.symm.trans hs'
        cases hsame
        exact ⟨hbinds _ hs', hstops⟩
      · simp [Expr.isUnary]
      · exact hsettled.arrow
      · simp [Expr.isProperty]
  | ternary hquestion hs _ _ halternate =>
      obtain ⟨hstops, hsettled⟩ := hinner.expression halternate
      rw [kind_of_expect hquestion] at hs
      cases hs
      constructor
      · intro s' hs'
        cases hs'
        exact ⟨hbinds _ rfl, hstops⟩
      · simp [Expr.isUnary]
      · exact hsettled.arrow
      · simp [Expr.isProperty]
  | property _ _ _ hafter hparen =>
      constructor
      · simp [Expr.operation?, Suffix.operation?]
      · simp [Expr.isUnary]
      · simp [Expr.endsInArrow, Suffix.endsInArrow]
      · intro _ t r hnext
        rw [hafter] at hnext
        cases hnext
        exact hparen
  | call _ => exact .of_closed rfl rfl
  | invoke _ _ _ _ => exact .of_closed rfl rfl
  | index _ _ _ => exact .of_closed rfl rfl
  | prototype _ _ => exact .of_closed rfl rfl

/-- However far an expression has grown, it says what it has to about the place after it. -/
theorem Grows.settled {e : Expr} (hinner : InnerSettles inner)
    (h : Grows inner colon threshold p e q) : Settled threshold e q := by
  cases h with
  | head hrule => exact hrule.settled hinner
  | round _ hround =>
      cases hround with
      | operator hnext hprec hbinds hrule =>
          refine hrule.settled hinner ?_
          intro s hs
          rw [hrule.operation?_eq hnext, hprec] at hs
          cases hs
          exact hbinds
      | tight hnext hprec hrule =>
          refine hrule.settled hinner ?_
          intro s hs
          rw [hrule.operation?_eq hnext, hprec] at hs
          cases hs
      | rest _ _ => exact .of_closed rfl rfl

theorem level_settles (n : Nat) : InnerSettles (level n) := by
  refine level_keeps ?_ ?_ n
  · intro n p s q hinner hrule
    trivial
  · intro n colon threshold p e q hinner h
    exact ⟨expression_stops (level_reads n) h, (expression_grows h).settled hinner⟩

/-! ## Grouped trees -/

/-- An expression that stands before a suffix is no arrow: an arrow's body would have taken it. -/
theorem Settled.endsInArrow_eq_false {e : Expr} {x : Suffix} (h : Settled threshold e p)
    (hrule : SuffixRule inner colon p x q) : e.endsInArrow = false := by
  obtain ⟨t, r, hnext, hoperation, htight⟩ := hrule.first
  cases harrow : e.endsInArrow with
  | false => rfl
  | true =>
      obtain ⟨hloose, hweak⟩ := (h.arrow harrow).of_next hnext
      cases hs : x.operation? with
      | none =>
          rw [htight hs] at hloose
          cases hloose
      | some s =>
          rw [hs] at hoperation
          have hbinds := Precedence.binds_lowest hoperation
          rw [hweak s hoperation] at hbinds
          cases hbinds

/-- An expression that stands before a tight token is a target: an operand would have taken it. -/
theorem Settled.isTarget {e : Expr} {x : Suffix} (h : Settled threshold e p)
    (hrule : SuffixRule inner colon p x q) (hx : x.operation? = none) : e.isTarget = true := by
  obtain ⟨t, r, hnext, _, htight⟩ := hrule.first
  have hstops {s : Precedence} (hs : Stops s p) : False := by
    have hloose := (hs.of_next hnext).1
    rw [htight hx] at hloose
    cases hloose
  simp only [Expr.isTarget, h.endsInArrow_eq_false hrule, Bool.and_eq_true,
    Option.isNone_iff_eq_none, Bool.not_eq_true', Bool.not_false, and_true]
  constructor
  · cases hs : e.operation? with
    | none => rfl
    | some s => exact (hstops (h.operation s hs).2).elim
  · cases hunary : e.isUnary with
    | false => rfl
    | true => exact (hstops (h.unary hunary)).elim

/-- An operator takes only what it does not bind more strongly than. -/
theorem Settled.not_binds {e : Expr} {x : Suffix} {s s' : Precedence} (h : Settled threshold e p)
    (hrule : SuffixRule inner colon p x q) (hx : x.operation? = some s)
    (he : e.operation? = some s') : s.binds s' = false := by
  obtain ⟨t, r, hnext, hoperation, _⟩ := hrule.first
  exact ((h.operation s' he).2.of_next hnext).2 s (hoperation.trans hx)

theorem SuffixRule.grouped {e : Expr} {x : Suffix} (hinner : InnerSettles inner)
    (he : Settled threshold e p) (hrule : SuffixRule inner colon p x q) : x.Grouped e := by
  -- The case split below takes the rule apart; what follows from the whole of it is stated before.
  have htarget := he.isTarget hrule
  have hleading {s s' : Precedence} (hx : x.operation? = some s) (hs' : e.operation? = some s') :
      s.binds s' = false := he.not_binds hrule hx hs'
  cases hrule with
  | @binary operator right s p₁ q hnext hs hquestion hright =>
      refine ⟨hquestion, s, hs, ?_⟩
      split
      · next hassociative =>
          intro s' hs'
          exact (Precedence.binds_eq_false_of_right hassociative).mp (hleading hs hs')
      · next hassociative =>
          have hleft : s.isRightAssociative = false := by simpa using hassociative
          constructor
          · intro s' hs'
            exact (Precedence.binds_eq_false_of_left hleft).mp (hleading hs hs')
          · intro s' hs'
            obtain ⟨_, hsettled⟩ := hinner.expression hright
            refine Precedence.strength_lt_of_binds hleft ?_ (hsettled.operation s' hs').1
            rintro rfl
            exact Bool.false_ne_true (Precedence.binds_lowest hs)
  | ternary hquestion hs _ _ halternate =>
      constructor
      · intro s' hs'
        exact (Precedence.binds_eq_false_of_right rfl).mp (hleading rfl hs')
      · intro s' hs'
        obtain ⟨_, hsettled⟩ := hinner.expression halternate
        have hbinds := (hsettled.operation s' hs').1
        rw [kind_of_expect hquestion] at hs
        cases hs
        revert hbinds
        cases s' <;> decide
  | call hargs =>
      refine ⟨htarget rfl, ?_⟩
      cases hproperty : e.isProperty with
      | false => rfl
      | true =>
          obtain ⟨_, _, ho, _⟩ := enclosed_ok hargs
          exact (he.property hproperty _ _ (expect_ok_iff.mp ho).1 (kind_of_expect ho)).elim
  | invoke _ _ _ _ => exact htarget rfl
  | property _ _ _ _ _ => exact htarget rfl
  | index _ _ _ => exact htarget rfl
  | prototype _ _ => exact htarget rfl

/-- No operation is the operand of a unary operator. -/
theorem HeadRule.grouped {h : Head} (hinner : InnerSettles inner)
    (hrule : HeadRule inner colon p h q) : (Expr.head h).Grouped := by
  cases hrule with
  | @unary operator operand p₁ q _ _ hoperand =>
      obtain ⟨_, hsettled⟩ := hinner.expression hoperand
      cases hs : operand.operation? with
      | none => exact hs
      | some s =>
          have hbinds := (hsettled.operation s hs).1
          rw [Precedence.binds_unary] at hbinds
          cases hbinds
  | paren hrule => cases hrule <;> trivial
  | _ => trivial

theorem Grows.grouped {e : Expr} (hinner : InnerSettles inner)
    (h : Grows inner colon threshold p e q) : e.Grouped := by
  cases h with
  | head hrule => exact hrule.grouped hinner
  | round hgrows hround =>
      have he := hgrows.settled hinner
      cases hround with
      | operator _ _ _ hrule => exact ⟨he.endsInArrow_eq_false hrule, hrule.grouped hinner he⟩
      | tight _ _ hrule => exact ⟨he.endsInArrow_eq_false hrule, hrule.grouped hinner he⟩
      | rest _ _ => trivial

end Parser

/-- In the tree of every source that parses, each operator has the operands that its strength and its
    direction of grouping ask for: an operator that groups to the left has no weaker operation on its
    left and none that is as weak on its right, an assignment has no assignment on its left, a
    conditional has neither a conditional nor an assignment as its test and no assignment as its
    alternate, and no operation is the operand of a unary operator. What is called, indexed or asked for
    a member is no operation and no arrow, what is called is no member access, and no leading operand
    ends in an arrow. -/
theorem grouped_of_parse {source : List Char} {x : Program} (h : parseProgram source = .ok x) :
    ∀ e ∈ x.subexprs, e.Grouped := by
  intro e he
  obtain ⟨n, colon, threshold, p, q, hgrows⟩ := arises_of_parse h e he
  exact hgrows.grouped (level_settles n)

/-- A source where operators of all strengths meet, also inside branches, operands and arrow bodies. -/
def tangledSource : String :=
  "a = b = c ? d || e && f : g == h < i + j * -k.l[m](n)::o ? p - q - r : (s, t) -> u = v + w;\n" ++
    "x % !y(-> z);\n"

theorem grouped_of_parse_tangledSource :
    ∃ x, parseProgram tangledSource.toList = .ok x ∧ x.subexprs.length = 46 ∧
      ∀ e ∈ x.subexprs, e.Grouped := by
  have hrun : (parseProgram tangledSource.toList).toOption.map (·.subexprs.length) = some 46 := by
    decide +kernel
  obtain ⟨x, hx, hlength⟩ := ok_of_toOption hrun
  exact ⟨x, hx, hlength, grouped_of_parse hx⟩

end Respell
