import Respell.Proofs.Scope.Exact

/-!
# Environments are lexical scopes

A stack of environments under any order of actions: names are declared, marked and inherited in the innermost
scope, a scope is forked inside of it, and the innermost scope is popped. What the innermost environment
answers is said by the history of actions alone.

The history is a list, oldest action first. Which of its actions were made in the scope that is the innermost
one at the end is a matter of how forks and pops match: those after which the history is `Balanced`. The
fork that opened this scope is found in the same way, and what stands before it is the history of the scope
around, at the moment of the fork.
-/

namespace Respell

/-! ## Bindings -/

namespace Env

variable (env : Env) (n : String)

theorem binding?_declared_iff : env.binding? n = some .declared ↔ env.isDeclared n = true := by
  simp [isDeclared]

theorem binding?_none_iff : env.binding? n = none ↔ ¬ env.sees n = true := by
  simp [sees]

theorem binding?_inherited_iff :
    env.binding? n = some .inherited ↔ ¬ env.isDeclared n = true ∧ env.sees n = true := by
  cases h : env.binding? n with
  | none => simp [sees, h]
  | some b => cases b <;> simp [isDeclared, sees, h]

end Env

/-! ## Stacks of environments -/

/-- The environment of the innermost scope, and those of the scopes around it from the inside out. -/
structure Scopes where
  top : Env
  below : List Env

namespace Scopes

/-- What is done with a stack of environments. -/
inductive Action where
  /-- Declares a name, and tells whether it was new to the scope. -/
  | declare (name : String)
  /-- Declares a name without asking. -/
  | mark (name : String)
  | inherit (name : String)
  /-- Opens a scope inside of the innermost one. -/
  | fork
  /-- Leaves the innermost scope. -/
  | pop
deriving DecidableEq, Repr

/-- One scope that knows no name. -/
def start : Scopes := ⟨Env.empty, []⟩

/-- Performs an action: its answer, which only a declaration has, and the stack after it. The last scope
    cannot be popped. -/
def perform (s : Scopes) : Action → Option (Option Bool × Scopes)
  | .declare name => some (some !s.top.isDeclared name, { s with top := s.top.declare name })
  | .mark name => some (none, { s with top := s.top.declare name })
  | .inherit name => some (none, { s with top := s.top.inherit name })
  | .fork => some (none, ⟨s.top.fork, s.top :: s.below⟩)
  | .pop =>
    match s.below with
    | [] => none
    | outer :: others => some (none, ⟨outer, others⟩)

/-- Performs actions one after the other, if all of them can be performed. -/
def run (s : Scopes) : List Action → Option Scopes
  | [] => some s
  | a :: as => (s.perform a).bind fun r => r.2.run as

theorem run_append (s : Scopes) (as bs : List Action) :
    s.run (as ++ bs) = (s.run as).bind fun t => t.run bs := by
  induction as generalizing s with
  | nil => rfl
  | cons a as ih =>
      rw [List.cons_append, run, run, Option.bind_assoc]
      congr 1
      funext r
      exact ih r.2

/-! ## Actions in one scope -/

/-- The action changes the innermost environment and leaves the stack as high as it is. -/
def Action.isOwn : Action → Bool
  | .fork | .pop => false
  | _ => true

/-- The innermost environment after an action of its own. -/
def Action.change (env : Env) : Action → Env
  | .declare name | .mark name => env.declare name
  | .inherit name => env.inherit name
  | .fork | .pop => env

theorem run_own {a : Action} (ha : a.isOwn = true) (s : Scopes) (as : List Action) :
    s.run (a :: as) = Scopes.run ⟨a.change s.top, s.below⟩ as := by
  cases a with
  | fork => cases ha
  | pop => cases ha
  | _ => rfl

/-- Actions that begin and end in one scope: every scope that is forked among them is popped among them,
    and no other scope is. -/
inductive Balanced : List Action → Prop where
  | nil : Balanced []
  | own {a : Action} {as : List Action} : a.isOwn = true → Balanced as → Balanced (a :: as)
  | nested {inner as : List Action} : Balanced inner → Balanced as →
      Balanced (.fork :: inner ++ .pop :: as)

/-- What two lists end with is the end of the second, or the second with an end of the first before it. -/
theorem suffix_append {as bs cs : List Action} (h : cs <:+ as ++ bs) :
    cs <:+ bs ∨ ∃ ds, ds <:+ as ∧ cs = ds ++ bs := by
  obtain ⟨front, hfront⟩ := h
  rcases List.append_eq_append_iff.mp hfront with ⟨ds, rfl, rfl⟩ | ⟨ds, rfl, rfl⟩
  · exact .inr ⟨ds, List.suffix_append _ _, rfl⟩
  · exact .inl (List.suffix_append _ _)

namespace Balanced

variable {as bs : List Action}

theorem append (h : Balanced as) (h' : Balanced bs) : Balanced (as ++ bs) := by
  induction h with
  | nil => exact h'
  | own ha _ ih => exact .own ha ih
  | @nested inner as hinner _ _ ih =>
      have hassoc : .fork :: inner ++ .pop :: as ++ bs = .fork :: inner ++ .pop :: (as ++ bs) := by simp
      rw [hassoc]
      exact .nested hinner ih

/-- Balanced actions change the innermost environment only. -/
theorem run (h : Balanced as) (s : Scopes) : ∃ env, s.run as = some ⟨env, s.below⟩ := by
  induction h generalizing s with
  | nil => exact ⟨s.top, rfl⟩
  | own ha _ ih =>
      rw [run_own ha]
      exact ih _
  | @nested inner as _ _ ihinner ih =>
      obtain ⟨env, hinner⟩ := ihinner ⟨s.top.fork, s.top :: s.below⟩
      have hback : s.run (.fork :: inner ++ .pop :: as) = s.run as := by
        show Scopes.run ⟨s.top.fork, s.top :: s.below⟩ (inner ++ .pop :: as) = s.run as
        rw [run_append, hinner]
        rfl
      rw [hback]
      exact ih s

/-- What is done in a forked scope and in the scopes inside of it is gone when it is popped. -/
theorem run_nested (h : Balanced as) (s : Scopes) (rest : List Action) :
    s.run (.fork :: as ++ .pop :: rest) = s.run rest := by
  obtain ⟨env, hrun⟩ := h.run ⟨s.top.fork, s.top :: s.below⟩
  show Scopes.run ⟨s.top.fork, s.top :: s.below⟩ (as ++ .pop :: rest) = s.run rest
  rw [run_append, hrun]
  rfl

/-- Forks and pops are as many as each other, and from nowhere on are there more forks. -/
theorem count_suffix (h : Balanced as) :
    as.count .fork = as.count .pop ∧ ∀ bs, bs <:+ as → bs.count .fork ≤ bs.count .pop := by
  induction h with
  | nil =>
      refine ⟨rfl, ?_⟩
      intro bs hbs
      rw [List.suffix_nil.mp hbs]
      exact Nat.le_refl _
  | @own a as ha _ ih =>
      have hfork : a ≠ .fork := by rintro rfl; cases ha
      have hpop : a ≠ .pop := by rintro rfl; cases ha
      have hcount : (a :: as).count .fork = (a :: as).count .pop := by
        rw [List.count_cons_of_ne hfork, List.count_cons_of_ne hpop, ih.1]
      refine ⟨hcount, ?_⟩
      intro bs hbs
      rcases List.suffix_cons_iff.mp hbs with rfl | hbs
      · exact Nat.le_of_eq hcount
      · exact ih.2 bs hbs
  | @nested inner as _ _ ihinner ih =>
      have hcount : (.fork :: inner ++ .pop :: as).count Action.fork =
          (.fork :: inner ++ .pop :: as).count Action.pop := by
        simp [ihinner.1, ih.1]
        omega
      refine ⟨hcount, ?_⟩
      intro bs hbs
      rcases List.suffix_cons_iff.mp hbs with rfl | hbs
      · exact Nat.le_of_eq hcount
      -- What is left begins inside of the forked scope, or where it is popped, or after that.
      rcases suffix_append hbs with hbs | ⟨cs, hcs, rfl⟩
      · rcases List.suffix_cons_iff.mp hbs with rfl | hbs
        · simp [ih.1]
        · exact ih.2 bs hbs
      · have hle := ihinner.2 cs hcs
        simp [ih.1]
        omega

/-- No balanced actions end with a fork and balanced ones after it. -/
theorem not_append_fork (h : Balanced as) : ¬ Balanced (bs ++ .fork :: as) := by
  intro hall
  have hle := hall.count_suffix.2 (.fork :: as) (List.suffix_append _ _)
  rw [List.count_cons_self, List.count_cons_of_ne Action.noConfusion, h.count_suffix.1] at hle
  exact Nat.not_succ_le_self _ hle

/-- No balanced actions end with a pop and balanced ones after it, if they begin inside of the scope
    that is popped. -/
theorem not_append_pop {inner : List Action} (hinner : Balanced inner) (h : Balanced as)
    (hbs : bs <:+ inner) : ¬ Balanced (bs ++ .pop :: as) := by
  intro hall
  have hle := hinner.count_suffix.2 bs hbs
  have heq := hall.count_suffix.1
  simp [h.count_suffix.1] at heq
  omega

end Balanced

/-! ## What a history says -/

/-- The action declares the name. -/
def Action.Declares (n : String) (a : Action) : Prop := a = .declare n ∨ a = .mark n

/-- The action declares or inherits the name. -/
def Action.Names (n : String) (a : Action) : Prop := a.Declares n ∨ a = .inherit n

theorem Action.Names.isOwn {n : String} {a : Action} (h : a.Names n) : a.isOwn = true := by
  rcases h with (rfl | rfl) | rfl <;> rfl

/-- Among the actions of a history is one with the property that was made in the scope which is the
    innermost one at the end. -/
def MadeHere (P : Action → Prop) (history : List Action) : Prop :=
  ∃ before a after, history = before ++ a :: after ∧ P a ∧ Balanced after

/-- The innermost scope was forked after the actions `before`, in the stack `outer`, and the actions
    `after` were made since. -/
structure Forked (history before after : List Action) (outer : Scopes) : Prop where
  split : history = before ++ .fork :: after
  since : Balanced after
  run : start.run before = some outer

/-- The innermost scope was forked when the scope around it saw the name. -/
def SeenAtFork (n : String) (history : List Action) : Prop :=
  ∃ before after outer, Forked history before after outer ∧ outer.top.sees n = true

section MadeHere

variable {P : Action → Prop} {as before : List Action}

theorem madeHere_nil : ¬ MadeHere P [] := by
  rintro ⟨before, a, after, hnil, _⟩
  cases before <;> cases hnil

theorem madeHere_cons {a : Action} (h : Balanced as) : MadeHere P (a :: as) ↔ P a ∨ MadeHere P as := by
  constructor
  · rintro ⟨before, b, after, hsplit, hb, hafter⟩
    cases before with
    | nil =>
        cases hsplit
        exact .inl hb
    | cons c before =>
        cases hsplit
        exact .inr ⟨before, b, after, rfl, hb, hafter⟩
  · rintro (ha | ⟨before, b, after, rfl, hb, hafter⟩)
    · exact ⟨[], a, as, rfl, ha, h⟩
    · exact ⟨a :: before, b, after, rfl, hb, hafter⟩

/-- What stands before an action counts for nothing if from there on the actions are not balanced. -/
theorem madeHere_append {b : Action} (hb : ¬ P b)
    (hskip : ∀ a cs, a :: cs <:+ before → ¬ Balanced (cs ++ b :: as)) :
    MadeHere P (before ++ b :: as) ↔ MadeHere P as := by
  constructor
  · rintro ⟨before', a, after, hsplit, ha, hafter⟩
    rcases List.append_eq_append_iff.mp hsplit with ⟨cs, _, hcs⟩ | ⟨cs, hbefore, hcs⟩
    · cases cs with
      | nil =>
          cases hcs
          exact (hb ha).elim
      | cons c cs =>
          cases hcs
          exact ⟨cs, a, after, rfl, ha, hafter⟩
    · cases cs with
      | nil =>
          cases hcs
          exact (hb ha).elim
      | cons c cs =>
          cases hcs
          exact (hskip a cs ⟨before', hbefore.symm⟩ hafter).elim
  · rintro ⟨before', a, after, rfl, ha, hafter⟩
    exact ⟨before ++ b :: before', a, after, by simp, ha, hafter⟩

variable (hP : ∀ a, P a → a.isOwn = true) (h : Balanced as)
include hP h

/-- What was made before the innermost scope was forked was made in another scope. -/
theorem madeHere_fork : MadeHere P (before ++ .fork :: as) ↔ MadeHere P as :=
  madeHere_append (fun hfork => by cases hP _ hfork) fun _ _ _ => h.not_append_fork

/-- What was made in a scope that was popped again was not made here. -/
theorem madeHere_nested {inner : List Action} (hinner : Balanced inner) :
    MadeHere P (.fork :: inner ++ .pop :: as) ↔ MadeHere P as := by
  refine madeHere_append (fun hpop => by cases hP _ hpop) ?_
  intro a cs hcs
  apply hinner.not_append_pop h
  rcases List.suffix_cons_iff.mp hcs with heq | hcs
  · cases heq
    exact List.suffix_refl _
  · exact List.IsSuffix.trans (List.suffix_cons a cs) hcs

end MadeHere

theorem madeHere_or {P Q : Action → Prop} {history : List Action} :
    MadeHere (fun a => P a ∨ Q a) history ↔ MadeHere P history ∨ MadeHere Q history := by
  constructor
  · rintro ⟨before, a, after, hsplit, ha | ha, hafter⟩
    · exact .inl ⟨before, a, after, hsplit, ha, hafter⟩
    · exact .inr ⟨before, a, after, hsplit, ha, hafter⟩
  · rintro (⟨before, a, after, hsplit, ha, hafter⟩ | ⟨before, a, after, hsplit, ha, hafter⟩)
    · exact ⟨before, a, after, hsplit, .inl ha, hafter⟩
    · exact ⟨before, a, after, hsplit, .inr ha, hafter⟩

/-! ## What balanced actions change -/

theorem isDeclared_change {a : Action} (ha : a.isOwn = true) (env : Env) (n : String) :
    (a.change env).isDeclared n = true ↔ a.Declares n ∨ env.isDeclared n = true := by
  cases a with
  | declare name | mark name => simp [Action.change, Action.Declares, @eq_comm String n name]
  | inherit name =>
      have hsame : (env.inherit name).isDeclared n = env.isDeclared n := by
        by_cases h : env.isDeclared n = true
        · have hb : env.binding? n = some .declared := by simpa [Env.isDeclared] using h
          simp [Env.isDeclared, Env.inherit, hb]
        · rw [Bool.not_eq_true] at h
          rw [h, Env.isDeclared_inherit env name n h]
      simp [Action.change, Action.Declares, hsame]
  | fork | pop => cases ha

theorem sees_change {a : Action} (ha : a.isOwn = true) (env : Env) (n : String) :
    (a.change env).sees n = true ↔ a.Names n ∨ env.sees n = true := by
  cases a with
  | declare name | mark name | inherit name =>
      simp [Action.change, Action.Names, Action.Declares, @eq_comm String n name]
  | fork | pop => cases ha

namespace Balanced

variable {as : List Action}

/-- What an environment answers if it can be changed by actions of its own scope only: that it was so before,
    or that such an action was made here. -/
theorem answer_of_run (h : Balanced as) (P : Action → Prop) (answer : Env → Bool)
    (hown : ∀ a, P a → a.isOwn = true)
    (hchange : ∀ a, a.isOwn = true → ∀ env, answer (a.change env) = true ↔ P a ∨ answer env = true)
    {s t : Scopes} (hrun : s.run as = some t) :
    answer t.top = true ↔ MadeHere P as ∨ answer s.top = true := by
  induction h generalizing s with
  | nil =>
      cases hrun
      simp [madeHere_nil]
  | own ha has ih =>
      rw [run_own ha] at hrun
      refine (ih hrun).trans ?_
      rw [madeHere_cons has, hchange _ ha, or_left_comm, or_assoc]
  | nested hinner has _ ih =>
      rw [run_nested hinner] at hrun
      rw [madeHere_nested hown has hinner]
      exact ih hrun

theorem isDeclared_of_run (h : Balanced as) {s t : Scopes} (hrun : s.run as = some t) (n : String) :
    t.top.isDeclared n = true ↔ MadeHere (Action.Declares n) as ∨ s.top.isDeclared n = true :=
  h.answer_of_run (Action.Declares n) (Env.isDeclared · n) (fun _ ha => Action.Names.isOwn (.inl ha))
    (fun _ ha env => isDeclared_change ha env n) hrun

theorem sees_of_run (h : Balanced as) {s t : Scopes} (hrun : s.run as = some t) (n : String) :
    t.top.sees n = true ↔ MadeHere (Action.Names n) as ∨ s.top.sees n = true :=
  h.answer_of_run (Action.Names n) (Env.sees · n) (fun _ ha => ha.isOwn)
    (fun _ ha env => sees_change ha env n) hrun

end Balanced

/-! ## Where the innermost scope was opened -/

/-- The innermost scope is the first one and all the history is its own, or it was forked and the stack of
    that moment is below it. -/
def Opened (history : List Action) (s : Scopes) : Prop :=
  (Balanced history ∧ s.below = []) ∨
    ∃ before after outer, Forked history before after outer ∧ s.below = outer.top :: outer.below

theorem Forked.unique {history before before' after after' : List Action} {outer outer' : Scopes}
    (h : Forked history before after outer) (h' : Forked history before' after' outer') :
    outer = outer' := by
  have hbefore : before = before' := by
    have hsplit := h.split.symm.trans h'.split
    rcases List.append_eq_append_iff.mp hsplit with ⟨cs, hcs, hrest⟩ | ⟨cs, hcs, hrest⟩
    · cases cs with
      | nil => simpa using hcs.symm
      | cons c cs =>
          have heq : after = cs ++ .fork :: after' := (List.cons.inj hrest).2
          exact (h'.since.not_append_fork (heq ▸ h.since)).elim
    · cases cs with
      | nil => simpa using hcs
      | cons c cs =>
          have heq : after' = cs ++ .fork :: after := (List.cons.inj hrest).2
          exact (h.since.not_append_fork (heq ▸ h'.since)).elim
  exact Option.some.inj (h.run.symm.trans (hbefore ▸ h'.run))

/-- Balanced actions stay in the scope that they begin in. -/
theorem Opened.append {history as : List Action} {s t : Scopes} (h : Opened history s)
    (has : Balanced as) (hbelow : t.below = s.below) : Opened (history ++ as) t := by
  rcases h with ⟨hall, hnil⟩ | ⟨before, after, outer, hforked, hcons⟩
  · exact .inl ⟨hall.append has, hbelow.trans hnil⟩
  · refine .inr ⟨before, after ++ as, outer, ⟨?_, hforked.since.append has, hforked.run⟩, ?_⟩
    · rw [hforked.split, List.append_assoc, List.cons_append]
    · exact hbelow.trans hcons

/-- Every run opened its innermost scope. The induction is on the length of the history and not on the
    history itself: after a pop the innermost scope is one that a much shorter history ended with. -/
theorem opened_of_run {history : List Action} {s : Scopes} (h : start.run history = some s) :
    Opened history s := by
  induction hlen : history.length using Nat.strongRecOn generalizing history s with
  | _ len ih =>
      rcases List.eq_nil_or_concat history with rfl | ⟨earlier, a, rfl⟩
      · cases h
        exact .inl ⟨.nil, rfl⟩
      rw [List.concat_eq_append, List.length_append, List.length_singleton] at hlen
      rw [List.concat_eq_append] at h ⊢
      obtain ⟨t, ht, hlast⟩ := Option.bind_eq_some_iff.mp ((run_append _ _ _).symm.trans h)
      have hopened := ih earlier.length (by omega) ht rfl
      cases a with
      | declare name | mark name | inherit name =>
          cases hlast
          exact hopened.append (.own rfl .nil) rfl
      | fork =>
          cases hlast
          exact .inr ⟨earlier, [], t, ⟨rfl, .nil, ht⟩, rfl⟩
      | pop =>
          rcases hopened with ⟨_, hnil⟩ | ⟨before, after, outer, hforked, hcons⟩
          · simp [run, perform, hnil] at hlast
          · have hs : outer = s := by simpa [run, perform, hcons] using hlast
            subst hs
            have hshort : before.length < len := by
              have := congrArg List.length hforked.split
              rw [List.length_append, List.length_cons] at this
              omega
            have hback : earlier ++ [.pop] = before ++ (.fork :: after ++ .pop :: []) := by
              rw [hforked.split, List.append_assoc]
            rw [hback]
            exact (ih _ hshort hforked.run rfl).append (.nested hforked.since .nil) rfl

/-! ## Lexical scoping -/

/-- What the innermost environment declares and sees, by the history alone. -/
theorem answers_of_run {history : List Action} {s : Scopes} (h : start.run history = some s)
    (n : String) :
    (s.top.isDeclared n = true ↔ MadeHere (Action.Declares n) history) ∧
      (s.top.sees n = true ↔ MadeHere (Action.Names n) history ∨ SeenAtFork n history) := by
  rcases opened_of_run h with ⟨hall, _⟩ | ⟨before, after, outer, hforked, _⟩
  · -- The first scope: it knew no name when it was opened, and it was not forked.
    have hfork : ¬ SeenAtFork n history := by
      rintro ⟨before, after, outer, hforked, _⟩
      exact hforked.since.not_append_fork (hforked.split ▸ hall)
    rw [hall.isDeclared_of_run h, hall.sees_of_run h]
    simp [hfork, start, Env.empty, Env.isDeclared, Env.sees]
  · have hfork : SeenAtFork n history ↔ outer.top.sees n = true := by
      constructor
      · rintro ⟨before', after', outer', hforked', hsees⟩
        exact hforked.unique hforked' ▸ hsees
      · intro hsees
        exact ⟨before, after, outer, hforked, hsees⟩
    have hafter : Scopes.run ⟨outer.top.fork, outer.top :: outer.below⟩ after = some s := by
      have hrun := h
      rw [hforked.split, run_append, hforked.run] at hrun
      exact hrun
    have hdeclares : MadeHere (Action.Declares n) history ↔ MadeHere (Action.Declares n) after := by
      rw [hforked.split]
      exact madeHere_fork (fun _ ha => Action.Names.isOwn (.inl ha)) hforked.since
    have hnames : MadeHere (Action.Names n) history ↔ MadeHere (Action.Names n) after := by
      rw [hforked.split]
      exact madeHere_fork (fun _ ha => ha.isOwn) hforked.since
    rw [hforked.since.isDeclared_of_run hafter, hforked.since.sees_of_run hafter, hdeclares, hnames,
      hfork]
    simp

/-- What a stack of environments is after a history of actions. -/
structure Lexical (history : List Action) (s : Scopes) : Prop where
  declared : ∀ n, s.top.binding? n = some .declared ↔ MadeHere (Action.Declares n) history
  inherited : ∀ n, s.top.binding? n = some .inherited ↔
    ¬ MadeHere (Action.Declares n) history ∧
      (MadeHere (fun a => a = .inherit n) history ∨ SeenAtFork n history)
  absent : ∀ n, s.top.binding? n = none ↔
    ¬ MadeHere (Action.Declares n) history ∧
      ¬ MadeHere (fun a => a = .inherit n) history ∧ ¬ SeenAtFork n history
  /-- A declaration is always answered, and with yes if and only if the scope did not declare the name.
      Checking finds no fault in a declaration exactly if this is the answer. -/
  answer : ∀ n, ∃ b t, s.perform (.declare n) = some (some b, t) ∧
    (b = true ↔ s.top.binding? n ≠ some .declared) ∧
    ∀ name : Token, name.text = n → (redeclarations s.top [name] = [] ↔ b = true)
  /-- A scope that is forked from here, and all that are forked inside of it, leave no trace once they
      are popped. -/
  kept : ∀ inner rest, Balanced inner → s.run (.fork :: inner ++ .pop :: rest) = s.run rest
  /-- A pop gives back the stack at the moment of the fork, all its scopes unchanged. -/
  popped : ∀ t, s.perform .pop = some (none, t) → ∃ before after, Forked history before after t

/-- Environments are lexical scopes, after every run. -/
theorem lexical_of_run {history : List Action} {s : Scopes} (h : start.run history = some s) :
    s.Lexical history := by
  have hnames : ∀ n, MadeHere (Action.Names n) history ↔
      MadeHere (Action.Declares n) history ∨ MadeHere (fun a => a = .inherit n) history :=
    fun _ => madeHere_or
  refine ⟨?_, ?_, ?_, ?_, ?_, ?_⟩
  · intro n
    rw [← (answers_of_run h n).1]
    exact Env.binding?_declared_iff _ n
  · intro n
    rw [Env.binding?_inherited_iff, (answers_of_run h n).1, (answers_of_run h n).2, hnames]
    apply and_congr_right
    intro hno
    simp [hno]
  · intro n
    rw [Env.binding?_none_iff, (answers_of_run h n).2, hnames]
    simp [not_or, and_assoc]
  · intro n
    refine ⟨_, _, rfl, ?_, ?_⟩
    · rw [Ne, Env.binding?_declared_iff]
      simp
    · rintro name rfl
      simp [redeclarations]
  · intro inner rest hinner
    exact hinner.run_nested s rest
  · intro t ht
    rcases opened_of_run h with ⟨_, hnil⟩ | ⟨before, after, outer, hforked, hcons⟩
    · simp [perform, hnil] at ht
    · have hs : outer = t := by simpa [perform, hcons] using ht
      exact ⟨before, after, hs ▸ hforked⟩

/-- A scope that declares a name it also inherits, after a scope inside of it was popped. -/
theorem lexical_after_pop : ∃ s,
    start.run [.declare "x", .declare "f", .fork, .declare "x", .inherit "x", .inherit "y",
      .fork, .declare "z", .pop, .mark "g"] = some s ∧
    s.Lexical [.declare "x", .declare "f", .fork, .declare "x", .inherit "x", .inherit "y",
      .fork, .declare "z", .pop, .mark "g"] ∧
    s.top.binding? "x" = some .declared ∧ s.top.binding? "f" = some .inherited ∧
    s.top.binding? "y" = some .inherited ∧ s.top.binding? "z" = none :=
  ⟨_, rfl, lexical_of_run rfl, by decide, by decide, by decide, by decide⟩

end Scopes

end Respell
