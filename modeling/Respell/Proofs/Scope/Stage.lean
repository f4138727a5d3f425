import Respell.Proofs.Parse.Statements
import Respell.Proofs.Scope.Exact
import Respell.Proofs.Scope.Layout

/-!
# Faults of scopes

Checking scopes has messages of its own, with one exception: a group in an `#include` has the message
that the grammar has for a colon. No parsed program has such a group, so what refuses a parsed program
is always a rule on scopes. And it is always about a token of the program.
-/

namespace Respell

/-! ## Faults before others -/

/-- All faults of the list are faults of scopes, but for those of its tail. -/
def Staged (fs tail : List Fault) : Prop := ∀ f ∈ fs, f ∈ tail ∨ f.message.stage = .scope

namespace Staged

variable {fs gs tail : List Fault}

theorem refl : Staged tail tail := fun _ hf => .inl hf

theorem trans (h : Staged fs gs) (h' : Staged gs tail) : Staged fs tail := by
  intro f hf
  rcases h f hf with hf | hstage
  · exact h' f hf
  · exact .inr hstage

theorem append (h : ∀ f ∈ fs, f.message.stage = .scope) (h' : Staged gs tail) :
    Staged (fs ++ gs) tail := by
  intro f hf
  rcases List.mem_append.mp hf with hf | hf
  · exact .inr (h f hf)
  · exact h' f hf

end Staged

/-! ## Names and parameters -/

theorem undeclared_stage {env : Env} {name : Token} : ∀ f ∈ undeclared env name, f.message.stage = .scope := by
  unfold undeclared
  split
  · simp
  · exact List.forall_mem_singleton.mpr rfl

theorem redeclarations_stage {env : Env} {names : List Token} :
    ∀ f ∈ redeclarations env names, f.message.stage = .scope := by
  intro f hf
  rw [redeclarations_message f hf]
  rfl

theorem paramFaults_stage {outer inner : Env} {first : Bool} {ps : List Param} :
    ∀ f ∈ paramFaults outer inner first ps, f.message.stage = .scope := by
  have hstages : ∀ m ∈ [Message.alreadyDeclared, .misplacedPass, .misplacedRest], m.stage = .scope := by decide
  intro f hf
  rcases paramFaults_message f hf with hmessage | ⟨_, hmessage⟩
  · exact hstages _ hmessage
  · rw [hmessage]
    rfl

theorem arrowParamFaults_stage {inner : Env} {ps : List Param} :
    ∀ f ∈ arrowParamFaults inner ps, f.message.stage = .scope := by
  intro f hf
  rcases arrowParamFaults_message f hf with hmessage | hmessage <;> rw [hmessage] <;> rfl

theorem Func.headFaults_stage {f : Func} {env : Env} {isDeclaration : Bool} :
    ∀ g ∈ f.headFaults env isDeclaration, g.message.stage = .scope :=
  List.forall_mem_append.mpr ⟨paramFaults_stage, redeclarations_stage⟩

theorem Func.standingFaults_stage {f : Func} {standing : Standing} :
    ∀ g ∈ f.standingFaults standing, g.message.stage = .scope := by
  cases standing with
  | nested => exact List.forall_mem_singleton.mpr rfl
  | _ => exact fun g hg => by cases hg

theorem Pragma.standingFaults_stage {p : Pragma} {m : Message} {standing : Standing}
    (hm : m.stage = .scope) : ∀ g ∈ p.standingFaults m standing, g.message.stage = .scope := by
  cases standing with
  | program => exact fun g hg => by cases hg
  | _ => exact List.forall_mem_singleton.mpr hm

theorem Site.Raises.stage {s : Site} {fs : List Fault} (h : s.Raises fs) :
    ∀ f ∈ fs, f.message.stage = .scope := by
  cases h with
  | reference _ _ => exact undeclared_stage
  | function _ _ _ => exact Func.headFaults_stage
  | arrow _ _ _ => exact arrowParamFaults_stage
  | declaration _ _ => exact Func.standingFaults_stage
  | «include» _ _ => exact Pragma.standingFaults_stage rfl
  | declare _ _ => exact Pragma.standingFaults_stage rfl
  | pass _ => exact List.forall_mem_singleton.mpr rfl
  | rest _ => exact List.forall_mem_singleton.mpr rfl

theorem Raised.staged {S : List Site} {fs tail : List Fault} (h : Raised S fs tail) : Staged fs tail := by
  induction h with
  | nil => exact .refl
  | site h => exact .append h.stage .refl
  | append _ _ ih ih' => exact ih.trans ih'

/-! ## Pragmas -/

theorem declareFaults_stage {items : List PragmaItem} :
    ∀ f ∈ declareFaults items, f.message.stage = .scope := by
  intro f hf
  rw [declareFaults_message f hf]
  rfl

/-- Where no group is included, only helpers can be unknown. -/
theorem includeFaults_stage {items : List PragmaItem} (h : ∀ i ∈ items, ∃ name, i = .single name) :
    ∀ f ∈ includeFaults items, f.message.stage = .scope := by
  intro f hf
  rcases includeFaults_message f hf with hmessage | ⟨_, colon, name, hgroup⟩
  · rw [hmessage]
    rfl
  · obtain ⟨_, hsingle⟩ := h _ hgroup
    cases hsingle

/-- The items of an `#include` that was read are names. -/
theorem Parser.single_of_commaRounds {p q : Text.Place} {items : Separated PragmaItem}
    (h : CommaRounds (pragmaItem false) p items q) : ∀ i ∈ items.items, ∃ name, i = .single name := by
  have hitem {p q : Text.Place} {i : PragmaItem} (hi : pragmaItem false p = .ok (i, q)) :
      ∃ name, i = .single name := by
    cases pragmaItem_ok hi with
    | single hname => exact ⟨_, rfl⟩
    | group hgroups _ _ => cases hgroups
  induction h with
  | nil => exact fun i hi => by cases hi
  | one hi => exact List.forall_mem_singleton.mpr (hitem hi)
  | more hi _ _ ih => exact List.forall_mem_cons.mpr ⟨hitem hi, ih⟩

section Parsed

variable {limit : Nat} {source : List Char} {x : Program} (h : parseProgramWithin limit source = .ok x)
include h

/-- A parsed program includes no groups. -/
theorem single_of_parse {p : Pragma} (hp : .include p ∈ x.body) :
    ∀ i ∈ p.items.items, ∃ name, i = .single name := by
  have hcontains : x.Contains (.include p) := by
    refine .body ?_
    rw [stmtsWithin_eq]
    exact List.mem_flatMap.mpr ⟨_, hp, List.mem_singleton.mpr rfl⟩
  obtain ⟨n, p₀, q, hrule⟩ := stmtArises_of_parse h hcontains
  cases hrule with
  | «include» _ hpragma =>
      obtain ⟨_, _, _, hitems, _⟩ := Parser.pragma_ok hpragma
      exact Parser.single_of_commaRounds hitems

theorem pragmaFaults_stage : ∀ f ∈ x.body.flatMap Stmt.pragmaFaults, f.message.stage = .scope := by
  intro f hf
  obtain ⟨s, hs, hf⟩ := List.mem_flatMap.mp hf
  cases s with
  | «include» p => exact includeFaults_stage (single_of_parse h hs) f hf
  | declare p => exact declareFaults_stage f hf
  | _ => cases hf

/-- All faults of a parsed program are faults of scopes. -/
theorem faults_stage : ∀ f ∈ x.faults, f.message.stage = .scope := by
  intro f hf
  rcases List.mem_append.mp hf with hf | hf
  · exact List.forall_mem_append.mpr ⟨pragmaFaults_stage h, redeclarations_stage⟩ f hf
  · exact ((stmtsRaised x.body .program (.program x) []).staged f hf).resolve_left List.not_mem_nil

/-- What refuses a parsed program is a rule on scopes, and it is about one of its tokens. -/
theorem validate_error {f : Fault} (hf : x.validate = .error f) :
    f.message.stage = .scope ∧ ∃ t ∈ x.tokens, f.span = t.span := by
  unfold Program.validate at hf
  have hsame := x.sameFaults (g := .id) ""
  have hstage := faults_stage h
  generalize x.faults = fs at hf hsame hstage
  generalize (x.relayout .id "").faults = gs at hsame
  cases hsame with
  | nil => cases hf
  | cons ht _ =>
      cases hf
      exact ⟨hstage _ List.mem_cons_self, _, ht, rfl⟩

end Parsed

end Respell
