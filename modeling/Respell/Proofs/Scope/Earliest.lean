import Respell.Proofs.Diagnostic.Located
import Respell.Proofs.Parse.Limit
import Respell.Proofs.Scope.Binding
import Respell.Proofs.Scope.Exact

/-!
# The first undeclared name

A program that uses names which are not declared is refused for the first of them in the source text. Two
facts make this up. Checking meets the references of a program in the order in which `Program.sites` lists
them, whatever scopes are opened in between (`Raised.meets`). And this order is that of the source text, because
the tokens of the references are among the tokens of the tree in the same order (`Surveyed.refers`).
-/

namespace Respell

open Text

/-! ## References -/

/-- A name that is used in a scope, and the token at which it is reported if the scope does not see it. -/
structure Reference where
  scope : Scope
  name : String
  token : Token

namespace Reference

/-- The name can be used where it is. -/
def Seen (r : Reference) : Prop := r.scope.Sees r.name

/-- The fault of the reference if its name is not declared. -/
def fault (r : Reference) : Fault := r.token.fault .notDeclared [r.name]

end Reference

/-- A parameter refers to the handler of its error, at the `@` before it. -/
def Param.references (scope : Scope) : Param → List Reference
  | .pass mark (some handler) => [⟨scope, handler.text, mark⟩]
  | _ => []

theorem Param.mem_references {scope : Scope} {p : Param} {r : Reference} (h : r ∈ p.references scope) :
    ∃ mark handler, p = .pass mark (some handler) ∧ r = ⟨scope, handler.text, mark⟩ := by
  rcases p with _ | ⟨mark, _ | handler⟩ | _
  · cases h
  · cases h
  · exact ⟨mark, handler, rfl, List.mem_singleton.mp h⟩
  · cases h

/-- The references of parameters, in the scope around them. -/
def Params.references (scope : Scope) (params : Params) : List Reference :=
  params.items.items.flatMap (Param.references scope)

/-- The references of a site. -/
def Site.references : Site → List Reference
  | .reference scope name => [⟨scope, name.text, name⟩]
  | .function scope f _ => f.params.references scope
  | .arrow scope params => params.references scope
  | .declaration _ _ | .pragma _ _ | .stray _ => []

/-- The references of a program. -/
def Program.references (x : Program) : List Reference := x.sites.flatMap Site.references

/-! ## The first fault -/

/-- The fault is that of the first reference that is not seen. -/
def FirstUnseen (rs : List Reference) (f : Fault) : Prop :=
  ∃ before r after, rs = before ++ r :: after ∧ (∀ r' ∈ before, r'.Seen) ∧ ¬ r.Seen ∧ f = r.fault

theorem FirstUnseen.append_right {rs : List Reference} {f : Fault} (h : FirstUnseen rs f)
    (rs' : List Reference) : FirstUnseen (rs ++ rs') f := by
  obtain ⟨before, r, after, rfl, hbefore, hr, rfl⟩ := h
  exact ⟨before, r, after ++ rs', by simp, hbefore, hr, rfl⟩

theorem FirstUnseen.append_left {rs rs' : List Reference} {f : Fault} (h : FirstUnseen rs' f)
    (hseen : ∀ r ∈ rs, r.Seen) : FirstUnseen (rs ++ rs') f := by
  obtain ⟨before, r, after, rfl, hbefore, hr, rfl⟩ := h
  exact ⟨rs ++ before, r, after, by simp, List.forall_mem_append.mpr ⟨hseen, hbefore⟩, hr, rfl⟩

/-- What is found at sites before the faults of what follows: nothing, and all references are seen; or a
    first fault, which if it is about an undeclared name is about the first one. -/
def Meets (S : List Site) (fs tail : List Fault) : Prop :=
  (fs = tail ∧ ∀ r ∈ S.flatMap Site.references, r.Seen) ∨
    ∃ f rest, fs = f :: rest ∧
      (f.message = .notDeclared → FirstUnseen (S.flatMap Site.references) f)

namespace Meets

variable {S S' : List Site} {fs gs tail : List Fault}

theorem refl : Meets [] tail tail := .inl ⟨rfl, fun _ hr => by cases hr⟩

/-- Sites that are looked at one after the other. -/
theorem trans (h : Meets S fs gs) (h' : Meets S' gs tail) : Meets (S ++ S') fs tail := by
  unfold Meets
  rw [List.flatMap_append]
  rcases h with ⟨rfl, hseen⟩ | ⟨f, rest, rfl, hfirst⟩
  · rcases h' with ⟨rfl, hseen'⟩ | ⟨f, rest, rfl, hfirst⟩
    · exact .inl ⟨rfl, List.forall_mem_append.mpr ⟨hseen, hseen'⟩⟩
    · exact .inr ⟨f, rest, rfl, fun hm => (hfirst hm).append_left hseen⟩
  · exact .inr ⟨f, rest, rfl, fun hm => (hfirst hm).append_right _⟩

/-- A site whose faults are none if its references are seen, and which is at fault for a reference only
    if that is the first one not seen. -/
theorem single {s : Site} (hnil : fs = [] → ∀ r ∈ s.references, r.Seen)
    (hfirst : ∀ f rest, fs = f :: rest → f.message = .notDeclared → FirstUnseen s.references f) :
    Meets [s] (fs ++ tail) tail := by
  unfold Meets
  rw [List.flatMap_singleton]
  cases fs with
  | nil => exact .inl ⟨rfl, hnil rfl⟩
  | cons f rest => exact .inr ⟨f, rest ++ tail, rfl, hfirst f rest rfl⟩

end Meets

/-! ## Names and parameters -/

section Sites

variable {env : Env} {scope : Scope} (h : Agrees env scope) {tail : List Fault}
include h

theorem undeclared_meets (name : Token) :
    Meets [.reference scope name] (undeclared env name ++ tail) tail := by
  apply Meets.single
  · intro hnil r hr
    rw [List.mem_singleton.mp hr]
    exact (undeclared_eq_nil_iff h name).mp hnil
  · intro f rest hcons _
    have hunseen : ¬ scope.Sees name.text := by
      intro hsees
      rw [(undeclared_eq_nil_iff h name).mpr hsees] at hcons
      cases hcons
    have hf : f = name.fault .notDeclared [name.text] := by
      unfold undeclared at hcons
      split at hcons
      · cases hcons
      · exact (List.cons.inj hcons).1.symm
    exact ⟨[], ⟨scope, name.text, name⟩, [], rfl, fun _ hr => (by cases hr), hunseen, hf⟩

/-- Of all parameters only the first one can be at fault for a reference, with the error that it passes. -/
theorem paramFaults_unseen {inner : Env} {ps : List Param} {f : Fault}
    (hf : f ∈ paramFaults env inner true ps) (hmessage : f.message = .notDeclared) :
    FirstUnseen (ps.flatMap (Param.references scope)) f := by
  cases ps with
  | nil => cases hf
  | cons p ps =>
      rcases List.mem_append.mp hf with hp | hps
      · cases p with
        | plain name => cases (redeclarations_message f hp).symm.trans hmessage
        | pass mark handler =>
            cases handler with
            | none => cases hp
            | some handler =>
                dsimp only at hp
                rw [if_pos rfl] at hp
                split at hp
                · cases hp
                · next hsees =>
                  refine ⟨[], ⟨scope, handler.text, mark⟩, ps.flatMap (Param.references scope), rfl,
                    fun _ hr => (by cases hr), ?_, List.mem_singleton.mp hp⟩
                  intro hseen
                  exact hsees ((h _).mpr hseen)
        | rest name dots =>
            dsimp only at hp
            split at hp
            · cases (redeclarations_message f hp).symm.trans hmessage
            · cases List.mem_singleton.mp hp
              cases hmessage
      · rcases paramFaults_message f hps with hlater | ⟨hfirst, _⟩
        · rw [hmessage] at hlater
          exact absurd hlater (by decide)
        · cases hfirst

theorem Func.headFaults_meets (f : Func) (isDeclaration : Bool) :
    Meets [.function scope f isDeclaration] (f.headFaults env isDeclaration ++ tail) tail := by
  apply Meets.single
  · intro hnil r hr
    obtain ⟨p, hp, hr⟩ := List.mem_flatMap.mp hr
    have hsound := ((Func.headFaults_eq_nil_iff h f isDeclaration).mp hnil).2.1
    obtain ⟨mark, handler, rfl, rfl⟩ := Param.mem_references hr
    exact hsound mark handler hp
  · intro g rest hcons hmessage
    have hmem : g ∈ f.headFaults env isDeclaration := by
      rw [hcons]
      exact List.mem_cons_self
    rcases List.mem_append.mp hmem with hg | hg
    · exact paramFaults_unseen h hg hmessage
    · cases (redeclarations_message g hg).symm.trans hmessage

end Sites

/-- What is never at fault for a reference, at a site that is sound only without references. -/
theorem Meets.of_message {s : Site} {fs tail : List Fault} (hnil : fs = [] → ∀ r ∈ s.references, r.Seen)
    (hmessage : ∀ f ∈ fs, f.message ≠ .notDeclared) : Meets [s] (fs ++ tail) tail := by
  apply Meets.single hnil
  intro f rest hcons hm
  exact (hmessage f (hcons ▸ List.mem_cons_self) hm).elim

theorem arrowParamFaults_meets (env : Env) (scope : Scope) (params : Params) {tail : List Fault} :
    Meets [.arrow scope params] (arrowParamFaults env.fork params.items.items ++ tail) tail := by
  refine .of_message ?_ ?_
  · intro hnil r hr
    obtain ⟨p, hp, hr⟩ := List.mem_flatMap.mp hr
    -- Without faults, all parameters of an arrow are names.
    obtain ⟨name, rfl⟩ := ((arrowFaults_eq_nil_iff env scope params).mp hnil).1 p hp
    cases hr
  · intro f hf
    rcases arrowParamFaults_message f hf with hmessage | hmessage <;> rw [hmessage] <;> decide

theorem Func.standingFaults_meets (f : Func) (standing : Standing) {tail : List Fault} :
    Meets [.declaration standing f] (f.standingFaults standing ++ tail) tail := by
  refine .of_message (fun _ r hr => by cases hr) ?_
  intro g hg hm
  cases standing <;> simp [Func.standingFaults] at hg
  simp [hg, Token.fault] at hm

theorem Pragma.standingFaults_meets (p : Pragma) {m : Message} (hm : m ≠ .notDeclared)
    (standing : Standing) {tail : List Fault} :
    Meets [.pragma standing p] (p.standingFaults m standing ++ tail) tail := by
  refine .of_message (fun _ r hr => by cases hr) ?_
  intro g hg
  cases standing <;> simp [Pragma.standingFaults] at hg <;> simp [hg, Token.fault, hm]

theorem stray_meets (t : Token) {m : Message} (hm : m ≠ .notDeclared) {tail : List Fault} :
    Meets [.stray t] (t.fault m [] :: tail) tail := by
  have hone : t.fault m [] :: tail = [t.fault m []] ++ tail := rfl
  rw [hone]
  refine .of_message (fun _ r hr => by cases hr) ?_
  exact List.forall_mem_singleton.mpr hm

theorem Site.Raises.meets {s : Site} {fs : List Fault} (h : s.Raises fs) (tail : List Fault) :
    Meets [s] (fs ++ tail) tail := by
  cases h with
  | reference h name => exact undeclared_meets h name
  | function h f isDeclaration => exact Func.headFaults_meets h f isDeclaration
  | arrow env scope params => exact arrowParamFaults_meets env scope params
  | declaration standing f => exact Func.standingFaults_meets f standing
  | «include» standing p => exact Pragma.standingFaults_meets p (by decide) standing
  | declare standing p => exact Pragma.standingFaults_meets p (by decide) standing
  | pass mark => exact stray_meets mark (by decide)
  | rest name => exact stray_meets name (by decide)

theorem Raised.meets {S : List Site} {fs tail : List Fault} (h : Raised S fs tail) : Meets S fs tail := by
  induction h with
  | nil => exact .refl
  | site h => exact h.meets _
  | append _ _ ih ih' => exact ih.trans ih'

/-! ## References in the order of tokens -/

/-- The tokens of the references of sites are among the tokens, in the same order. -/
def RefersWithin (S : List Site) (ts : List Token) : Prop :=
  ((S.flatMap Site.references).map Reference.token).Sublist ts

theorem RefersWithin.append {S S' : List Site} {ts ts' : List Token} (h : RefersWithin S ts)
    (h' : RefersWithin S' ts') : RefersWithin (S ++ S') (ts ++ ts') := by
  unfold RefersWithin
  rw [List.flatMap_append, List.map_append]
  exact List.Sublist.append h h'

theorem Param.references_sublist (scope : Scope) (p : Param) :
    ((p.references scope).map Reference.token).Sublist p.tokens := by
  rcases p with _ | ⟨mark, _ | handler⟩ | _
  · exact List.nil_sublist _
  · exact List.nil_sublist _
  · exact List.Sublist.cons_cons mark (List.nil_sublist _)
  · exact List.nil_sublist _

/-- The handlers of passed errors stand among the parameters. -/
theorem Params.references_sublist (scope : Scope) (params : Params) :
    ((params.references scope).map Reference.token).Sublist params.tokens := by
  have hitems : ((params.items.items.flatMap (Param.references scope)).map Reference.token).Sublist
      (params.items.tokens Param.tokens) := by
    induction params.items with
    | nil => exact List.Sublist.refl _
    | one p =>
        rw [Separated.items, List.flatMap_singleton]
        exact p.references_sublist scope
    | more p comma rest ih =>
        rw [Separated.items, List.flatMap_cons, List.map_append]
        exact (p.references_sublist scope).append (ih.cons comma)
  exact .cons _ (List.Sublist.trans hitems (List.sublist_append_left _ _))

theorem RefersWithin.params {scope : Scope} {params : Params} {s : Site} {S : List Site}
    {ts : List Token} (hs : s.references = params.references scope) (h : RefersWithin S ts) :
    RefersWithin (s :: S) (params.tokens ++ ts) := by
  unfold RefersWithin
  rw [List.flatMap_cons, List.map_append, hs]
  exact (params.references_sublist scope).append h

theorem Surveyed.refers {scope : Scope} {S : List Site} {ts : List Token} (h : Surveyed scope S ts) :
    RefersWithin S ts := by
  induction h with
  | append _ _ ih ih' => exact ih.append ih'
  | reference scope name => exact List.Sublist.refl [name]
  | function _ _ _ ih => exact .params rfl ih
  | arrow _ ih => exact .params rfl ih
  | simpleArrow _ ih => exact ih
  | _ => exact List.nil_sublist _

/-! ## Programs -/

theorem pragmaFaults_message {body : List Stmt} :
    ∀ f ∈ body.flatMap Stmt.pragmaFaults, f.message ≠ .notDeclared := by
  intro f hf hmessage
  obtain ⟨s, _, hf⟩ := List.mem_flatMap.mp hf
  cases s with
  | «include» p =>
      rcases includeFaults_message f hf with hhelper | ⟨hgroup, _⟩
      · cases hhelper.symm.trans hmessage
      · cases hgroup.symm.trans hmessage
  | declare p => cases (declareFaults_message f hf).symm.trans hmessage
  | _ => cases hf

/-- Pragmas and declarations are looked at before all references, and are never at fault for one. -/
theorem Program.firstUnseen {x : Program} {f : Fault} (hf : x.validate = .error f)
    (hmessage : f.message = .notDeclared) : FirstUnseen x.references f := by
  have hhead : ∃ rest, x.faults = f :: rest := by
    unfold Program.validate at hf
    split at hf
    · cases hf
    · next g rest heq =>
      cases hf
      exact ⟨rest, heq⟩
  obtain ⟨rest, hrest⟩ := hhead
  unfold Program.faults at hrest
  rw [List.append_eq_cons_iff] at hrest
  rcases hrest with ⟨_, hstmts⟩ | ⟨rest', hearly, _⟩
  · rcases (stmtsRaised x.body .program (.program x) []).meets with ⟨hnil, _⟩ | ⟨g, rest', hcons, hfirst⟩
    · rw [hnil] at hstmts
      cases hstmts
    · rw [hcons] at hstmts
      cases hstmts
      exact hfirst hmessage
  · have hmem : f ∈ x.body.flatMap Stmt.pragmaFaults ++
        redeclarations x.pragmaScope (declaredNames true x.body) := by
      rw [hearly]
      exact List.mem_cons_self
    rcases List.mem_append.mp hmem with hpragma | hdecl
    · exact (pragmaFaults_message f hpragma hmessage).elim
    · cases (redeclarations_message f hdecl).symm.trans hmessage

/-- The references of a parsed program stand one after the other in the source text. -/
theorem references_increase {limit : Nat} {source : List Char} {x : Program}
    (hshort : byteLength source < UInt32.size) (h : parseProgramWithin limit source = .ok x) :
    x.references.Pairwise fun r r' => r.token.pos < r'.token.pos := by
  have hpairs := tokens_increase hshort h
  have hsub : (x.references.map Reference.token).Sublist (stmtsTokens x.body) :=
    (stmts_surveyed x.body .program (.program x) (parseProgramWithin_formed h).1).refers
  have hmapped := hpairs.sublist (hsub.trans (List.sublist_append_left _ _))
  rw [List.pairwise_map] at hmapped
  exact hmapped

/-- A parsed program that is refused for an undeclared name is refused for the first one: all references
    before it are seen where they stand, and the one that stands there is not. -/
theorem first_undeclared_reported {source : List Char} {x : Program} {f : Fault}
    (hshort : byteLength source < UInt32.size) (h : Engine.parse source = .ok x)
    (hf : Engine.validate x = .error f) (hcode : f.message.code = 2002) :
    (∀ r ∈ x.references, r.token.pos < f.span.start → r.Seen) ∧
      (∃ r ∈ x.references, r.token.pos = f.span.start) ∧
      ∀ r ∈ x.references, r.token.pos = f.span.start → ¬ r.Seen ∧ f = r.fault := by
  rw [Engine.parse_eq hshort] at h
  rw [Engine.validate_eq] at hf
  have hmessage : f.message = .notDeclared := by
    revert hcode
    cases f.message <;> simp [Message.code]
  obtain ⟨before, r, after, hsplit, hbefore, hr, rfl⟩ := x.firstUnseen hf hmessage
  have hpairs := references_increase hshort h
  rw [hsplit] at hpairs ⊢
  obtain ⟨_, hrest, hcross⟩ := List.pairwise_append.mp hpairs
  obtain ⟨hlater, _⟩ := List.pairwise_cons.mp hrest
  have hstart : r.fault.span.start = r.token.pos := rfl
  rw [hstart]
  -- A reference stands before this one, is this one, or stands after it.
  refine ⟨?_, ⟨r, by simp, rfl⟩, ?_⟩
  · intro r' hr' hlt
    rcases List.mem_append.mp hr' with hmem | hmem
    · exact hbefore r' hmem
    · rcases List.mem_cons.mp hmem with rfl | hmem
      · exact (UInt32.lt_irrefl _ hlt).elim
      · exact (UInt32.lt_asymm (hlater r' hmem) hlt).elim
  · intro r' hr' heq
    rcases List.mem_append.mp hr' with hmem | hmem
    · exact (UInt32.ne_of_lt (hcross r' hmem r List.mem_cons_self) heq).elim
    · rcases List.mem_cons.mp hmem with rfl | hmem
      · exact ⟨hr, rfl⟩
      · exact (UInt32.ne_of_lt (hlater r' hmem) heq.symm).elim

/-- A source that names what its pragmas make known, and whose first undeclared name is the handler of a
    function, with another one in its body. -/
def unhandledSource : String :=
  "#declare host, :node;\n#include keys;\nvar a; for (a in keys(host)) \x7b a.b = (x) -> x + process; \x7d\n" ++
    "a(function f(@missing) \x7b return f + unknown; \x7d); other;"

theorem first_undeclared_reported_unhandledSource :
    byteLength unhandledSource.toList < UInt32.size ∧ ∃ x f,
      Engine.parse unhandledSource.toList = .ok x ∧ Engine.validate x = .error f ∧ f.span = ⟨109, 1⟩ ∧
        f.args = ["missing"] ∧
        (x.references.map fun r => (r.name, r.token.pos)) =
          [("a", 49), ("keys", 54), ("host", 59), ("a", 68), ("x", 81), ("process", 85), ("a", 96),
            ("missing", 109), ("f", 128), ("unknown", 132), ("other", 145)] ∧
        (∀ r ∈ x.references, r.token.pos < f.span.start → r.Seen) ∧
        (∃ r ∈ x.references, r.token.pos = f.span.start) ∧
        ∀ r ∈ x.references, r.token.pos = f.span.start → ¬ r.Seen ∧ f = r.fault := by
  have hshort : byteLength unhandledSource.toList < UInt32.size := by decide +kernel
  have hrun : (parseProgram unhandledSource.toList).toOption.map
      (fun x => (failure? x.validate, x.references.map fun r => (r.name, r.token.pos))) =
        some (some ⟨.notDeclared, ["missing"], ⟨109, 1⟩⟩,
          [("a", 49), ("keys", 54), ("host", 59), ("a", 68), ("x", 81), ("process", 85), ("a", 96),
            ("missing", 109), ("f", 128), ("unknown", 132), ("other", 145)]) := by
    decide +kernel
  obtain ⟨x, hx, hvalues⟩ := ok_of_toOption hrun
  obtain ⟨hfailure, hreferences⟩ := Prod.mk.inj hvalues
  have hparse := (Engine.parse_eq hshort).trans hx
  have hf := (Engine.validate_eq x).trans (error_of_failure? hfailure)
  exact ⟨hshort, x, _, hparse, hf, rfl, rfl, hreferences, first_undeclared_reported hshort hparse hf rfl⟩

end Respell
