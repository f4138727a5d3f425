import Respell.Proofs.Scope.Binding
import Respell.Proofs.Scope.Exact
import Respell.Proofs.Scope.Layout

/-!
# The order of statements

Names are declared for a whole scope before anything in it is looked at, so the order in which statements
stand directly in a program or in the body of a function decides nothing about scopes.

Two trees are *reordered* if they are the same up to the order of the statements directly in the bodies of
functions, at any depth. Statements in other blocks keep their order. The argument follows two facts: the
environment of a scope is the same function of names whatever the order in which they were declared, and
the faults of a list of statements are none if each of them has none.
-/

namespace Respell

/-! ## Reordered trees -/

mutual

/-- The same expression up to the order of statements in functions inside it. -/
inductive Expr.Reordered : Expr → Expr → Prop where
  | head {h h' : Head} : Head.Reordered h h' → Expr.Reordered (.head h) (.head h')
  | suffix {e e' : Expr} {s s' : Suffix} : Expr.Reordered e e' → Suffix.Reordered s s' →
      Expr.Reordered (.suffix e s) (.suffix e' s')

/-- The same head up to the order of statements in functions inside it. -/
inductive Head.Reordered : Head → Head → Prop where
  | refl (h : Head) : Head.Reordered h h
  | unary {operator : Token} {e e' : Expr} : Expr.Reordered e e' →
      Head.Reordered (.unary operator e) (.unary operator e')
  | construct {keyword opening closing : Token} {callee : DottedName} {es es' : Separated Expr} :
      ExprsReordered es es' → Head.Reordered (.construct keyword callee ⟨opening, es, closing⟩)
        (.construct keyword callee ⟨opening, es', closing⟩)
  | array {opening closing : Token} {es es' : Separated Expr} : ExprsReordered es es' →
      Head.Reordered (.array ⟨opening, es, closing⟩) (.array ⟨opening, es', closing⟩)
  | object {opening closing : Token} {es es' : Separated Entry} : EntriesReordered es es' →
      Head.Reordered (.object opening es closing) (.object opening es' closing)
  | group {opening closing : Token} {e e' : Expr} : Expr.Reordered e e' →
      Head.Reordered (.group opening e closing) (.group opening e' closing)
  | function {f f' : Func} : Func.Reordered f f' → Head.Reordered (.function f) (.function f')
  | arrow {params : Params} {sign : Token} {e e' : Expr} : Expr.Reordered e e' →
      Head.Reordered (.arrow params sign e) (.arrow params sign e')
  | simpleArrow {sign : Token} {e e' : Expr} : Expr.Reordered e e' →
      Head.Reordered (.simpleArrow sign e) (.simpleArrow sign e')

/-- The same suffix up to the order of statements in functions inside it. -/
inductive Suffix.Reordered : Suffix → Suffix → Prop where
  | refl (s : Suffix) : Suffix.Reordered s s
  | binary {operator : Token} {e e' : Expr} : Expr.Reordered e e' →
      Suffix.Reordered (.binary operator e) (.binary operator e')
  | ternary {question colon : Token} {a a' b b' : Expr} : Expr.Reordered a a' → Expr.Reordered b b' →
      Suffix.Reordered (.ternary question a colon b) (.ternary question a' colon b')
  | call {opening closing : Token} {es es' : Separated Expr} : ExprsReordered es es' →
      Suffix.Reordered (.call ⟨opening, es, closing⟩) (.call ⟨opening, es', closing⟩)
  | invoke {member : Member} {opening closing : Token} {es es' : Separated Expr} :
      ExprsReordered es es' →
      Suffix.Reordered (.invoke member ⟨opening, es, closing⟩) (.invoke member ⟨opening, es', closing⟩)
  | index {opening closing : Token} {e e' : Expr} : Expr.Reordered e e' →
      Suffix.Reordered (.index opening e closing) (.index opening e' closing)

/-- The same comma list of expressions up to the order of statements in functions inside it. -/
inductive ExprsReordered : Separated Expr → Separated Expr → Prop where
  | nil : ExprsReordered .nil .nil
  | one {e e' : Expr} : Expr.Reordered e e' → ExprsReordered (.one e) (.one e')
  | more {comma : Token} {e e' : Expr} {es es' : Separated Expr} : Expr.Reordered e e' →
      ExprsReordered es es' → ExprsReordered (.more e comma es) (.more e' comma es')

/-- The same entries up to the order of statements in functions inside their values. -/
inductive EntriesReordered : Separated Entry → Separated Entry → Prop where
  | nil : EntriesReordered .nil .nil
  | one {key colon : Token} {e e' : Expr} : Expr.Reordered e e' →
      EntriesReordered (.one ⟨key, colon, e⟩) (.one ⟨key, colon, e'⟩)
  | more {key colon comma : Token} {e e' : Expr} {es es' : Separated Entry} : Expr.Reordered e e' →
      EntriesReordered es es' →
      EntriesReordered (.more ⟨key, colon, e⟩ comma es) (.more ⟨key, colon, e'⟩ comma es')

/-- The same function, with the statements of its body reordered inside and then put in any order. -/
inductive Func.Reordered : Func → Func → Prop where
  | body {keyword name : Option Token} {params : Params} {receiver : Option Receiver}
      {opening closing : Token} {ss ss' ts : List Stmt} : StmtsReordered ss ss' → ss'.Perm ts →
      Func.Reordered ⟨keyword, name, params, receiver, ⟨opening, ss, closing⟩⟩
        ⟨keyword, name, params, receiver, ⟨opening, ts, closing⟩⟩

/-- The same statements in the same order, up to the order of statements in functions inside them. -/
inductive StmtsReordered : List Stmt → List Stmt → Prop where
  | nil : StmtsReordered [] []
  | cons {s s' : Stmt} {ss ss' : List Stmt} : Stmt.Reordered s s' → StmtsReordered ss ss' →
      StmtsReordered (s :: ss) (s' :: ss')

/-- The same statement up to the order of statements in functions inside it. -/
inductive Stmt.Reordered : Stmt → Stmt → Prop where
  | refl (s : Stmt) : Stmt.Reordered s s
  | expr {semicolon : Token} {e e' : Expr} : Expr.Reordered e e' →
      Stmt.Reordered (.expr e semicolon) (.expr e' semicolon)
  | conditional {g g' : Guarded} {l l' : Ladder} : Guarded.Reordered g g' → Ladder.Reordered l l' →
      Stmt.Reordered (.conditional g l) (.conditional g' l')
  | while {g g' : Guarded} : Guarded.Reordered g g' → Stmt.Reordered (.while g) (.while g')
  | for {keyword opening first second closing o c : Token} {i i' : ForInit}
      {test test' update update' : Separated Expr} {ss ss' : List Stmt} : ForInit.Reordered i i' →
      ExprsReordered test test' → ExprsReordered update update' → StmtsReordered ss ss' →
      Stmt.Reordered (.for keyword opening i first test second update closing ⟨o, ss, c⟩)
        (.for keyword opening i' first test' second update' closing ⟨o, ss', c⟩)
  | forIn {keyword opening name inWord closing o c : Token} {var : Option Token} {e e' : Expr}
      {ss ss' : List Stmt} : Expr.Reordered e e' → StmtsReordered ss ss' →
      Stmt.Reordered (.forIn keyword opening var name inWord e closing ⟨o, ss, c⟩)
        (.forIn keyword opening var name inWord e' closing ⟨o, ss', c⟩)
  | return {keyword semicolon : Token} {e e' : Expr} : Expr.Reordered e e' →
      Stmt.Reordered (.return keyword (some e) semicolon) (.return keyword (some e') semicolon)
  | throw {keyword semicolon : Token} {e e' : Expr} : Expr.Reordered e e' →
      Stmt.Reordered (.throw keyword e semicolon) (.throw keyword e' semicolon)
  | vars {keyword semicolon : Token} {ds ds' : Separated Decl} : DeclsReordered ds ds' →
      Stmt.Reordered (.vars ⟨keyword, ds⟩ semicolon) (.vars ⟨keyword, ds'⟩ semicolon)
  | function {f f' : Func} : Func.Reordered f f' → Stmt.Reordered (.function f) (.function f')
  | labeled {label colon : Token} {s s' : Stmt} : Stmt.Reordered s s' →
      Stmt.Reordered (.labeled label colon s) (.labeled label colon s')
  | switch {keyword opening closing openBrace closeBrace : Token} {e e' : Expr} {cs cs' : List Clause} :
      Expr.Reordered e e' → ClausesReordered cs cs' →
      Stmt.Reordered (.switch keyword opening e closing openBrace cs closeBrace)
        (.switch keyword opening e' closing openBrace cs' closeBrace)
  | block {o c : Token} {ss ss' : List Stmt} : StmtsReordered ss ss' →
      Stmt.Reordered (.block ⟨o, ss, c⟩) (.block ⟨o, ss', c⟩)

/-- The same test and block up to the order of statements in functions inside them. -/
inductive Guarded.Reordered : Guarded → Guarded → Prop where
  | mk {keyword opening closing o c : Token} {e e' : Expr} {ss ss' : List Stmt} : Expr.Reordered e e' →
      StmtsReordered ss ss' → Guarded.Reordered ⟨keyword, opening, e, closing, ⟨o, ss, c⟩⟩
        ⟨keyword, opening, e', closing, ⟨o, ss', c⟩⟩

/-- The same branches up to the order of statements in functions inside them. -/
inductive Ladder.Reordered : Ladder → Ladder → Prop where
  | done : Ladder.Reordered .done .done
  | otherwise {keyword o c : Token} {ss ss' : List Stmt} : StmtsReordered ss ss' →
      Ladder.Reordered (.otherwise keyword ⟨o, ss, c⟩) (.otherwise keyword ⟨o, ss', c⟩)
  | branch {keyword : Token} {g g' : Guarded} {l l' : Ladder} : Guarded.Reordered g g' →
      Ladder.Reordered l l' → Ladder.Reordered (.branch keyword g l) (.branch keyword g' l')

/-- The same first part of a `for` head up to the order of statements in functions inside it. -/
inductive ForInit.Reordered : ForInit → ForInit → Prop where
  | exprs {es es' : Separated Expr} : ExprsReordered es es' → ForInit.Reordered (.exprs es) (.exprs es')
  | vars {keyword : Token} {ds ds' : Separated Decl} : DeclsReordered ds ds' →
      ForInit.Reordered (.vars ⟨keyword, ds⟩) (.vars ⟨keyword, ds'⟩)

/-- The same declared names up to the order of statements in functions inside their initial values. -/
inductive DeclsReordered : Separated Decl → Separated Decl → Prop where
  | nil : DeclsReordered .nil .nil
  | one {d d' : Decl} : Decl.Reordered d d' → DeclsReordered (.one d) (.one d')
  | more {comma : Token} {d d' : Decl} {ds ds' : Separated Decl} : Decl.Reordered d d' →
      DeclsReordered ds ds' → DeclsReordered (.more d comma ds) (.more d' comma ds')

/-- The same declared name up to the order of statements in functions inside its initial value. -/
inductive Decl.Reordered : Decl → Decl → Prop where
  | bare {name : Token} : Decl.Reordered ⟨name, none⟩ ⟨name, none⟩
  | init {name equals : Token} {e e' : Expr} : Expr.Reordered e e' →
      Decl.Reordered ⟨name, some (equals, e)⟩ ⟨name, some (equals, e')⟩

/-- The same clauses up to the order of statements in functions inside them. -/
inductive ClausesReordered : List Clause → List Clause → Prop where
  | nil : ClausesReordered [] []
  | default {keyword colon : Token} {ss ss' : List Stmt} {cs cs' : List Clause} : StmtsReordered ss ss' →
      ClausesReordered cs cs' →
      ClausesReordered (⟨keyword, none, colon, ss⟩ :: cs) (⟨keyword, none, colon, ss'⟩ :: cs')
  | case {keyword colon : Token} {e e' : Expr} {ss ss' : List Stmt} {cs cs' : List Clause} :
      Expr.Reordered e e' → StmtsReordered ss ss' → ClausesReordered cs cs' →
      ClausesReordered (⟨keyword, some e, colon, ss⟩ :: cs) (⟨keyword, some e', colon, ss'⟩ :: cs')

end

/-- The same program, with its statements reordered inside and then put in any order. -/
def Program.Reordered (x y : Program) : Prop := ∃ ss, StmtsReordered x.body ss ∧ ss.Perm y.body

/-! ## Environments -/

theorem Env.declare_comm (env : Env) (m n : String) :
    (env.declare m).declare n = (env.declare n).declare m := by
  unfold declare
  congr 1
  funext k
  by_cases hm : k = m <;> by_cases hn : k = n <;> simp [hm, hn]

/-- Names can be declared in any order. -/
theorem Env.declareAll_perm (env : Env) {names names' : List String} (h : names.Perm names') :
    env.declareAll names = env.declareAll names' :=
  h.foldl_eq' (fun m _ n _ env => env.declare_comm m n) env

/-! ## Declared names -/

theorem DeclsReordered.names_eq {ds ds' : Separated Decl} (h : DeclsReordered ds ds') :
    ds.items.map (·.name) = ds'.items.map (·.name) := by
  have hname {d d' : Decl} (hd : Decl.Reordered d d') : d.name = d'.name := by
    cases hd <;> rfl
  induction ds generalizing ds' with
  | nil => cases h; rfl
  | one d =>
      cases h with
      | one hd => simp [Separated.items, hname hd]
  | more d comma ds ih =>
      cases h with
      | more hd hds => simp [Separated.items, hname hd, ih hds]

mutual

/-- Statements in functions declare nothing around the functions, so their order changes no declared name. -/
theorem Stmt.Reordered.declared_eq : ∀ {s s' : Stmt}, Stmt.Reordered s s' → ∀ direct : Bool,
    s.declared direct = s'.declared direct
  | _, _, .refl _, _ => rfl
  | _, _, .expr _, _ => rfl
  | _, _, .conditional (.mk _ hss) hl, _ => by
    rw [Stmt.declared, Stmt.declared, hss.declaredNames_eq false, hl.declared_eq]
  | _, _, .while (.mk _ hss), _ => hss.declaredNames_eq false
  | _, _, .for (.exprs _) _ _ hss, _ => hss.declaredNames_eq false
  | _, _, .for (.vars hds) _ _ hss, _ => by
    rw [Stmt.declared, Stmt.declared, hss.declaredNames_eq false, VarList.declared, hds.names_eq]
    rfl
  | _, _, @Stmt.Reordered.forIn _ _ _ _ _ _ _ var _ _ _ _ _ hss, _ => by
    cases var with
    | none => exact hss.declaredNames_eq false
    | some var => rw [Stmt.declared, Stmt.declared, hss.declaredNames_eq false]
  | _, _, .return _, _ => rfl
  | _, _, .throw _, _ => rfl
  | _, _, .vars hds, _ => hds.names_eq
  | _, _, .function (.body _ _), _ => rfl
  | _, _, .labeled hs, _ => hs.declared_eq false
  | _, _, .switch _ hcs, _ => hcs.declared_eq
  | _, _, .block hss, _ => hss.declaredNames_eq false

theorem StmtsReordered.declaredNames_eq : ∀ {ss ss' : List Stmt}, StmtsReordered ss ss' →
    ∀ direct : Bool, declaredNames direct ss = declaredNames direct ss'
  | _, _, .nil, _ => rfl
  | _, _, .cons hs hss, direct => by
    rw [declaredNames, declaredNames, hs.declared_eq direct, hss.declaredNames_eq direct]

theorem Ladder.Reordered.declared_eq : ∀ {l l' : Ladder}, Ladder.Reordered l l' →
    l.declared = l'.declared
  | _, _, .done => rfl
  | _, _, .otherwise hss => hss.declaredNames_eq false
  | _, _, .branch (.mk _ hss) hl => by
    rw [Ladder.declared, Ladder.declared, hss.declaredNames_eq false, hl.declared_eq]

theorem ClausesReordered.declared_eq : ∀ {cs cs' : List Clause}, ClausesReordered cs cs' →
    clausesDeclared cs = clausesDeclared cs'
  | _, _, .nil => rfl
  | _, _, .default hss hcs => by
    rw [clausesDeclared, clausesDeclared, hss.declaredNames_eq false, hcs.declared_eq]
  | _, _, .case _ hss hcs => by
    rw [clausesDeclared, clausesDeclared, hss.declaredNames_eq false, hcs.declared_eq]

end

theorem declaredNames_flatMap (direct : Bool) (ss : List Stmt) :
    declaredNames direct ss = ss.flatMap (·.declared direct) := by
  induction ss with
  | nil => rfl
  | cons s ss ih => rw [declaredNames, ih, List.flatMap_cons]

/-- Statements that are reordered inside and then put in any order declare the same names, in another
    order. -/
theorem StmtsReordered.declaredNames_perm {ss ss' ts : List Stmt} (h : StmtsReordered ss ss')
    (hperm : ss'.Perm ts) (direct : Bool) :
    (declaredNames direct ss).Perm (declaredNames direct ts) := by
  rw [h.declaredNames_eq, declaredNames_flatMap, declaredNames_flatMap]
  exact hperm.flatMap_right _

theorem redeclarations_perm (env : Env) {names names' : List Token} (h : names.Perm names') :
    redeclarations env names = [] ↔ redeclarations env names' = [] := by
  have htexts := h.map (·.text)
  rw [redeclarations_eq_nil_iff, redeclarations_eq_nil_iff, htexts.nodup_iff]
  simp only [htexts.mem_iff]

/-! ## Functions -/

namespace Func.Reordered

variable {f f' : Func} (h : f.Reordered f') (env : Env) (isDeclaration : Bool)
include h

theorem withParams_eq : f.withParams env isDeclaration = f'.withParams env isDeclaration := by
  cases h
  rfl

theorem locals_perm : f.locals.Perm f'.locals := by
  cases h with
  | body hss hperm => exact (hss.declaredNames_perm hperm true).append_left _

/-- What a function declares for its body does not depend on the order of the body. -/
theorem scope_eq : f.scope env isDeclaration = f'.scope env isDeclaration := by
  rw [Func.scope, Func.scope, h.withParams_eq]
  exact Env.declareAll_perm _ (h.locals_perm.map _)

theorem headFaults_iff :
    f.headFaults env isDeclaration = [] ↔ f'.headFaults env isDeclaration = [] := by
  have hparams : paramFaults env (f.outset env isDeclaration) true f.params.items.items =
      paramFaults env (f'.outset env isDeclaration) true f'.params.items.items := by
    cases h
    rfl
  rw [Func.headFaults, Func.headFaults, List.append_eq_nil_iff, List.append_eq_nil_iff, hparams,
    h.withParams_eq, redeclarations_perm _ h.locals_perm]

theorem standingFaults_eq (standing : Standing) : f.standingFaults standing = f'.standingFaults standing := by
  cases h
  rfl

end Func.Reordered

/-! ## Faults -/

/-- Statements have no fault if each of them has none, whatever their order. -/
theorem stmtsFaults_perm {env : Env} {scope : Scope} (h : Agrees env scope) (standing : Standing)
    {ss ts : List Stmt} (hperm : ss.Perm ts) (tail : List Fault) :
    stmtsFaults env standing ss tail = [] ↔ stmtsFaults env standing ts tail = [] := by
  rw [(stmtsRaised ss standing h tail).eq_nil_iff, (stmtsRaised ts standing h tail).eq_nil_iff, stmtsSites_eq,
    stmtsSites_eq]
  simp only [(hperm.flatMap_right _).mem_iff]

section Trees

variable {tail tail' : List Fault}

/-- Two runs of a check that go on alike have a fault or none alike. -/
def Alike (tail tail' : List Fault) : Prop := tail = [] ↔ tail' = []

theorem Alike.append {fs fs' : List Fault} (hfs : Alike fs fs') (h : Alike tail tail') :
    Alike (fs ++ tail) (fs' ++ tail') := by
  rw [Alike, List.append_eq_nil_iff, List.append_eq_nil_iff]
  exact and_congr hfs h

/-- The same sites are at fault alike. -/
theorem Raised.alike {S : List Site} {fs fs' : List Fault} (h : Raised S fs tail) (h' : Raised S fs' tail')
    (ht : Alike tail tail') : Alike fs fs' := by
  rw [Alike, h.eq_nil_iff, h'.eq_nil_iff]
  exact and_congr_right fun _ => ht

mutual

theorem Expr.Reordered.alike : ∀ {e e' : Expr}, e.Reordered e' → ∀ {env : Env} {scope : Scope}
    {tail tail' : List Fault}, Agrees env scope → Alike tail tail' →
    Alike (e.faults env tail) (e'.faults env tail')
  | _, _, .head h, _, _, _, _, ha, ht => by
    rw [Expr.faults, Expr.faults]
    exact h.alike ha ht
  | _, _, .suffix he hs, _, _, _, _, ha, ht => by
    rw [Expr.faults, Expr.faults]
    exact he.alike ha (hs.alike ha ht)

theorem Head.Reordered.alike : ∀ {h h' : Head}, h.Reordered h' → ∀ {env : Env} {scope : Scope}
    {tail tail' : List Fault}, Agrees env scope → Alike tail tail' →
    Alike (h.faults env tail) (h'.faults env tail')
  | _, _, .refl h, _, _, tail, tail', ha, ht => (h.raised ha tail).alike (h.raised ha tail') ht
  | _, _, .unary he, _, _, _, _, ha, ht => by
    rw [Head.faults, Head.faults]
    exact he.alike ha ht
  | _, _, .construct hes, _, _, _, _, ha, ht => by
    rw [Head.faults, Head.faults]
    exact Alike.append Iff.rfl (hes.alike ha ht)
  | _, _, .array hes, _, _, _, _, ha, ht => by
    rw [Head.faults, Head.faults]
    exact hes.alike ha ht
  | _, _, .object hes, _, _, _, _, ha, ht => by
    rw [Head.faults, Head.faults]
    exact hes.alike ha ht
  | _, _, .group he, _, _, _, _, ha, ht => by
    rw [Head.faults, Head.faults]
    exact he.alike ha ht
  | _, _, .function hf, _, _, _, _, ha, ht => by
    rw [Head.faults, Head.faults]
    exact hf.alike false ha ht
  | _, _, .arrow he, _, _, _, _, ha, ht => by
    rw [Head.faults, Head.faults]
    exact Alike.append Iff.rfl (he.alike (ha.arrow _) ht)
  | _, _, .simpleArrow he, _, _, _, _, ha, ht => by
    rw [Head.faults, Head.faults]
    exact he.alike ha.simpleArrow ht

theorem Suffix.Reordered.alike : ∀ {s s' : Suffix}, s.Reordered s' → ∀ {env : Env} {scope : Scope}
    {tail tail' : List Fault}, Agrees env scope → Alike tail tail' →
    Alike (s.faults env tail) (s'.faults env tail')
  | _, _, .refl s, _, _, tail, tail', ha, ht => (s.raised ha tail).alike (s.raised ha tail') ht
  | _, _, .binary he, _, _, _, _, ha, ht => by
    rw [Suffix.faults, Suffix.faults]
    exact he.alike ha ht
  | _, _, .ternary hc hb, _, _, _, _, ha, ht => by
    rw [Suffix.faults, Suffix.faults]
    exact hc.alike ha (hb.alike ha ht)
  | _, _, .call hes, _, _, _, _, ha, ht => by
    rw [Suffix.faults, Suffix.faults]
    exact hes.alike ha ht
  | _, _, .invoke hes, _, _, _, _, ha, ht => by
    rw [Suffix.faults, Suffix.faults]
    exact hes.alike ha ht
  | _, _, .index he, _, _, _, _, ha, ht => by
    rw [Suffix.faults, Suffix.faults]
    exact he.alike ha ht

theorem ExprsReordered.alike : ∀ {es es' : Separated Expr}, ExprsReordered es es' → ∀ {env : Env}
    {scope : Scope} {tail tail' : List Fault}, Agrees env scope → Alike tail tail' →
    Alike (exprsFaults env es tail) (exprsFaults env es' tail')
  | _, _, .nil, _, _, _, _, _, ht => by
    rw [exprsFaults, exprsFaults]
    exact ht
  | _, _, .one he, _, _, _, _, ha, ht => by
    rw [exprsFaults, exprsFaults]
    exact he.alike ha ht
  | _, _, .more he hes, _, _, _, _, ha, ht => by
    rw [exprsFaults, exprsFaults]
    exact he.alike ha (hes.alike ha ht)

theorem EntriesReordered.alike : ∀ {es es' : Separated Entry}, EntriesReordered es es' → ∀ {env : Env}
    {scope : Scope} {tail tail' : List Fault}, Agrees env scope → Alike tail tail' →
    Alike (entriesFaults env es tail) (entriesFaults env es' tail')
  | _, _, .nil, _, _, _, _, _, ht => by
    rw [entriesFaults, entriesFaults]
    exact ht
  | _, _, .one he, _, _, _, _, ha, ht => by
    rw [entriesFaults, entriesFaults]
    exact he.alike ha ht
  | _, _, .more he hes, _, _, _, _, ha, ht => by
    rw [entriesFaults, entriesFaults]
    exact he.alike ha (hes.alike ha ht)

theorem Func.Reordered.alike : ∀ {f f' : Func}, f.Reordered f' → ∀ {env : Env} {scope : Scope}
    (isDeclaration : Bool) {tail tail' : List Fault}, Agrees env scope → Alike tail tail' →
    Alike (f.faults env isDeclaration tail) (f'.faults env isDeclaration tail')
  | _, _, hf@(.body hss hperm), env, _, isDeclaration, tail, tail', ha, ht => by
    rw [Func.faults_eq, Func.faults_eq, ← hf.scope_eq env isDeclaration]
    refine Alike.append (hf.headFaults_iff env isDeclaration) ?_
    -- First the statements change inside, then they change places.
    exact (hss.alike .body (ha.function _ isDeclaration) ht).trans
      (stmtsFaults_perm (ha.function _ isDeclaration) .body hperm tail')

theorem StmtsReordered.alike : ∀ {ss ss' : List Stmt}, StmtsReordered ss ss' → ∀ {env : Env}
    {scope : Scope} (standing : Standing) {tail tail' : List Fault}, Agrees env scope → Alike tail tail' →
    Alike (stmtsFaults env standing ss tail) (stmtsFaults env standing ss' tail')
  | _, _, .nil, _, _, _, _, _, _, ht => by
    rw [stmtsFaults, stmtsFaults]
    exact ht
  | _, _, .cons hs hss, _, _, standing, _, _, ha, ht => by
    rw [stmtsFaults, stmtsFaults]
    exact hs.alike standing ha (hss.alike standing ha ht)

theorem Stmt.Reordered.alike : ∀ {s s' : Stmt}, s.Reordered s' → ∀ {env : Env} {scope : Scope}
    (standing : Standing) {tail tail' : List Fault}, Agrees env scope → Alike tail tail' →
    Alike (s.faults env standing tail) (s'.faults env standing tail')
  | _, _, .refl s, _, _, standing, tail, tail', ha, ht =>
    (s.raised standing ha tail).alike (s.raised standing ha tail') ht
  | _, _, .expr he, _, _, _, _, _, ha, ht => by
    rw [Stmt.faults, Stmt.faults]
    exact he.alike ha ht
  | _, _, .conditional hg hl, _, _, _, _, _, ha, ht => by
    rw [Stmt.faults, Stmt.faults]
    exact hg.alike ha (hl.alike ha ht)
  | _, _, .while hg, _, _, _, _, _, ha, ht => by
    rw [Stmt.faults, Stmt.faults]
    exact hg.alike ha ht
  | _, _, .for hi htest hupdate hss, _, _, _, _, _, ha, ht => by
    rw [Stmt.faults, Stmt.faults]
    exact hi.alike ha (htest.alike ha (hupdate.alike ha (hss.alike .nested ha ht)))
  | _, _, .forIn he hss, _, _, _, _, _, ha, ht => by
    rw [Stmt.faults, Stmt.faults]
    exact Alike.append Iff.rfl (he.alike ha (hss.alike .nested ha ht))
  | _, _, .return he, _, _, _, _, _, ha, ht => by
    rw [Stmt.faults, Stmt.faults]
    exact he.alike ha ht
  | _, _, .throw he, _, _, _, _, _, ha, ht => by
    rw [Stmt.faults, Stmt.faults]
    exact he.alike ha ht
  | _, _, .vars hds, _, _, _, _, _, ha, ht => by
    rw [Stmt.faults, Stmt.faults]
    exact hds.alike ha ht
  | _, _, .function hf, _, _, standing, _, _, ha, ht => by
    rw [Stmt.faults, Stmt.faults, hf.standingFaults_eq standing]
    exact Alike.append Iff.rfl (hf.alike true ha ht)
  | _, _, .labeled hs, _, _, _, _, _, ha, ht => by
    rw [Stmt.faults, Stmt.faults]
    exact hs.alike .nested ha ht
  | _, _, .switch he hcs, _, _, _, _, _, ha, ht => by
    rw [Stmt.faults, Stmt.faults]
    exact he.alike ha (hcs.alike ha ht)
  | _, _, .block hss, _, _, _, _, _, ha, ht => by
    rw [Stmt.faults, Stmt.faults]
    exact hss.alike .nested ha ht

theorem Guarded.Reordered.alike : ∀ {g g' : Guarded}, g.Reordered g' → ∀ {env : Env} {scope : Scope}
    {tail tail' : List Fault}, Agrees env scope → Alike tail tail' →
    Alike (g.faults env tail) (g'.faults env tail')
  | _, _, .mk he hss, _, _, _, _, ha, ht => by
    rw [Guarded.faults, Guarded.faults]
    exact he.alike ha (hss.alike .nested ha ht)

theorem Ladder.Reordered.alike : ∀ {l l' : Ladder}, l.Reordered l' → ∀ {env : Env} {scope : Scope}
    {tail tail' : List Fault}, Agrees env scope → Alike tail tail' →
    Alike (l.faults env tail) (l'.faults env tail')
  | _, _, .done, _, _, _, _, _, ht => by
    rw [Ladder.faults, Ladder.faults]
    exact ht
  | _, _, .otherwise hss, _, _, _, _, ha, ht => by
    rw [Ladder.faults, Ladder.faults]
    exact hss.alike .nested ha ht
  | _, _, .branch hg hl, _, _, _, _, ha, ht => by
    rw [Ladder.faults, Ladder.faults]
    exact hg.alike ha (hl.alike ha ht)

theorem ForInit.Reordered.alike : ∀ {i i' : ForInit}, i.Reordered i' → ∀ {env : Env} {scope : Scope}
    {tail tail' : List Fault}, Agrees env scope → Alike tail tail' →
    Alike (i.faults env tail) (i'.faults env tail')
  | _, _, .exprs hes, _, _, _, _, ha, ht => by
    rw [ForInit.faults, ForInit.faults]
    exact hes.alike ha ht
  | _, _, .vars hds, _, _, _, _, ha, ht => by
    rw [ForInit.faults, ForInit.faults]
    exact hds.alike ha ht

theorem DeclsReordered.alike : ∀ {ds ds' : Separated Decl}, DeclsReordered ds ds' → ∀ {env : Env}
    {scope : Scope} {tail tail' : List Fault}, Agrees env scope → Alike tail tail' →
    Alike (declsFaults env ds tail) (declsFaults env ds' tail')
  | _, _, .nil, _, _, _, _, _, ht => by
    rw [declsFaults, declsFaults]
    exact ht
  | _, _, .one hd, _, _, _, _, ha, ht => by
    rw [declsFaults, declsFaults]
    exact hd.alike ha ht
  | _, _, .more hd hds, _, _, _, _, ha, ht => by
    rw [declsFaults, declsFaults]
    exact hd.alike ha (hds.alike ha ht)

theorem Decl.Reordered.alike : ∀ {d d' : Decl}, d.Reordered d' → ∀ {env : Env} {scope : Scope}
    {tail tail' : List Fault}, Agrees env scope → Alike tail tail' →
    Alike (d.faults env tail) (d'.faults env tail')
  | _, _, .bare, _, _, _, _, _, ht => by
    rw [Decl.faults, Decl.faults]
    exact ht
  | _, _, .init he, _, _, _, _, ha, ht => by
    rw [Decl.faults, Decl.faults]
    exact he.alike ha ht

theorem ClausesReordered.alike : ∀ {cs cs' : List Clause}, ClausesReordered cs cs' → ∀ {env : Env}
    {scope : Scope} {tail tail' : List Fault}, Agrees env scope → Alike tail tail' →
    Alike (clausesFaults env cs tail) (clausesFaults env cs' tail')
  | _, _, .nil, _, _, _, _, _, ht => by
    rw [clausesFaults, clausesFaults]
    exact ht
  | _, _, .default hss hcs, _, _, _, _, ha, ht => by
    rw [clausesFaults, clausesFaults]
    exact hss.alike .nested ha (hcs.alike ha ht)
  | _, _, .case he hss hcs, _, _, _, _, ha, ht => by
    rw [clausesFaults, clausesFaults]
    exact he.alike ha (hss.alike .nested ha (hcs.alike ha ht))

end

end Trees

/-! ## Helpers -/

theorem mem_addName {n name : String} {names : List String} :
    n ∈ addName names name ↔ n ∈ names ∨ n = name := by
  unfold addName
  split
  · next hmem =>
      constructor
      · exact .inl
      · rintro (h | rfl)
        · exact h
        · exact hmem
  · simp

theorem nodup_addName {names : List String} (h : names.Nodup) (name : String) :
    (addName names name).Nodup := by
  unfold addName
  split
  · exact h
  · next hmem =>
      rw [List.nodup_append]
      refine ⟨h, by simp, ?_⟩
      rintro m hm n hn rfl
      exact hmem (List.mem_singleton.mp hn ▸ hm)

theorem mem_foldl_addName {n : String} {names acc : List String} :
    n ∈ names.foldl addName acc ↔ n ∈ acc ∨ n ∈ names := by
  induction names generalizing acc with
  | nil => simp
  | cons name names ih => rw [List.foldl_cons, ih, mem_addName, List.mem_cons, or_assoc]

theorem nodup_foldl_addName {names acc : List String} (h : acc.Nodup) :
    (names.foldl addName acc).Nodup := by
  induction names generalizing acc with
  | nil => exact h
  | cons name names ih => exact ih (nodup_addName h name)

/-! ## Programs -/

theorem Stmt.Reordered.pragma_eq {s s' : Stmt} (h : s.Reordered s') :
    s.pragmaFaults = s'.pragmaFaults ∧ s.pragmaNames = s'.pragmaNames ∧
      s.includedNames = s'.includedNames := by
  cases h <;> exact ⟨rfl, rfl, rfl⟩

/-- What is asked of the pragmas of each statement, asked in any order. -/
theorem StmtsReordered.flatMap_perm {α : Type} {f : Stmt → List α} {ss ss' ts : List Stmt}
    (hf : ∀ {s s' : Stmt}, s.Reordered s' → f s = f s') (h : StmtsReordered ss ss')
    (hperm : ss'.Perm ts) : (ss.flatMap f).Perm (ts.flatMap f) := by
  have hsame : ss.flatMap f = ss'.flatMap f := by
    clear hperm
    induction ss generalizing ss' with
    | nil => cases h; rfl
    | cons s ss ih =>
        cases h with
        | cons hs hss => rw [List.flatMap_cons, List.flatMap_cons, hf hs, ih hss]
  rw [hsame]
  exact hperm.flatMap_right _

namespace Program.Reordered

variable {x y : Program} (h : x.Reordered y)
include h

theorem scope_eq : x.pragmaScope = y.pragmaScope ∧ x.scope = y.scope := by
  obtain ⟨ss, hss, hperm⟩ := h
  have hpragmas : x.pragmaScope = y.pragmaScope :=
    Env.declareAll_perm _ (hss.flatMap_perm (fun hs => hs.pragma_eq.2.1) hperm)
  refine ⟨hpragmas, ?_⟩
  rw [Program.scope, Program.scope, hpragmas]
  exact Env.declareAll_perm _ ((hss.declaredNames_perm hperm true).map _)

/-- A program in another order has faults if and only if the program has. -/
theorem faults_iff : x.faults = [] ↔ y.faults = [] := by
  obtain ⟨hpragmaScope, hscope⟩ := h.scope_eq
  obtain ⟨ss, hss, hperm⟩ := h
  have hpragmas : x.body.flatMap Stmt.pragmaFaults = [] ↔ y.body.flatMap Stmt.pragmaFaults = [] := by
    have hfaults := hss.flatMap_perm (fun hs => hs.pragma_eq.1) hperm
    exact ⟨fun hx => (hx ▸ hfaults).nil_eq.symm, fun hy => (hy ▸ hfaults).eq_nil⟩
  have hbody : stmtsFaults x.scope .program x.body [] = [] ↔ stmtsFaults x.scope .program y.body [] = [] :=
    (hss.alike .program (Agrees.program x) Iff.rfl).trans
      (stmtsFaults_perm (Agrees.program x) .program hperm [])
  rw [faults, faults, List.append_eq_nil_iff, List.append_eq_nil_iff, List.append_eq_nil_iff,
    List.append_eq_nil_iff, hpragmas, redeclarations_perm _ (hss.declaredNames_perm hperm true), hbody,
    hpragmaScope, hscope]

/-- A program in another order asks for the same helpers. -/
theorem helpers_perm : x.helpers.Perm y.helpers := by
  obtain ⟨ss, hss, hperm⟩ := h
  have hnames := hss.flatMap_perm (fun hs => hs.pragma_eq.2.2) hperm
  rw [Program.helpers, Program.helpers, List.perm_ext_iff_of_nodup (nodup_foldl_addName .nil)
    (nodup_foldl_addName .nil)]
  intro n
  rw [mem_foldl_addName, mem_foldl_addName, hnames.mem_iff]

end Program.Reordered

/-- A program whose statements are put in another order, directly in the program and directly in the bodies
    of any of its functions, is accepted if and only if the program is, and asks for the same helpers. -/
theorem validate_reordered {x y : Program} (h : x.Reordered y) :
    ((∃ helpers, x.validate = .ok helpers) ↔ ∃ helpers, y.validate = .ok helpers) ∧
      ∀ helpers helpers', x.validate = .ok helpers → y.validate = .ok helpers' →
        helpers.Perm helpers' := by
  have hok (z : Program) : (∃ helpers, z.validate = .ok helpers) ↔ z.faults = [] := by
    constructor
    · rintro ⟨helpers, hz⟩
      exact (z.validate_ok_iff.mp hz).1
    · intro hz
      exact ⟨z.helpers, z.validate_ok_iff.mpr ⟨hz, rfl⟩⟩
  refine ⟨by rw [hok, hok, h.faults_iff], ?_⟩
  intro helpers helpers' hx hy
  obtain ⟨_, rfl⟩ := x.validate_ok_iff.mp hx
  obtain ⟨_, rfl⟩ := y.validate_ok_iff.mp hy
  exact h.helpers_perm

/-! A program in which every name is used before it is declared, and the same program the other way round. -/

/-- A statement that uses a name. -/
def useOf (name : String) : Stmt :=
  .expr (.head (.ident ⟨.identifier, name, 0, ""⟩)) ⟨.punct .semicolon, ";", 0, ""⟩

/-- A function declaration without parameters. -/
def functionOf (name : String) (body : List Stmt) : Stmt :=
  .function ⟨some ⟨.word .function, "function", 0, " "⟩, some ⟨.identifier, name, 0, ""⟩,
    ⟨⟨.punct .openParen, "(", 0, ""⟩, .nil, ⟨.punct .closeParen, ")", 0, " "⟩⟩, none,
    ⟨⟨.punct .openBrace, "\x7b", 0, " "⟩, body, ⟨.punct .closeBrace, "\x7d", 0, " "⟩⟩⟩

/-- An `#include` of one helper. -/
def includeOf (name : String) : Stmt :=
  .include ⟨⟨.includePragma, "#include", 0, " "⟩, .one (.single ⟨.identifier, name, 0, ""⟩),
    ⟨.punct .semicolon, ";", 0, ""⟩⟩

def usesFirst : Program :=
  ⟨"", [useOf "f", functionOf "f" [useOf "g", functionOf "g" [useOf "each"]], includeOf "each"],
    ⟨.endOfFile, "", 0, ""⟩⟩

def declaresFirst : Program :=
  ⟨"", [includeOf "each", functionOf "f" [functionOf "g" [useOf "each"], useOf "g"], useOf "f"],
    ⟨.endOfFile, "", 0, ""⟩⟩

theorem usesFirst_reordered : usesFirst.Reordered declaresFirst := by
  refine ⟨[useOf "f", functionOf "f" [functionOf "g" [useOf "each"], useOf "g"], includeOf "each"], ?_, ?_⟩
  · have hbody : StmtsReordered [useOf "g", functionOf "g" [useOf "each"]]
        [useOf "g", functionOf "g" [useOf "each"]] := .cons (.refl _) (.cons (.refl _) .nil)
    exact .cons (.refl _) (.cons (.function (.body hbody (.swap _ _ _))) (.cons (.refl _) .nil))
  · exact (List.reverse_perm _).symm

theorem validate_reordered_usesFirst :
    usesFirst.Reordered declaresFirst ∧ usesFirst.validate = .ok ["each"] ∧
      ∃ helpers, declaresFirst.validate = .ok helpers ∧ ["each"].Perm helpers := by
  have hx : usesFirst.validate = .ok ["each"] := by
    have hfaults : usesFirst.faults = [] := by decide +kernel
    exact usesFirst.validate_ok_iff.mpr ⟨hfaults, by decide +kernel⟩
  obtain ⟨hiff, hhelpers⟩ := validate_reordered usesFirst_reordered
  obtain ⟨helpers, hy⟩ := hiff.mp ⟨_, hx⟩
  exact ⟨usesFirst_reordered, hx, helpers, hy, hhelpers _ _ hx hy⟩

end Respell
