import Respell.Proofs.Tree.Relayout
import Respell.Scope.Program

/-!
# Scopes do not depend on layout

Whether names are declared and where is decided by the texts of tokens. So a tree in another layout has the
same faults in the same order, each at the same token.
-/

namespace Respell

variable {g : Relayout} {U : List Token}

/-- The same faults one by one, each at a token among `U` and at the same token in the other layout. -/
inductive SameFaults (g : Relayout) (U : List Token) : List Fault → List Fault → Prop where
  | nil : SameFaults g U [] []
  | cons {t : Token} {m : Message} {args : List String} {fs fs' : List Fault} :
      t ∈ U → SameFaults g U fs fs' →
      SameFaults g U (t.fault m args :: fs) ((t.relayout g).fault m args :: fs')

namespace SameFaults

variable {fs fs' es es' : List Fault} {t : Token}

theorem append (h : SameFaults g U fs fs') (h' : SameFaults g U es es') :
    SameFaults g U (fs ++ es) (fs' ++ es') := by
  induction h with
  | nil => exact h'
  | cons ht _ ih => exact .cons ht ih

theorem single (ht : t ∈ U) (m : Message) (args : List String) :
    SameFaults g U [t.fault m args] [(t.relayout g).fault m args] := .cons ht .nil

/-- A fault that is found under the same condition. -/
theorem guarded {c : Prop} [Decidable c] (ht : t ∈ U) (m : Message) (args : List String) :
    SameFaults g U (if c then [] else [t.fault m args]) (if c then [] else [(t.relayout g).fault m args]) := by
  split
  · exact .nil
  · exact single ht m args

end SameFaults

/-! ## Declared names -/

/-- The tokens of an item are tokens of the list. -/
theorem Separated.tokens_subset {α : Type} {f : α → List Token} {items : Separated α} {a : α}
    (ha : a ∈ items.items) : f a ⊆ items.tokens f := by
  induction items with
  | nil => cases ha
  | one b =>
      rw [List.mem_singleton.mp ha]
      exact List.Subset.refl _
  | more b comma items ih =>
      rcases List.mem_cons.mp ha with rfl | ha
      · exact List.subset_append_left _ _
      · exact List.Subset.trans (ih ha)
          (List.Subset.trans (List.subset_cons_self _ _) (List.subset_append_right _ _))

theorem VarList.declared_relayout (l : VarList) :
    (l.relayout g).declared = l.declared.map (Token.relayout g) := by
  obtain ⟨keyword, items⟩ := l
  have hname (d : Decl) : (d.relayout g).name = d.name.relayout g := by
    obtain ⟨name, _ | ⟨equals, value⟩⟩ := d <;> rfl
  simp only [VarList.relayout, VarList.declared, declsRelayout_eq, Separated.items_relayout, List.map_map]
  exact List.map_congr_left fun d _ => hname d

theorem VarList.declared_subset (l : VarList) : l.declared ⊆ l.tokens := by
  obtain ⟨keyword, items⟩ := l
  intro t ht
  obtain ⟨d, hd, rfl⟩ := List.mem_map.mp ht
  have hname : d.name ∈ d.tokens := by
    obtain ⟨name, _ | ⟨equals, value⟩⟩ := d <;> exact List.mem_cons_self
  rw [VarList.tokens, declsTokens_eq]
  exact List.mem_cons_of_mem _ (Separated.tokens_subset hd hname)

mutual

theorem Stmt.declared_relayout : ∀ (direct : Bool) (s : Stmt),
    (s.relayout g).declared direct = (s.declared direct).map (Token.relayout g)
  | direct, .function ⟨_, name, _, _, _⟩ => by
    cases direct <;> cases name <;> rfl
  | direct, .vars list _ => list.declared_relayout
  | direct, .conditional ⟨_, _, _, _, ⟨_, body, _⟩⟩ others => by
    simp only [Stmt.relayout, Guarded.relayout, Block.relayout, Stmt.declared,
      declaredNames_relayout false body, Ladder.declared_relayout others, List.map_append]
  | direct, .while ⟨_, _, _, _, ⟨_, body, _⟩⟩ => declaredNames_relayout false body
  | direct, .for _ _ (.vars list) _ _ _ _ _ ⟨_, body, _⟩ => by
    simp only [Stmt.relayout, ForInit.relayout, Block.relayout, Stmt.declared,
      declaredNames_relayout false body, list.declared_relayout, List.map_append]
  | direct, .for _ _ (.exprs _) _ _ _ _ _ ⟨_, body, _⟩ => declaredNames_relayout false body
  | direct, .forIn _ _ (some _) name _ _ _ ⟨_, body, _⟩ => by
    simp only [Stmt.relayout, Option.map_some, Block.relayout, Stmt.declared,
      declaredNames_relayout false body, List.map_cons]
  | direct, .forIn _ _ none _ _ _ _ ⟨_, body, _⟩ => declaredNames_relayout false body
  | direct, .labeled _ _ body => Stmt.declared_relayout false body
  | direct, .switch _ _ _ _ _ clauses _ => clausesDeclared_relayout clauses
  | direct, .block ⟨_, body, _⟩ => declaredNames_relayout false body
  | direct, .expr _ _ => rfl
  | direct, .empty _ => rfl
  | direct, .jump _ _ _ => rfl
  | direct, .return _ none _ => rfl
  | direct, .return _ (some _) _ => rfl
  | direct, .throw _ _ _ => rfl
  | direct, .include _ => rfl
  | direct, .declare _ => rfl

theorem declaredNames_relayout : ∀ (direct : Bool) (ss : List Stmt),
    declaredNames direct (stmtsRelayout g ss) = (declaredNames direct ss).map (Token.relayout g)
  | _, [] => rfl
  | direct, s :: ss => by
    simp only [stmtsRelayout, declaredNames, Stmt.declared_relayout direct s,
      declaredNames_relayout direct ss, List.map_append]

theorem Ladder.declared_relayout : ∀ l : Ladder,
    (l.relayout g).declared = l.declared.map (Token.relayout g)
  | .done => rfl
  | .otherwise _ ⟨_, body, _⟩ => declaredNames_relayout false body
  | .branch _ ⟨_, _, _, _, ⟨_, body, _⟩⟩ others => by
    simp only [Ladder.relayout, Guarded.relayout, Block.relayout, Ladder.declared,
      declaredNames_relayout false body, Ladder.declared_relayout others, List.map_append]

theorem clausesDeclared_relayout : ∀ cs : List Clause,
    clausesDeclared (clausesRelayout g cs) = (clausesDeclared cs).map (Token.relayout g)
  | [] => rfl
  | ⟨_, none, _, body⟩ :: cs => by
    simp only [clausesRelayout, clausesDeclared, declaredNames_relayout false body,
      clausesDeclared_relayout cs, List.map_append]
  | ⟨_, some _, _, body⟩ :: cs => by
    simp only [clausesRelayout, clausesDeclared, declaredNames_relayout false body,
      clausesDeclared_relayout cs, List.map_append]

end

mutual

theorem Stmt.declared_subset : ∀ (direct : Bool) (s : Stmt), s.tokens ⊆ U → s.declared direct ⊆ U
  | direct, .function ⟨_, name, _, _, _⟩, h => by
    cases direct with
    | false => exact List.nil_subset _
    | true =>
        simp only [Stmt.tokens, Func.tokens, List.append_subset] at h
        exact h.1.1.1.2
  | _, .vars list _, h => List.Subset.trans list.declared_subset (List.append_subset.mp h).1
  | _, .conditional ⟨_, _, _, _, ⟨_, body, _⟩⟩ others, h => by
    simp only [Stmt.tokens, Guarded.tokens, Block.tokens, List.cons_subset, List.append_subset] at h
    exact List.append_subset.mpr ⟨declaredNames_subset false body h.1.2.2.2.2.2.1,
      Ladder.declared_subset others h.2⟩
  | _, .while ⟨_, _, _, _, ⟨_, body, _⟩⟩, h => by
    simp only [Stmt.tokens, Guarded.tokens, Block.tokens, List.cons_subset, List.append_subset] at h
    exact declaredNames_subset false body h.2.2.2.2.2.1
  | _, .for _ _ (.vars list) _ _ _ _ _ ⟨_, body, _⟩, h => by
    simp only [Stmt.tokens, ForInit.tokens, Block.tokens, List.cons_subset, List.append_subset] at h
    obtain ⟨_, _, hlist, _, _, _, _, _, _, hbody, _⟩ := h
    exact List.append_subset.mpr
      ⟨List.Subset.trans list.declared_subset hlist, declaredNames_subset false body hbody⟩
  | _, .for _ _ (.exprs _) _ _ _ _ _ ⟨_, body, _⟩, h => by
    simp only [Stmt.tokens, ForInit.tokens, Block.tokens, List.cons_subset, List.append_subset] at h
    obtain ⟨_, _, _, _, _, _, _, _, _, hbody, _⟩ := h
    exact declaredNames_subset false body hbody
  | _, .forIn _ _ (some _) name _ _ _ ⟨_, body, _⟩, h => by
    simp only [Stmt.tokens, Block.tokens, List.cons_subset, List.append_subset] at h
    obtain ⟨_, _, _, hname, _, _, _, _, hbody, _⟩ := h
    exact List.cons_subset.mpr ⟨hname, declaredNames_subset false body hbody⟩
  | _, .forIn _ _ none _ _ _ _ ⟨_, body, _⟩, h => by
    simp only [Stmt.tokens, Block.tokens, List.cons_subset, List.append_subset] at h
    obtain ⟨_, _, _, _, _, _, _, _, hbody, _⟩ := h
    exact declaredNames_subset false body hbody
  | _, .labeled _ _ body, h => by
    simp only [Stmt.tokens, List.cons_subset] at h
    exact Stmt.declared_subset false body h.2.2
  | _, .switch _ _ _ _ _ clauses _, h => by
    simp only [Stmt.tokens, List.cons_subset, List.append_subset] at h
    exact clausesDeclared_subset clauses h.2.2.2.2.2.1
  | _, .block ⟨_, body, _⟩, h => by
    simp only [Stmt.tokens, Block.tokens, List.cons_subset, List.append_subset] at h
    exact declaredNames_subset false body h.2.1
  | _, .expr _ _, _ => List.nil_subset _
  | _, .empty _, _ => List.nil_subset _
  | _, .jump _ _ _, _ => List.nil_subset _
  | _, .return _ none _, _ => List.nil_subset _
  | _, .return _ (some _) _, _ => List.nil_subset _
  | _, .throw _ _ _, _ => List.nil_subset _
  | _, .include _, _ => List.nil_subset _
  | _, .declare _, _ => List.nil_subset _

theorem declaredNames_subset : ∀ (direct : Bool) (ss : List Stmt), stmtsTokens ss ⊆ U →
    declaredNames direct ss ⊆ U
  | _, [], _ => List.nil_subset _
  | direct, s :: ss, h => by
    obtain ⟨hs, hss⟩ := List.append_subset.mp h
    exact List.append_subset.mpr ⟨Stmt.declared_subset direct s hs, declaredNames_subset direct ss hss⟩

theorem Ladder.declared_subset : ∀ l : Ladder, l.tokens ⊆ U → l.declared ⊆ U
  | .done, _ => List.nil_subset _
  | .otherwise _ ⟨_, body, _⟩, h => by
    simp only [Ladder.tokens, Block.tokens, List.cons_subset, List.append_subset] at h
    exact declaredNames_subset false body h.2.2.1
  | .branch _ ⟨_, _, _, _, ⟨_, body, _⟩⟩ others, h => by
    simp only [Ladder.tokens, Guarded.tokens, Block.tokens, List.cons_subset, List.append_subset] at h
    exact List.append_subset.mpr ⟨declaredNames_subset false body h.2.1.2.2.2.2.2.1,
      Ladder.declared_subset others h.2.2⟩

theorem clausesDeclared_subset : ∀ cs : List Clause, clausesTokens cs ⊆ U → clausesDeclared cs ⊆ U
  | [], _ => List.nil_subset _
  | ⟨_, none, _, body⟩ :: cs, h => by
    simp only [clausesTokens, List.cons_subset, List.append_subset] at h
    exact List.append_subset.mpr ⟨declaredNames_subset false body h.2.2.1,
      clausesDeclared_subset cs h.2.2.2⟩
  | ⟨_, some _, _, body⟩ :: cs, h => by
    simp only [clausesTokens, List.cons_subset, List.append_subset] at h
    exact List.append_subset.mpr ⟨declaredNames_subset false body h.2.2.2.1,
      clausesDeclared_subset cs h.2.2.2.2⟩

end

/-! ## Names and parameters -/

theorem undeclared_sameFaults (env : Env) {name : Token} (h : name ∈ U) :
    SameFaults g U (undeclared env name) (undeclared env (name.relayout g)) :=
  .guarded h _ _

theorem redeclarations_sameFaults (env : Env) (names : List Token) (h : names ⊆ U) :
    SameFaults g U (redeclarations env names) (redeclarations env (names.map (Token.relayout g))) := by
  induction names generalizing env with
  | nil => exact .nil
  | cons name names ih =>
      obtain ⟨hname, hnames⟩ := List.cons_subset.mp h
      rw [redeclarations, List.map_cons, redeclarations, Token.relayout_text]
      refine .append ?_ (ih _ hnames)
      split
      · exact .single hname _ _
      · exact .nil

theorem Env.bindParam_relayout (env : Env) (x : Param) :
    env.bindParam (x.relayout g) = env.bindParam x := by
  cases x with
  | plain name => rfl
  | pass mark handler => cases handler <;> rfl
  | rest name dots => rfl

theorem Env.foldl_bindParam_relayout (env : Env) (ps : List Param) :
    (ps.map (Param.relayout g)).foldl Env.bindParam env = ps.foldl Env.bindParam env := by
  rw [List.foldl_map]
  congr 1
  funext env x
  exact env.bindParam_relayout x

theorem paramFaults_sameFaults (outer inner : Env) (first : Bool) (ps : List Param)
    (h : ∀ x ∈ ps, x.tokens ⊆ U) :
    SameFaults g U (paramFaults outer inner first ps)
      (paramFaults outer inner first (ps.map (Param.relayout g))) := by
  induction ps generalizing inner first with
  | nil => exact .nil
  | cons x ps ih =>
      obtain ⟨hx, hps⟩ := List.forall_mem_cons.mp h
      cases x with
      | plain name => exact (redeclarations_sameFaults inner [name] hx).append (ih _ false hps)
      | pass mark handler =>
          have hmark : mark ∈ U := (List.cons_subset.mp hx).1
          cases first with
          | false =>
              cases handler with
              | none => exact .cons hmark (ih _ false hps)
              | some handler => exact .cons hmark (ih _ false hps)
          | true =>
              cases handler with
              | none => exact ih _ false hps
              | some handler => exact (SameFaults.guarded hmark _ _).append (ih _ false hps)
      | rest name dots =>
          have hname : name ∈ U := (List.cons_subset.mp hx).1
          -- What may follow depends on whether anything does, so the rest of the list is looked at.
          cases ps with
          | nil =>
              have hnames : [name] ⊆ U := List.cons_subset.mpr ⟨hname, List.nil_subset _⟩
              exact (redeclarations_sameFaults inner [name] hnames).append (ih _ false hps)
          | cons y ys => exact .cons hname (ih _ false hps)

theorem arrowParamFaults_sameFaults (inner : Env) (ps : List Param) (h : ∀ x ∈ ps, x.tokens ⊆ U) :
    SameFaults g U (arrowParamFaults inner ps) (arrowParamFaults inner (ps.map (Param.relayout g))) := by
  induction ps generalizing inner with
  | nil => exact .nil
  | cons x ps ih =>
      obtain ⟨hx, hps⟩ := List.forall_mem_cons.mp h
      cases x with
      | plain name => exact (redeclarations_sameFaults inner [name] hx).append (ih _ hps)
      | pass mark handler =>
          cases handler with
          | none => exact .cons (List.cons_subset.mp hx).1 (ih _ hps)
          | some handler => exact .cons (List.cons_subset.mp hx).1 (ih _ hps)
      | rest name dots => exact .cons (List.cons_subset.mp hx).1 (ih _ hps)

theorem Params.subset_of_mem {params : Params} (h : params.tokens ⊆ U) :
    ∀ x ∈ params.items.items, x.tokens ⊆ U := by
  intro x hx
  simp only [Params.tokens, List.cons_subset, List.append_subset] at h
  exact List.Subset.trans (Separated.tokens_subset hx) h.2.1

/-! ## Functions -/

section Functions

variable (env : Env) (f : Func) (isDeclaration : Bool)

theorem Func.outset_relayout : (f.relayout g).outset env isDeclaration = f.outset env isDeclaration := by
  obtain ⟨keyword, name, params, receiver, body⟩ := f
  cases name <;> cases isDeclaration <;> rfl

theorem Func.withParams_relayout :
    (f.relayout g).withParams env isDeclaration = f.withParams env isDeclaration := by
  have hparams : (f.relayout g).params = f.params.relayout g := by cases f; rfl
  rw [Func.withParams, Func.outset_relayout, hparams, Params.items_relayout,
    Env.foldl_bindParam_relayout]
  rfl

theorem Func.locals_relayout : (f.relayout g).locals = f.locals.map (Token.relayout g) := by
  obtain ⟨keyword, name, params, receiver, ⟨opening, body, closing⟩⟩ := f
  simp only [Func.locals, Func.relayout, Block.relayout, declaredNames_relayout, List.map_append]
  cases receiver <;> rfl

theorem Func.scope_relayout : (f.relayout g).scope env isDeclaration = f.scope env isDeclaration := by
  have htexts : (f.locals.map (Token.relayout g)).map (·.text) = f.locals.map (·.text) := by
    rw [List.map_map]
    rfl
  rw [Func.scope, Func.withParams_relayout, Func.locals_relayout, htexts]
  rfl

theorem Func.faults_eq (tail : List Fault) : f.faults env isDeclaration tail =
    f.headFaults env isDeclaration ++ stmtsFaults (f.scope env isDeclaration) .body f.body.body tail := by
  obtain ⟨keyword, name, params, receiver, ⟨opening, body, closing⟩⟩ := f
  rfl

theorem Func.locals_subset (h : f.tokens ⊆ U) : f.locals ⊆ U := by
  obtain ⟨keyword, name, params, receiver, ⟨opening, body, closing⟩⟩ := f
  simp only [Func.tokens, Block.tokens, List.append_subset, List.cons_subset] at h
  obtain ⟨⟨_, hreceiver⟩, _, hbody, _⟩ := h
  refine List.append_subset.mpr ⟨?_, declaredNames_subset true body hbody⟩
  cases receiver with
  | none => exact List.nil_subset _
  | some r => exact (List.cons_subset.mp hreceiver).2

theorem Func.headFaults_sameFaults (h : f.tokens ⊆ U) :
    SameFaults g U (f.headFaults env isDeclaration) ((f.relayout g).headFaults env isDeclaration) := by
  have hparams : (f.relayout g).params = f.params.relayout g := by cases f; rfl
  have hsubset : f.params.tokens ⊆ U := by
    obtain ⟨keyword, name, params, receiver, body⟩ := f
    simp only [Func.tokens, List.append_subset] at h
    exact h.1.1.2
  rw [Func.headFaults, Func.headFaults, Func.outset_relayout, Func.withParams_relayout,
    Func.locals_relayout, hparams, Params.items_relayout]
  exact (paramFaults_sameFaults _ _ _ _ (Params.subset_of_mem hsubset)).append
    (redeclarations_sameFaults _ _ (f.locals_subset h))

theorem Func.standingFaults_sameFaults (standing : Standing) (h : f.tokens ⊆ U) :
    SameFaults g U (f.standingFaults standing) ((f.relayout g).standingFaults standing) := by
  obtain ⟨keyword, name, params, receiver, body⟩ := f
  simp only [Func.tokens, Params.tokens, List.append_subset, List.cons_subset] at h
  cases standing with
  | program => exact .nil
  | body => exact .nil
  | nested =>
      cases keyword with
      | none => exact .single h.1.1.2.1 _ _
      | some keyword => exact .single (List.cons_subset.mp h.1.1.1.1).1 _ _

end Functions

theorem Pragma.standingFaults_sameFaults (x : Pragma) (m : Message) (standing : Standing)
    (h : x.tokens ⊆ U) :
    SameFaults g U (x.standingFaults m standing) ((x.relayout g).standingFaults m standing) := by
  have hkeyword : x.keyword ∈ U := (List.cons_subset.mp h).1
  cases standing with
  | program => exact .nil
  | body => exact .single hkeyword _ _
  | nested => exact .single hkeyword _ _

/-! ## Trees -/

mutual

theorem Expr.sameFaults : ∀ (e : Expr) (env : Env) {tail tail' : List Fault}, e.tokens ⊆ U →
    SameFaults g U tail tail' → SameFaults g U (e.faults env tail) ((e.relayout g).faults env tail')
  | .head h, env, _, _, hU, ht => Head.sameFaults h env hU ht
  | .suffix leading s, env, _, _, hU, ht => by
    obtain ⟨hleading, hs⟩ := List.append_subset.mp hU
    exact Expr.sameFaults leading env hleading (Suffix.sameFaults s env hs ht)

theorem Head.sameFaults : ∀ (h : Head) (env : Env) {tail tail' : List Fault}, h.tokens ⊆ U →
    SameFaults g U tail tail' → SameFaults g U (h.faults env tail) ((h.relayout g).faults env tail')
  | .literal _, _, _, _, _, ht => ht
  | .ident name, env, _, _, hU, ht => (undeclared_sameFaults env (List.cons_subset.mp hU).1).append ht
  | .pass mark _, _, _, _, hU, ht => .cons (List.cons_subset.mp hU).1 ht
  | .rest name _, _, _, _, hU, ht => .cons (List.cons_subset.mp hU).1 ht
  | .unary _ operand, env, _, _, hU, ht => Expr.sameFaults operand env (List.cons_subset.mp hU).2 ht
  | .construct _ callee arguments, env, _, _, hU, ht => by
    simp only [Head.tokens, DottedName.tokens, List.cons_subset, List.append_subset] at hU
    exact (undeclared_sameFaults env hU.2.1.1).append (Enclosed.sameFaults arguments env hU.2.2 ht)
  | .array elements, env, _, _, hU, ht => Enclosed.sameFaults elements env hU ht
  | .object _ entries _, env, _, _, hU, ht => by
    simp only [Head.tokens, List.cons_subset, List.append_subset] at hU
    exact entries_sameFaults entries env hU.2.1 ht
  | .group _ inner _, env, _, _, hU, ht => by
    simp only [Head.tokens, List.cons_subset, List.append_subset] at hU
    exact Expr.sameFaults inner env hU.2.1 ht
  | .function f, env, _, _, hU, ht => Func.sameFaults f env false hU ht
  | .arrow params _ body, env, _, _, hU, ht => by
    simp only [Head.tokens, List.cons_subset, List.append_subset] at hU
    simp only [Head.faults, Head.relayout, arrowScope, Params.items_relayout,
      Env.foldl_bindParam_relayout]
    exact (arrowParamFaults_sameFaults _ _ (Params.subset_of_mem hU.1)).append
      (Expr.sameFaults body _ hU.2.2 ht)
  | .simpleArrow _ body, env, _, _, hU, ht =>
    Expr.sameFaults body _ (List.cons_subset.mp hU).2 ht

theorem Suffix.sameFaults : ∀ (s : Suffix) (env : Env) {tail tail' : List Fault}, s.tokens ⊆ U →
    SameFaults g U tail tail' → SameFaults g U (s.faults env tail) ((s.relayout g).faults env tail')
  | .binary _ right, env, _, _, hU, ht => Expr.sameFaults right env (List.cons_subset.mp hU).2 ht
  | .ternary _ consequent _ alternate, env, _, _, hU, ht => by
    simp only [Suffix.tokens, List.cons_subset, List.append_subset] at hU
    exact Expr.sameFaults consequent env hU.2.1 (Expr.sameFaults alternate env hU.2.2.2 ht)
  | .call arguments, env, _, _, hU, ht => Enclosed.sameFaults arguments env hU ht
  | .invoke _ arguments, env, _, _, hU, ht =>
    Enclosed.sameFaults arguments env (List.append_subset.mp hU).2 ht
  | .index _ inner _, env, _, _, hU, ht => by
    simp only [Suffix.tokens, List.cons_subset, List.append_subset] at hU
    exact Expr.sameFaults inner env hU.2.1 ht
  | .property _, _, _, _, _, ht => ht
  | .prototype _ _, _, _, _, _, ht => ht

theorem Enclosed.sameFaults : ∀ (e : Enclosed) (env : Env) {tail tail' : List Fault}, e.tokens ⊆ U →
    SameFaults g U tail tail' → SameFaults g U (e.faults env tail) ((e.relayout g).faults env tail')
  | ⟨_, items, _⟩, env, _, _, hU, ht => by
    simp only [Enclosed.tokens, List.cons_subset, List.append_subset] at hU
    exact exprs_sameFaults items env hU.2.1 ht

theorem exprs_sameFaults : ∀ (es : Separated Expr) (env : Env) {tail tail' : List Fault},
    exprsTokens es ⊆ U → SameFaults g U tail tail' →
      SameFaults g U (exprsFaults env es tail) (exprsFaults env (exprsRelayout g es) tail')
  | .nil, _, _, _, _, ht => ht
  | .one e, env, _, _, hU, ht => Expr.sameFaults e env hU ht
  | .more e _ es, env, _, _, hU, ht => by
    simp only [exprsTokens, List.cons_subset, List.append_subset] at hU
    exact Expr.sameFaults e env hU.1 (exprs_sameFaults es env hU.2.2 ht)

theorem entries_sameFaults : ∀ (es : Separated Entry) (env : Env) {tail tail' : List Fault},
    entriesTokens es ⊆ U → SameFaults g U tail tail' →
      SameFaults g U (entriesFaults env es tail) (entriesFaults env (entriesRelayout g es) tail')
  | .nil, _, _, _, _, ht => ht
  | .one ⟨_, _, value⟩, env, _, _, hU, ht => by
    simp only [entriesTokens, List.cons_subset] at hU
    exact Expr.sameFaults value env hU.2.2 ht
  | .more ⟨_, _, value⟩ _ es, env, _, _, hU, ht => by
    simp only [entriesTokens, List.cons_subset, List.append_subset] at hU
    exact Expr.sameFaults value env hU.2.2.1 (entries_sameFaults es env hU.2.2.2.2 ht)

theorem Func.sameFaults : ∀ (f : Func) (env : Env) (isDeclaration : Bool) {tail tail' : List Fault},
    f.tokens ⊆ U → SameFaults g U tail tail' →
      SameFaults g U (f.faults env isDeclaration tail) ((f.relayout g).faults env isDeclaration tail')
  | ⟨_, _, _, _, ⟨_, body, _⟩⟩, env, isDeclaration, _, _, hU, ht => by
    have hbody := hU
    simp only [Func.tokens, Block.tokens, List.append_subset, List.cons_subset] at hbody
    rw [Func.faults_eq, Func.faults_eq, Func.scope_relayout]
    exact (Func.headFaults_sameFaults env _ isDeclaration hU).append
      (stmts_sameFaults body _ .body hbody.2.2.1 ht)

theorem stmts_sameFaults : ∀ (ss : List Stmt) (env : Env) (standing : Standing)
    {tail tail' : List Fault}, stmtsTokens ss ⊆ U → SameFaults g U tail tail' →
      SameFaults g U (stmtsFaults env standing ss tail)
        (stmtsFaults env standing (stmtsRelayout g ss) tail')
  | [], _, _, _, _, _, ht => ht
  | s :: ss, env, standing, _, _, hU, ht => by
    obtain ⟨hs, hss⟩ := List.append_subset.mp hU
    exact Stmt.sameFaults s env standing hs (stmts_sameFaults ss env standing hss ht)

theorem Stmt.sameFaults : ∀ (s : Stmt) (env : Env) (standing : Standing) {tail tail' : List Fault},
    s.tokens ⊆ U → SameFaults g U tail tail' →
      SameFaults g U (s.faults env standing tail) ((s.relayout g).faults env standing tail')
  | .expr value _, env, _, _, _, hU, ht => Expr.sameFaults value env (List.append_subset.mp hU).1 ht
  | .empty _, _, _, _, _, _, ht => ht
  | .conditional first others, env, _, _, _, hU, ht => by
    obtain ⟨hfirst, hothers⟩ := List.append_subset.mp hU
    exact Guarded.sameFaults first env hfirst (Ladder.sameFaults others env hothers ht)
  | .while loop, env, _, _, _, hU, ht => Guarded.sameFaults loop env hU ht
  | .for _ _ init _ test _ update _ body, env, _, _, _, hU, ht => by
    simp only [Stmt.tokens, List.cons_subset, List.append_subset] at hU
    obtain ⟨_, _, hinit, _, htest, _, hupdate, _, hbody⟩ := hU
    exact ForInit.sameFaults init env hinit (exprs_sameFaults test env htest
      (exprs_sameFaults update env hupdate (Block.sameFaults body env hbody ht)))
  | .forIn _ _ var name _ object _ body, env, _, _, _, hU, ht => by
    simp only [Stmt.tokens, List.cons_subset, List.append_subset] at hU
    obtain ⟨_, _, _, hname, _, hobject, _, hbody⟩ := hU
    have hrest := Expr.sameFaults object env hobject (Block.sameFaults body env hbody ht)
    cases var with
    | none => exact (undeclared_sameFaults env hname).append hrest
    | some var => exact hrest
  | .jump _ _ _, _, _, _, _, _, ht => ht
  | .return _ none _, _, _, _, _, _, ht => ht
  | .return _ (some value) _, env, _, _, _, hU, ht => by
    simp only [Stmt.tokens, List.cons_subset, List.append_subset] at hU
    exact Expr.sameFaults value env hU.2.1 ht
  | .throw _ value _, env, _, _, _, hU, ht => by
    simp only [Stmt.tokens, List.cons_subset, List.append_subset] at hU
    exact Expr.sameFaults value env hU.2.1 ht
  | .vars list _, env, _, _, _, hU, ht => VarList.sameFaults list env (List.append_subset.mp hU).1 ht
  | .function f, env, standing, _, _, hU, ht =>
    (f.standingFaults_sameFaults standing hU).append (Func.sameFaults f env true hU ht)
  | .labeled _ _ body, env, _, _, _, hU, ht => by
    simp only [Stmt.tokens, List.cons_subset] at hU
    exact Stmt.sameFaults body env .nested hU.2.2 ht
  | .switch _ _ subject _ _ clauses _, env, _, _, _, hU, ht => by
    simp only [Stmt.tokens, List.cons_subset, List.append_subset] at hU
    obtain ⟨_, _, hsubject, _, _, hclauses, _⟩ := hU
    exact Expr.sameFaults subject env hsubject (clauses_sameFaults clauses env hclauses ht)
  | .block b, env, _, _, _, hU, ht => Block.sameFaults b env hU ht
  | .include p, _, standing, _, _, hU, ht => (p.standingFaults_sameFaults _ standing hU).append ht
  | .declare p, _, standing, _, _, hU, ht => (p.standingFaults_sameFaults _ standing hU).append ht

theorem Block.sameFaults : ∀ (b : Block) (env : Env) {tail tail' : List Fault}, b.tokens ⊆ U →
    SameFaults g U tail tail' → SameFaults g U (b.faults env tail) ((b.relayout g).faults env tail')
  | ⟨_, body, _⟩, env, _, _, hU, ht => by
    simp only [Block.tokens, List.cons_subset, List.append_subset] at hU
    exact stmts_sameFaults body env .nested hU.2.1 ht

theorem Guarded.sameFaults : ∀ (x : Guarded) (env : Env) {tail tail' : List Fault}, x.tokens ⊆ U →
    SameFaults g U tail tail' → SameFaults g U (x.faults env tail) ((x.relayout g).faults env tail')
  | ⟨_, _, test, _, body⟩, env, _, _, hU, ht => by
    simp only [Guarded.tokens, List.cons_subset, List.append_subset] at hU
    obtain ⟨_, _, htest, _, hbody⟩ := hU
    exact Expr.sameFaults test env htest (Block.sameFaults body env hbody ht)

theorem Ladder.sameFaults : ∀ (l : Ladder) (env : Env) {tail tail' : List Fault}, l.tokens ⊆ U →
    SameFaults g U tail tail' → SameFaults g U (l.faults env tail) ((l.relayout g).faults env tail')
  | .done, _, _, _, _, ht => ht
  | .otherwise _ body, env, _, _, hU, ht => Block.sameFaults body env (List.cons_subset.mp hU).2 ht
  | .branch _ next others, env, _, _, hU, ht => by
    simp only [Ladder.tokens, List.cons_subset, List.append_subset] at hU
    exact Guarded.sameFaults next env hU.2.1 (Ladder.sameFaults others env hU.2.2 ht)

theorem ForInit.sameFaults : ∀ (i : ForInit) (env : Env) {tail tail' : List Fault}, i.tokens ⊆ U →
    SameFaults g U tail tail' → SameFaults g U (i.faults env tail) ((i.relayout g).faults env tail')
  | .exprs items, env, _, _, hU, ht => exprs_sameFaults items env hU ht
  | .vars list, env, _, _, hU, ht => VarList.sameFaults list env hU ht

theorem VarList.sameFaults : ∀ (l : VarList) (env : Env) {tail tail' : List Fault}, l.tokens ⊆ U →
    SameFaults g U tail tail' → SameFaults g U (l.faults env tail) ((l.relayout g).faults env tail')
  | ⟨_, items⟩, env, _, _, hU, ht => decls_sameFaults items env (List.cons_subset.mp hU).2 ht

theorem decls_sameFaults : ∀ (ds : Separated Decl) (env : Env) {tail tail' : List Fault},
    declsTokens ds ⊆ U → SameFaults g U tail tail' →
      SameFaults g U (declsFaults env ds tail) (declsFaults env (declsRelayout g ds) tail')
  | .nil, _, _, _, _, ht => ht
  | .one d, env, _, _, hU, ht => Decl.sameFaults d env hU ht
  | .more d _ ds, env, _, _, hU, ht => by
    simp only [declsTokens, List.cons_subset, List.append_subset] at hU
    exact Decl.sameFaults d env hU.1 (decls_sameFaults ds env hU.2.2 ht)

theorem Decl.sameFaults : ∀ (d : Decl) (env : Env) {tail tail' : List Fault}, d.tokens ⊆ U →
    SameFaults g U tail tail' → SameFaults g U (d.faults env tail) ((d.relayout g).faults env tail')
  | ⟨_, none⟩, _, _, _, _, ht => ht
  | ⟨_, some (_, value)⟩, env, _, _, hU, ht => by
    simp only [Decl.tokens, List.cons_subset] at hU
    exact Expr.sameFaults value env hU.2.2 ht

theorem clauses_sameFaults : ∀ (cs : List Clause) (env : Env) {tail tail' : List Fault},
    clausesTokens cs ⊆ U → SameFaults g U tail tail' →
      SameFaults g U (clausesFaults env cs tail) (clausesFaults env (clausesRelayout g cs) tail')
  | [], _, _, _, _, ht => ht
  | ⟨_, none, _, body⟩ :: cs, env, _, _, hU, ht => by
    simp only [clausesTokens, List.cons_subset, List.append_subset] at hU
    exact stmts_sameFaults body env .nested hU.2.2.1 (clauses_sameFaults cs env hU.2.2.2 ht)
  | ⟨_, some test, _, body⟩ :: cs, env, _, _, hU, ht => by
    simp only [clausesTokens, List.cons_subset, List.append_subset] at hU
    obtain ⟨_, htest, _, hbody, hcs⟩ := hU
    exact Expr.sameFaults test env htest
      (stmts_sameFaults body env .nested hbody (clauses_sameFaults cs env hcs ht))

end

/-! ## Programs -/

theorem includeFaults_sameFaults (items : List PragmaItem) (h : ∀ i ∈ items, i.tokens ⊆ U) :
    SameFaults g U (includeFaults items) (includeFaults (items.map (PragmaItem.relayout g))) := by
  induction items with
  | nil => exact .nil
  | cons i items ih =>
      obtain ⟨hi, hitems⟩ := List.forall_mem_cons.mp h
      cases i with
      | single name => exact (SameFaults.guarded (List.cons_subset.mp hi).1 _ _).append (ih hitems)
      | group colon name => exact .cons (List.cons_subset.mp hi).1 (ih hitems)

theorem declareFaults_sameFaults (items : List PragmaItem) (h : ∀ i ∈ items, i.tokens ⊆ U) :
    SameFaults g U (declareFaults items) (declareFaults (items.map (PragmaItem.relayout g))) := by
  induction items with
  | nil => exact .nil
  | cons i items ih =>
      obtain ⟨hi, hitems⟩ := List.forall_mem_cons.mp h
      cases i with
      | single name => exact ih hitems
      | group colon name => exact (SameFaults.guarded (List.cons_subset.mp hi).1 _ _).append (ih hitems)

theorem Pragma.items_relayout (x : Pragma) :
    (x.relayout g).items.items = x.items.items.map (PragmaItem.relayout g) :=
  Separated.items_relayout _ _

theorem Pragma.subset_of_mem {x : Pragma} (h : x.tokens ⊆ U) : ∀ i ∈ x.items.items, i.tokens ⊆ U := by
  intro i hi
  simp only [Pragma.tokens, List.cons_subset, List.append_subset] at h
  exact List.Subset.trans (Separated.tokens_subset hi) h.2.1

theorem PragmaItem.flatMap_names_relayout (items : List PragmaItem) :
    (items.map (PragmaItem.relayout g)).flatMap PragmaItem.names = items.flatMap PragmaItem.names := by
  rw [List.flatMap_map]
  congr 1
  funext i
  cases i <;> rfl

theorem Stmt.pragmaFaults_sameFaults (s : Stmt) (h : s.tokens ⊆ U) :
    SameFaults g U s.pragmaFaults (s.relayout g).pragmaFaults := by
  cases s with
  | «include» x =>
      simp only [Stmt.relayout, Stmt.pragmaFaults, Pragma.items_relayout]
      exact includeFaults_sameFaults _ (Pragma.subset_of_mem h)
  | declare x =>
      simp only [Stmt.relayout, Stmt.pragmaFaults, Pragma.items_relayout]
      exact declareFaults_sameFaults _ (Pragma.subset_of_mem h)
  | «return» keyword value semicolon => cases value <;> exact .nil
  | _ => exact .nil

theorem Stmt.pragmaNames_relayout (s : Stmt) : (s.relayout g).pragmaNames = s.pragmaNames := by
  cases s with
  | «include» x =>
      simp only [Stmt.relayout, Stmt.pragmaNames, Pragma.items_relayout]
      exact PragmaItem.flatMap_names_relayout _
  | declare x =>
      simp only [Stmt.relayout, Stmt.pragmaNames, Pragma.items_relayout]
      exact PragmaItem.flatMap_names_relayout _
  | «return» keyword value semicolon => cases value <;> rfl
  | _ => rfl

theorem Stmt.includedNames_relayout (s : Stmt) : (s.relayout g).includedNames = s.includedNames := by
  cases s with
  | «include» x =>
      simp only [Stmt.relayout, Stmt.includedNames, Pragma.items_relayout]
      exact PragmaItem.flatMap_names_relayout _
  | «return» keyword value semicolon => cases value <;> rfl
  | _ => rfl

theorem pragmaFaults_sameFaults (ss : List Stmt) (h : stmtsTokens ss ⊆ U) :
    SameFaults g U (ss.flatMap Stmt.pragmaFaults) ((stmtsRelayout g ss).flatMap Stmt.pragmaFaults) := by
  induction ss with
  | nil => exact .nil
  | cons s ss ih =>
      obtain ⟨hs, hss⟩ := List.append_subset.mp h
      exact (s.pragmaFaults_sameFaults hs).append (ih hss)

namespace Program

variable (x : Program) (preamble : String)

theorem flatMap_relayout {f : Stmt → List String} (hf : ∀ s : Stmt, f (s.relayout g) = f s) :
    (x.relayout g preamble).body.flatMap f = x.body.flatMap f := by
  rw [Program.relayout, stmtsRelayout_eq, List.flatMap_map]
  congr 1
  exact funext hf

theorem helpers_relayout : (x.relayout g preamble).helpers = x.helpers := by
  rw [helpers, flatMap_relayout x preamble Stmt.includedNames_relayout]
  rfl

theorem pragmaScope_relayout : (x.relayout g preamble).pragmaScope = x.pragmaScope := by
  rw [pragmaScope, flatMap_relayout x preamble Stmt.pragmaNames_relayout]
  rfl

theorem declaredNames_body_relayout : declaredNames true (x.relayout g preamble).body =
    (declaredNames true x.body).map (Token.relayout g) := declaredNames_relayout true x.body

theorem scope_relayout : (x.relayout g preamble).scope = x.scope := by
  rw [scope, pragmaScope_relayout, declaredNames_body_relayout, List.map_map]
  rfl

/-- A program in another layout has the same faults, in the same order. -/
theorem sameFaults : SameFaults g x.tokens x.faults (x.relayout g preamble).faults := by
  have hbody : stmtsTokens x.body ⊆ x.tokens := List.subset_append_left _ _
  rw [faults, faults, pragmaScope_relayout, declaredNames_body_relayout, scope_relayout]
  exact ((pragmaFaults_sameFaults x.body hbody).append
    (redeclarations_sameFaults _ _ (declaredNames_subset true x.body hbody))).append
      (stmts_sameFaults x.body _ .program hbody .nil)

end Program

/-- Two programs are judged alike: both ask for the same helpers, or both have a first fault of the same code, at
    tokens with the same index and the same text. -/
def SameVerdict (x y : Program) : Prop :=
  match x.validate, y.validate with
  | .ok helpers, .ok helpers' => helpers = helpers'
  | .error f, .error f' => f.message.code = f'.message.code ∧
      ∃ (i : Nat) (t t' : Token), x.tokens[i]? = some t ∧ y.tokens[i]? = some t' ∧ t.text = t'.text ∧
        f.span = t.span ∧ f'.span = t'.span
  | _, _ => False

theorem sameVerdict_relayout (x : Program) (g : Relayout) (preamble : String) :
    SameVerdict x (x.relayout g preamble) := by
  have hsame := x.sameFaults (g := g) preamble
  unfold SameVerdict Program.validate
  generalize hfs : x.faults = fs at hsame
  generalize hfs' : (x.relayout g preamble).faults = fs' at hsame
  cases hsame with
  | nil => exact (x.helpers_relayout preamble).symm
  | @cons t m args fs fs' ht _ =>
      obtain ⟨i, hi⟩ := List.mem_iff_getElem?.mp ht
      refine ⟨rfl, i, t, t.relayout g, hi, ?_, rfl, rfl, rfl⟩
      rw [Program.tokens_relayout, List.getElem?_map, hi]
      rfl

end Respell
