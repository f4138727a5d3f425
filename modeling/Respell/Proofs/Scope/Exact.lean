import Respell.Proofs.Parse.Lossless
import Respell.Proofs.Scope.Rule

/-!
# Checking decides the scope rule

A program is accepted if and only if it is well scoped. The environments of the checker carry the
argument: the environment at a place sees exactly the names that the scope of the place sees
(`Agrees`), whatever faults were found before. `Raised` records which faults are raised at which site of a
tree, and in which order; what else is said about the faults of trees follows from it, site by site. So the
faults of a tree are none if and only if all its sites are sound.
-/

namespace Respell

/-! ## Environments -/

namespace Env

variable (env : Env) (name n : String)

@[simp] theorem sees_declare : (env.declare name).sees n = true ↔ n = name ∨ env.sees n = true := by
  by_cases h : n = name <;> simp [sees, declare, h]

@[simp] theorem sees_inherit :
    (env.inherit name).sees n = true ↔ n = name ∨ env.sees n = true := by
  by_cases h : n = name <;> simp [sees, inherit, h]

@[simp] theorem sees_fork : env.fork.sees n = env.sees n := by
  simp [sees, fork]

@[simp] theorem isDeclared_declare :
    (env.declare name).isDeclared n = true ↔ n = name ∨ env.isDeclared n = true := by
  by_cases h : n = name <;> simp [isDeclared, declare, h]

@[simp] theorem isDeclared_fork : env.fork.isDeclared n = false := by
  cases h : env.binding? n <;> simp [isDeclared, fork, h]

theorem isDeclared_inherit (h : env.isDeclared n = false) :
    (env.inherit name).isDeclared n = false := by
  unfold isDeclared at h ⊢
  by_cases hn : n = name
  · subst hn
    cases hb : env.binding? n with
    | none => simp [inherit, hb]
    | some b => simpa [inherit, hb] using h
  · simpa [inherit, hn] using h

@[simp] theorem sees_declareAll (names : List String) :
    (env.declareAll names).sees n = true ↔ n ∈ names ∨ env.sees n = true := by
  induction names generalizing env with
  | nil => simp [declareAll]
  | cons m names ih =>
      have hstep : env.declareAll (m :: names) = (env.declare m).declareAll names := rfl
      rw [hstep, ih, sees_declare, List.mem_cons, or_assoc, or_left_comm]

@[simp] theorem isDeclared_declareAll (names : List String) :
    (env.declareAll names).isDeclared n = true ↔ n ∈ names ∨ env.isDeclared n = true := by
  induction names generalizing env with
  | nil => simp [declareAll]
  | cons m names ih =>
      have hstep : env.declareAll (m :: names) = (env.declare m).declareAll names := rfl
      rw [hstep, ih, isDeclared_declare, List.mem_cons, or_assoc, or_left_comm]

end Env

/-- A parameter declares the name it takes up. -/
theorem Env.bindParam_eq (env : Env) (x : Param) :
    env.bindParam x = env.declareAll (x.name?.toList.map (·.text)) := by
  cases x with
  | plain name => rfl
  | pass mark handler => cases handler <;> rfl
  | rest name dots => rfl

theorem paramNames_cons (x : Param) (ps : List Param) :
    paramNames (x :: ps) = x.name?.toList ++ paramNames ps := by
  rw [paramNames, List.filterMap_cons]
  cases x.name? <;> rfl

theorem Env.foldl_bindParam (env : Env) (ps : List Param) :
    ps.foldl Env.bindParam env = env.declareAll ((paramNames ps).map (·.text)) := by
  induction ps generalizing env with
  | nil => rfl
  | cons x ps ih =>
      rw [List.foldl_cons, ih, Env.bindParam_eq, paramNames_cons, List.map_append]
      exact (List.foldl_append).symm

/-! ## The names of a body -/

mutual

theorem Stmt.declared_false : ∀ s : Stmt, s.declared false = s.within.flatMap Stmt.ownVars
  | .function _ => rfl
  | .vars _ _ => (List.append_nil _).symm
  | .conditional ⟨_, _, _, _, ⟨_, body, _⟩⟩ others => by
    rw [Stmt.declared, Stmt.within, declaredNames_false body, Ladder.declared_eq others,
      List.flatMap_cons, List.flatMap_append]
    rfl
  | .while ⟨_, _, _, _, ⟨_, body, _⟩⟩ => declaredNames_false body
  | .for _ _ (.vars list) _ _ _ _ _ ⟨_, body, _⟩ => by
    rw [Stmt.declared, Stmt.within, declaredNames_false body, List.flatMap_cons]
    rfl
  | .for _ _ (.exprs _) _ _ _ _ _ ⟨_, body, _⟩ => declaredNames_false body
  | .forIn _ _ (some _) name _ _ _ ⟨_, body, _⟩ => by
    rw [Stmt.declared, Stmt.within, declaredNames_false body, List.flatMap_cons]
    rfl
  | .forIn _ _ none _ _ _ _ ⟨_, body, _⟩ => declaredNames_false body
  | .labeled _ _ body => Stmt.declared_false body
  | .switch _ _ _ _ _ clauses _ => clausesDeclared_eq clauses
  | .block ⟨_, body, _⟩ => declaredNames_false body
  | .expr _ _ | .empty _ | .jump _ _ _ | .return _ _ _ | .throw _ _ _ | .include _ | .declare _ => rfl

theorem declaredNames_false : ∀ ss : List Stmt,
    declaredNames false ss = (stmtsWithin ss).flatMap Stmt.ownVars
  | [] => rfl
  | s :: ss => by
    rw [declaredNames, stmtsWithin, Stmt.declared_false s, declaredNames_false ss,
      List.flatMap_append]

theorem Ladder.declared_eq : ∀ l : Ladder, l.declared = l.within.flatMap Stmt.ownVars
  | .done => rfl
  | .otherwise _ ⟨_, body, _⟩ => declaredNames_false body
  | .branch _ ⟨_, _, _, _, ⟨_, body, _⟩⟩ others => by
    rw [Ladder.declared, Ladder.within, declaredNames_false body, Ladder.declared_eq others,
      List.flatMap_append]

theorem clausesDeclared_eq : ∀ cs : List Clause,
    clausesDeclared cs = (clausesWithin cs).flatMap Stmt.ownVars
  | [] => rfl
  | ⟨_, _, _, body⟩ :: cs => by
    rw [clausesDeclared, clausesWithin, declaredNames_false body, clausesDeclared_eq cs,
      List.flatMap_append]

end

/-- A statement that stands directly in the body declares its function too. -/
theorem Stmt.declared_true : ∀ s : Stmt,
    s.declared true = s.within.flatMap Stmt.ownVars ++ s.functionName?.toList
  | .function _ => rfl
  | .vars _ _ | .conditional ⟨_, _, _, _, ⟨_, _, _⟩⟩ _ | .while ⟨_, _, _, _, ⟨_, _, _⟩⟩
  | .for _ _ (.vars _) _ _ _ _ _ ⟨_, _, _⟩ | .for _ _ (.exprs _) _ _ _ _ _ ⟨_, _, _⟩
  | .forIn _ _ (some _) _ _ _ _ ⟨_, _, _⟩ | .forIn _ _ none _ _ _ _ ⟨_, _, _⟩ | .labeled _ _ _
  | .switch _ _ _ _ _ _ _ | .block ⟨_, _, _⟩ | .expr _ _ | .empty _ | .jump _ _ _ | .return _ _ _
  | .throw _ _ _ | .include _ | .declare _ => by
    rw [← Stmt.declared_false]
    exact (List.append_nil _).symm

/-- The names that are declared for a body are its names, in source order. -/
theorem bodyNames_perm (body : List Stmt) : (declaredNames true body).Perm (bodyNames body) := by
  induction body with
  | nil => exact .refl _
  | cons s ss ih =>
      have hfunctions : (s :: ss).filterMap Stmt.functionName? =
          s.functionName?.toList ++ ss.filterMap Stmt.functionName? := by
        rw [List.filterMap_cons]
        cases s.functionName? <;> rfl
      -- The checker meets a function where it stands; `bodyNames` has the functions after all `var`s.
      rw [declaredNames, Stmt.declared_true, bodyNames, stmtsWithin, List.flatMap_append, hfunctions,
        List.append_assoc, List.append_assoc]
      refine List.Perm.append_left _ ?_
      exact (ih.append_left _).trans (List.perm_append_comm_assoc _ _ _)

/-! ## Distinct names -/

theorem isDeclared_declare_eq_false {env : Env} {name n : String} :
    (env.declare name).isDeclared n = false ↔ n ≠ name ∧ env.isDeclared n = false := by
  rw [← Bool.not_eq_true, Env.isDeclared_declare, not_or, Bool.not_eq_true]

/-- Declaring one more name first: the others have to be new to the scope that has it. -/
theorem nodup_cons_declare {env : Env} {name : String} {names : List String} :
    (name :: names).Nodup ∧ (∀ n ∈ name :: names, env.isDeclared n = false) ↔
      env.isDeclared name = false ∧ names.Nodup ∧
        ∀ n ∈ names, (env.declare name).isDeclared n = false := by
  simp only [isDeclared_declare_eq_false, List.nodup_cons, List.forall_mem_cons]
  constructor
  · rintro ⟨⟨hmem, hnodup⟩, hname, hall⟩
    exact ⟨hname, hnodup, fun n hn => ⟨fun heq => hmem (heq ▸ hn), hall n hn⟩⟩
  · rintro ⟨hname, hnodup, hall⟩
    exact ⟨⟨fun hmem => (hall _ hmem).1 rfl, hnodup⟩, hname, fun n hn => (hall n hn).2⟩

/-- Names can be declared one after the other if none comes twice and the scope has none of them. -/
theorem redeclarations_eq_nil_iff (env : Env) (names : List Token) :
    redeclarations env names = [] ↔
      (names.map (·.text)).Nodup ∧ ∀ n ∈ names.map (·.text), env.isDeclared n = false := by
  induction names generalizing env with
  | nil => simp [redeclarations]
  | cons name names ih =>
      have hnew : (if env.isDeclared name.text then [name.fault .alreadyDeclared [name.text]] else []) =
          [] ↔ env.isDeclared name.text = false := by
        cases env.isDeclared name.text <;> simp
      rw [redeclarations, List.append_eq_nil_iff, hnew, ih, List.map_cons, nodup_cons_declare]

theorem redeclarations_single (env : Env) (name : Token) :
    redeclarations env [name] = [] ↔ env.isDeclared name.text = false := by
  rw [redeclarations_eq_nil_iff]
  simp

/-! ## Parameters -/

/-- A plain parameter may stand anywhere. -/
theorem rest_notMem_dropLast_plain {x : Param} {ps : List Param} (hx : ∀ name dots, x ≠ .rest name dots) :
    (∀ name dots, .rest name dots ∉ (x :: ps).dropLast) ↔ ∀ name dots, .rest name dots ∉ ps.dropLast := by
  cases ps with
  | nil => simp
  | cons y ps =>
      rw [List.dropLast_cons_cons]
      simp only [List.mem_cons, not_or]
      exact ⟨fun h name dots => (h name dots).2, fun h name dots => ⟨(hx name dots).symm, h name dots⟩⟩

/-- The parameters after the first one: no error is passed, remaining arguments stand last, and the
    names are new and distinct. -/
theorem laterParamFaults_eq_nil_iff (outer inner : Env) (ps : List Param) :
    paramFaults outer inner false ps = [] ↔
      ((∀ mark handler, .pass mark handler ∉ ps) ∧ ∀ name dots, .rest name dots ∉ ps.dropLast) ∧
        ((paramNames ps).map (·.text)).Nodup ∧
        ∀ n ∈ (paramNames ps).map (·.text), inner.isDeclared n = false := by
  induction ps generalizing inner with
  | nil => simp [paramFaults, paramNames]
  | cons x ps ih =>
      cases x with
      | plain name =>
          have hnames : (paramNames (.plain name :: ps)).map (·.text) =
              name.text :: (paramNames ps).map (·.text) := rfl
          have hpass : (∀ mark handler, .pass mark handler ∉ Param.plain name :: ps) ↔
              ∀ mark handler, .pass mark handler ∉ ps := by simp
          rw [paramFaults, List.append_eq_nil_iff, ih, redeclarations_single, hnames,
            nodup_cons_declare, hpass, rest_notMem_dropLast_plain (by simp)]
          exact and_left_comm
      | pass mark handler =>
          constructor
          · intro h
            cases handler <;> simp [paramFaults] at h
          · rintro ⟨⟨hpass, _⟩, _⟩
            exact (hpass mark handler List.mem_cons_self).elim
      | rest name dots =>
          cases ps with
          | nil => simp [paramFaults, paramNames, Param.name?, redeclarations_single]
          | cons y ps =>
              constructor
              · intro h
                simp [paramFaults] at h
              · rintro ⟨⟨_, hrest⟩, _⟩
                exact (hrest name dots List.mem_cons_self).elim

/-- If no error is passed behind the first parameter, it is the only one that can pass one on. -/
theorem first_passes {x : Param} {ps : List Param} (hpass : ∀ mark handler, .pass mark handler ∉ ps)
    {mark : Token} {handler : Option Token} (hmem : .pass mark handler ∈ x :: ps) :
    x = .pass mark handler :=
  (List.mem_cons.mp hmem).elim Eq.symm fun hmem => (hpass mark handler hmem).elim

/-- The parameters of a function whose scope declares nothing before them. -/
theorem paramFaults_eq_nil_iff {outer inner : Env} (hinner : ∀ n, inner.isDeclared n = false)
    (ps : List Param) :
    paramFaults outer inner true ps = [] ↔
      ParamsPlaced ps ∧
        (∀ mark handler, .pass mark (some handler) ∈ ps → outer.sees handler.text = true) ∧
        ((paramNames ps).map (·.text)).Nodup := by
  -- Nothing is declared yet, so that names are new is no condition, and it can be added.
  have hfresh (names : List String) :
      names.Nodup ↔ names.Nodup ∧ ∀ n ∈ names, inner.isDeclared n = false :=
    (and_iff_left fun n _ => hinner n).symm
  cases ps with
  | nil => simp [paramFaults, paramNames, ParamsPlaced]
  | cons x ps =>
      unfold ParamsPlaced
      rw [List.tail_cons]
      cases x with
      | plain name =>
          have hnames : (paramNames (.plain name :: ps)).map (·.text) =
              name.text :: (paramNames ps).map (·.text) := rfl
          rw [hnames, hfresh, nodup_cons_declare, paramFaults, List.append_eq_nil_iff,
            laterParamFaults_eq_nil_iff, redeclarations_single, rest_notMem_dropLast_plain (by simp)]
          constructor
          · rintro ⟨hname, hplaced, hrest⟩
            refine ⟨hplaced, ?_, hname, hrest⟩
            intro mark handler hmem
            cases first_passes hplaced.1 hmem
          · rintro ⟨hplaced, _, hname, hrest⟩
            exact ⟨hname, hplaced, hrest⟩
      | pass mark handler =>
          rw [rest_notMem_dropLast_plain (by simp)]
          cases handler with
          | none =>
              have hnames : (paramNames (.pass mark none :: ps)).map (·.text) =
                  (paramNames ps).map (·.text) := rfl
              rw [hnames, hfresh, paramFaults, if_pos rfl, List.nil_append,
                laterParamFaults_eq_nil_iff]
              constructor
              · rintro ⟨hplaced, hrest⟩
                refine ⟨hplaced, ?_, hrest⟩
                intro mark' handler hmem
                cases first_passes hplaced.1 hmem
              · rintro ⟨hplaced, _, hrest⟩
                exact ⟨hplaced, hrest⟩
          | some handler =>
              have hnames : (paramNames (.pass mark (some handler) :: ps)).map (·.text) =
                  handler.text :: (paramNames ps).map (·.text) := rfl
              have hseen : (if outer.sees handler.text = true then [] else
                  [mark.fault .notDeclared [handler.text]]) = [] ↔ outer.sees handler.text = true := by
                cases outer.sees handler.text <;> simp
              rw [hnames, hfresh, nodup_cons_declare, paramFaults, if_pos rfl, List.append_eq_nil_iff,
                hseen, laterParamFaults_eq_nil_iff]
              constructor
              · rintro ⟨hsees, hplaced, hrest⟩
                refine ⟨hplaced, ?_, hinner _, hrest⟩
                intro mark' handler' hmem
                cases first_passes hplaced.1 hmem
                exact hsees
              · rintro ⟨hplaced, hsees, _, hrest⟩
                exact ⟨hsees mark handler List.mem_cons_self, hplaced, hrest⟩
      | rest name dots =>
          cases ps with
          | nil => simp [paramFaults, paramNames, Param.name?, redeclarations_single, hinner]
          | cons y ps =>
              constructor
              · intro h
                simp [paramFaults] at h
              · rintro ⟨⟨_, hrest⟩, _⟩
                exact (hrest name dots List.mem_cons_self).elim

/-- The parameters of an arrow. -/
theorem arrowParamFaults_eq_nil_iff (inner : Env) (ps : List Param) :
    arrowParamFaults inner ps = [] ↔
      (∀ x ∈ ps, ∃ name, x = .plain name) ∧ ((paramNames ps).map (·.text)).Nodup ∧
        ∀ n ∈ (paramNames ps).map (·.text), inner.isDeclared n = false := by
  induction ps generalizing inner with
  | nil => simp [arrowParamFaults, paramNames]
  | cons x ps ih =>
      cases x with
      | plain name =>
          have hnames : (paramNames (.plain name :: ps)).map (·.text) =
              name.text :: (paramNames ps).map (·.text) := rfl
          have hplain : (∀ x ∈ Param.plain name :: ps, ∃ name, x = .plain name) ↔
              ∀ x ∈ ps, ∃ name, x = .plain name := by simp
          rw [arrowParamFaults, List.append_eq_nil_iff, ih, redeclarations_single, hnames,
            nodup_cons_declare, hplain]
          exact and_left_comm
      | pass mark handler => simp [arrowParamFaults]
      | rest name dots => simp [arrowParamFaults]

/-! ## Messages -/

theorem redeclarations_message {env : Env} {names : List Token} :
    ∀ f ∈ redeclarations env names, f.message = .alreadyDeclared := by
  induction names generalizing env with
  | nil => exact List.forall_mem_nil _
  | cons name names ih =>
      refine List.forall_mem_append.mpr ⟨?_, ih⟩
      split
      · exact List.forall_mem_singleton.mpr rfl
      · exact List.forall_mem_nil _

/-- Only the first parameter can be at fault for a handler that is not declared. -/
theorem paramFaults_message {outer inner : Env} {first : Bool} {ps : List Param} :
    ∀ f ∈ paramFaults outer inner first ps, f.message ∈ [.alreadyDeclared, .misplacedPass, .misplacedRest] ∨
      (first = true ∧ f.message = .notDeclared) := by
  induction ps generalizing inner first with
  | nil => exact List.forall_mem_nil _
  | cons p ps ih =>
      have hname (name : Token) : ∀ f ∈ redeclarations inner [name],
          f.message ∈ [.alreadyDeclared, .misplacedPass, .misplacedRest] := by
        intro f hf
        rw [redeclarations_message f hf]
        exact List.mem_cons_self
      refine List.forall_mem_append.mpr ⟨?_, fun f hf => .inl ((ih f hf).resolve_right (by simp))⟩
      cases p with
      | plain name => exact fun f hf => .inl (hname name f hf)
      | pass mark handler =>
          cases first with
          | false => exact List.forall_mem_singleton.mpr (.inl (by simp [Token.fault]))
          | true =>
              cases handler with
              | none => exact List.forall_mem_nil _
              | some handler =>
                  dsimp only
                  rw [if_pos rfl]
                  split
                  · exact List.forall_mem_nil _
                  · exact List.forall_mem_singleton.mpr (.inr ⟨rfl, rfl⟩)
      | rest name dots =>
          dsimp only
          split
          · exact fun f hf => .inl (hname name f hf)
          · exact List.forall_mem_singleton.mpr (.inl (by simp [Token.fault]))

theorem arrowParamFaults_message {inner : Env} {ps : List Param} :
    ∀ f ∈ arrowParamFaults inner ps, f.message = .alreadyDeclared ∨ f.message = .arrowParameter := by
  induction ps generalizing inner with
  | nil => exact List.forall_mem_nil _
  | cons p ps ih =>
      refine List.forall_mem_append.mpr ⟨?_, ih⟩
      cases p with
      | plain name => exact fun f hf => .inl (redeclarations_message f hf)
      | pass mark handler => exact List.forall_mem_singleton.mpr (.inr rfl)
      | rest name dots => exact List.forall_mem_singleton.mpr (.inr rfl)

theorem declareFaults_message {items : List PragmaItem} :
    ∀ f ∈ declareFaults items, f.message = .unknownGroup := by
  induction items with
  | nil => exact List.forall_mem_nil _
  | cons item items ih =>
      cases item with
      | single name => exact ih
      | group colon name =>
          refine List.forall_mem_append.mpr ⟨?_, ih⟩
          split
          · exact List.forall_mem_nil _
          · exact List.forall_mem_singleton.mpr rfl

/-- A group has the message that the grammar has for a colon. -/
theorem includeFaults_message {items : List PragmaItem} : ∀ f ∈ includeFaults items,
    f.message = .unknownHelper ∨ (f.message = .unexpected ∧ ∃ colon name, .group colon name ∈ items) := by
  induction items with
  | nil => exact List.forall_mem_nil _
  | cons item items ih =>
      have hlater : ∀ f ∈ includeFaults items, f.message = .unknownHelper ∨
          (f.message = .unexpected ∧ ∃ colon name, .group colon name ∈ item :: items) := by
        intro f hf
        rcases ih f hf with hhelper | ⟨hgroup, colon, name, hmem⟩
        · exact .inl hhelper
        · exact .inr ⟨hgroup, colon, name, List.mem_cons_of_mem item hmem⟩
      cases item with
      | single name =>
          refine List.forall_mem_append.mpr ⟨?_, hlater⟩
          split
          · exact List.forall_mem_nil _
          · exact List.forall_mem_singleton.mpr (.inl rfl)
      | group colon name =>
          exact List.forall_mem_cons.mpr ⟨.inr ⟨rfl, colon, name, List.mem_cons_self⟩, hlater⟩

/-! ## Environments of scopes -/

/-- An environment sees exactly the names that a scope sees. -/
def Agrees (env : Env) (scope : Scope) : Prop := ∀ n, env.sees n = true ↔ scope.Sees n

theorem Func.sees_outset (env : Env) (f : Func) (isDeclaration : Bool) (n : String) :
    (f.outset env isDeclaration).sees n = true ↔
      (isDeclaration = false ∧ ∃ name, f.name = some name ∧ n = name.text) ∨ env.sees n = true := by
  unfold Func.outset
  cases f.name <;> cases isDeclaration <;> simp

theorem Func.isDeclared_outset (env : Env) (f : Func) (isDeclaration : Bool) (n : String) :
    (f.outset env isDeclaration).isDeclared n = false := by
  unfold Func.outset
  split
  · exact Env.isDeclared_inherit _ _ _ (Env.isDeclared_fork env n)
  · exact Env.isDeclared_fork env n

/-- The names that a function declares for its body, in another order. -/
theorem Func.locals_perm (f : Func) :
    (f.locals.map (·.text)).Perm
      (((f.receiver.map (·.name)).toList ++ bodyNames f.body.body).map (·.text)) :=
  ((bodyNames_perm f.body.body).append_left _).map _

theorem Agrees.function {env : Env} {scope : Scope} (h : Agrees env scope) (f : Func)
    (isDeclaration : Bool) :
    Agrees (f.scope env isDeclaration) (.function scope f isDeclaration) := by
  intro n
  have hdeclared : n ∈ (Scope.function scope f isDeclaration).declared ↔
      n ∈ (paramNames f.params.items.items).map (·.text) ∨ n ∈ f.locals.map (·.text) := by
    rw [Scope.declared, List.append_assoc, List.map_append, List.mem_append, f.locals_perm.mem_iff]
  rw [Func.scope, Env.sees_declareAll, Func.withParams, Env.foldl_bindParam, Env.sees_declareAll,
    Func.sees_outset, h n, Scope.Sees, hdeclared, or_assoc, or_left_comm]

theorem Agrees.arrow {env : Env} {scope : Scope} (h : Agrees env scope) (params : Params) :
    Agrees (arrowScope env params) (.arrow scope params) := by
  intro n
  rw [arrowScope, Env.foldl_bindParam, Env.sees_declareAll, Env.sees_fork, h n, Scope.Sees,
    Scope.declared]

theorem Agrees.simpleArrow {env : Env} {scope : Scope} (h : Agrees env scope) :
    Agrees (env.fork.declare implicitParam) (.simpleArrow scope) := by
  intro n
  rw [Env.sees_declare, Env.sees_fork, h n, Scope.Sees, Scope.declared, List.mem_singleton]

/-! ### Pragmas -/

theorem Group.find?_isSome_iff (group : String) : (find? group).isSome = true ↔ group ∈ groupNames := by
  unfold find?
  split <;> simp_all [groupNames]

theorem PragmaItem.mem_names_iff (item : PragmaItem) (n : String) : n ∈ item.names ↔ item.Introduces n := by
  cases item with
  | single name => exact List.mem_singleton
  | group colon name =>
      rw [PragmaItem.names, PragmaItem.Introduces, GroupLists]
      unfold Group.find?
      split <;> simp_all [groupNames]

theorem Stmt.mem_pragmaNames_iff (s : Stmt) (n : String) :
    n ∈ s.pragmaNames ↔ ∃ p, (s = .include p ∨ s = .declare p) ∧ ∃ item ∈ p.items.items, item.Introduces n := by
  cases s with
  | «include» p => simp [Stmt.pragmaNames, PragmaItem.mem_names_iff]
  | declare p => simp [Stmt.pragmaNames, PragmaItem.mem_names_iff]
  | _ => simp [Stmt.pragmaNames]

/-- The environment that the pragmas of a program set up has what they introduce. -/
theorem Program.mem_pragmaNames_iff (x : Program) (n : String) :
    n ∈ x.body.flatMap Stmt.pragmaNames ↔ x.Introduces n := by
  simp only [List.mem_flatMap, Stmt.mem_pragmaNames_iff]
  constructor
  · rintro ⟨s, hs, p, rfl | rfl, hitem⟩
    · exact ⟨p, .inl hs, hitem⟩
    · exact ⟨p, .inr hs, hitem⟩
  · rintro ⟨p, hs | hs, hitem⟩
    · exact ⟨_, hs, p, .inl rfl, hitem⟩
    · exact ⟨_, hs, p, .inr rfl, hitem⟩

theorem Agrees.program (x : Program) : Agrees x.scope (.program x) := by
  intro n
  have hpragmas : x.pragmaScope.sees n = true ↔ x.Introduces n := by
    rw [Program.pragmaScope, Env.sees_declareAll, x.mem_pragmaNames_iff]
    simp [Env.sees, Env.empty]
  rw [Program.scope, Env.sees_declareAll, ((bodyNames_perm x.body).map _).mem_iff, hpragmas,
    Scope.Sees, Scope.declared]

/-! ## Faults and sites -/

theorem undeclared_eq_nil_iff {env : Env} {scope : Scope} (h : Agrees env scope) (name : Token) :
    undeclared env name = [] ↔ (Site.reference scope name).Sound := by
  rw [Site.Sound, ← h, undeclared]
  cases env.sees name.text <;> simp

/-- A function's head has no fault if its parameters stand where they may, the handler is seen outside,
    and no name is declared twice. -/
theorem Func.headFaults_eq_nil_iff {env : Env} {scope : Scope} (h : Agrees env scope) (f : Func)
    (isDeclaration : Bool) :
    f.headFaults env isDeclaration = [] ↔ (Site.function scope f isDeclaration).Sound := by
  -- The environment of the body is a fork, which declares the parameters and nothing else.
  have hdeclared (n : String) : (f.withParams env isDeclaration).isDeclared n = false ↔
      n ∉ (paramNames f.params.items.items).map (·.text) := by
    rw [← Bool.not_eq_true, Func.withParams, Env.foldl_bindParam, Env.isDeclared_declareAll,
      f.isDeclared_outset env isDeclaration n]
    simp
  have hlocals : redeclarations (f.withParams env isDeclaration) f.locals = [] ↔
      (f.locals.map (·.text)).Nodup ∧
        ∀ n ∈ f.locals.map (·.text), n ∉ (paramNames f.params.items.items).map (·.text) := by
    rw [redeclarations_eq_nil_iff]
    simp only [hdeclared]
  have hhandlers :
      (∀ mark handler, .pass mark (some handler) ∈ f.params.items.items →
          env.sees handler.text = true) ↔
        ∀ mark handler, .pass mark (some handler) ∈ f.params.items.items →
          scope.Sees handler.text := by
    simp only [h _]
  have hnodup : ((paramNames f.params.items.items).map (·.text)).Nodup ∧
      ((f.locals.map (·.text)).Nodup ∧
        ∀ n ∈ f.locals.map (·.text), n ∉ (paramNames f.params.items.items).map (·.text)) ↔
      (Scope.function scope f isDeclaration).declared.Nodup := by
    rw [Scope.declared, List.append_assoc, List.map_append, List.nodup_append,
      f.locals_perm.nodup_iff]
    simp only [f.locals_perm.mem_iff]
    refine and_congr_right fun _ => and_congr_right fun _ => ?_
    exact ⟨fun hdisj a ha b hb heq => hdisj b hb (heq ▸ ha), fun hdisj n hn hmem => hdisj n hmem n hn rfl⟩
  rw [Func.headFaults, List.append_eq_nil_iff, paramFaults_eq_nil_iff (f.isDeclared_outset env _),
    hlocals, hhandlers, Site.Sound, ← hnodup, and_assoc, and_assoc]

theorem arrowFaults_eq_nil_iff (env : Env) (scope : Scope) (params : Params) :
    arrowParamFaults env.fork params.items.items = [] ↔ (Site.arrow scope params).Sound := by
  rw [arrowParamFaults_eq_nil_iff, Site.Sound, Scope.declared]
  simp

theorem Func.standingFaults_eq_nil_iff (f : Func) (standing : Standing) :
    f.standingFaults standing = [] ↔ (Site.declaration standing f).Sound := by
  cases standing <;> simp [Func.standingFaults, Site.Sound]

theorem Pragma.standingFaults_eq_nil_iff (p : Pragma) (message : Message) (standing : Standing) :
    p.standingFaults message standing = [] ↔ (Site.pragma standing p).Sound := by
  cases standing <;> simp [Pragma.standingFaults, Site.Sound]

/-- The faults that are raised at a site, in an environment that agrees with the scope there. -/
inductive Site.Raises : Site → List Fault → Prop where
  | reference {env : Env} {scope : Scope} (h : Agrees env scope) (name : Token) :
      Site.Raises (.reference scope name) (undeclared env name)
  | function {env : Env} {scope : Scope} (h : Agrees env scope) (f : Func) (isDeclaration : Bool) :
      Site.Raises (.function scope f isDeclaration) (f.headFaults env isDeclaration)
  | arrow (env : Env) (scope : Scope) (params : Params) :
      Site.Raises (.arrow scope params) (arrowParamFaults env.fork params.items.items)
  | declaration (standing : Standing) (f : Func) :
      Site.Raises (.declaration standing f) (f.standingFaults standing)
  | include (standing : Standing) (p : Pragma) :
      Site.Raises (.pragma standing p) (p.standingFaults .misplacedInclude standing)
  | declare (standing : Standing) (p : Pragma) :
      Site.Raises (.pragma standing p) (p.standingFaults .misplacedDeclare standing)
  | pass (mark : Token) : Site.Raises (.stray mark) [mark.fault .strayPass []]
  | rest (name : Token) : Site.Raises (.stray name) [name.fault .strayRest []]

theorem Site.Raises.eq_nil_iff {s : Site} {fs : List Fault} (h : s.Raises fs) : fs = [] ↔ s.Sound := by
  cases h with
  | reference h name => exact undeclared_eq_nil_iff h name
  | function h f isDeclaration => exact Func.headFaults_eq_nil_iff h f isDeclaration
  | arrow env scope params => exact arrowFaults_eq_nil_iff env scope params
  | declaration standing f => exact f.standingFaults_eq_nil_iff standing
  | «include» standing p => exact p.standingFaults_eq_nil_iff _ standing
  | declare standing p => exact p.standingFaults_eq_nil_iff _ standing
  | pass mark => simp [Site.Sound]
  | rest name => simp [Site.Sound]

/-- The faults that are raised at sites one after the other, before those of what follows. -/
inductive Raised : List Site → List Fault → List Fault → Prop where
  | nil {tail : List Fault} : Raised [] tail tail
  | site {s : Site} {fs tail : List Fault} : s.Raises fs → Raised [s] (fs ++ tail) tail
  | append {S S' : List Site} {fs gs tail : List Fault} :
      Raised S fs gs → Raised S' gs tail → Raised (S ++ S') fs tail

theorem Raised.cons {s : Site} {S : List Site} {fs gs tail : List Fault} (h : s.Raises fs)
    (h' : Raised S gs tail) : Raised (s :: S) (fs ++ gs) tail :=
  .append (.site h) h'

theorem Raised.eq_nil_iff {S : List Site} {fs tail : List Fault} (h : Raised S fs tail) :
    fs = [] ↔ (∀ s ∈ S, s.Sound) ∧ tail = [] := by
  induction h with
  | nil => simp
  | site h => rw [List.append_eq_nil_iff, h.eq_nil_iff, List.forall_mem_singleton]
  | append _ _ ih ih' => rw [ih, ih', List.forall_mem_append, and_assoc]

/-! ## The faults of trees -/

mutual

theorem Expr.raised : ∀ (e : Expr) {env : Env} {scope : Scope}, Agrees env scope →
    ∀ tail, Raised (e.sites scope) (e.faults env tail) tail
  | .head hd, _, _, h, tail => Head.raised hd h tail
  | .suffix leading s, _, _, h, tail => (Expr.raised leading h _).append (Suffix.raised s h tail)

theorem Head.raised : ∀ (hd : Head) {env : Env} {scope : Scope}, Agrees env scope →
    ∀ tail, Raised (hd.sites scope) (hd.faults env tail) tail
  | .literal _, _, _, _, _ => .nil
  | .ident name, _, _, h, _ => .site (.reference h name)
  | .pass mark _, _, _, _, _ => .site (.pass mark)
  | .rest name _, _, _, _, _ => .site (.rest name)
  | .unary _ operand, _, _, h, tail => Expr.raised operand h tail
  | .construct _ callee arguments, _, _, h, tail =>
    .cons (.reference h callee.first) (Enclosed.raised arguments h tail)
  | .array elements, _, _, h, tail => Enclosed.raised elements h tail
  | .object _ entries _, _, _, h, tail => entriesRaised entries h tail
  | .group _ inner _, _, _, h, tail => Expr.raised inner h tail
  | .function f, _, _, h, tail => Func.raised f false h tail
  | .arrow params _ body, env, scope, h, tail =>
    .cons (.arrow env scope params) (Expr.raised body (h.arrow params) tail)
  | .simpleArrow _ body, _, _, h, tail => Expr.raised body h.simpleArrow tail

theorem Suffix.raised : ∀ (s : Suffix) {env : Env} {scope : Scope}, Agrees env scope →
    ∀ tail, Raised (s.sites scope) (s.faults env tail) tail
  | .binary _ right, _, _, h, tail => Expr.raised right h tail
  | .ternary _ consequent _ alternate, _, _, h, tail =>
    (Expr.raised consequent h _).append (Expr.raised alternate h tail)
  | .call arguments, _, _, h, tail => Enclosed.raised arguments h tail
  | .invoke _ arguments, _, _, h, tail => Enclosed.raised arguments h tail
  | .index _ inner _, _, _, h, tail => Expr.raised inner h tail
  | .property _, _, _, _, _ => .nil
  | .prototype _ _, _, _, _, _ => .nil

theorem Enclosed.raised : ∀ (e : Enclosed) {env : Env} {scope : Scope}, Agrees env scope →
    ∀ tail, Raised (e.sites scope) (e.faults env tail) tail
  | ⟨_, items, _⟩, _, _, h, tail => exprsRaised items h tail

theorem exprsRaised : ∀ (es : Separated Expr) {env : Env} {scope : Scope}, Agrees env scope →
    ∀ tail, Raised (exprsSites scope es) (exprsFaults env es tail) tail
  | .nil, _, _, _, _ => .nil
  | .one e, _, _, h, tail => Expr.raised e h tail
  | .more e _ es, _, _, h, tail => (Expr.raised e h _).append (exprsRaised es h tail)

theorem entriesRaised : ∀ (es : Separated Entry) {env : Env} {scope : Scope}, Agrees env scope →
    ∀ tail, Raised (entriesSites scope es) (entriesFaults env es tail) tail
  | .nil, _, _, _, _ => .nil
  | .one ⟨_, _, value⟩, _, _, h, tail => Expr.raised value h tail
  | .more ⟨_, _, value⟩ _ es, _, _, h, tail => (Expr.raised value h _).append (entriesRaised es h tail)

theorem Func.raised : ∀ (f : Func) (isDeclaration : Bool) {env : Env} {scope : Scope},
    Agrees env scope → ∀ tail, Raised (f.sites scope isDeclaration) (f.faults env isDeclaration tail) tail
  | ⟨keyword, name, params, receiver, ⟨opening, body, closing⟩⟩, isDeclaration, _, _, h, tail =>
    .cons (.function h ⟨keyword, name, params, receiver, ⟨opening, body, closing⟩⟩ isDeclaration)
      (stmtsRaised body .body (h.function _ isDeclaration) tail)

theorem stmtsRaised : ∀ (ss : List Stmt) (standing : Standing) {env : Env} {scope : Scope},
    Agrees env scope → ∀ tail, Raised (stmtsSites scope standing ss) (stmtsFaults env standing ss tail) tail
  | [], _, _, _, _, _ => .nil
  | s :: ss, standing, _, _, h, tail =>
    (Stmt.raised s standing h _).append (stmtsRaised ss standing h tail)

theorem Stmt.raised : ∀ (s : Stmt) (standing : Standing) {env : Env} {scope : Scope},
    Agrees env scope → ∀ tail, Raised (s.sites scope standing) (s.faults env standing tail) tail
  | .expr value _, _, _, _, h, tail => Expr.raised value h tail
  | .empty _, _, _, _, _, _ => .nil
  | .conditional first others, _, _, _, h, tail =>
    (Guarded.raised first h _).append (Ladder.raised others h tail)
  | .while loop, _, _, _, h, tail => Guarded.raised loop h tail
  | .for _ _ init _ test _ update _ body, _, _, _, h, tail =>
    (((ForInit.raised init h _).append (exprsRaised test h _)).append (exprsRaised update h _)).append
      (Block.raised body h tail)
  | .forIn _ _ none name _ object _ body, _, _, _, h, tail =>
    .cons (.reference h name) ((Expr.raised object h _).append (Block.raised body h tail))
  | .forIn _ _ (some _) _ _ object _ body, _, _, _, h, tail =>
    (Expr.raised object h _).append (Block.raised body h tail)
  | .jump _ _ _, _, _, _, _, _ => .nil
  | .return _ none _, _, _, _, _, _ => .nil
  | .return _ (some value) _, _, _, _, h, tail => Expr.raised value h tail
  | .throw _ value _, _, _, _, h, tail => Expr.raised value h tail
  | .vars list _, _, _, _, h, tail => VarList.raised list h tail
  | .function f, standing, _, _, h, tail => .cons (.declaration standing f) (Func.raised f true h tail)
  | .labeled _ _ body, _, _, _, h, tail => Stmt.raised body .nested h tail
  | .switch _ _ subject _ _ clauses _, _, _, _, h, tail =>
    (Expr.raised subject h _).append (clausesRaised clauses h tail)
  | .block b, _, _, _, h, tail => Block.raised b h tail
  | .include p, standing, _, _, _, _ => .site (.include standing p)
  | .declare p, standing, _, _, _, _ => .site (.declare standing p)

theorem Block.raised : ∀ (b : Block) {env : Env} {scope : Scope}, Agrees env scope →
    ∀ tail, Raised (b.sites scope) (b.faults env tail) tail
  | ⟨_, body, _⟩, _, _, h, tail => stmtsRaised body .nested h tail

theorem Guarded.raised : ∀ (g : Guarded) {env : Env} {scope : Scope}, Agrees env scope →
    ∀ tail, Raised (g.sites scope) (g.faults env tail) tail
  | ⟨_, _, test, _, body⟩, _, _, h, tail => (Expr.raised test h _).append (Block.raised body h tail)

theorem Ladder.raised : ∀ (l : Ladder) {env : Env} {scope : Scope}, Agrees env scope →
    ∀ tail, Raised (l.sites scope) (l.faults env tail) tail
  | .done, _, _, _, _ => .nil
  | .otherwise _ body, _, _, h, tail => Block.raised body h tail
  | .branch _ next others, _, _, h, tail => (Guarded.raised next h _).append (Ladder.raised others h tail)

theorem ForInit.raised : ∀ (i : ForInit) {env : Env} {scope : Scope}, Agrees env scope →
    ∀ tail, Raised (i.sites scope) (i.faults env tail) tail
  | .exprs items, _, _, h, tail => exprsRaised items h tail
  | .vars list, _, _, h, tail => VarList.raised list h tail

theorem VarList.raised : ∀ (l : VarList) {env : Env} {scope : Scope}, Agrees env scope →
    ∀ tail, Raised (l.sites scope) (l.faults env tail) tail
  | ⟨_, items⟩, _, _, h, tail => declsRaised items h tail

theorem declsRaised : ∀ (ds : Separated Decl) {env : Env} {scope : Scope}, Agrees env scope →
    ∀ tail, Raised (declsSites scope ds) (declsFaults env ds tail) tail
  | .nil, _, _, _, _ => .nil
  | .one d, _, _, h, tail => Decl.raised d h tail
  | .more d _ ds, _, _, h, tail => (Decl.raised d h _).append (declsRaised ds h tail)

theorem Decl.raised : ∀ (d : Decl) {env : Env} {scope : Scope}, Agrees env scope →
    ∀ tail, Raised (d.sites scope) (d.faults env tail) tail
  | ⟨_, none⟩, _, _, _, _ => .nil
  | ⟨_, some (_, value)⟩, _, _, h, tail => Expr.raised value h tail

theorem clausesRaised : ∀ (cs : List Clause) {env : Env} {scope : Scope}, Agrees env scope →
    ∀ tail, Raised (clausesSites scope cs) (clausesFaults env cs tail) tail
  | [], _, _, _, _ => .nil
  | ⟨_, none, _, body⟩ :: cs, _, _, h, tail =>
    (stmtsRaised body .nested h _).append (clausesRaised cs h tail)
  | ⟨_, some test, _, body⟩ :: cs, _, _, h, tail =>
    ((Expr.raised test h _).append (stmtsRaised body .nested h _)).append (clausesRaised cs h tail)

end

/-! ## Programs -/

theorem Helper.isKnown_iff (name : String) : isKnown name = true ↔ ∃ helper ∈ all, helper.name = name := by
  simp only [isKnown, find?, List.find?_isSome, beq_iff_eq]

theorem includeFaults_eq_nil_iff (items : List PragmaItem) :
    includeFaults items = [] ↔
      ∀ item ∈ items, ∃ name, item = .single name ∧ ∃ helper ∈ Helper.all, helper.name = name.text := by
  induction items with
  | nil => simp [includeFaults]
  | cons item items ih =>
      rw [List.forall_mem_cons]
      cases item with
      | single name =>
          rw [includeFaults, List.append_eq_nil_iff, ih]
          refine and_congr_left fun _ => ?_
          have hknown := Helper.isKnown_iff name.text
          cases hfind : Helper.isKnown name.text <;> simp_all
      | group colon name => simp [includeFaults]

theorem declareFaults_eq_nil_iff (items : List PragmaItem) :
    declareFaults items = [] ↔
      ∀ colon name, .group colon name ∈ items → name.text ∈ groupNames := by
  induction items with
  | nil => simp [declareFaults]
  | cons item items ih =>
      cases item with
      | single name => simp [declareFaults, ih]
      | group colon name =>
          have hfound : (if (Group.find? name.text).isSome then [] else
              [colon.fault .unknownGroup [name.text]]) = [] ↔ name.text ∈ groupNames := by
            rw [← Group.find?_isSome_iff]
            cases (Group.find? name.text).isSome <;> simp
          rw [declareFaults, List.append_eq_nil_iff, hfound, ih]
          constructor
          · rintro ⟨hname, hitems⟩ colon' name' hmem
            rcases List.mem_cons.mp hmem with heq | hmem
            · cases heq
              exact hname
            · exact hitems colon' name' hmem
          · intro h
            exact ⟨h colon name List.mem_cons_self,
              fun colon' name' hmem => h colon' name' (List.mem_cons_of_mem _ hmem)⟩

namespace Program

variable (x : Program)

/-- The pragmas of a program have no fault if they name helpers and groups that exist. -/
theorem pragmaFaults_eq_nil_iff :
    x.body.flatMap Stmt.pragmaFaults = [] ↔
      (∀ p, .include p ∈ x.body → ∀ item ∈ p.items.items,
          ∃ name, item = .single name ∧ ∃ helper ∈ Helper.all, helper.name = name.text) ∧
        ∀ p, .declare p ∈ x.body → ∀ colon name, .group colon name ∈ p.items.items →
          name.text ∈ groupNames := by
  rw [List.flatMap_eq_nil_iff]
  constructor
  · intro h
    exact ⟨fun p hp => (includeFaults_eq_nil_iff _).mp (h _ hp),
      fun p hp => (declareFaults_eq_nil_iff _).mp (h _ hp)⟩
  · rintro ⟨hincludes, hdeclares⟩ s hs
    cases s with
    | «include» p => exact (includeFaults_eq_nil_iff _).mpr (hincludes p hs)
    | declare p => exact (declareFaults_eq_nil_iff _).mpr (hdeclares p hs)
    | _ => rfl

/-- The names of a program can be declared if they are distinct and no pragma has made them known. -/
theorem redeclarations_pragmaScope_eq_nil_iff :
    redeclarations x.pragmaScope (declaredNames true x.body) = [] ↔
      (Scope.program x).declared.Nodup ∧ ∀ n ∈ (Scope.program x).declared, ¬ x.Introduces n := by
  have hperm : ((declaredNames true x.body).map (·.text)).Perm (Scope.program x).declared :=
    (bodyNames_perm x.body).map _
  have hpragmas (n : String) : x.pragmaScope.isDeclared n = false ↔ ¬ x.Introduces n := by
    rw [← Bool.not_eq_true, pragmaScope, Env.isDeclared_declareAll, x.mem_pragmaNames_iff]
    simp [Env.isDeclared, Env.empty]
  rw [redeclarations_eq_nil_iff, hperm.nodup_iff]
  simp only [hperm.mem_iff, hpragmas]

/-- A program has no fault if and only if it is well scoped. -/
theorem faults_eq_nil_iff : x.faults = [] ↔ x.WellScoped := by
  rw [faults, List.append_eq_nil_iff, List.append_eq_nil_iff, pragmaFaults_eq_nil_iff,
    redeclarations_pragmaScope_eq_nil_iff, (stmtsRaised x.body .program (Agrees.program x) []).eq_nil_iff]
  constructor
  · rintro ⟨⟨⟨hhelpers, hgroups⟩, hnodup, hfresh⟩, hsites, _⟩
    exact ⟨hhelpers, hgroups, hnodup, hfresh, hsites⟩
  · rintro ⟨hhelpers, hgroups, hnodup, hfresh, hsites⟩
    exact ⟨⟨⟨hhelpers, hgroups⟩, hnodup, hfresh⟩, hsites, rfl⟩

theorem validate_ok_iff {helpers : List String} :
    x.validate = .ok helpers ↔ x.faults = [] ∧ helpers = x.helpers := by
  unfold validate
  cases x.faults with
  | nil => simp [eq_comm]
  | cons f fs => simp

end Program

/-- Checking accepts exactly the programs that are well scoped. -/
theorem validate_succeeds_iff_wellScoped (x : Program) :
    (∃ helpers, x.validate = .ok helpers) ↔ x.WellScoped := by
  rw [← Program.faults_eq_nil_iff]
  constructor
  · rintro ⟨helpers, h⟩
    exact (x.validate_ok_iff.mp h).1
  · intro h
    exact ⟨x.helpers, x.validate_ok_iff.mpr ⟨h, rfl⟩⟩

/-- A source whose names come from pragmas of every kind: a helper, a name, and a group. -/
def pragmaticSource : String :=
  "each(keys(host), (k) -> process[k]);\n#include keys, each;\n#declare host, :node;"

/-- A source that declares a name of a group it has declared. -/
def trespassingSource : String := "#declare :node;\nfunction f() \x7b return process; \x7d\nvar console;"

theorem validate_succeeds_iff_wellScoped_pragmaticSource :
    (∃ x, parseProgram pragmaticSource.toList = .ok x ∧ x.validate = .ok ["keys", "each"] ∧ x.WellScoped ∧
        (∀ n ∈ ["keys", "each", "host", "process", "Math"], x.Introduces n) ∧ ¬ x.Introduces "window") ∧
      ∃ x, parseProgram trespassingSource.toList = .ok x ∧
        (Scope.program x).declared = ["console", "f"] ∧ x.Introduces "console" ∧ ¬ x.WellScoped := by
  have hrun : (parseProgram pragmaticSource.toList).toOption.map (fun x => (x.validate.toOption,
      ["keys", "each", "host", "process", "Math"].all (x.body.flatMap Stmt.pragmaNames).contains,
      (x.body.flatMap Stmt.pragmaNames).contains "window")) = some (some ["keys", "each"], true, false) := by
    decide +kernel
  have hrun' : (parseProgram trespassingSource.toList).toOption.map (fun x => ((Scope.program x).declared,
      (x.body.flatMap Stmt.pragmaNames).contains "console", x.validate.toOption)) =
        some (["console", "f"], true, none) := by
    decide +kernel
  obtain ⟨x, hx, hvalues⟩ := ok_of_toOption hrun
  obtain ⟨hvalidate, hvalues⟩ := Prod.mk.inj hvalues
  obtain ⟨hknown, hunknown⟩ := Prod.mk.inj hvalues
  obtain ⟨y, hy, hvalues⟩ := ok_of_toOption hrun'
  obtain ⟨hdeclared, hvalues⟩ := Prod.mk.inj hvalues
  obtain ⟨hconsole, hrefused⟩ := Prod.mk.inj hvalues
  have haccepted : x.validate = .ok ["keys", "each"] := by
    cases hcheck : x.validate with
    | error f =>
        rw [hcheck] at hvalidate
        cases hvalidate
    | ok names =>
        rw [hcheck] at hvalidate
        rw [Option.some.inj hvalidate]
  refine ⟨⟨x, hx, haccepted, (validate_succeeds_iff_wellScoped x).mp ⟨_, haccepted⟩, ?_, ?_⟩,
    y, hy, hdeclared, (y.mem_pragmaNames_iff _).mp (List.contains_iff_mem.mp hconsole), ?_⟩
  · intro n hn
    exact (x.mem_pragmaNames_iff n).mp (List.contains_iff_mem.mp (List.all_eq_true.mp hknown n hn))
  · intro hwindow
    rw [List.contains_iff_mem.mpr ((x.mem_pragmaNames_iff _).mpr hwindow)] at hunknown
    cases hunknown
  · intro hscoped
    obtain ⟨names, hok⟩ := (validate_succeeds_iff_wellScoped y).mpr hscoped
    rw [hok] at hrefused
    cases hrefused

end Respell
