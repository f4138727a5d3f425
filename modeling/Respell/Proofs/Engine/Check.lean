import Respell.Engine.Check
import Respell.Proofs.Tree.Chain

/-!
# The fault that is found first

The checker of the engine ends at the first fault, and goes through chains and ladders in loops. Collecting all
faults and taking the first one comes to the same. The faults of a tree are collected before those of what
follows, so the statement proved by induction is about all faults that may follow. Where names are declared,
the environment that is used afterwards is the one that the engine is left with.
-/

namespace Respell

/-! ## What declaring comes to -/

theorem verdict_append (fs tail : List Fault) :
    verdict (fs ++ tail) = (do verdict fs; verdict tail) := by
  cases fs with
  | nil => rfl
  | cons f fs => rfl

theorem entered_bind (x y : Hoist) (env : Env) :
    entered (do x; y) env = (do let env' ← entered x env; entered y env') := by
  change entered (EStateM.bind x fun _ => y) env = _
  simp only [entered, EStateM.run, EStateM.bind]
  cases x env <;> rfl

/-- Begun in `env`, declaring has the faults `fs`, and leaves `env'` if there are none. -/
def Settles (x : Hoist) (env : Env) (fs : List Fault) (env' : Env) : Prop :=
  entered x env = (do verdict fs; pure env')

namespace Settles

variable {x y : Hoist} {env env' env'' : Env} {fs gs : List Fault}

theorem nothing : Settles (pure ()) env [] env := rfl

theorem fail {f : Fault} : Settles (throw f) env [f] env' := rfl

theorem seq (hx : Settles x env fs env') (hy : Settles y env' gs env'') :
    Settles (do x; y) env (fs ++ gs) env'' := by
  rw [Settles, entered_bind, show entered x env = _ from hx, verdict_append, bind_assoc, bind_assoc]
  refine congrArg (verdict fs >>= ·) (funext fun _ => ?_)
  rw [pure_bind]
  exact hy

end Settles

theorem settles_declareName (env : Env) (name : Token) :
    Settles (declareName name) env (redeclarations env [name]) (env.declare name.text) := by
  cases h : env.isDeclared name.text with
  | false =>
      have hrun : (declareName name).run env = .ok () (env.declare name.text) := by simp [declareName, h]
      simp only [Settles, entered, hrun, redeclarations, h]
      rfl
  | true =>
      have hrun : (declareName name).run env = .error (name.fault .alreadyDeclared [name.text]) env := by
        simp [declareName, h]
      simp only [Settles, entered, hrun, redeclarations, h]
      rfl

theorem settles_declareAll (names : List Token) (env : Env) :
    Settles (forM names declareName) env (redeclarations env names) (env.declareAll (names.map (·.text))) := by
  induction names generalizing env with
  | nil => exact .nothing
  | cons name names ih =>
      have h := (settles_declareName env name).seq (ih (env.declare name.text))
      rw [redeclarations, redeclarations, List.append_nil] at h
      exact h

/-! The recursion declares exactly the names that are listed, in their order. -/

theorem VarList.hoist_eq (list : VarList) : list.hoist = forM list.declared declareName := by
  rw [VarList.hoist, VarList.declared, List.forM_map]

/-- Declares the names of the branches after the first one, by recursion. -/
def Ladder.hoist : Ladder → Hoist
  | .done => pure ()
  | .otherwise _ body => hoistStmts false body.body
  | .branch _ next others => do
    hoistStmts false next.body.body
    others.hoist

/-- The loop over branches declares the names of the first one, then those of the others. -/
theorem hoistBranches_eq : ∀ (others : Ladder) (branch : Guarded),
    hoistBranches branch others = (do hoistStmts false branch.body.body; others.hoist)
  | .done, ⟨_, _, _, _, ⟨_, _, _⟩⟩ => by
    rw [hoistBranches]
    rfl
  | .otherwise _ ⟨_, _, _⟩, ⟨_, _, _, _, ⟨_, _, _⟩⟩ => by
    rw [hoistBranches]
    rfl
  | .branch _ next others, ⟨_, _, _, _, ⟨_, _, _⟩⟩ => by
    rw [hoistBranches]
    simp only [hoistBranches_eq others next]
    rfl

/-- Declaring the names of one part, then those of another. -/
theorem hoist_append {x y : Hoist} {names more : List Token} (hx : x = forM names declareName)
    (hy : y = forM more declareName) : (do x; y) = forM (names ++ more) declareName := by
  rw [hx, hy, List.forM_append]

mutual

theorem Stmt.hoist_eq : ∀ (s : Stmt) (direct : Bool), s.hoist direct = forM (s.declared direct) declareName
  | .function ⟨_, none, _, _, _⟩, true => by
    rw [Stmt.hoist]
    rfl
  | .function ⟨_, some name, _, _, _⟩, true => by
    rw [Stmt.hoist]
    -- A loop over one name ends with nothing to do.
    change declareName name = (do declareName name; pure ())
    exact bind_pure_unit.symm
  | .function _, false => by
    rw [Stmt.hoist]
    rfl
  | .vars list _, _ => by
    rw [Stmt.hoist]
    exact list.hoist_eq
  | .conditional ⟨_, _, _, _, ⟨_, body, _⟩⟩ others, _ => by
    rw [Stmt.hoist, hoistBranches_eq]
    exact hoist_append (hoistStmts_eq body false) others.hoist_eq
  | .while ⟨_, _, _, _, ⟨_, body, _⟩⟩, _ => by
    rw [Stmt.hoist]
    exact hoistStmts_eq body false
  | .for _ _ (.vars list) _ _ _ _ _ ⟨_, body, _⟩, _ => by
    rw [Stmt.hoist]
    exact hoist_append list.hoist_eq (hoistStmts_eq body false)
  | .for _ _ (.exprs _) _ _ _ _ _ ⟨_, body, _⟩, _ => by
    rw [Stmt.hoist]
    exact hoistStmts_eq body false
  | .forIn _ _ (some _) name _ _ _ ⟨_, body, _⟩, _ => by
    rw [Stmt.hoist]
    exact congrArg (declareName name >>= ·) (funext fun _ => hoistStmts_eq body false)
  | .forIn _ _ none _ _ _ _ ⟨_, body, _⟩, _ => by
    rw [Stmt.hoist]
    exact hoistStmts_eq body false
  | .labeled _ _ body, _ => by
    rw [Stmt.hoist]
    exact body.hoist_eq false
  | .switch _ _ _ _ _ clauses _, _ => by
    rw [Stmt.hoist]
    exact hoistClauses_eq clauses
  | .block ⟨_, body, _⟩, _ => by
    rw [Stmt.hoist]
    exact hoistStmts_eq body false
  | .expr _ _, _ => by
    rw [Stmt.hoist]
    rfl
  | .empty _, _ => by
    rw [Stmt.hoist]
    rfl
  | .jump _ _ _, _ => by
    rw [Stmt.hoist]
    rfl
  | .return _ _ _, _ => by
    rw [Stmt.hoist]
    rfl
  | .throw _ _ _, _ => by
    rw [Stmt.hoist]
    rfl
  | .include _, _ => by
    rw [Stmt.hoist]
    rfl
  | .declare _, _ => by
    rw [Stmt.hoist]
    rfl

theorem hoistStmts_eq : ∀ (ss : List Stmt) (direct : Bool),
    hoistStmts direct ss = forM (declaredNames direct ss) declareName
  | [], _ => by
    rw [hoistStmts]
    rfl
  | s :: ss, direct => by
    rw [hoistStmts]
    exact hoist_append (s.hoist_eq direct) (hoistStmts_eq ss direct)

theorem Ladder.hoist_eq : ∀ l : Ladder, l.hoist = forM l.declared declareName
  | .done => rfl
  | .otherwise _ ⟨_, body, _⟩ => hoistStmts_eq body false
  | .branch _ ⟨_, _, _, _, ⟨_, body, _⟩⟩ others => hoist_append (hoistStmts_eq body false) others.hoist_eq

theorem hoistClauses_eq : ∀ cs : List Clause, hoistClauses cs = forM (clausesDeclared cs) declareName
  | [] => by
    rw [hoistClauses]
    rfl
  | ⟨_, _, _, body⟩ :: cs => by
    rw [hoistClauses]
    exact hoist_append (hoistStmts_eq body false) (hoistClauses_eq cs)

end

theorem Param.settles_enter (outer env : Env) (isFirst : Bool) (p : Param) (ps : List Param) :
    ∃ fs, Settles (p.enter outer isFirst ps.isEmpty) env fs (env.bindParam p) ∧
      paramFaults outer env isFirst (p :: ps) = fs ++ paramFaults outer (env.bindParam p) false ps := by
  cases p with
  | plain name => exact ⟨_, settles_declareName env name, rfl⟩
  | pass mark handler =>
      cases isFirst with
      | false =>
          cases handler with
          | none => exact ⟨_, .fail, rfl⟩
          | some handler => exact ⟨_, .fail, rfl⟩
      | true =>
          cases handler with
          | none => exact ⟨_, .nothing, rfl⟩
          | some handler =>
              -- A handler is claimed whether or not the scope has declared it before.
              refine ⟨_, ?_, rfl⟩
              cases hsees : outer.sees handler.text with
              | false =>
                  simp only [Param.enter, hsees]
                  exact .fail
              | true =>
                  simp only [Param.enter, hsees]
                  rfl
  | rest name dots =>
      cases ps with
      | nil => exact ⟨_, settles_declareName env name, rfl⟩
      | cons q ps => exact ⟨_, .fail, rfl⟩

theorem settles_enterParams (outer env : Env) (isFirst : Bool) (ps : List Param) :
    Settles (enterParams outer isFirst ps) env (paramFaults outer env isFirst ps) (ps.foldl Env.bindParam env) := by
  induction ps generalizing env isFirst with
  | nil => exact .nothing
  | cons p ps ih =>
      obtain ⟨fs, hp, hfaults⟩ := p.settles_enter outer env isFirst ps
      rw [hfaults]
      exact hp.seq (ih _ _)

theorem settles_enterArrow (env : Env) (ps : List Param) :
    Settles (forM ps Param.enterArrow) env (arrowParamFaults env ps) (ps.foldl Env.bindParam env) := by
  induction ps generalizing env with
  | nil => exact .nothing
  | cons p ps ih =>
      cases p with
      | plain name => exact (settles_declareName env name).seq (ih _)
      | pass mark handler => exact Settles.fail.seq (ih _)
      | rest name dots => exact Settles.fail.seq (ih _)

theorem Func.settles_enter (outer : Env) (f : Func) (isDeclaration : Bool) :
    Settles (f.enter outer) (f.outset outer isDeclaration) (f.headFaults outer isDeclaration)
      (f.scope outer isDeclaration) := by
  -- The name of the receiver and those of the body are declared in one go.
  have hlocals : (do
      forM f.receiver fun receiver => declareName receiver.name
      hoistStmts true f.body.body) = forM f.locals declareName := by
    rw [Func.locals, List.forM_append, hoistStmts_eq]
    cases f.receiver <;> simp
  rw [Func.enter, hlocals]
  exact (settles_enterParams outer _ true _).seq (settles_declareAll _ _)

/-! ## What looking at trees comes to -/

/-- Of the faults `fs`, the first one before `tail` is where the recursion `x` ends; if there is none, `x` goes
    through. -/
def Finds (x : Except Fault Unit) (fs tail : List Fault) : Prop := verdict fs = (do x; verdict tail)

namespace Finds

variable {x y : Except Fault Unit} {fs gs tail : List Fault}

theorem nothing : Finds (pure ()) tail tail := rfl

theorem fail {f : Fault} : Finds (throw f) (f :: tail) tail := rfl

theorem seq (hx : Finds x fs gs) (hy : Finds y gs tail) : Finds (do x; y) fs tail := by
  rw [Finds, show verdict fs = _ from hx, show verdict gs = _ from hy, bind_assoc]

/-- A name is looked up. -/
theorem seen (env : Env) (name : Token) : Finds (requireSeen env name) (undeclared env name ++ tail) tail := by
  rw [Finds, undeclared, requireSeen]
  split <;> rfl

/-- A scope is entered, and its inside is looked at in the environment that is left. -/
theorem inside {h : Hoist} {env env' : Env} {check : Env → Except Fault Unit} (hscope : Settles h env fs env')
    (hcheck : Finds (check env') gs tail) :
    Finds (do
      let inner ← entered h env
      check inner) (fs ++ gs) tail := by
  rw [Finds, verdict_append, show entered h env = _ from hscope, show verdict gs = _ from hcheck]
  simp only [bind_assoc, pure_bind]

end Finds

theorem Expr.check_eq (env : Env) (e : Expr) : e.check env = e.recursively (Form.check env) := by
  rw [Expr.check]
  exact e.forM_attach_unwind (Form.check env)

theorem Expr.check_head (env : Env) (h : Head) : (Expr.head h).check env = (Expr.head h).form.check env := by
  rw [check_eq, recursively_of_none _ (leadingOperand?_head h)]

theorem Expr.check_suffix (env : Env) (leading : Expr) (s : Suffix) :
    (Expr.suffix leading s).check env = (do leading.check env; (Expr.suffix leading s).form.check env) := by
  rw [check_eq, recursively_of_some _ (leadingOperand?_suffix leading s), ← check_eq]

/-! The branches of a conditional, by recursion. -/

/-- Looks at a test and the block it guards. -/
def Guarded.check (env : Env) (g : Guarded) : Except Fault Unit := do
  g.test.check env
  g.body.check env

/-- Looks at the branches after the first one. -/
def Ladder.check (env : Env) : Ladder → Except Fault Unit
  | .done => pure ()
  | .otherwise _ body => body.check env
  | .branch _ next others => do
    next.check env
    others.check env

/-- The loop over branches looks at the first one, then at the others. -/
theorem checkBranches_eq (env : Env) : ∀ (others : Ladder) (branch : Guarded),
    checkBranches env branch others = (do branch.check env; others.check env)
  | .done, ⟨_, _, _, _, _⟩ => by
    rw [checkBranches, Guarded.check, bind_assoc]
    rfl
  | .otherwise _ _, ⟨_, _, _, _, _⟩ => by
    rw [checkBranches, Guarded.check, bind_assoc]
    rfl
  | .branch _ next others, ⟨_, _, _, _, _⟩ => by
    rw [checkBranches, Guarded.check, bind_assoc]
    simp only [checkBranches_eq env others next]
    rfl

mutual

theorem Expr.finds : ∀ (e : Expr) (env : Env) (tail : List Fault), Finds (e.check env) (e.faults env tail) tail
  | .head h, env, tail => by
    rw [Expr.check_head]
    exact h.finds env tail
  | .suffix leading s, env, tail => by
    rw [Expr.check_suffix]
    exact (leading.finds env _).seq (s.finds leading env tail)

theorem Head.finds : ∀ (h : Head) (env : Env) (tail : List Fault),
    Finds ((Expr.head h).form.check env) (h.faults env tail) tail
  | .literal _, _, _ => by
    rw [Expr.form, Form.check]
    exact .nothing
  | .ident name, env, _ => by
    rw [Expr.form, Form.check]
    exact .seen env name
  | .pass _ _, _, _ => by
    rw [Expr.form, Form.check]
    exact .fail
  | .rest _ _, _, _ => by
    rw [Expr.form, Form.check]
    exact .fail
  | .unary _ operand, env, tail => by
    rw [Expr.form, Form.check]
    exact operand.finds env tail
  | .construct _ callee arguments, env, tail => by
    rw [Expr.form, Form.check]
    exact (Finds.seen env callee.first).seq (arguments.finds env tail)
  | .array elements, env, tail => by
    rw [Expr.form, Form.check]
    exact elements.finds env tail
  | .object _ entries _, env, tail => by
    rw [Expr.form, Form.check]
    exact checkEntries_finds entries env tail
  | .group _ inner _, env, tail => by
    rw [Expr.form, Form.check]
    exact inner.finds env tail
  | .function f, env, tail => by
    rw [Expr.form, Form.check]
    exact f.finds env false tail
  | .arrow params _ body, env, tail => by
    rw [Expr.form, Form.check]
    exact .inside (settles_enterArrow env.fork params.items.items) (body.finds (arrowScope env params) tail)
  | .simpleArrow _ body, _, tail => by
    rw [Expr.form, Form.check]
    exact body.finds _ tail

theorem Suffix.finds : ∀ (s : Suffix) (leading : Expr) (env : Env) (tail : List Fault),
    Finds ((Expr.suffix leading s).form.check env) (s.faults env tail) tail
  | .binary _ right, _, env, tail => by
    rw [Expr.form, Form.check]
    exact right.finds env tail
  | .ternary _ consequent _ alternate, _, env, tail => by
    rw [Expr.form, Form.check]
    exact (consequent.finds env _).seq (alternate.finds env tail)
  | .call arguments, _, env, tail => by
    rw [Expr.form, Form.check]
    exact arguments.finds env tail
  | .invoke _ arguments, _, env, tail => by
    rw [Expr.form, Form.check]
    exact arguments.finds env tail
  | .index _ inner _, _, env, tail => by
    rw [Expr.form, Form.check]
    exact inner.finds env tail
  | .property _, _, _, _ => by
    rw [Expr.form, Form.check]
    exact .nothing
  | .prototype _ _, _, _, _ => by
    rw [Expr.form, Form.check]
    exact .nothing

theorem Enclosed.finds : ∀ (e : Enclosed) (env : Env) (tail : List Fault),
    Finds (e.check env) (e.faults env tail) tail
  | ⟨_, items, _⟩, env, tail => by
    rw [Enclosed.check]
    exact checkExprs_finds items env tail

theorem checkExprs_finds : ∀ (es : Separated Expr) (env : Env) (tail : List Fault),
    Finds (checkExprs env es) (exprsFaults env es tail) tail
  | .nil, _, _ => by
    rw [checkExprs]
    exact .nothing
  | .one e, env, tail => by
    rw [checkExprs]
    exact e.finds env tail
  | .more e _ es, env, tail => by
    rw [checkExprs]
    exact (e.finds env _).seq (checkExprs_finds es env tail)

theorem checkEntries_finds : ∀ (es : Separated Entry) (env : Env) (tail : List Fault),
    Finds (checkEntries env es) (entriesFaults env es tail) tail
  | .nil, _, _ => by
    rw [checkEntries]
    exact .nothing
  | .one ⟨_, _, value⟩, env, tail => by
    rw [checkEntries]
    exact value.finds env tail
  | .more ⟨_, _, value⟩ _ es, env, tail => by
    rw [checkEntries]
    exact (value.finds env _).seq (checkEntries_finds es env tail)

theorem Func.finds : ∀ (f : Func) (env : Env) (isDeclaration : Bool) (tail : List Fault),
    Finds (f.check env isDeclaration) (f.faults env isDeclaration tail) tail
  | ⟨_, _, _, _, ⟨_, body, _⟩⟩, env, isDeclaration, tail => by
    rw [Func.check]
    exact .inside (Func.settles_enter env _ isDeclaration) (checkStmts_finds body _ .body tail)

theorem checkStmts_finds : ∀ (ss : List Stmt) (env : Env) (standing : Standing) (tail : List Fault),
    Finds (checkStmts env standing ss) (stmtsFaults env standing ss tail) tail
  | [], _, _, _ => by
    rw [checkStmts]
    exact .nothing
  | s :: ss, env, standing, tail => by
    rw [checkStmts]
    exact (s.finds env standing _).seq (checkStmts_finds ss env standing tail)

theorem Stmt.finds : ∀ (s : Stmt) (env : Env) (standing : Standing) (tail : List Fault),
    Finds (s.check env standing) (s.faults env standing tail) tail
  | .expr value _, env, _, tail => by
    rw [Stmt.check]
    exact value.finds env tail
  | .empty _, _, _, _ => by
    rw [Stmt.check]
    exact .nothing
  | .conditional first others, env, _, tail => by
    rw [Stmt.check, checkBranches_eq]
    exact (first.finds env _).seq (others.finds env tail)
  | .while ⟨keyword, opening, test, closing, body⟩, env, _, tail => by
    rw [Stmt.check]
    exact Guarded.finds ⟨keyword, opening, test, closing, body⟩ env tail
  | .for _ _ init _ test _ update _ body, env, _, tail => by
    rw [Stmt.check]
    exact (init.finds env _).seq ((checkExprs_finds test env _).seq
      ((checkExprs_finds update env _).seq (body.finds env tail)))
  | .forIn _ _ none name _ object _ body, env, _, tail => by
    rw [Stmt.check]
    exact (Finds.seen env name).seq ((object.finds env _).seq (body.finds env tail))
  | .forIn _ _ (some _) _ _ object _ body, env, _, tail => by
    rw [Stmt.check]
    exact (object.finds env _).seq (body.finds env tail)
  | .jump _ _ _, _, _, _ => by
    rw [Stmt.check]
    exact .nothing
  | .return _ none _, _, _, _ => by
    rw [Stmt.check]
    exact .nothing
  | .return _ (some value) _, env, _, tail => by
    rw [Stmt.check]
    exact value.finds env tail
  | .throw _ value _, env, _, tail => by
    rw [Stmt.check]
    exact value.finds env tail
  | .vars list _, env, _, tail => by
    rw [Stmt.check]
    exact list.finds env tail
  | .function _, _, .nested, _ => by
    rw [Stmt.check]
    rfl
  | .function f, env, .body, tail => by
    rw [Stmt.check]
    exact f.finds env true tail
  | .function f, env, .program, tail => by
    rw [Stmt.check]
    exact f.finds env true tail
  | .labeled _ _ body, env, _, tail => by
    rw [Stmt.check]
    exact body.finds env .nested tail
  | .switch _ _ subject _ _ clauses _, env, _, tail => by
    rw [Stmt.check]
    exact (subject.finds env _).seq (checkClauses_finds clauses env tail)
  | .block b, env, _, tail => by
    rw [Stmt.check]
    exact b.finds env tail
  | .include _, _, .program, _ => by
    rw [Stmt.check]
    exact .nothing
  | .include _, _, .body, _ => by
    rw [Stmt.check]
    exact .fail
  | .include _, _, .nested, _ => by
    rw [Stmt.check]
    exact .fail
  | .declare _, _, .program, _ => by
    rw [Stmt.check]
    exact .nothing
  | .declare _, _, .body, _ => by
    rw [Stmt.check]
    exact .fail
  | .declare _, _, .nested, _ => by
    rw [Stmt.check]
    exact .fail

theorem Block.finds : ∀ (b : Block) (env : Env) (tail : List Fault), Finds (b.check env) (b.faults env tail) tail
  | ⟨_, body, _⟩, env, tail => by
    rw [Block.check]
    exact checkStmts_finds body env .nested tail

theorem Guarded.finds : ∀ (g : Guarded) (env : Env) (tail : List Fault),
    Finds (g.check env) (g.faults env tail) tail
  | ⟨_, _, test, _, body⟩, env, tail => (test.finds env _).seq (body.finds env tail)

theorem Ladder.finds : ∀ (l : Ladder) (env : Env) (tail : List Fault),
    Finds (l.check env) (l.faults env tail) tail
  | .done, _, _ => .nothing
  | .otherwise _ body, env, tail => body.finds env tail
  | .branch _ next others, env, tail => (next.finds env _).seq (others.finds env tail)

theorem ForInit.finds : ∀ (i : ForInit) (env : Env) (tail : List Fault),
    Finds (i.check env) (i.faults env tail) tail
  | .exprs items, env, tail => by
    rw [ForInit.check]
    exact checkExprs_finds items env tail
  | .vars list, env, tail => by
    rw [ForInit.check]
    exact list.finds env tail

theorem VarList.finds : ∀ (l : VarList) (env : Env) (tail : List Fault),
    Finds (l.check env) (l.faults env tail) tail
  | ⟨_, items⟩, env, tail => by
    rw [VarList.check]
    exact checkDecls_finds items env tail

theorem checkDecls_finds : ∀ (ds : Separated Decl) (env : Env) (tail : List Fault),
    Finds (checkDecls env ds) (declsFaults env ds tail) tail
  | .nil, _, _ => by
    rw [checkDecls]
    exact .nothing
  | .one d, env, tail => by
    rw [checkDecls]
    exact d.finds env tail
  | .more d _ ds, env, tail => by
    rw [checkDecls]
    exact (d.finds env _).seq (checkDecls_finds ds env tail)

theorem Decl.finds : ∀ (d : Decl) (env : Env) (tail : List Fault), Finds (d.check env) (d.faults env tail) tail
  | ⟨_, none⟩, _, _ => by
    rw [Decl.check]
    exact .nothing
  | ⟨_, some (_, value)⟩, env, tail => by
    rw [Decl.check]
    exact value.finds env tail

theorem checkClauses_finds : ∀ (cs : List Clause) (env : Env) (tail : List Fault),
    Finds (checkClauses env cs) (clausesFaults env cs tail) tail
  | [], _, _ => by
    rw [checkClauses]
    exact .nothing
  | ⟨_, none, _, body⟩ :: cs, env, tail => by
    rw [checkClauses]
    exact (checkStmts_finds body env .nested _).seq (checkClauses_finds cs env tail)
  | ⟨_, some test, _, body⟩ :: cs, env, tail => by
    rw [checkClauses]
    exact (test.finds env _).seq ((checkStmts_finds body env .nested _).seq (checkClauses_finds cs env tail))

end

end Respell
