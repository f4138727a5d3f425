import Respell.Proofs.Output.Translation
import Respell.Proofs.Scope.Binding

/-!
# Generated names and captured names

A function that is passed an error is written with a parameter `__err` that is not in the source, and
with a guard at the beginning of its body that may call a handler. Both are put in after the names have been
checked. So two things can go wrong: the name `__err` can meet the same name in the source,
and the handler, which is looked up around the function, can mean something else inside of it.

What a written function binds is said about the tree without constructs of the dialect
(`Func.desugar`), whose tokens are the lexemes of the written function.
-/

namespace Respell

/-! ## The names of a written body -/

theorem declsDesugar_names (ds : Separated Decl) :
    (declsDesugar ds).items.map (·.name) = ds.items.map (·.name) := by
  have hname (d : Decl) : d.desugar.name = d.name := by
    obtain ⟨name, _ | ⟨equals, value⟩⟩ := d <;> rfl
  induction ds with
  | nil => rfl
  | one d => simp [declsDesugar, Separated.items, hname]
  | more d comma ds ih => simp [declsDesugar, Separated.items, hname, ih]

theorem VarList.names_desugar (l : VarList) :
    l.desugar.items.items.map (·.name) = l.items.items.map (·.name) := by
  obtain ⟨keyword, items⟩ := l
  exact declsDesugar_names items

mutual

theorem Stmt.vars_desugar : ∀ s : Stmt,
    s.desugar.within.flatMap Stmt.ownVars = s.within.flatMap Stmt.ownVars
  | .vars list _ => congrArg (· ++ []) (VarList.names_desugar list)
  | .conditional ⟨_, _, _, _, ⟨_, body, _⟩⟩ others => by
    show (stmtsWithin (stmtsDesugar body) ++ others.desugar.within).flatMap Stmt.ownVars =
      (stmtsWithin body ++ others.within).flatMap Stmt.ownVars
    rw [List.flatMap_append, List.flatMap_append, stmtsVars_desugar body, Ladder.vars_desugar others]
  | .while ⟨_, _, _, _, ⟨_, body, _⟩⟩ => stmtsVars_desugar body
  | .for _ _ (.vars list) _ _ _ _ _ ⟨_, body, _⟩ => by
    show list.desugar.items.items.map (·.name) ++ (stmtsWithin (stmtsDesugar body)).flatMap Stmt.ownVars =
      list.items.items.map (·.name) ++ (stmtsWithin body).flatMap Stmt.ownVars
    rw [VarList.names_desugar list, stmtsVars_desugar body]
  | .for _ _ (.exprs _) _ _ _ _ _ ⟨_, body, _⟩ => stmtsVars_desugar body
  | .forIn _ _ (some _) name _ _ _ ⟨_, body, _⟩ => congrArg (name :: ·) (stmtsVars_desugar body)
  | .forIn _ _ none _ _ _ _ ⟨_, body, _⟩ => stmtsVars_desugar body
  | .labeled _ _ body => Stmt.vars_desugar body
  | .switch _ _ _ _ _ clauses _ => clausesVars_desugar clauses
  | .block ⟨_, body, _⟩ => stmtsVars_desugar body
  | .return _ none _ | .return _ (some _) _ => rfl
  | .function _ | .expr _ _ | .empty _ | .jump _ _ _ | .throw _ _ _ | .include _ | .declare _ => rfl

theorem stmtsVars_desugar : ∀ ss : List Stmt,
    (stmtsWithin (stmtsDesugar ss)).flatMap Stmt.ownVars = (stmtsWithin ss).flatMap Stmt.ownVars
  | [] => rfl
  | s :: ss => by
    have hs := Stmt.vars_desugar s
    have hss := stmtsVars_desugar ss
    rw [stmtsWithin, List.flatMap_append, ← hss, ← hs]
    by_cases hpragma : s.isPragma = true
    -- A pragma goes, and it declares nothing.
    · rw [stmtsDesugar_pragma hpragma]
      obtain ⟨p, rfl | rfl⟩ := Stmt.eq_of_isPragma hpragma <;> rfl
    · rw [stmtsDesugar_cons (by simpa using hpragma), stmtsWithin, List.flatMap_append]

theorem Ladder.vars_desugar : ∀ l : Ladder,
    l.desugar.within.flatMap Stmt.ownVars = l.within.flatMap Stmt.ownVars
  | .done => rfl
  | .otherwise _ ⟨_, body, _⟩ => stmtsVars_desugar body
  | .branch _ ⟨_, _, _, _, ⟨_, body, _⟩⟩ others => by
    show (stmtsWithin (stmtsDesugar body) ++ others.desugar.within).flatMap Stmt.ownVars =
      (stmtsWithin body ++ others.within).flatMap Stmt.ownVars
    rw [List.flatMap_append, List.flatMap_append, stmtsVars_desugar body, Ladder.vars_desugar others]

theorem clausesVars_desugar : ∀ cs : List Clause,
    (clausesWithin (clausesDesugar cs)).flatMap Stmt.ownVars = (clausesWithin cs).flatMap Stmt.ownVars
  | [] => rfl
  | ⟨_, none, _, body⟩ :: cs | ⟨_, some _, _, body⟩ :: cs => by
    rw [clausesDesugar, clausesWithin, clausesWithin, List.flatMap_append, List.flatMap_append,
      stmtsVars_desugar body, clausesVars_desugar cs]

end

theorem Func.name_desugar (f : Func) : f.desugar.name = f.name := by
  obtain ⟨keyword, name, params, receiver, ⟨opening, body, closing⟩⟩ := f
  rfl

theorem functionNames_desugar (ss : List Stmt) :
    (stmtsDesugar ss).filterMap Stmt.functionName? = ss.filterMap Stmt.functionName? := by
  have hname (s : Stmt) : s.desugar.functionName? = s.functionName? := by
    cases s with
    | function f => exact f.name_desugar
    | «return» keyword value semicolon => cases value <;> rfl
    | _ => rfl
  induction ss with
  | nil => rfl
  | cons s ss ih =>
      rw [List.filterMap_cons, ← ih, ← hname s]
      by_cases hpragma : s.isPragma = true
      · rw [stmtsDesugar_pragma hpragma]
        obtain ⟨p, rfl | rfl⟩ := Stmt.eq_of_isPragma hpragma <;> rfl
      · rw [stmtsDesugar_cons (by simpa using hpragma), List.filterMap_cons]

theorem bodyNames_desugar (body : List Stmt) : bodyNames (stmtsDesugar body) = bodyNames body := by
  rw [bodyNames, stmtsVars_desugar, functionNames_desugar, bodyNames]

theorem stmtsWithin_append (ss us : List Stmt) :
    stmtsWithin (ss ++ us) = stmtsWithin ss ++ stmtsWithin us := by
  simp only [stmtsWithin_eq, List.flatMap_append]

/-- Statements that declare nothing. -/
theorem stmtsVars_eq_nil {ss : List Stmt} (h : ∀ s ∈ ss, s.within.flatMap Stmt.ownVars = []) :
    (stmtsWithin ss).flatMap Stmt.ownVars = [] := by
  rw [stmtsWithin_eq, List.flatMap_assoc]
  exact List.flatMap_eq_nil_iff.mpr h

/-- Of the statements at the beginning of a body only that for the receiver declares a name. -/
theorem prologueStmts_vars (params : List Param) (receiver : Option Receiver) :
    (stmtsWithin (prologueStmts params receiver)).flatMap Stmt.ownVars =
      (receiver.map (·.name)).toList := by
  have hguards : (stmtsWithin (params.filterMap Param.guard?)).flatMap Stmt.ownVars = [] := by
    refine stmtsVars_eq_nil ?_
    intro s hs
    obtain ⟨handler, rfl⟩ := mem_guardStmts hs
    cases handler <;> rfl
  have hslices : (stmtsWithin (sliceStmts 0 params)).flatMap Stmt.ownVars = [] := by
    refine stmtsVars_eq_nil ?_
    intro s hs
    obtain ⟨name, n, rfl⟩ := mem_sliceStmts hs
    rfl
  rw [prologueStmts, stmtsWithin_append, stmtsWithin_append, List.flatMap_append, List.flatMap_append,
    hguards, hslices, List.append_nil, List.nil_append]
  cases receiver <;> rfl

theorem prologueStmts_functionNames (params : List Param) (receiver : Option Receiver) :
    (prologueStmts params receiver).filterMap Stmt.functionName? = [] := by
  refine List.filterMap_eq_nil_iff.mpr ?_
  intro s hs
  rcases mem_prologueStmts hs with ⟨handler, rfl⟩ | ⟨a, rfl⟩ | ⟨name, n, rfl⟩ <;> rfl

/-- The body of a written function declares the name of the receiver and the names of the body. -/
theorem Func.bodyNames_desugar (f : Func) : bodyNames f.desugar.body.body =
    (f.receiver.map (·.name)).toList ++ bodyNames f.body.body := by
  obtain ⟨keyword, name, params, receiver, ⟨opening, body, closing⟩⟩ := f
  show bodyNames (prologueStmts params.items.items receiver ++ stmtsDesugar body) = _
  rw [bodyNames, stmtsWithin_append, List.flatMap_append, List.filterMap_append, prologueStmts_vars,
    prologueStmts_functionNames, List.nil_append, List.append_assoc]
  exact congrArg _ (Respell.bodyNames_desugar body)

/-! ## The names of a written function -/

/-- The function is passed an error. -/
def Func.PassesError (f : Func) : Prop := ∃ mark handler, .pass mark handler ∈ f.params.items.items

theorem Func.params_desugar (f : Func) :
    f.desugar.params.items.items = f.params.items.items.map Param.desugar := by
  obtain ⟨keyword, name, params, receiver, ⟨opening, body, closing⟩⟩ := f
  have hitems (items : Separated Param) :
      (items.map Param.desugar).items = items.items.map Param.desugar := by
    induction items with
    | nil => rfl
    | one p => rfl
    | more p comma items ih => exact congrArg (p.desugar :: ·) ih
  exact hitems params.items

/-- Written parameters bind the names of the parameters, and `__err` for a passed error. -/
theorem mem_bound_params_desugar {n : String} {ps : List Param} :
    n ∈ ((ps.map Param.desugar).filterMap Param.bound?).map (·.text) ↔
      n ∈ (ps.filterMap Param.bound?).map (·.text) ∨
        ((∃ mark handler, .pass mark handler ∈ ps) ∧ n = errorName) := by
  induction ps with
  | nil => simp
  | cons p ps ih =>
      cases p with
      | plain name => simp_all [Param.desugar, Param.bound?, or_assoc]
      | pass mark handler =>
          have herror : n ∈ ((List.map Param.desugar (.pass mark handler :: ps)).filterMap
              Param.bound?).map (·.text) ↔
              n = errorName ∨ n ∈ ((ps.map Param.desugar).filterMap Param.bound?).map (·.text) :=
            List.mem_cons
          rw [herror, ih]
          constructor
          · rintro (rfl | hn | ⟨_, rfl⟩)
            · exact .inr ⟨⟨mark, handler, List.mem_cons_self⟩, rfl⟩
            · exact .inl hn
            · exact .inr ⟨⟨mark, handler, List.mem_cons_self⟩, rfl⟩
          · rintro (hn | ⟨_, rfl⟩)
            · exact .inr (.inl hn)
            · exact .inl rfl
      | rest name dots => simp_all [Param.desugar, Param.bound?, or_assoc]

/-- Where no error is passed, written parameters bind the same names in the same order. -/
theorem bound_desugar_eq {ps : List Param} (h : ∀ mark handler, .pass mark handler ∉ ps) :
    (ps.map Param.desugar).filterMap Param.bound? = ps.filterMap Param.bound? := by
  rw [List.filterMap_map]
  exact filterMap_params_congr h (fun _ => rfl) fun _ _ => rfl

/-- A written function binds what the function binds, and `__err` if it is passed an error. -/
theorem mem_bound_desugar {n : String} {scope : Scope} {f : Func} {isDeclaration : Bool} :
    n ∈ (Scope.function scope f.desugar isDeclaration).bound ↔
      n ∈ (Scope.function scope f isDeclaration).bound ∨ (f.PassesError ∧ n = errorName) := by
  have hreceiver : f.desugar.receiver = none := by
    obtain ⟨keyword, name, params, receiver, ⟨opening, body, closing⟩⟩ := f
    rfl
  rw [Scope.bound, Scope.bound, f.bodyNames_desugar, hreceiver, f.params_desugar]
  simp only [List.map_append, List.mem_append, mem_bound_params_desugar]
  simp only [Option.map_none, Option.toList_none, List.map_nil, List.not_mem_nil, or_false, or_assoc]
  exact or_congr_right or_rotate

/-! ## Handlers -/

/-- Where an error is passed, it is passed first, and no other error is. -/
theorem exists_cons_of_pass {ps : List Param} (h : ∀ mark handler, .pass mark handler ∉ ps.tail)
    {mark : Token} {handler : Option Token} (hmem : .pass mark handler ∈ ps) :
    ∃ others, ps = .pass mark handler :: others ∧ ∀ mark handler, .pass mark handler ∉ others := by
  cases ps with
  | nil => cases hmem
  | cons p ps =>
      rcases List.mem_cons.mp hmem with rfl | hmem
      · exact ⟨ps, rfl, h⟩
      · exact (h mark handler hmem).elim

/-- The handlers that a function names. -/
def Func.handlers (f : Func) : List Token := f.params.items.items.filterMap Param.handler?

theorem exists_pass_of_handlers {f : Func} {n : String} (h : n ∈ f.handlers.map (·.text)) :
    ∃ mark handler, .pass mark (some handler) ∈ f.params.items.items ∧ handler.text = n := by
  obtain ⟨handler, hmem, htext⟩ := List.mem_map.mp h
  obtain ⟨mark, hmem⟩ := mem_handlers_iff.mp hmem
  exact ⟨mark, handler, hmem, htext⟩

/-- A function whose names are distinct does not bind its handler: the handler is one of the names. -/
theorem handler_notMem_bound {scope : Scope} {f : Func} {isDeclaration : Bool}
    (hsound : (Site.function scope f isDeclaration).Sound) {mark handler : Token}
    (hmem : .pass mark (some handler) ∈ f.params.items.items) :
    handler.text ∉ (Scope.function scope f isDeclaration).bound := by
  obtain ⟨⟨hfirst, _⟩, _, hnodup⟩ := hsound
  obtain ⟨others, hparams, hothers⟩ := exists_cons_of_pass hfirst hmem
  have hdeclared : (Scope.function scope f isDeclaration).declared =
      handler.text :: (Scope.function scope f isDeclaration).bound := by
    rw [Scope.declared, Scope.bound, hparams]
    show _ :: (paramNames others ++ _ ++ _).map (·.text) = _
    rw [paramNames_eq_bound hothers]
    rfl
  rw [hdeclared] at hnodup
  exact (List.nodup_cons.mp hnodup).1

/-- The names that a function binds when it is called: those of its scope, and its own. -/
def Func.binds (f : Func) (scope : Scope) (isDeclaration : Bool) : List String :=
  (Scope.function scope f isDeclaration).bound ++ (f.ownName? isDeclaration).toList

theorem Func.ownName?_desugar (f : Func) (isDeclaration : Bool) :
    f.desugar.ownName? isDeclaration = f.ownName? isDeclaration := by
  rw [Func.ownName?, f.name_desugar, Func.ownName?]

/-- A name keeps the binding it has around a function if and only if the function binds it nowhere. -/
theorem home_function_eq_iff_notMem_binds {n : String} {scope : Scope} {f : Func} {isDeclaration : Bool} :
    (Scope.function scope f isDeclaration).home n = scope.home n ↔ n ∉ f.binds scope isDeclaration := by
  rw [Scope.home_function_eq_iff, Func.binds, List.mem_append, not_or, Option.mem_toList]

/-- A written function binds the handler it calls if and only if that is `__err` or the function's own name. -/
theorem handler_mem_binds_iff {scope : Scope} {f : Func} {isDeclaration : Bool}
    (hsound : (Site.function scope f isDeclaration).Sound) {mark handler : Token}
    (hmem : .pass mark (some handler) ∈ f.params.items.items) :
    handler.text ∈ f.desugar.binds scope isDeclaration ↔
      handler.text = errorName ∨ f.ownName? isDeclaration = some handler.text := by
  have hpasses : f.PassesError := ⟨mark, some handler, hmem⟩
  rw [Func.binds, List.mem_append, mem_bound_desugar, f.ownName?_desugar, Option.mem_toList,
    or_iff_right (handler_notMem_bound hsound hmem), and_iff_right hpasses]

/-- The guard of a handler is in the written function, and what it calls is looked up there. -/
theorem handler_site_desugar {f : Func} {mark handler : Token}
    (hmem : .pass mark (some handler) ∈ f.params.items.items) (scope : Scope) (isDeclaration : Bool) :
    guardStmt (some handler) ∈ f.desugar.body.body ∧
      .reference (.function scope f.desugar isDeclaration) handler ∈
        f.desugar.sites scope isDeclaration := by
  have hguard : guardStmt (some handler) ∈ f.desugar.body.body := by
    obtain ⟨keyword, name, params, receiver, ⟨opening, body, closing⟩⟩ := f
    refine List.mem_append_left _ (List.mem_append_left _ (List.mem_append_left _ ?_))
    exact List.mem_filterMap.mpr ⟨_, hmem, rfl⟩
  refine ⟨hguard, ?_⟩
  rw [Func.sites_eq, stmtsSites_eq]
  refine List.mem_cons_of_mem _ (List.mem_flatMap.mpr ⟨_, hguard, ?_⟩)
  simp [guardStmt, Stmt.sites, Guarded.sites, Block.sites, generatedBlock, stmtsSites, Expr.sites,
    Head.sites]

/-! ## The functions of a program -/

/-- A function of a formed and sound program is formed and sound itself. -/
theorem function_of_site {x : Program} (hformed : x.Formed) (hsound : ∀ s ∈ x.sites, s.Sound)
    {scope : Scope} {f : Func} {isDeclaration : Bool} (hsite : .function scope f isDeclaration ∈ x.sites) :
    f.Formed ∧ ∀ s ∈ f.sites scope isDeclaration, s.Sound := by
  obtain ⟨_, hsub, hf⟩ := Program.site_placed hformed _ hsite
  exact ⟨hf, fun s hs => hsound s (hsub hs)⟩

/-- The lexemes of a written function are the tokens of the function without constructs of the dialect. -/
theorem lexemes_function {f : Func} {scope : Scope} {isDeclaration : Bool} (hformed : f.Formed)
    (hsound : ∀ s ∈ f.sites scope isDeclaration, s.Sound) :
    (f.pieces []).filterMap Piece.lexeme? = f.desugar.tokens.map Token.text := by
  rw [(Func.laid f scope isDeclaration [] hformed hsound).lexemes]
  exact List.append_nil _

/-- A function of a program that has a value, if it is among the values of all functions. -/
theorem exists_function_of_mem {α : Type} {x : Program} {value : Scope × Func × Bool → α} {a : α}
    (h : a ∈ x.functions.map value) :
    ∃ scope f isDeclaration, .function scope f isDeclaration ∈ x.sites ∧
      value (scope, f, isDeclaration) = a := by
  obtain ⟨⟨scope, f, isDeclaration⟩, hmem, hvalue⟩ := List.mem_map.mp h
  exact ⟨scope, f, isDeclaration, Program.mem_functions.mp hmem, hvalue⟩

/-- For every source that is accepted and every function of it that hands errors to a handler: the guard
    is written into the function and looks the handler up there; the scope around the function sees the
    handler; and it means the same inside and outside, unless it is called `__err` or, for a function
    expression, like the function itself. These are the only names that the written function can take
    from it. -/
theorem handler_captured_iff {file source out : String} (h : compile file source = .ok out) :
    ∃ x helpers, analyze source = .ok (x, helpers) ∧ out = x.output ++ helperText helpers ∧
      ∀ scope f isDeclaration, .function scope f isDeclaration ∈ x.sites →
        ∀ mark handler, .pass mark (some handler) ∈ f.params.items.items →
          (f.pieces []).filterMap Piece.lexeme? = f.desugar.tokens.map Token.text ∧
          guardStmt (some handler) ∈ f.desugar.body.body ∧
          .reference (.function scope f.desugar isDeclaration) handler ∈
            f.desugar.sites scope isDeclaration ∧
          scope.Sees handler.text ∧
          ((Scope.function scope f.desugar isDeclaration).home handler.text = scope.home handler.text ↔
            handler.text ∉ f.desugar.binds scope isDeclaration) ∧
          (handler.text ∈ f.desugar.binds scope isDeclaration ↔
            handler.text = errorName ∨ f.ownName? isDeclaration = some handler.text) := by
  obtain ⟨x, helpers, hrun, hout⟩ := compile_ok h
  obtain ⟨hparse, hvalidate⟩ := analyze_ok hrun
  have hscoped := x.faults_eq_nil_iff.mp (x.validate_ok_iff.mp hvalidate).1
  refine ⟨x, helpers, hrun, hout, ?_⟩
  intro scope f isDeclaration hsite mark handler hmem
  obtain ⟨hformed, hsound⟩ :=
    function_of_site (parseProgramWithin_formed hparse) hscoped.sites_sound hsite
  have hself := hscoped.sites_sound _ hsite
  obtain ⟨hguard, hreference⟩ := handler_site_desugar hmem scope isDeclaration
  exact ⟨lexemes_function hformed hsound, hguard, hreference, hself.2.1 mark handler hmem,
    home_function_eq_iff_notMem_binds, handler_mem_binds_iff hself hmem⟩

/-- A function expression with a name, a handler, a receiver and names of its own, none of which is the
    handler's. -/
def handingSource : String :=
  "var log; var f = function g(@log, a, xs...): me \x7b var b; function c(b) \x7b \x7d \x7d;"

theorem handler_captured_iff_handingSource :
    ∃ out x helpers, compile "handing" handingSource = .ok out ∧
      analyze handingSource = .ok (x, helpers) ∧ out = x.output ++ helperText helpers ∧
      ∃ scope f isDeclaration mark handler, .function scope f isDeclaration ∈ x.sites ∧
        .pass mark (some handler) ∈ f.params.items.items ∧ handler.text = "log" ∧
        f.desugar.binds scope isDeclaration = ["__err", "a", "xs", "me", "b", "c", "g"] ∧
        (Scope.function scope f.desugar isDeclaration).home handler.text = scope.home handler.text := by
  have hrun : (analyze handingSource).toOption.map (fun r => r.1.functions.map fun (scope, f, isDeclaration) =>
      (f.desugar.binds scope isDeclaration, f.handlers.map (·.text))) = some
        [(["__err", "a", "xs", "me", "b", "c", "g"], ["log"]), (["b"], [])] := by
    decide +kernel
  obtain ⟨⟨y, names⟩, hanalyze, hfunctions⟩ := ok_of_toOption hrun
  have hcompile := compile_of_analyze "handing" hanalyze
  obtain ⟨x, helpers, hanalyze', hout, hhandlers⟩ := handler_captured_iff hcompile
  rw [hanalyze] at hanalyze'
  cases hanalyze'
  obtain ⟨scope, f, isDeclaration, hsite, hvalue⟩ :=
    exists_function_of_mem (hfunctions ▸ List.mem_cons_self)
  obtain ⟨hbinds, htexts⟩ := Prod.mk.inj hvalue
  obtain ⟨mark, handler, hmem, htext⟩ := exists_pass_of_handlers (htexts ▸ List.mem_cons_self)
  obtain ⟨_, _, _, _, hhome, _⟩ := hhandlers scope f isDeclaration hsite mark handler hmem
  refine ⟨_, y, names, hcompile, hanalyze, hout, scope, f, isDeclaration, mark, handler, hsite, hmem, htext,
    hbinds, hhome.mpr ?_⟩
  rw [htext, hbinds]
  decide

/-- A function expression that has the name of its handler. -/
def namesakeSource : String := "var h; var g = function h(@h) \x7b \x7d;"

/-- The guard calls the function itself, and not the handler that was checked. -/
theorem captured_namesakeSource :
    ∃ x, analyze namesakeSource = .ok (x, []) ∧
      x.output = "var h; var g = function h(__err) \x7b if (__err) \x7b h(__err); return; \x7d \x7d;" ∧
      ∃ scope f isDeclaration mark handler, .function scope f isDeclaration ∈ x.sites ∧
        .pass mark (some handler) ∈ f.params.items.items ∧ handler.text = "h" ∧
        f.desugar.binds scope isDeclaration = ["__err", "h"] ∧
        (Scope.function scope f.desugar isDeclaration).home handler.text ≠ scope.home handler.text := by
  have hrun : (analyze namesakeSource).toOption.map (fun r => ((r.1.output, r.2),
      r.1.functions.map fun (scope, f, isDeclaration) =>
        (f.desugar.binds scope isDeclaration, f.handlers.map (·.text)))) = some
      (("var h; var g = function h(__err) \x7b if (__err) \x7b h(__err); return; \x7d \x7d;", []),
        [(["__err", "h"], ["h"])]) := by
    decide +kernel
  obtain ⟨⟨x, helpers⟩, hx, hvalues⟩ := ok_of_toOption hrun
  obtain ⟨hout, hfunctions⟩ := Prod.mk.inj hvalues
  obtain ⟨hout, rfl⟩ := Prod.mk.inj hout
  obtain ⟨scope, f, isDeclaration, hsite, hvalue⟩ :=
    exists_function_of_mem (hfunctions ▸ List.mem_singleton_self _)
  obtain ⟨hbinds, htexts⟩ := Prod.mk.inj hvalue
  obtain ⟨mark, handler, hmem, htext⟩ := exists_pass_of_handlers (htexts ▸ List.mem_singleton_self _)
  refine ⟨x, hx, hout, scope, f, isDeclaration, mark, handler, hsite, hmem, htext, hbinds, ?_⟩
  intro hhome
  refine home_function_eq_iff_notMem_binds.mp hhome ?_
  rw [htext, hbinds]
  decide

/-! ## The parameter for a passed error -/

/-- The parameter `__err` of a written function is fresh: the parameters are distinct, nothing in the body
    declares the name, and what uses it in the function has nothing to do with the scopes around. -/
structure Func.FreshError (f : Func) (scope : Scope) (isDeclaration : Bool) : Prop where
  params_distinct : ((f.desugar.params.items.items.filterMap Param.bound?).map (·.text)).Nodup
  body_free : errorName ∉ (bodyNames f.desugar.body.body).map (·.text)
  uses_inside : ∀ u ∈ f.uses scope isDeclaration, u.name.text = errorName →
    u.BoundWithin (.function scope f isDeclaration)

/-- The written parameters are distinct if and only if none of the others is called `__err`. -/
theorem params_distinct_iff {scope : Scope} {f : Func} {isDeclaration : Bool}
    (hsound : (Site.function scope f isDeclaration).Sound) (hpasses : f.PassesError) :
    ((f.desugar.params.items.items.filterMap Param.bound?).map (·.text)).Nodup ↔
      errorName ∉ (f.params.items.items.filterMap Param.bound?).map (·.text) := by
  obtain ⟨⟨hfirst, _⟩, _, hnodup⟩ := hsound
  obtain ⟨mark, handler, hmem⟩ := hpasses
  obtain ⟨others, hparams, hothers⟩ := exists_cons_of_pass hfirst hmem
  have hsource : f.params.items.items.filterMap Param.bound? = paramNames others := by
    rw [hparams, paramNames_eq_bound hothers]
    rfl
  have hwritten : f.desugar.params.items.items.filterMap Param.bound? = errorToken :: paramNames others := by
    rw [f.params_desugar, hparams, paramNames_eq_bound hothers, ← bound_desugar_eq hothers]
    rfl
  have hdistinct : ((paramNames others).map (·.text)).Nodup := by
    rw [Scope.declared, List.map_append, List.map_append, hparams, paramNames_cons, List.map_append] at hnodup
    exact (List.nodup_append.mp (List.nodup_append.mp (List.nodup_append.mp hnodup).1).1).2.1
  rw [hwritten, hsource, List.map_cons, List.nodup_cons, and_iff_left hdistinct]
  rfl

/-- `__err` is fresh in a function if and only if the function does not bind the name itself and, where
    there is such a name around it, nothing in the function means that one. -/
theorem freshError_function_iff {scope : Scope} {f : Func} {isDeclaration : Bool} (hformed : f.Formed)
    (hsound : ∀ s ∈ f.sites scope isDeclaration, s.Sound) (hpasses : f.PassesError) :
    f.FreshError scope isDeclaration ↔
      errorName ∉ (Scope.function scope f isDeclaration).bound ∧
        (scope.Sees errorName ∨ f.ownName? isDeclaration = some errorName →
          ∀ u ∈ f.uses scope isDeclaration, u.name.text = errorName →
            u.BoundWithin (.function scope f isDeclaration)) := by
  have hparams := params_distinct_iff (hsound _ (f.mem_sites scope isDeclaration)) hpasses
  have hbound : errorName ∉ (Scope.function scope f isDeclaration).bound ↔
      errorName ∉ (f.params.items.items.filterMap Param.bound?).map (·.text) ∧
        errorName ∉ (bodyNames f.desugar.body.body).map (·.text) := by
    rw [Scope.bound, List.append_assoc, ← f.bodyNames_desugar, List.map_append, List.mem_append, not_or]
  constructor
  · rintro ⟨hdistinct, hbody, huses⟩
    exact ⟨hbound.mpr ⟨hparams.mp hdistinct, hbody⟩, fun _ => huses⟩
  · rintro ⟨hfree, huses⟩
    obtain ⟨hdistinct, hbody⟩ := hbound.mp hfree
    refine ⟨hparams.mpr hdistinct, hbody, ?_⟩
    intro u hu hname
    by_cases haround : scope.Sees errorName ∨ f.ownName? isDeclaration = some errorName
    · exact huses haround u hu hname
    · obtain ⟨hunseen, hown⟩ := not_or.mp haround
      rw [← hname] at hunseen hown hfree
      exact Func.use_boundWithin hformed hsound hu hunseen hown hfree

/-- For every source that is accepted and every function of it that is passed an error: the written
    parameter `__err` is fresh if and only if the function does not bind a name `__err` of its own and,
    where the scope around sees such a name or the function expression has it, nothing in the function
    means that one. -/
theorem freshError_iff {file source out : String} (h : compile file source = .ok out) :
    ∃ x helpers, analyze source = .ok (x, helpers) ∧ out = x.output ++ helperText helpers ∧
      ∀ scope f isDeclaration, .function scope f isDeclaration ∈ x.sites → f.PassesError →
        (f.pieces []).filterMap Piece.lexeme? = f.desugar.tokens.map Token.text ∧
        errorName ∈ (f.desugar.params.items.items.filterMap Param.bound?).map (·.text) ∧
        (f.FreshError scope isDeclaration ↔
          errorName ∉ (Scope.function scope f isDeclaration).bound ∧
            (scope.Sees errorName ∨ f.ownName? isDeclaration = some errorName →
              ∀ u ∈ f.uses scope isDeclaration, u.name.text = errorName →
                u.BoundWithin (.function scope f isDeclaration))) := by
  obtain ⟨x, helpers, hrun, hout⟩ := compile_ok h
  obtain ⟨hparse, hvalidate⟩ := analyze_ok hrun
  have hscoped := x.faults_eq_nil_iff.mp (x.validate_ok_iff.mp hvalidate).1
  refine ⟨x, helpers, hrun, hout, ?_⟩
  intro scope f isDeclaration hsite hpasses
  obtain ⟨hformed, hsound⟩ :=
    function_of_site (parseProgramWithin_formed hparse) hscoped.sites_sound hsite
  refine ⟨lexemes_function hformed hsound, ?_, freshError_function_iff hformed hsound hpasses⟩
  rw [f.params_desugar, mem_bound_params_desugar]
  exact .inr ⟨hpasses, rfl⟩

/-- A function with a variable `__err` around it, and with an arrow inside of it that has a parameter of
    this name. -/
def shadowingSource : String :=
  "var __err, log; function f(@log, a) \x7b return (__err) -> __err + a; \x7d"

theorem freshError_iff_shadowingSource :
    ∃ out x helpers, compile "shadowing" shadowingSource = .ok out ∧
      analyze shadowingSource = .ok (x, helpers) ∧ out = x.output ++ helperText helpers ∧
      ∃ scope f isDeclaration, .function scope f isDeclaration ∈ x.sites ∧ f.PassesError ∧
        (f.uses scope isDeclaration).map (·.name.text) = ["log", "__err", "a"] ∧
        f.FreshError scope isDeclaration := by
  have hrun : (analyze shadowingSource).toOption.map (fun r => r.1.functions.map
      fun (scope, f, isDeclaration) =>
        (f.handlers.map (·.text), (f.uses scope isDeclaration).map (·.name.text),
          decide (errorName ∉ (Scope.function scope f isDeclaration).bound),
          decide (∀ u ∈ f.uses scope isDeclaration, u.name.text = errorName →
            u.BoundWithin (.function scope f isDeclaration)))) = some
      [(["log"], ["log", "__err", "a"], true, true)] := by
    decide +kernel
  obtain ⟨⟨y, names⟩, hanalyze, hfunctions⟩ := ok_of_toOption hrun
  have hcompile := compile_of_analyze "shadowing" hanalyze
  obtain ⟨x, helpers, hanalyze', hout, hfresh⟩ := freshError_iff hcompile
  rw [hanalyze] at hanalyze'
  cases hanalyze'
  obtain ⟨scope, f, isDeclaration, hsite, hvalue⟩ :=
    exists_function_of_mem (hfunctions ▸ List.mem_singleton_self _)
  obtain ⟨htexts, hnames, hfree, huses⟩ := by simpa only [Prod.mk.injEq] using hvalue
  obtain ⟨mark, handler, hmem, _⟩ := exists_pass_of_handlers (htexts ▸ List.mem_singleton_self _)
  have hpasses : f.PassesError := ⟨mark, some handler, hmem⟩
  obtain ⟨_, _, hiff⟩ := hfresh scope f isDeclaration hsite hpasses
  exact ⟨_, y, names, hcompile, hanalyze, hout, scope, f, isDeclaration, hsite, hpasses, hnames,
    hiff.mpr ⟨of_decide_eq_true hfree, fun _ => of_decide_eq_true huses⟩⟩

/-- A function with a passed error and another parameter `__err`. -/
def doubledSource : String := "function f(@, __err) \x7b \x7d"

/-- The written function has two parameters of one name. -/
theorem not_freshError_doubledSource :
    ∃ x, analyze doubledSource = .ok (x, []) ∧
      x.output = "function f(__err, __err) \x7b if (__err) \x7b throw __err; \x7d \x7d" ∧
      ∃ scope f isDeclaration, .function scope f isDeclaration ∈ x.sites ∧ f.PassesError ∧
        ¬ f.FreshError scope isDeclaration := by
  have hrun : (analyze doubledSource).toOption.map (fun r => ((r.1.output, r.2),
      r.1.functions.map fun (_, f, _) => (passed? f.params.items.items,
        (f.desugar.params.items.items.filterMap Param.bound?).map (·.text)))) = some
      (("function f(__err, __err) \x7b if (__err) \x7b throw __err; \x7d \x7d", []),
        [(some none, ["__err", "__err"])]) := by
    decide +kernel
  obtain ⟨⟨x, helpers⟩, hx, hvalues⟩ := ok_of_toOption hrun
  obtain ⟨hout, hfunctions⟩ := Prod.mk.inj hvalues
  obtain ⟨hout, rfl⟩ := Prod.mk.inj hout
  obtain ⟨scope, f, isDeclaration, hsite, hvalue⟩ :=
    exists_function_of_mem (hfunctions ▸ List.mem_singleton_self _)
  obtain ⟨hpassed, hparams⟩ := Prod.mk.inj hvalue
  obtain ⟨mark, hmem⟩ := mem_of_passed? hpassed
  refine ⟨x, hx, hout, scope, f, isDeclaration, hsite, ⟨mark, none, hmem⟩, ?_⟩
  rintro ⟨hdistinct, _, _⟩
  rw [hparams] at hdistinct
  exact absurd hdistinct (by decide)

end Respell
