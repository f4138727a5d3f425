import Respell.Proofs.Scope.Rule
import Respell.Proofs.Parse.Formed

/-!
# Bindings

Which scope binds a name that is used at some place. What a scope *declares* is more than what it binds:
the handler of a passed error is declared in the function's scope, so that nothing there hides it, but it
is a name of the scopes around the function.

Names are looked up from the inside out, so a binding is told by its depth. A function has two
depths: one where a function expression binds its own name, and inside of it the one where its parameters,
its receiver and its body bind theirs.
-/

namespace Respell

/-! ## What a scope binds -/

/-- The name that a parameter binds. A handler is no binding. -/
def Param.bound? : Param → Option Token
  | .plain name => some name
  | .pass _ _ => none
  | .rest name _ => some name

/-- The handler that a parameter names. -/
def Param.handler? : Param → Option Token
  | .pass _ handler => handler
  | _ => none

/-- The names that a scope binds. -/
def Scope.bound : Scope → List String
  | .program x => (bodyNames x.body).map (·.text)
  | .function _ f _ =>
    (f.params.items.items.filterMap Param.bound? ++ (f.receiver.map (·.name)).toList ++
      bodyNames f.body.body).map (·.text)
  | .arrow _ params => (params.items.items.filterMap Param.bound?).map (·.text)
  | .simpleArrow _ => [implicitParam]

/-- The own name that a function expression binds for itself. -/
def Func.ownName? (f : Func) (isDeclaration : Bool) : Option String :=
  if isDeclaration then none else f.name.map (·.text)

/-- How deep a scope lies. -/
def Scope.depth : Scope → Nat
  | .program _ => 0
  | .function outer _ _ => outer.depth + 2
  | .arrow outer _ => outer.depth + 1
  | .simpleArrow outer => outer.depth + 1

/-- The depth of the binding that a name has in a scope. What nothing else binds is left to the program. -/
def Scope.home (n : String) : Scope → Nat
  | .program _ => 0
  | .function outer f isDeclaration =>
    if n ∈ (Scope.function outer f isDeclaration).bound then outer.depth + 2
    else if f.ownName? isDeclaration = some n then outer.depth + 1
    else outer.home n
  | .arrow outer params => if n ∈ (Scope.arrow outer params).bound then outer.depth + 1 else outer.home n
  | .simpleArrow outer => if n ∈ (Scope.simpleArrow outer).bound then outer.depth + 1 else outer.home n

theorem Scope.home_le_depth (n : String) : ∀ scope : Scope, scope.home n ≤ scope.depth
  | .program _ => Nat.le_refl 0
  | .function outer f isDeclaration => by
    have hle := Scope.home_le_depth n outer
    rw [Scope.home, Scope.depth]
    split
    · omega
    · split <;> omega
  | .arrow outer params => by
    have hle := Scope.home_le_depth n outer
    rw [Scope.home, Scope.depth]
    split <;> omega
  | .simpleArrow outer => by
    have hle := Scope.home_le_depth n outer
    rw [Scope.home, Scope.depth]
    split <;> omega

/-- A function binds a name, or names itself with it, or leaves it to the scope around. -/
theorem Scope.home_function_eq_iff {n : String} {outer : Scope} {f : Func} {isDeclaration : Bool} :
    (Scope.function outer f isDeclaration).home n = outer.home n ↔
      n ∉ (Scope.function outer f isDeclaration).bound ∧ f.ownName? isDeclaration ≠ some n := by
  have hle := Scope.home_le_depth n outer
  rw [Scope.home]
  split
  · next hbound =>
      refine ⟨fun h => by omega, ?_⟩
      rintro ⟨hfree, _⟩
      exact (hfree hbound).elim
  · next hbound =>
      split
      · next hown => exact ⟨fun h => by omega, fun h => (h.2 hown).elim⟩
      · next hown => exact ⟨fun _ => ⟨hbound, hown⟩, fun _ => rfl⟩

/-! ## Declared and bound -/

/-- What a scope declares for its parameters is what they bind, and the handlers. -/
theorem mem_paramNames_iff {n : Token} {ps : List Param} :
    n ∈ paramNames ps ↔ n ∈ ps.filterMap Param.bound? ∨ n ∈ ps.filterMap Param.handler? := by
  induction ps with
  | nil => simp [paramNames]
  | cons p ps ih =>
      rw [paramNames] at ih ⊢
      cases p with
      | plain name => simp [Param.name?, Param.bound?, Param.handler?, ih, or_assoc]
      | pass mark handler =>
          cases handler with
          | none => exact ih
          | some handler => simp [Param.name?, Param.bound?, Param.handler?, ih, or_left_comm]
      | rest name dots => simp [Param.name?, Param.bound?, Param.handler?, ih, or_assoc]

theorem mem_handlers_iff {h : Token} {ps : List Param} :
    h ∈ ps.filterMap Param.handler? ↔ ∃ mark, .pass mark (some h) ∈ ps := by
  rw [List.mem_filterMap]
  constructor
  · rintro ⟨p, hp, hh⟩
    cases p with
    | pass mark handler =>
        cases hh
        exact ⟨mark, hp⟩
    | plain name => cases hh
    | rest name dots => cases hh
  · rintro ⟨mark, hp⟩
    exact ⟨_, hp, rfl⟩

/-- A name that a function declares but does not bind is that of a handler. -/
theorem handler_of_declared {n : String} {outer : Scope} {f : Func} {isDeclaration : Bool}
    (hdeclared : n ∈ (Scope.function outer f isDeclaration).declared)
    (hfree : n ∉ (Scope.function outer f isDeclaration).bound) :
    ∃ mark handler, .pass mark (some handler) ∈ f.params.items.items ∧ handler.text = n := by
  obtain ⟨t, ht, rfl⟩ := List.mem_map.mp hdeclared
  rw [List.append_assoc, List.mem_append, mem_paramNames_iff] at ht
  have hnot {us : List Token} (hus : us ⊆ f.params.items.items.filterMap Param.bound? ++
      (f.receiver.map (·.name)).toList ++ bodyNames f.body.body) : t ∉ us :=
    fun hmem => hfree (List.mem_map.mpr ⟨t, hus hmem, rfl⟩)
  rcases ht with (ht | ht) | ht
  · exact (hnot (fun u hu => by simp [hu]) ht).elim
  · obtain ⟨mark, hmem⟩ := mem_handlers_iff.mp ht
    exact ⟨mark, t, hmem, rfl⟩
  · exact (hnot (fun u hu => by rw [List.append_assoc]; exact List.mem_append_right _ hu) ht).elim

/-- Where no error is passed, two ways to name parameters agree if they do so on the other kinds. -/
theorem filterMap_params_congr {ps : List Param} (h : ∀ mark handler, .pass mark handler ∉ ps)
    {f g : Param → Option Token} (hplain : ∀ name, f (.plain name) = g (.plain name))
    (hrest : ∀ name dots, f (.rest name dots) = g (.rest name dots)) : ps.filterMap f = ps.filterMap g := by
  induction ps with
  | nil => rfl
  | cons p ps ih =>
      have hp : f p = g p := by
        cases p with
        | plain name => exact hplain name
        | pass mark handler => exact (h mark handler List.mem_cons_self).elim
        | rest name dots => exact hrest name dots
      rw [List.filterMap_cons, List.filterMap_cons, hp,
        ih fun mark handler hmem => h mark handler (List.mem_cons_of_mem _ hmem)]

/-- Where no error is passed, parameters bind all that they declare. -/
theorem paramNames_eq_bound {ps : List Param} (h : ∀ mark handler, .pass mark handler ∉ ps) :
    paramNames ps = ps.filterMap Param.bound? :=
  filterMap_params_congr h (fun _ => rfl) fun _ _ => rfl

/-! ## Uses of names -/

/-- A use of a name, with the scope in which it is looked up. -/
structure Use where
  scope : Scope
  name : Token

/-- The names that are used at a site. A handler is looked up around its function. -/
def Site.uses : Site → List Use
  | .reference scope name => [⟨scope, name⟩]
  | .function scope f _ => (f.params.items.items.filterMap Param.handler?).map (⟨scope, ·⟩)
  | _ => []

theorem Func.sites_eq (f : Func) (scope : Scope) (isDeclaration : Bool) :
    f.sites scope isDeclaration = .function scope f isDeclaration ::
      stmtsSites (.function scope f isDeclaration) .body f.body.body := by
  obtain ⟨keyword, name, params, receiver, ⟨opening, body, closing⟩⟩ := f
  rfl

theorem stmtsSites_eq (scope : Scope) (standing : Standing) (ss : List Stmt) :
    stmtsSites scope standing ss = ss.flatMap (·.sites scope standing) := by
  induction ss with
  | nil => rfl
  | cons s ss ih => rw [stmtsSites, ih, List.flatMap_cons]

/-- A function is one of its own sites. -/
theorem Func.mem_sites (f : Func) (scope : Scope) (isDeclaration : Bool) :
    .function scope f isDeclaration ∈ f.sites scope isDeclaration := by
  rw [f.sites_eq]
  exact List.mem_cons_self

/-- The names that are used in a function. -/
def Func.uses (f : Func) (scope : Scope) (isDeclaration : Bool) : List Use :=
  (f.sites scope isDeclaration).flatMap Site.uses

/-- The binding of the name is that of a scope or lies inside of it. -/
def Use.BoundWithin (u : Use) (scope : Scope) : Prop := scope.depth ≤ u.scope.home u.name.text

instance (u : Use) (scope : Scope) : Decidable (u.BoundWithin scope) :=
  inferInstanceAs (Decidable (scope.depth ≤ u.scope.home u.name.text))

/-- The function at a site, with the scope around it. -/
def Site.function? : Site → Option (Scope × Func × Bool)
  | .function scope f isDeclaration => some (scope, f, isDeclaration)
  | _ => none

/-- The functions of a program, each with the scope around it. -/
def Program.functions (x : Program) : List (Scope × Func × Bool) := x.sites.filterMap Site.function?

theorem Program.mem_functions {x : Program} {scope : Scope} {f : Func} {isDeclaration : Bool} :
    (scope, f, isDeclaration) ∈ x.functions ↔ .function scope f isDeclaration ∈ x.sites := by
  rw [Program.functions, List.mem_filterMap]
  constructor
  · rintro ⟨s, hs, hfunction⟩
    cases s with
    | function scope f isDeclaration =>
        cases hfunction
        exact hs
    | _ => cases hfunction
  · intro hs
    exact ⟨_, hs, rfl⟩

/-! ## The scopes of the sites of a tree -/

/-- A scope that functions and arrows at some sites open inside of another, one inside the other. -/
inductive Scope.Opens (S : List Site) (root : Scope) : Scope → Prop where
  | root : Scope.Opens S root root
  | function {scope : Scope} {f : Func} {isDeclaration : Bool} : Scope.Opens S root scope →
      .function scope f isDeclaration ∈ S → Scope.Opens S root (.function scope f isDeclaration)
  | arrow {scope : Scope} {params : Params} : Scope.Opens S root scope →
      .arrow scope params ∈ S → Scope.Opens S root (.arrow scope params)
  | simpleArrow {scope : Scope} : Scope.Opens S root scope → Scope.Opens S root (.simpleArrow scope)

/-- The site lies in a scope that sites open; and at a function, what is inside of the function lies
    there too. -/
def Site.Placed (S : List Site) (root : Scope) : Site → Prop
  | .reference scope _ => root.Opens S scope
  | .function scope f isDeclaration =>
    root.Opens S scope ∧ f.sites scope isDeclaration ⊆ S ∧ f.Formed
  | _ => True

/-- The sites of a tree in a scope, in the order of the tokens of the tree. Functions and arrows open scopes for the
    sites inside of them. -/
inductive Surveyed : Scope → List Site → List Token → Prop where
  | tokens (scope : Scope) (ts : List Token) : Surveyed scope [] ts
  | append {scope : Scope} {S S' : List Site} {ts ts' : List Token} :
      Surveyed scope S ts → Surveyed scope S' ts' → Surveyed scope (S ++ S') (ts ++ ts')
  | reference (scope : Scope) (name : Token) : Surveyed scope [.reference scope name] [name]
  | function {scope : Scope} {f : Func} {isDeclaration : Bool} {S : List Site} {ts : List Token} :
      f.Formed → f.sites scope isDeclaration = .function scope f isDeclaration :: S →
      Surveyed (.function scope f isDeclaration) S ts →
      Surveyed scope (.function scope f isDeclaration :: S) (f.params.tokens ++ ts)
  | arrow {scope : Scope} {params : Params} {S : List Site} {ts : List Token} :
      Surveyed (.arrow scope params) S ts →
      Surveyed scope (.arrow scope params :: S) (params.tokens ++ ts)
  | simpleArrow {scope : Scope} {S : List Site} {ts : List Token} :
      Surveyed (.simpleArrow scope) S ts → Surveyed scope S ts
  | declaration (scope : Scope) (standing : Standing) (f : Func) :
      Surveyed scope [.declaration standing f] []
  | pragma (scope : Scope) (standing : Standing) (p : Pragma) : Surveyed scope [.pragma standing p] []
  | stray (scope : Scope) (mark : Token) : Surveyed scope [.stray mark] []

namespace Surveyed

variable {scope : Scope} {S : List Site} {t : Token} {ts : List Token}

theorem after (h : Surveyed scope S ts) : Surveyed scope S (t :: ts) := .append (.tokens scope [t]) h

theorem before (h : Surveyed scope S ts) (us : List Token) : Surveyed scope S (ts ++ us) := by
  have happend := h.append (.tokens scope us)
  rwa [List.append_nil] at happend

theorem behind (h : Surveyed scope S ts) (us : List Token) : Surveyed scope S (us ++ ts) :=
  .append (.tokens scope us) h

theorem referenceFirst (h : Surveyed scope S ts) : Surveyed scope (.reference scope t :: S) (t :: ts) :=
  .append (.reference scope t) h

/-- Sites among `T` are placed there, if their scope is opened there. -/
theorem placed {T : List Site} {root : Scope} (h : Surveyed scope S ts) (ho : root.Opens T scope) (hsub : S ⊆ T) :
    ∀ s ∈ S, s.Placed T root := by
  induction h with
  | tokens => exact List.forall_mem_nil _
  | append _ _ ih ih' =>
      obtain ⟨hS, hS'⟩ := List.append_subset.mp hsub
      exact List.forall_mem_append.mpr ⟨ih ho hS, ih' ho hS'⟩
  | reference => exact List.forall_mem_singleton.mpr ho
  | @function scope f isDeclaration S ts hf hsites _ ih =>
      obtain ⟨hfirst, hrest⟩ := List.cons_subset.mp hsub
      refine List.forall_mem_cons.mpr ⟨⟨ho, ?_, hf⟩, ih (.function ho hfirst) hrest⟩
      rw [hsites]
      exact hsub
  | arrow _ ih =>
      obtain ⟨hfirst, hrest⟩ := List.cons_subset.mp hsub
      exact List.forall_mem_cons.mpr ⟨trivial, ih (.arrow ho hfirst) hrest⟩
  | simpleArrow _ ih => exact ih (.simpleArrow ho) hsub
  | declaration => exact List.forall_mem_singleton.mpr trivial
  | pragma => exact List.forall_mem_singleton.mpr trivial
  | stray => exact List.forall_mem_singleton.mpr trivial

end Surveyed

mutual

theorem Expr.surveyed : ∀ (e : Expr) (scope : Scope), e.Formed → Surveyed scope (e.sites scope) e.tokens
  | .head hd, scope, hf => Head.surveyed hd scope hf
  | .suffix leading s, scope, hf => (Expr.surveyed leading scope hf.1).append (Suffix.surveyed s scope hf.2)

theorem Head.surveyed : ∀ (hd : Head) (scope : Scope), hd.Formed → Surveyed scope (hd.sites scope) hd.tokens
  | .literal _, _, _ => .tokens _ _
  | .ident name, _, _ => .reference _ name
  | .pass mark _, _, _ => (Surveyed.stray _ mark).before _
  | .rest name _, _, _ => (Surveyed.stray _ name).before _
  | .unary _ operand, scope, hf => (Expr.surveyed operand scope hf.2).after
  | .construct _ ⟨_, _⟩ arguments, scope, hf =>
    .after (.referenceFirst ((Enclosed.surveyed arguments scope hf.2.2).behind _))
  | .array elements, scope, hf => Enclosed.surveyed elements scope hf
  | .object _ entries _, scope, hf => .after ((entries_surveyed entries scope hf.2.1).before _)
  | .group _ inner _, scope, hf => .after ((Expr.surveyed inner scope hf.2.1).before _)
  | .function f, scope, hf => Func.surveyed f false scope hf
  | .arrow params _ body, scope, hf => .arrow (Expr.surveyed body (.arrow scope params) hf.2.2).after
  | .simpleArrow _ body, scope, hf => .simpleArrow (Expr.surveyed body (.simpleArrow scope) hf.2).after

theorem Suffix.surveyed : ∀ (s : Suffix) (scope : Scope), s.Formed → Surveyed scope (s.sites scope) s.tokens
  | .binary _ right, scope, hf => (Expr.surveyed right scope hf.2).after
  | .ternary _ consequent _ alternate, scope, hf =>
    .after ((Expr.surveyed consequent scope hf.2.1).append (Expr.surveyed alternate scope hf.2.2.2).after)
  | .call arguments, scope, hf => Enclosed.surveyed arguments scope hf
  | .invoke _ arguments, scope, hf => (Enclosed.surveyed arguments scope hf.2).behind _
  | .index _ inner _, scope, hf => .after ((Expr.surveyed inner scope hf.2.1).before _)
  | .property _, _, _ => .tokens _ _
  | .prototype _ _, _, _ => .tokens _ _

theorem Enclosed.surveyed : ∀ (e : Enclosed) (scope : Scope) {o c : Punct}, e.Formed o c →
    Surveyed scope (e.sites scope) e.tokens
  | ⟨_, items, _⟩, scope, _, _, hf => .after ((exprs_surveyed items scope hf.2.1).before _)

theorem exprs_surveyed : ∀ (es : Separated Expr) (scope : Scope), exprsFormed es →
    Surveyed scope (exprsSites scope es) (exprsTokens es)
  | .nil, _, _ => .tokens _ _
  | .one e, scope, hf => Expr.surveyed e scope hf
  | .more e _ es, scope, hf => (Expr.surveyed e scope hf.1).append (exprs_surveyed es scope hf.2.2).after

theorem entries_surveyed : ∀ (es : Separated Entry) (scope : Scope), entriesFormed es →
    Surveyed scope (entriesSites scope es) (entriesTokens es)
  | .nil, _, _ => .tokens _ _
  | .one ⟨_, _, value⟩, scope, hf => (Expr.surveyed value scope hf.2.2).after.after
  | .more ⟨_, _, value⟩ _ es, scope, hf =>
    .after (.after ((Expr.surveyed value scope hf.1.2.2).append (entries_surveyed es scope hf.2.2).after))

theorem Func.surveyed : ∀ (f : Func) (isDeclaration : Bool) (scope : Scope), f.Formed →
    Surveyed scope (f.sites scope isDeclaration) f.tokens
  | ⟨keyword, name, params, receiver, ⟨opening, body, closing⟩⟩, isDeclaration, scope, hf => by
    rw [Func.sites, Func.tokens, List.append_assoc, List.append_assoc]
    refine .behind (.function hf rfl (.behind ?_ _)) _
    exact .after ((stmts_surveyed body .body _ hf.2.2.2.2.2.1).before _)

theorem stmts_surveyed : ∀ (ss : List Stmt) (standing : Standing) (scope : Scope), stmtsFormed ss →
    Surveyed scope (stmtsSites scope standing ss) (stmtsTokens ss)
  | [], _, _, _ => .tokens _ _
  | s :: ss, standing, scope, hf =>
    (Stmt.surveyed s standing scope hf.1).append (stmts_surveyed ss standing scope hf.2)

theorem Stmt.surveyed : ∀ (s : Stmt) (standing : Standing) (scope : Scope), s.Formed →
    Surveyed scope (s.sites scope standing) s.tokens
  | .expr value _, _, scope, hf => (Expr.surveyed value scope hf.1).before _
  | .empty _, _, _, _ => .tokens _ _
  | .conditional first others, _, scope, hf =>
    (Guarded.surveyed first scope hf.1).append (Ladder.surveyed others scope hf.2)
  | .while loop, _, scope, hf => Guarded.surveyed loop scope hf
  | .for _ _ init _ test _ update _ body, _, scope, hf => by
    obtain ⟨_, _, hinit, _, htest, _, hupdate, _, hbody⟩ := hf
    rw [Stmt.sites, Stmt.tokens, List.append_assoc, List.append_assoc]
    refine .after (.after ((ForInit.surveyed init scope hinit).append (.after ?_)))
    exact (exprs_surveyed test scope htest).append
      (.after ((exprs_surveyed update scope hupdate).append (Block.surveyed body scope hbody).after))
  | .forIn _ _ none _ _ object _ body, _, scope, hf => by
    obtain ⟨_, _, _, _, _, hobject, _, hbody⟩ := hf
    refine .after (.after (.referenceFirst (.after ?_)))
    exact (Expr.surveyed object scope hobject).append (Block.surveyed body scope hbody).after
  | .forIn _ _ (some _) _ _ object _ body, _, scope, hf => by
    obtain ⟨_, _, _, _, _, hobject, _, hbody⟩ := hf
    refine .after (.after (.after (.after (.after ?_))))
    exact (Expr.surveyed object scope hobject).append (Block.surveyed body scope hbody).after
  | .jump _ _ _, _, _, _ => .tokens _ _
  | .return _ none _, _, _, _ => .tokens _ _
  | .return _ (some value) _, _, scope, hf => .after ((Expr.surveyed value scope hf.2.1).before _)
  | .throw _ value _, _, scope, hf => .after ((Expr.surveyed value scope hf.2.1).before _)
  | .vars list _, _, scope, hf => (VarList.surveyed list scope hf.1).before _
  | .function f, standing, scope, hf =>
    .append (.declaration scope standing f) (Func.surveyed f true scope hf.2.2)
  | .labeled _ _ body, _, scope, hf => (Stmt.surveyed body .nested scope hf.2.2).after.after
  | .switch _ _ subject _ _ clauses _, _, scope, hf => by
    obtain ⟨_, _, hsubject, _, _, hclauses, _⟩ := hf
    refine .after (.after ((Expr.surveyed subject scope hsubject).append (.after (.after ?_))))
    exact (clauses_surveyed clauses scope hclauses).before _
  | .block b, _, scope, hf => Block.surveyed b scope hf
  | .include p, standing, scope, _ => (Surveyed.pragma scope standing p).before _
  | .declare p, standing, scope, _ => (Surveyed.pragma scope standing p).before _

theorem Block.surveyed : ∀ (b : Block) (scope : Scope), b.Formed → Surveyed scope (b.sites scope) b.tokens
  | ⟨_, body, _⟩, scope, hf => .after ((stmts_surveyed body .nested scope hf.2.1).before _)

theorem Guarded.surveyed : ∀ (g : Guarded) (scope : Scope) {w : Word}, g.Formed w →
    Surveyed scope (g.sites scope) g.tokens
  | ⟨_, _, test, _, body⟩, scope, _, hf =>
    .after (.after ((Expr.surveyed test scope hf.2.2.1).append (Block.surveyed body scope hf.2.2.2.2).after))

theorem Ladder.surveyed : ∀ (l : Ladder) (scope : Scope), l.Formed → Surveyed scope (l.sites scope) l.tokens
  | .done, _, _ => .tokens _ _
  | .otherwise _ body, scope, hf => (Block.surveyed body scope hf.2).after
  | .branch _ next others, scope, hf =>
    .after ((Guarded.surveyed next scope hf.2.1).append (Ladder.surveyed others scope hf.2.2))

theorem ForInit.surveyed : ∀ (i : ForInit) (scope : Scope), i.Formed → Surveyed scope (i.sites scope) i.tokens
  | .exprs items, scope, hf => exprs_surveyed items scope hf
  | .vars list, scope, hf => VarList.surveyed list scope hf

theorem VarList.surveyed : ∀ (l : VarList) (scope : Scope), l.Formed → Surveyed scope (l.sites scope) l.tokens
  | ⟨_, items⟩, scope, hf => (decls_surveyed items scope hf.2).after

theorem decls_surveyed : ∀ (ds : Separated Decl) (scope : Scope), declsFormed ds →
    Surveyed scope (declsSites scope ds) (declsTokens ds)
  | .nil, _, _ => .tokens _ _
  | .one d, scope, hf => Decl.surveyed d scope hf
  | .more d _ ds, scope, hf => (Decl.surveyed d scope hf.1).append (decls_surveyed ds scope hf.2.2).after

theorem Decl.surveyed : ∀ (d : Decl) (scope : Scope), d.Formed → Surveyed scope (d.sites scope) d.tokens
  | ⟨_, none⟩, _, _ => .tokens _ _
  | ⟨_, some (_, value)⟩, scope, hf => (Expr.surveyed value scope hf.2.2).after.after

theorem clauses_surveyed : ∀ (cs : List Clause) (scope : Scope), clausesFormed cs →
    Surveyed scope (clausesSites scope cs) (clausesTokens cs)
  | [], _, _ => .tokens _ _
  | ⟨_, none, _, body⟩ :: cs, scope, hf =>
    .after (.after ((stmts_surveyed body .nested scope hf.1.2.2).append (clauses_surveyed cs scope hf.2)))
  | ⟨_, some test, _, body⟩ :: cs, scope, hf => by
    rw [clausesSites, clausesTokens, List.append_assoc]
    have hbody := (stmts_surveyed body .nested scope hf.1.2.2.2).append (clauses_surveyed cs scope hf.2)
    exact .after ((Expr.surveyed test scope hf.1.2.1).append hbody.after)

end

/-- The sites of a formed program are placed in scopes that the program's own functions and arrows open. -/
theorem Program.site_placed {x : Program} (h : x.Formed) :
    ∀ s ∈ x.sites, s.Placed x.sites (.program x) :=
  (stmts_surveyed x.body .program (.program x) h.1).placed .root (List.Subset.refl _)

/-- The sites in the body of a function are placed in scopes that are opened inside of the function. -/
theorem Func.site_placed {f : Func} (h : f.Formed) (scope : Scope) (isDeclaration : Bool) :
    ∀ s ∈ stmtsSites (.function scope f isDeclaration) .body f.body.body,
      s.Placed (f.sites scope isDeclaration) (.function scope f isDeclaration) := by
  obtain ⟨keyword, name, params, receiver, ⟨opening, body, closing⟩⟩ := f
  exact (stmts_surveyed body .body _ h.2.2.2.2.2.1).placed .root (List.subset_cons_self _ _)

/-! ## Looking names up -/

theorem Scope.Opens.depth_le {S : List Site} {root scope : Scope} (h : root.Opens S scope) :
    root.depth ≤ scope.depth := by
  induction h with
  | root => exact Nat.le_refl _
  | function _ _ ih => exact Nat.le_trans ih (Nat.le_add_right _ 2)
  | arrow _ _ ih => exact Nat.le_trans ih (Nat.le_add_right _ 1)
  | simpleArrow _ ih => exact Nat.le_trans ih (Nat.le_add_right _ 1)

/-- A name that is seen in a scope, and whose binding does not lie inside of a scope around it, is seen in
    that scope too. -/
theorem Scope.Opens.sees_of_home_le {S : List Site} {root scope : Scope} (h : root.Opens S scope)
    (hsound : ∀ s ∈ S, s.Sound) {n : String} (hsees : scope.Sees n) (hhome : scope.home n ≤ root.depth) :
    root.Sees n := by
  induction h with
  | root => exact hsees
  | @function scope f isDeclaration hopened hsite ih =>
      have hdepth := hopened.depth_le
      obtain ⟨_, hhandlers, _⟩ := hsound _ hsite
      rw [Scope.home] at hhome
      split at hhome
      · omega
      split at hhome
      · omega
      next hfree hown =>
        refine ih ?_ hhome
        rcases hsees with hdeclared | ⟨rfl, name, hname, rfl⟩ | hsees
        -- A handler is declared and not bound: the scope around the function sees it.
        · obtain ⟨mark, handler, hmem, rfl⟩ := handler_of_declared hdeclared hfree
          exact hhandlers mark handler hmem
        · exact (hown (by simp [Func.ownName?, hname])).elim
        · exact hsees
  | @arrow scope params hopened hsite ih =>
      have hdepth := hopened.depth_le
      obtain ⟨hplain, _⟩ := hsound _ hsite
      rw [Scope.home] at hhome
      split at hhome
      · omega
      next hfree =>
        refine ih (hsees.resolve_left ?_) hhome
        have hpass (mark : Token) (handler : Option Token) :
            .pass mark handler ∉ params.items.items := by
          intro hmem
          obtain ⟨name, hname⟩ := hplain _ hmem
          cases hname
        rwa [Scope.declared, paramNames_eq_bound hpass]
  | @simpleArrow scope hopened ih =>
      have hdepth := hopened.depth_le
      rw [Scope.home] at hhome
      split at hhome
      · omega
      next hfree => exact ih (hsees.resolve_left hfree) hhome

/-- A name that is used at a sound site is seen in a scope that the sites open. -/
theorem Site.Placed.use {S : List Site} {root : Scope} {s : Site} (h : s.Placed S root) (hsound : s.Sound)
    {u : Use} (hu : u ∈ s.uses) : root.Opens S u.scope ∧ u.scope.Sees u.name.text := by
  cases s with
  | reference scope name =>
      cases List.mem_singleton.mp hu
      exact ⟨h, hsound⟩
  | function scope f isDeclaration =>
      obtain ⟨handler, hmem, rfl⟩ := List.mem_map.mp hu
      obtain ⟨mark, hmem⟩ := mem_handlers_iff.mp hmem
      exact ⟨h.1, hsound.2.1 mark handler hmem⟩
  | arrow scope params => cases hu
  | declaration standing f => cases hu
  | pragma standing p => cases hu
  | stray mark => cases hu

/-- In a sound function a name that comes neither from the function nor from a scope around it is used
    only where something inside of the function binds it. -/
theorem Func.use_boundWithin {f : Func} {scope : Scope} {isDeclaration : Bool} (hformed : f.Formed)
    (hsound : ∀ s ∈ f.sites scope isDeclaration, s.Sound) {u : Use}
    (hu : u ∈ f.uses scope isDeclaration) (hunseen : ¬ scope.Sees u.name.text)
    (hown : f.ownName? isDeclaration ≠ some u.name.text)
    (hfree : u.name.text ∉ (Scope.function scope f isDeclaration).bound) :
    u.BoundWithin (.function scope f isDeclaration) := by
  obtain ⟨_, hhandlers, _⟩ := hsound _ (f.mem_sites scope isDeclaration)
  obtain ⟨s, hs, hus⟩ := List.mem_flatMap.mp hu
  have hs' := hs
  rw [f.sites_eq] at hs'
  rcases List.mem_cons.mp hs' with rfl | hbody
  -- The handlers of the function itself are seen around it.
  · obtain ⟨handler, hmem, rfl⟩ := List.mem_map.mp hus
    obtain ⟨mark, hmem⟩ := mem_handlers_iff.mp hmem
    exact (hunseen (hhandlers mark handler hmem)).elim
  · have hplaced := f.site_placed hformed scope isDeclaration s hbody
    obtain ⟨hopened, hsees⟩ := hplaced.use (hsound s hs) hus
    refine Nat.le_of_not_lt fun hlt => ?_
    rcases hopened.sees_of_home_le hsound hsees (Nat.le_of_lt hlt) with hdeclared | ⟨rfl, hname⟩ | hsees
    · obtain ⟨mark, handler, hmem, htext⟩ := handler_of_declared hdeclared hfree
      exact hunseen (htext ▸ hhandlers mark handler hmem)
    · obtain ⟨name, hname, htext⟩ := hname
      exact hown (by simp [Func.ownName?, hname, htext])
    · exact hunseen hsees

end Respell
