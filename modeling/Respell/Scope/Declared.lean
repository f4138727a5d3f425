import Respell.Tree.Basic

/-!
# Declared names

The names that statements declare in the scope they stand in, in source order. The names of `var`
belong to the whole function or program and are found in every block of it; a function declaration
counts only where it stands directly in the body of its scope.
-/

namespace Respell

/-- The names of a `var` list. -/
def VarList.declared (l : VarList) : List Token := l.items.items.map (·.name)

mutual

/-- The names that a statement declares. Function declarations count only if it stands `direct`ly in the
    body of its scope. -/
def Stmt.declared (direct : Bool) : Stmt → List Token
  | .function f => if direct then f.name.toList else []
  | .vars list _ => list.declared
  | .conditional ⟨_, _, _, _, ⟨_, body, _⟩⟩ others => declaredNames false body ++ others.declared
  | .while ⟨_, _, _, _, ⟨_, body, _⟩⟩ => declaredNames false body
  | .for _ _ (.vars list) _ _ _ _ _ ⟨_, body, _⟩ => list.declared ++ declaredNames false body
  | .for _ _ (.exprs _) _ _ _ _ _ ⟨_, body, _⟩ => declaredNames false body
  | .forIn _ _ (some _) name _ _ _ ⟨_, body, _⟩ => name :: declaredNames false body
  | .forIn _ _ none _ _ _ _ ⟨_, body, _⟩ => declaredNames false body
  | .labeled _ _ body => body.declared false
  | .switch _ _ _ _ _ clauses _ => clausesDeclared clauses
  | .block ⟨_, body, _⟩ => declaredNames false body
  | .expr _ _ | .empty _ | .jump _ _ _ | .return _ _ _ | .throw _ _ _ | .include _ | .declare _ => []

/-- The names that a list of statements declares. -/
def declaredNames (direct : Bool) : List Stmt → List Token
  | [] => []
  | s :: rest => s.declared direct ++ declaredNames direct rest

/-- The names that the branches after the first one declare. -/
def Ladder.declared : Ladder → List Token
  | .done => []
  | .otherwise _ ⟨_, body, _⟩ => declaredNames false body
  | .branch _ ⟨_, _, _, _, ⟨_, body, _⟩⟩ others => declaredNames false body ++ others.declared

/-- The names that the clauses of a switch declare. -/
def clausesDeclared : List Clause → List Token
  | [] => []
  | ⟨_, _, _, body⟩ :: rest => declaredNames false body ++ clausesDeclared rest

end

end Respell
