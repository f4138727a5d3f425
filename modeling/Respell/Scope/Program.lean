import Respell.Helper
import Respell.Scope.Check
import Respell.Scope.Group

/-!
# Checking programs

The pragmas of a program are looked at first, then the names it declares, then its statements. The first
fault found in that order is the one reported.
-/

namespace Respell

/-- The faults of the items of an `#include`: each has to be the name of a helper. -/
def includeFaults : List PragmaItem → List Fault
  | [] => []
  | .single name :: rest =>
    (if Helper.isKnown name.text then [] else [name.fault .unknownHelper [name.text]]) ++
      includeFaults rest
  | .group colon _ :: rest => colon.fault .unexpected [Punct.colon.text] :: includeFaults rest

/-- The faults of the items of a `#declare`: each group has to exist. -/
def declareFaults : List PragmaItem → List Fault
  | [] => []
  | .single _ :: rest => declareFaults rest
  | .group colon name :: rest =>
    (if (Group.find? name.text).isSome then [] else [colon.fault .unknownGroup [name.text]]) ++
      declareFaults rest

/-- The names that an item of a pragma makes known. -/
def PragmaItem.names : PragmaItem → List String
  | .single name => [name.text]
  | .group _ name => (Group.find? name.text).getD []

/-- The faults of a statement that is a pragma. -/
def Stmt.pragmaFaults : Stmt → List Fault
  | .include p => includeFaults p.items.items
  | .declare p => declareFaults p.items.items
  | _ => []

/-- The names that a statement makes known if it is a pragma. -/
def Stmt.pragmaNames : Stmt → List String
  | .include p => p.items.items.flatMap PragmaItem.names
  | .declare p => p.items.items.flatMap PragmaItem.names
  | _ => []

/-- The names that a statement asks helpers for. -/
def Stmt.includedNames : Stmt → List String
  | .include p => p.items.items.flatMap PragmaItem.names
  | _ => []

/-- A list of names with one more, unless it is there. -/
def addName (names : List String) (name : String) : List String :=
  if name ∈ names then names else names ++ [name]

namespace Program

/-- The helpers that a program asks for, each once, in the order in which they are first named. -/
def helpers (p : Program) : List String :=
  (p.body.flatMap Stmt.includedNames).foldl addName []

/-- The environment that the pragmas of a program set up. -/
def pragmaScope (p : Program) : Env := Env.empty.declareAll (p.body.flatMap Stmt.pragmaNames)

/-- The environment in which the statements of a program are looked at. -/
def scope (p : Program) : Env :=
  p.pragmaScope.declareAll ((declaredNames true p.body).map (·.text))

/-- All faults of a program, in the order in which they are found. -/
def faults (p : Program) : List Fault :=
  p.body.flatMap Stmt.pragmaFaults ++ redeclarations p.pragmaScope (declaredNames true p.body) ++
    stmtsFaults p.scope .program p.body []

/-- The helpers of a program that has no fault; otherwise the first one. -/
def validate (p : Program) : Except Fault (List String) :=
  match p.faults with
  | [] => .ok p.helpers
  | f :: _ => .error f

end Program

end Respell
