/-!
# Environments

An environment holds the names that can be used in one scope, and for each whether the scope declares
it itself or only sees it from outside. A scope may declare a name that it sees from outside.
-/

namespace Respell

/-- How a name is known in a scope. -/
inductive Binding where
  /-- The scope declares the name itself. -/
  | declared
  /-- The name comes from outside the scope. -/
  | inherited
deriving DecidableEq, Repr

/-- The names known in a scope. -/
structure Env where
  /-- How a name is known, if it is. -/
  binding? : String → Option Binding

namespace Env

/-- The environment that knows no name. -/
def empty : Env := ⟨fun _ => none⟩

/-- Declares a name in this scope. -/
def declare (env : Env) (name : String) : Env :=
  ⟨fun n => if n = name then some .declared else env.binding? n⟩

/-- Makes a name visible, unless it is known already. -/
def inherit (env : Env) (name : String) : Env :=
  ⟨fun n => if n = name then (env.binding? n).or (some .inherited) else env.binding? n⟩

/-- The environment of a scope inside this one: it sees every name and declares none. -/
def fork (env : Env) : Env := ⟨fun n => (env.binding? n).map fun _ => .inherited⟩

/-- Whether this scope declares the name itself. -/
def isDeclared (env : Env) (name : String) : Bool := env.binding? name == some .declared

/-- Whether the name can be used in this scope. -/
def sees (env : Env) (name : String) : Bool := (env.binding? name).isSome

/-- Declares several names, one after the other. -/
def declareAll (env : Env) (names : List String) : Env := names.foldl declare env

end Env

end Respell
