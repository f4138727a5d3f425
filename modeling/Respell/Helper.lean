/-!
# Helpers

Small functions that a program may ask for with `#include`. Their text is appended to the output as it
stands here, each beginning on a new line.
-/

namespace Respell

/-- A function that can be appended to the output. -/
structure Helper where
  name : String
  source : String
deriving DecidableEq, Repr

namespace Helper

/-- Lines between braces, indented by a tab; `tail` follows the closing brace. -/
def braced (head : String) (body : List String) (tail : String) : List String :=
  (head ++ " \x7b") :: body.map ("\t" ++ ·) ++ ["\x7d" ++ tail]

/-- A function with a head and the lines of its body, on lines of its own. -/
def text (head : String) (body : List String) : String :=
  "\n" ++ "\n".intercalate (braced head body "") ++ "\n"

def undef : Helper where
  name := "undef"
  source := text "function undef(x)" ["return typeof x === 'undefined';"]

def nada : Helper where
  name := "nada"
  source := text "function nada(x)" ["return x === null || typeof x === 'undefined';"]

def trycatch : Helper where
  name := "trycatch"
  source := text "function trycatch(fn, next)"
    (braced "try" ["next(null, fn());"] "" ++ braced "catch (err)" ["next(err);"] "")

def extend : Helper where
  name := "extend"
  source := text "function extend(base, methods)"
    (["function ctor()\x7b\x7d", "ctor.prototype = base;", "var proto = new ctor(), k;"] ++
      braced "if (methods)"
        (braced "for (k in methods)"
          (braced "if (methods.hasOwnProperty(k))" ["proto[k] = methods[k];"] "") "") "" ++
      ["return proto;"])

def each : Helper where
  name := "each"
  source := text "function each(ar, f)"
    (["var i;"] ++ braced "for (i = 0; i < ar.length; i++)" ["f(ar[i], i);"] "")

def filter : Helper where
  name := "filter"
  source := text "function filter(ar, f)"
    (["var i, j = 0, r = [];"] ++
      braced "for (i = 0; i < ar.length; i++)" (braced "if (f(ar[i], i))" ["r[j++] = ar[i];"] "") "" ++
      ["return r;"])

def map : Helper where
  name := "map"
  source := text "function map(ar, f)"
    (["var i, r = [];"] ++
      braced "for (i = 0; i < ar.length; i++)" ["r[i] = f(ar[i], i);"] "" ++ ["return r;"])

def once : Helper where
  name := "once"
  source := text "function once(f)"
    (["var called = false;"] ++
      braced "return function()"
        (braced "if (!called)" ["called = true;", "return f.apply(this, arguments);"] "") ";")

def keys : Helper where
  name := "keys"
  source := text "function keys(o)"
    (["var r = [], k;"] ++
      braced "for (k in o)" (braced "if (o.hasOwnProperty(k))" ["r.push(k);"] "") "" ++
      ["return r;"])

/-- All helpers, in the order of the table. -/
def all : List Helper := [undef, nada, trycatch, extend, each, filter, map, once, keys]

/-- The helper with a name. -/
def find? (name : String) : Option Helper := all.find? (·.name == name)

/-- Whether there is a helper with this name. -/
def isKnown (name : String) : Bool := (find? name).isSome

end Helper

end Respell
