/-!
# Messages

Every message that a source text can be refused with, once: its code, the stage that refuses, and
its wording. A wording may hold the places `{0}`, `{1}`, … for arguments; `fill` puts the
arguments in, one after the other, each over the text that the previous ones left.
-/

namespace Respell

/-- The stage of a compile that refuses a text. -/
inductive Stage where
  /-- The text is not a program of the grammar. -/
  | grammar
  /-- The program breaks a rule on declarations or scopes. -/
  | scope
deriving DecidableEq, Repr

/-- What a fault of this stage is called in reports. -/
def Stage.label : Stage → String
  | .grammar => "syntax error"
  | .scope => "validation error"

/-- Every message a source text can be refused with. -/
inductive Message where
  | invalidToken
  | runawayString
  | runawayRegex
  | reservedKeyword
  | useInstead
  | expected
  | invalidExpression
  | unexpected
  | unexpectedAfterList
  | invalidParameters
  | invalidLabeled
  | invalidObjectKey
  | nestedTooDeeply
  | alreadyDeclared
  | notDeclared
  | misplacedFunction
  | misplacedPass
  | misplacedRest
  | arrowParameter
  | strayPass
  | strayRest
  | misplacedInclude
  | misplacedDeclare
  | unknownGroup
  | unknownHelper
deriving DecidableEq, Repr

namespace Message

/-- All messages, in the order of their codes. -/
def all : List Message :=
  [.invalidToken, .runawayString, .runawayRegex, .reservedKeyword, .useInstead, .expected,
   .invalidExpression, .unexpected, .unexpectedAfterList, .invalidParameters, .invalidLabeled,
   .invalidObjectKey, .nestedTooDeeply, .alreadyDeclared, .notDeclared, .misplacedFunction,
   .misplacedPass, .misplacedRest, .arrowParameter, .strayPass, .strayRest, .misplacedInclude,
   .misplacedDeclare, .unknownGroup, .unknownHelper]

/-- The code of a message: below 2000 for the grammar, from 2000 on for scopes. -/
def code : Message → Nat
  | invalidToken => 1001
  | runawayString => 1002
  | runawayRegex => 1003
  | reservedKeyword => 1004
  | useInstead => 1005
  | expected => 1101
  | invalidExpression => 1102
  | unexpected => 1103
  | unexpectedAfterList => 1104
  | invalidParameters => 1105
  | invalidLabeled => 1106
  | invalidObjectKey => 1107
  | nestedTooDeeply => 1108
  | alreadyDeclared => 2001
  | notDeclared => 2002
  | misplacedFunction => 2003
  | misplacedPass => 2101
  | misplacedRest => 2102
  | arrowParameter => 2103
  | strayPass => 2104
  | strayRest => 2105
  | misplacedInclude => 2201
  | misplacedDeclare => 2202
  | unknownGroup => 2203
  | unknownHelper => 2204

/-- The message with a code. -/
def ofCode? (n : Nat) : Option Message := all.find? (·.code == n)

/-- The stage that refuses with this message. -/
def stage : Message → Stage
  | invalidToken | runawayString | runawayRegex | reservedKeyword | useInstead | expected
  | invalidExpression | unexpected | unexpectedAfterList | invalidParameters | invalidLabeled
  | invalidObjectKey | nestedTooDeeply => .grammar
  | alreadyDeclared | notDeclared | misplacedFunction | misplacedPass | misplacedRest
  | arrowParameter | strayPass | strayRest | misplacedInclude | misplacedDeclare | unknownGroup
  | unknownHelper => .scope

/-- The place of argument `i` in a template: its number in braces. -/
def hole (i : Nat) : String := "\x7b" ++ toString i ++ "\x7d"

/-- The wording of a message, with places for its arguments. -/
def template : Message → String
  | invalidToken => "invalid token"
  | runawayString => "runaway string literal"
  | runawayRegex => "runaway regular expression literal"
  | reservedKeyword => "'" ++ hole 0 ++ "' is a reserved keyword"
  | useInstead => "use '" ++ hole 0 ++ "' instead of '" ++ hole 1 ++ "'"
  | expected => "expected '" ++ hole 0 ++ "' instead of '" ++ hole 1 ++ "'"
  | invalidExpression => "invalid expression"
  | unexpected => "unexpected '" ++ hole 0 ++ "'"
  | unexpectedAfterList => "unexpected '" ++ hole 0 ++ "' after parenthesized list"
  | invalidParameters => "invalid formal parameter list before '" ++ hole 0 ++ "'"
  | invalidLabeled => "invalid labeled statement"
  | invalidObjectKey => "invalid object key"
  | nestedTooDeeply => "nested too deeply"
  | alreadyDeclared => "'" ++ hole 0 ++ "' is already declared in this scope"
  | notDeclared => "'" ++ hole 0 ++ "' has not been declared"
  | misplacedFunction =>
    "functions may only be declared in the top-level of the program or directly within other " ++
      "functions"
  | misplacedPass => "'@' is only allowed on the first parameter"
  | misplacedRest => "'...' is only allowed on the last parameter"
  | arrowParameter => "arrow functions cannot have '@' or '...' parameters"
  | strayPass => "invalid expression beginning with '@'"
  | strayRest => "invalid expression ending with '...'"
  | misplacedInclude => "#include is only allowed at the top-level of the program"
  | misplacedDeclare => "#declare is only allowed at the top-level of the program"
  | unknownGroup => "invalid declaration group ':" ++ hole 0 ++ "'"
  | unknownHelper => "'" ++ hole 0 ++ "' is not a known helper"

end Message

/-- Every occurrence of the text `first :: others`, found from left to right without overlap,
    replaced by `new`. -/
def substitute (first : Char) (others new : List Char) : List Char → List Char
  | [] => []
  | c :: cs =>
    if c = first ∧ others.isPrefixOf cs then
      new ++ substitute first others new (cs.drop others.length)
    else
      c :: substitute first others new cs
termination_by cs => cs.length
decreasing_by all_goals simp only [List.length_cons, List.length_drop]; omega

/-- Puts one argument after the other into its places, the first of them number `i`. -/
def fillFrom (i : Nat) (text : List Char) : List String → List Char
  | [] => text
  | arg :: args =>
    fillFrom (i + 1) (substitute '\x7b' ((toString i).toList ++ ['\x7d']) arg.toList text) args

/-- A template with its arguments in place. -/
def fill (template : String) (args : List String) : String :=
  String.ofList (fillFrom 0 template.toList args)

end Respell
