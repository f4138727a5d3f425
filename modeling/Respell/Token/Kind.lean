/-!
# Kinds of tokens
-/

namespace Respell

/-- Punctuation marks, longer marks before the shorter ones they begin with. -/
inductive Punct where
  | strictEqual
  | strictUnequal
  | ellipsis
  | arrow
  | equal
  | unequal
  | plusAssign
  | minusAssign
  | timesAssign
  | divideAssign
  | moduloAssign
  | or
  | and
  | lessEqual
  | greaterEqual
  | doubleColon
  | asterisk
  | slash
  | minus
  | plus
  | exclamation
  | openParen
  | closeParen
  | openBrace
  | closeBrace
  | openBracket
  | closeBracket
  | less
  | greater
  | dot
  | comma
  | semicolon
  | colon
  | caret
  | assign
  | percent
  | doubleQuote
  | singleQuote
  | atSign
  | question
deriving DecidableEq, Repr

namespace Punct

/-- All punctuation marks, in the order in which they are tried. -/
def all : List Punct :=
  [.strictEqual, .strictUnequal, .ellipsis, .arrow, .equal, .unequal, .plusAssign, .minusAssign,
   .timesAssign, .divideAssign, .moduloAssign, .or, .and, .lessEqual, .greaterEqual, .doubleColon,
   .asterisk, .slash, .minus, .plus, .exclamation, .openParen, .closeParen, .openBrace,
   .closeBrace, .openBracket, .closeBracket, .less, .greater, .dot, .comma, .semicolon, .colon,
   .caret, .assign, .percent, .doubleQuote, .singleQuote, .atSign, .question]

/-- The characters of a mark. -/
def chars : Punct → List Char
  | strictEqual => ['=', '=', '=']
  | strictUnequal => ['!', '=', '=']
  | ellipsis => ['.', '.', '.']
  | arrow => ['-', '>']
  | equal => ['=', '=']
  | unequal => ['!', '=']
  | plusAssign => ['+', '=']
  | minusAssign => ['-', '=']
  | timesAssign => ['*', '=']
  | divideAssign => ['/', '=']
  | moduloAssign => ['%', '=']
  | or => ['|', '|']
  | and => ['&', '&']
  | lessEqual => ['<', '=']
  | greaterEqual => ['>', '=']
  | doubleColon => [':', ':']
  | asterisk => ['*']
  | slash => ['/']
  | minus => ['-']
  | plus => ['+']
  | exclamation => ['!']
  | openParen => ['(']
  | closeParen => [')']
  | openBrace => ['\x7b']
  | closeBrace => ['\x7d']
  | openBracket => ['[']
  | closeBracket => [']']
  | less => ['<']
  | greater => ['>']
  | dot => ['.']
  | comma => [',']
  | semicolon => [';']
  | colon => [':']
  | caret => ['^']
  | assign => ['=']
  | percent => ['%']
  | doubleQuote => ['"']
  | singleQuote => ['\'']
  | atSign => ['@']
  | question => ['?']

/-- The text of a mark. -/
def text (p : Punct) : String := String.ofList p.chars

end Punct

/-- Reserved words. Some have a meaning in the dialect, some are refused wherever they stand, and
    the others are only kept from being identifiers. -/
inductive Word where
  | «break»
  | «case»
  | «catch»
  | «continue»
  | «debugger»
  | «default»
  | «delete»
  | «do»
  | «else»
  | «finally»
  | «for»
  | «function»
  | «if»
  | «in»
  | «instanceof»
  | «new»
  | «return»
  | «switch»
  | «this»
  | «throw»
  | «try»
  | «typeof»
  | «var»
  | «void»
  | «while»
  | «with»
  | «null»
  | «true»
  | «false»
  | «class»
  | «enum»
  | «export»
  | «extends»
  | «import»
  | «super»
  | «implements»
  | «interface»
  | «let»
  | «package»
  | «private»
  | «protected»
  | «public»
  | «static»
  | «yield»
deriving DecidableEq, Repr

namespace Word

/-- All reserved words. -/
def all : List Word :=
  [.break, .case, .catch, .continue, .debugger, .default, .delete, .do, .else, .finally, .for,
   .function, .if, .in, .instanceof, .new, .return, .switch, .this, .throw, .try, .typeof, .var,
   .void, .while, .with, .null, .true, .false, .class, .enum, .export, .extends, .import, .super,
   .implements, .interface, .let, .package, .private, .protected, .public, .static, .yield]

/-- The text of a reserved word. -/
def text : Word → String
  | .break => "break"
  | .case => "case"
  | .catch => "catch"
  | .continue => "continue"
  | .debugger => "debugger"
  | .default => "default"
  | .delete => "delete"
  | .do => "do"
  | .else => "else"
  | .finally => "finally"
  | .for => "for"
  | .function => "function"
  | .if => "if"
  | .in => "in"
  | .instanceof => "instanceof"
  | .new => "new"
  | .return => "return"
  | .switch => "switch"
  | .this => "this"
  | .throw => "throw"
  | .try => "try"
  | .typeof => "typeof"
  | .var => "var"
  | .void => "void"
  | .while => "while"
  | .with => "with"
  | .null => "null"
  | .true => "true"
  | .false => "false"
  | .class => "class"
  | .enum => "enum"
  | .export => "export"
  | .extends => "extends"
  | .import => "import"
  | .super => "super"
  | .implements => "implements"
  | .interface => "interface"
  | .let => "let"
  | .package => "package"
  | .private => "private"
  | .protected => "protected"
  | .public => "public"
  | .static => "static"
  | .yield => "yield"

/-- The reserved word with a text. -/
def ofText? (s : String) : Option Word := all.find? (·.text == s)

end Word

/-- The kind of a token. -/
inductive Kind where
  /-- The end of the text; its token has no characters. -/
  | endOfFile
  | number
  | string
  | regex
  | identifier
  | punct (p : Punct)
  | word (w : Word)
  /-- The pragma word `#include`. -/
  | includePragma
  /-- The pragma word `#declare`. -/
  | declarePragma
deriving DecidableEq, Repr

namespace Kind

/-- Every kind, once. -/
def all : List Kind :=
  [.endOfFile, .number, .string, .regex, .identifier] ++ Punct.all.map .punct ++
    Word.all.map .word ++ [.includePragma, .declarePragma]

/-- The text every token of this kind has, for punctuation. -/
def punctText? : Kind → Option String
  | punct p => some p.text
  | _ => none

/-- The text every token of this kind has, for reserved words. -/
def wordText? : Kind → Option String
  | word w => some w.text
  | _ => none

/-- What a token of this kind is called in messages. -/
def describe : Kind → String
  | endOfFile => "end of file"
  | number => "number"
  | string => "string"
  | regex => "regular expression"
  | identifier => "identifier"
  | punct p => p.text
  | word w => w.text
  | includePragma => "#include"
  | declarePragma => "#declare"

/-- Whether the kind is a reserved word. -/
def isWord : Kind → Bool
  | word _ => true
  | _ => false

/-- Whether the kind is a literal read up to its closing delimiter. -/
def isQuoted : Kind → Bool
  | string | regex => true
  | _ => false

/-- The assignment operators: `=` and the compound forms. -/
def isAssignment : Kind → Bool
  | punct .assign | punct .plusAssign | punct .minusAssign | punct .timesAssign
  | punct .divideAssign | punct .moduloAssign => true
  | _ => false

/-- The marks that may open a string or a regular expression. -/
def isQuote : Kind → Bool
  | punct .doubleQuote | punct .singleQuote | punct .slash | punct .divideAssign => true
  | _ => false

end Kind

end Respell
