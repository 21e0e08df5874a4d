/-
The kinds of token: punctuation and operators, names, literals, the sixteen
reserved words, and the mark that ends every token sequence.
-/

namespace Lox

/-- What a token is. -/
inductive Token.Kind where
  | leftParen | rightParen | leftBrace | rightBrace
  | comma | dot | minus | plus | semicolon | slash | star
  | bang | bangEqual | equal | equalEqual
  | greater | greaterEqual | less | lessEqual
  | identifier | string | number
  | kwAnd | kwClass | kwElse | kwFalse | kwFun | kwFor | kwIf | kwNil
  | kwOr | kwPrint | kwReturn | kwSuper | kwThis | kwTrue | kwVar | kwWhile
  | eof
deriving DecidableEq

namespace Token.Kind

/-- The name a kind is listed under. -/
def name : Kind → String
  | .leftParen => "LeftParen"
  | .rightParen => "RightParen"
  | .leftBrace => "LeftBrace"
  | .rightBrace => "RightBrace"
  | .comma => "Comma"
  | .dot => "Dot"
  | .minus => "Minus"
  | .plus => "Plus"
  | .semicolon => "Semicolon"
  | .slash => "Slash"
  | .star => "Star"
  | .bang => "Bang"
  | .bangEqual => "BangEqual"
  | .equal => "Equal"
  | .equalEqual => "EqualEqual"
  | .greater => "Greater"
  | .greaterEqual => "GreaterEqual"
  | .less => "Less"
  | .lessEqual => "LessEqual"
  | .identifier => "Identifier"
  | .string => "String"
  | .number => "Number"
  | .kwAnd => "And"
  | .kwClass => "Class"
  | .kwElse => "Else"
  | .kwFalse => "False"
  | .kwFun => "Fun"
  | .kwFor => "For"
  | .kwIf => "If"
  | .kwNil => "Nil"
  | .kwOr => "Or"
  | .kwPrint => "Print"
  | .kwReturn => "Return"
  | .kwSuper => "Super"
  | .kwThis => "This"
  | .kwTrue => "True"
  | .kwVar => "Var"
  | .kwWhile => "While"
  | .eof => "Eof"

/-- Every kind, in the order of its declaration. -/
def all : List Kind :=
  [.leftParen, .rightParen, .leftBrace, .rightBrace, .comma, .dot, .minus, .plus, .semicolon,
    .slash, .star, .bang, .bangEqual, .equal, .equalEqual, .greater, .greaterEqual, .less,
    .lessEqual, .identifier, .string, .number, .kwAnd, .kwClass, .kwElse, .kwFalse, .kwFun,
    .kwFor, .kwIf, .kwNil, .kwOr, .kwPrint, .kwReturn, .kwSuper, .kwThis, .kwTrue, .kwVar,
    .kwWhile, .eof]

/-- The kind listed under a name. -/
def ofName? (s : String) : Option Kind := all.find? fun k => k.name == s

/-- The reserved words. -/
def reserved : List (String × Kind) :=
  [("and", .kwAnd), ("class", .kwClass), ("else", .kwElse), ("false", .kwFalse),
    ("for", .kwFor), ("fun", .kwFun), ("if", .kwIf), ("nil", .kwNil), ("or", .kwOr),
    ("print", .kwPrint), ("return", .kwReturn), ("super", .kwSuper), ("this", .kwThis),
    ("true", .kwTrue), ("var", .kwVar), ("while", .kwWhile)]

/-- The kind of a word: a reserved word's own, else a name. -/
def ofWord (s : String) : Kind := (reserved.lookup s).getD .identifier

/-- Whether a statement may begin with this kind; recovery stops at these. -/
def startsStatement : Kind → Bool
  | .kwClass | .kwFun | .kwVar | .kwFor | .kwIf | .kwWhile | .kwPrint | .kwReturn => true
  | _ => false

end Token.Kind

end Lox
