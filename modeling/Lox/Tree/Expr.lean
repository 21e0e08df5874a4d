/-
Expressions. A node keeps the token of its operator or name, for messages;
a literal holds the value it denotes.
-/
import Lox.Token.Basic
import Lox.Value

namespace Lox

/-- An expression. -/
inductive Expr where
  | literal (value : Value)
  /-- An expression in parentheses. -/
  | grouping (inner : Expr)
  | unary (operator : Token) (operand : Expr)
  | binary (left : Expr) (operator : Token) (right : Expr)
  /-- The right side is evaluated only if the left one does not decide. -/
  | logical (left : Expr) (operator : Token) (right : Expr)
  | var (name : Token)
  | assign (name : Token) (value : Expr)
deriving DecidableEq

namespace Expr

/-- The expression a single token is. A literal token must carry a literal
of its own sort. -/
def ofToken? (t : Token) : Option Expr :=
  match t.kind, t.literal with
  | .number, some (.number n) => some (.literal (.number n))
  | .string, some (.text s) => some (.literal (.text s))
  | .kwTrue, _ => some (.literal (.bool true))
  | .kwFalse, _ => some (.literal (.bool false))
  | .kwNil, _ => some (.literal .nil)
  | .identifier, _ => some (.var t)
  | _, _ => none

/-- A literal in written form: texts stand in quotes. -/
def literalText : Value → String
  | .text s => "\"" ++ s ++ "\""
  | value => value.display

/-- The written form of an expression: operator first, in parentheses. -/
def text : Expr → String
  | .literal value => literalText value
  | .grouping inner => "(group " ++ inner.text ++ ")"
  | .unary operator operand => "(" ++ operator.lexeme ++ " " ++ operand.text ++ ")"
  | .binary left operator right | .logical left operator right =>
    "(" ++ operator.lexeme ++ " " ++ left.text ++ " " ++ right.text ++ ")"
  | .var name => name.lexeme
  | .assign name value => "(= " ++ name.lexeme ++ " " ++ value.text ++ ")"

end Expr

end Lox
