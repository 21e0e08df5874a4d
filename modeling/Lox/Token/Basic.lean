/-
Tokens: a kind, the text it was cut from, the value a literal denotes and
the line it ends on.
-/
import Lox.Token.Kind
import Lox.Number.Shortest

namespace Lox

/-- What a literal token denotes; a text is what stands between the quotes. -/
inductive Literal where
  | number (n : Binary64)
  | text (s : String)
deriving DecidableEq

/-- The denoted value as text. -/
def Literal.display : Literal → String
  | .number n => n.text
  | .text s => s

/-- A token, and the line it ends on. -/
structure Token where
  /-- What it is. -/
  kind : Token.Kind
  /-- The text it was cut from. -/
  lexeme : String
  /-- What it denotes, for a number or a string. -/
  literal : Option Literal
  /-- The line its text ends on. -/
  line : Nat
deriving DecidableEq

namespace Token

/-- The mark that ends a token sequence. -/
def eof (line : Nat) : Token := ⟨.eof, "", none, line⟩

/-- Kind, text and denoted value of a token, on one line. -/
def display (t : Token) : String :=
  t.kind.name ++ " " ++ t.lexeme ++ " " ++ (t.literal.map Literal.display).getD "nil"

end Token

end Lox
