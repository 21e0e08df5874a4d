/-
What can be wrong with a source text. A lexical fault is found in the
characters and is pinned to no token; a syntax fault is found at a token.
-/
import Lox.Report.Diagnostic

namespace Lox

/-! ## In the characters -/

/-- What can be wrong with characters. -/
inductive LexicalCause where
  | unexpectedCharacter (c : Char)
  | unterminatedString
  | unterminatedComment
deriving DecidableEq

/-- What is said of it. -/
def LexicalCause.message : LexicalCause → String
  | .unexpectedCharacter _ => "Unexpected character."
  | .unterminatedString => "Unterminated string."
  | .unterminatedComment => "Unterminated multi-line block comment."

/-- Something wrong with characters, and the line the scanner had come to. -/
structure LexicalFault where
  line : Nat
  cause : LexicalCause
deriving DecidableEq

namespace LexicalFault

/-- How a fault is written where it is not reported. -/
def text (f : LexicalFault) : String := "line " ++ toString f.line ++ ": " ++ f.cause.message

/-- The report of a fault. It points to no place on its line. -/
def diagnostic (f : LexicalFault) : Diagnostic := ⟨f.line, .none, f.cause.message⟩

end LexicalFault

/-! ## In the tokens -/

/-- What can be wrong at a token. -/
inductive SyntaxCause where
  | expectedExpression
  | invalidAssignmentTarget
  /-- A required token is missing; the message says which. -/
  | expected (message : String)
deriving DecidableEq

/-- What is said of it. -/
def SyntaxCause.message : SyntaxCause → String
  | .expectedExpression => "Expect expression."
  | .invalidAssignmentTarget => "Invalid assignment target."
  | .expected message => message

/-- Something wrong at a token, and where that stands. -/
structure SyntaxFault where
  line : Nat
  location : Location
  cause : SyntaxCause
deriving DecidableEq

namespace SyntaxFault

/-- A fault found at a token. -/
def ofToken (t : Token) (cause : SyntaxCause) : SyntaxFault := ⟨t.line, .ofToken t, cause⟩

/-- How a fault is written where it is not reported. -/
def text (f : SyntaxFault) : String := "line " ++ toString f.line ++ ": " ++ f.cause.message

/-- The report of a fault. -/
def diagnostic (f : SyntaxFault) : Diagnostic := ⟨f.line, f.location, f.cause.message⟩

end SyntaxFault

end Lox
