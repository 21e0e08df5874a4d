/-
Diagnostics: a line, where on it, and a message.
-/
import Lox.Token.Basic

namespace Lox

/-- Where on its line a diagnostic points. -/
inductive Location where
  | none
  | atEnd
  | atLexeme (lexeme : String)
deriving DecidableEq

namespace Location

/-- Where a token stands; the end mark stands at the end. -/
def ofToken (t : Token) : Location :=
  if t.kind = .eof then .atEnd else .atLexeme t.lexeme

/-- How the place is written after the line. -/
def text : Location → String
  | .none => ""
  | .atEnd => " at end"
  | .atLexeme lexeme => " at '" ++ lexeme ++ "'"

end Location

/-- A report about a source text. -/
structure Diagnostic where
  /-- The line it is about. -/
  line : Nat
  /-- Where on that line it points. -/
  location : Location
  /-- What is said. -/
  message : String
deriving DecidableEq

/-- How a report is shown. -/
def Diagnostic.text (d : Diagnostic) : String :=
  "[line " ++ toString d.line ++ "] Error" ++ d.location.text ++ ": " ++ d.message

end Lox
