/-
Programs: the statements of a token sequence, read up to its first end
mark. A declaration that cannot be read is reported and left out, so every
sequence has a program.
-/
import Lox.Grammar.Statement

namespace Lox

/-- What reading a token sequence found. -/
structure Program where
  statements : List Stmt
  log : List Record

namespace Program

/-- The tokens before the first end mark. -/
def significant (tokens : List Token) : List Token := tokens.takeWhile fun t => t.kind != .eof

/-- The line of the first end mark; a missing one is taken to stand on the
line of the last token. -/
def endLine (tokens : List Token) : Nat :=
  match tokens.find? fun t => t.kind == .eof with
  | some t => t.line
  | none => (tokens.getLast?.map Token.line).getD 1

/-- The program of a token sequence. -/
def ofTokens (tokens : List Token) : Program :=
  let body := Grammar.declarations (endLine tokens) false (significant tokens)
  ⟨body.statements, body.log ++ [.parsed body.statements.length]⟩

/-- What parsing reported, in order. -/
def diagnostics (p : Program) : List Diagnostic := Record.diagnostics p.log

/-- The written forms of the statements. -/
def texts (p : Program) : List String := p.statements.map Stmt.text

end Program

end Lox
