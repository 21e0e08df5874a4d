/-
Scanning: the tokens of a source text, closed by the end mark, and its
lexical faults, each with the line its text ends on.
-/
import Lox.Source.Piece
import Lox.Report.Record

namespace Lox

/-- How many line breaks a text holds. -/
def newlines (text : List Char) : Nat := text.count '\n'

namespace Piece

/-- Each piece with the line it ends on, the first piece beginning on
`line`. -/
def located (line : Nat) : List Piece → List (Nat × Piece)
  | [] => []
  | p :: ps => (line + newlines p.text, p) :: located (line + newlines p.text) ps

/-- The token a piece is, if it is one. -/
def token? (line : Nat) (p : Piece) : Option Token :=
  match p.role with
  | .token kind literal => some ⟨kind, String.ofList p.text, literal, line⟩
  | _ => none

/-- The fault a piece is, if it is one. -/
def fault? (line : Nat) (p : Piece) : Option LexicalFault :=
  match p.role with
  | .fault cause => some ⟨line, cause⟩
  | _ => none

end Piece

/-- What scanning a text found. -/
structure Scan where
  /-- The tokens without the end mark. -/
  body : List Token
  /-- How many lines the text has. -/
  lines : Nat
  /-- What was wrong with the characters, in order. -/
  faults : List LexicalFault
deriving DecidableEq

namespace Scan

/-- The tokens of a text with its lexical faults. -/
def ofSource (source : String) : Scan :=
  let located := Piece.located 1 (Piece.pieces source.toList)
  { body := located.filterMap fun (line, p) => p.token? line
    lines := 1 + newlines source.toList
    faults := located.filterMap fun (line, p) => p.fault? line }

/-- The tokens, closed by the end mark on the last line. -/
def tokens (s : Scan) : List Token := s.body ++ [.eof s.lines]

/-- The reports of the faults, in order. -/
def diagnostics (s : Scan) : List Diagnostic := s.faults.map LexicalFault.diagnostic

/-- Faults are reported as they are found, before the count of tokens. -/
def log (s : Scan) : List Record :=
  s.diagnostics.map .reported ++ [.scanned s.tokens.length s.lines]

end Scan

end Lox
