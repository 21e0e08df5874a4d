/-
Log records: what was done, in order. The diagnostics of a run are those of
its `reported` records.
-/
import Lox.Report.Fault

namespace Lox

/-- Something that was logged. -/
inductive Record where
  /-- A source was cut into tokens, the end mark included, over some lines. -/
  | scanned (tokens lines : Nat)
  /-- A diagnostic was reported. -/
  | reported (diagnostic : Diagnostic)
  /-- A token of a literal kind denotes nothing. -/
  | notAnExpression (token : Token)
  /-- A declaration was given up. -/
  | recovering (fault : SyntaxFault)
  /-- Tokens were read as so many statements. -/
  | parsed (statements : Nat)
  /-- A block of so many statements is about to run. -/
  | enteringBlock (statements : Nat)
deriving DecidableEq

/-- How urgent a record is. -/
inductive Record.Level where
  | debug
  | warn
  | error
deriving DecidableEq

/-- How a level is written. -/
def Record.Level.name : Record.Level → String
  | .debug => "DEBUG"
  | .warn => "WARN"
  | .error => "ERROR"

namespace Record

/-- How urgent this record is. -/
def level : Record → Level
  | .reported _ => .warn
  | .notAnExpression _ => .error
  | _ => .debug

/-- The text of a record. -/
def message : Record → String
  | .scanned tokens lines =>
    "scanned " ++ toString tokens ++ " tokens over " ++ toString lines ++ " lines"
  | .reported d => d.text
  | .notAnExpression t => "Cannot convert token " ++ t.display ++ " to Expression"
  | .recovering f => "recovering from " ++ f.text
  | .parsed n => "parsed " ++ toString n ++ " statements"
  | .enteringBlock n => "entering block of " ++ toString n ++ " statements"

/-- The diagnostic a record reports, if it reports one. -/
def diagnostic? : Record → Option Diagnostic
  | .reported d => some d
  | _ => none

/-- The diagnostics reported in a log, in order. -/
def diagnostics (log : List Record) : List Diagnostic := log.filterMap diagnostic?

end Record

end Lox
