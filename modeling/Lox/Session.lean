/-
Sessions: sources run one after another on one machine, so that later
sources see what earlier ones bound.

A source is scanned, parsed and executed, and each stage begins only if
nothing has been reported before it (`tokenize`, `compile`). A stage that
fails shows all that has been reported, at once and itself; what was reported
is kept until the next source is run.
-/
import Lox.Grammar.Program
import Lox.Machine.Exec
import Lox.Source.Scan
import Lox.Source.Script

namespace Lox

/-- Why a source was not run to its end. -/
inductive Failure where
  /-- The file of a script could not be read as text. -/
  | unreadable (path : String) (failure : ReadFailure)
  /-- Scanning ended with so many reports. -/
  | scanning (count : Nat)
  /-- Parsing ended with so many reports. -/
  | parsing (count : Nat)
  /-- A statement, or the flush after all of them, ended with a fault. -/
  | runtime (error : RuntimeError)
deriving DecidableEq

namespace Failure

/-- The ending of a noun of which there are so many. -/
def plural (count : Nat) : String := if count = 1 then "" else "s"

/-- What is said of a failure. -/
def message : Failure → String
  | .unreadable path failure => "Failed read source file " ++ path ++ ": " ++ failure.cause
  | .scanning count => "Scanning reported " ++ toString count ++ " error" ++ plural count
  | .parsing count => "Parsing reported " ++ toString count ++ " error" ++ plural count
  | .runtime error => "Runtime error:\n" ++ error.message

end Failure

/-- How a stage ended, with all diagnostics held after it, what it wrote to
standard error, one text to a line, and its log. -/
structure Staged (α : Type) where
  /-- What the stage came to. -/
  result : Except Failure α
  /-- The diagnostics held before it, then its own. -/
  diagnostics : List Diagnostic
  /-- The lines it wrote, in order. -/
  shown : List String
  /-- What it logged, the oldest first. -/
  log : List Record

/-- The lines a stage writes when it fails: one for each diagnostic held. -/
def report (diagnostics : List Diagnostic) : List String := diagnostics.map Diagnostic.text

/-- The tokens of a source, if no diagnostic is held after scanning it. Those
that are held are shown. -/
def tokenize (held : List Diagnostic) (source : String) : Staged (List Token) :=
  let scan := Scan.ofSource source
  let diagnostics := held ++ scan.diagnostics
  if diagnostics = [] then ⟨.ok scan.tokens, diagnostics, [], scan.log⟩
  else ⟨.error (.scanning diagnostics.length), diagnostics, report diagnostics, scan.log⟩

/-- The statements of a source, if no diagnostic is held after scanning and
parsing it. What scanning has shown is not shown again. -/
def compile (held : List Diagnostic) (source : String) : Staged (List Stmt) :=
  let scanned := tokenize held source
  match scanned.result with
  | .error failure => ⟨.error failure, scanned.diagnostics, scanned.shown, scanned.log⟩
  | .ok tokens =>
    let program := Program.ofTokens tokens
    let diagnostics := scanned.diagnostics ++ program.diagnostics
    let log := scanned.log ++ program.log
    if diagnostics = [] then ⟨.ok program.statements, diagnostics, scanned.shown, log⟩
    else
      ⟨.error (.parsing diagnostics.length), diagnostics, scanned.shown ++ report diagnostics, log⟩

/-- A machine that sources are run on, and what was reported of them. -/
structure Session (W : Type := Sink) where
  /-- What the sources run so far have left. -/
  machine : Machine W
  /-- What the latest source run had reported of it. -/
  diagnostics : List Diagnostic
  /-- All lines written to standard error so far. -/
  shown : List String

namespace Session

/-- A session that has run nothing yet and prints to this writer. -/
def start {W : Type} (sink : W) : Session W := ⟨.initial sink, [], []⟩

/-- One that prints to a sink. -/
abbrev initial (sink : Sink) : Session Sink := start sink

/-- Everything printed so far. -/
def output (s : Session Sink) : List UInt8 := s.machine.sink.stored

section

variable {W : Type} [Writer W]

/-- Runs a source. One that does not compile leaves scopes and sink alone. -/
def run (s : Session W) (source : String) : Except Failure Unit × Session W :=
  let compiled := compile [] source
  let machine := { s.machine with log := s.machine.log ++ compiled.log }
  let shown := s.shown ++ compiled.shown
  match compiled.result with
  | .error failure => (.error failure, ⟨machine, compiled.diagnostics, shown⟩)
  | .ok statements =>
    let (result, machine) := machine.interpret statements
    (result.mapError .runtime, ⟨machine, compiled.diagnostics, shown⟩)

/-- The text of a script, given what reading its file came to. -/
def readScript (path : String) (content : Except ReadFailure ByteArray) :
    Except Failure String :=
  (content >>= decodeText).mapError (.unreadable path)

/-- Runs a script. -/
def runScript (s : Session W) (path : String) (content : Except ReadFailure ByteArray) :
    Except Failure Unit × Session W :=
  match readScript path content with
  | .error failure => (.error failure, s)
  | .ok source => s.run source

end

end Session

end Lox
