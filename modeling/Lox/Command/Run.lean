/-
What each command writes, and the status it ends with: 0 for success, 65
for a source that does not compile, 66 for one that cannot be read, 70 for
a fault while running and 1 for a wrong command line.
-/
import Lox.Command.Arguments
import Lox.Command.Prompt

namespace Lox

/-- What a command came to. -/
structure Ended where
  /-- Everything it wrote. -/
  written : Written
  /-- The status it ended with. -/
  status : UInt8
deriving DecidableEq

/-- The status a command that fails so ends with. -/
def Failure.status : Failure → UInt8
  | .unreadable _ _ => 66
  | .scanning _ | .parsing _ => 65
  | .runtime _ => 70

namespace Command

/-- The end of a command, given what it printed and the lines it has shown on
standard error. A failure is told on a line after them. -/
def finish (stdout : List UInt8) (shown : List String) : Except Failure Unit → Ended
  | .ok () => ⟨⟨stdout, Written.lines shown⟩, 0⟩
  | .error failure =>
    ⟨⟨stdout, Written.lines (shown ++ ["Failed run: " ++ failure.message])⟩, failure.status⟩

/-- Prints what a stage makes of a script. -/
def listing {α : Type} (stage : String → Staged (List α)) (text : α → String)
    (script : Except Failure String) : Ended :=
  match script with
  | .error failure => finish [] [] (.error failure)
  | .ok source =>
    let staged := stage source
    match staged.result with
    | .error failure => finish [] staged.shown (.error failure)
    | .ok items => finish (utf8 (Written.lines (items.map text))) staged.shown (.ok ())

/-- Runs a command, given the content of files and the whole input. -/
def run (content : String → Except ReadFailure ByteArray) (input : List UInt8) :
    Command → Ended
  | .file path =>
    let (result, s) := (Session.initial .unlimited).runScript path (content path)
    finish s.output s.shown result
  | .repl => ⟨Prompt.transcript (.initial .unlimited) (Prompt.lines input), 0⟩
  | .tokens path =>
    listing (tokenize []) Token.display (Session.readScript path (content path))
  | .ast path => listing (compile []) Stmt.text (Session.readScript path (content path))

/-- Runs the command a list of words asks for. -/
def runWords (content : String → Except ReadFailure ByteArray) (input : List UInt8)
    (words : List String) : Ended :=
  match ofWords words with
  | .error usage => ⟨⟨[], usage.message⟩, 1⟩
  | .ok command => run content input command

end Command

end Lox
