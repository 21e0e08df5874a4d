/-
Running statements. A machine is the scopes with the frame statements run
in, the sink for printed text, which may be any writer, and the log; a run
changes the machine and ends with a value or with a fault, and what was done
before a fault stays done.

A block runs in a frame of its own, and the frame before it is current
again afterwards, fault or not (`inBlock`).
-/
import Lox.Machine.Operator
import Lox.Machine.Scope
import Lox.Machine.Sink
import Lox.Report.Record
import Lox.Tree.Stmt

namespace Lox

/-- What statements act on. -/
structure Machine (W : Type := Sink) where
  /-- All frames, those of blocks that have ended among them. -/
  scopes : Scopes
  /-- The number of the frame statements run in. -/
  current : Nat
  /-- Where printed text goes. -/
  sink : W
  /-- What was logged, the oldest first. -/
  log : List Record

/-- A machine in its global frame with nothing bound. -/
def Machine.initial {W : Type} (sink : W) : Machine W := ⟨.initial, 0, sink, []⟩

/-- A computation on a machine. -/
abbrev Run (W : Type) := EStateM RuntimeError (Machine W)

section

variable {W : Type}

namespace Run

/-- A result that needs no machine. -/
def ofExcept {α : Type} : Except RuntimeError α → Run W α
  | .ok a => pure a
  | .error e => throw e

/-- The value a name has in the current frame. -/
def lookup (name : Token) : Run W Value := fun m =>
  match m.scopes.get m.current name.lexeme name.line with
  | .ok value => .ok value m
  | .error e => .error e m

/-- Gives a name another value. -/
def assign (name : Token) (value : Value) : Run W Unit := fun m =>
  match m.scopes.assign m.current name.lexeme name.line value with
  | .ok scopes => .ok () { m with scopes }
  | .error e => .error e m

/-- Binds a name in the current frame. -/
def define (name : Token) (value : Value) : Run W Unit := fun m =>
  .ok () { m with scopes := m.scopes.define m.current name.lexeme value }

/-- Carries out an operation of the sink; its refusal is a fault. -/
def onSink (operation : W → Option String × W) : Run W Unit := fun m =>
  match operation m.sink with
  | (none, sink) => .ok () { m with sink }
  | (some cause, sink) => .error (.output cause) { m with sink }

/-- Prints a value on a line of its own. -/
def print [Writer W] (value : Value) : Run W Unit :=
  onSink fun sink => Writer.write sink (utf8 (value.display ++ "\n"))

/-- Flushes what was printed. -/
def flush [Writer W] : Run W Unit := onSink Writer.flush

/-- Runs the body of a block of `count` statements in a new frame and comes
back to the current one, fault or not. -/
def inBlock (count : Nat) (body : Run W Unit) : Run W Unit := fun m =>
  let (scopes, frame) := m.scopes.nest m.current
  match body { m with scopes, current := frame, log := m.log ++ [.enteringBlock count] } with
  | .ok () m' => .ok () { m' with current := m.current }
  | .error e m' => .error e { m' with current := m.current }

end Run

/-- The value of an expression. Operands are evaluated from left to right. -/
def Expr.eval : Expr → Run W Value
  | .literal value => pure value
  | .grouping inner => inner.eval
  | .unary operator operand => do
    let v ← operand.eval
    Run.ofExcept (Operator.unary operator v)
  | .binary left operator right => do
    let a ← left.eval
    let b ← right.eval
    Run.ofExcept (Operator.binary a operator b)
  | .logical left operator right => do
    let a ← left.eval
    if Operator.decides operator a then pure a else right.eval
  | .var name => Run.lookup name
  | .assign name value => do
    let v ← value.eval
    Run.assign name v
    pure v

variable [Writer W]

mutual

/-- Executes a statement. -/
def Stmt.exec : Stmt → Run W Unit
  | .expression e => do
    let _ ← e.eval
    pure ()
  | .print e => do
    let v ← e.eval
    Run.print v
  | .varDecl name none => Run.define name .nil
  | .varDecl name (some e) => do
    let v ← e.eval
    Run.define name v
  | .block body => Run.inBlock body.length (Stmt.execAll body)
  | .ifThen condition thenBranch => do
    let v ← condition.eval
    if v.isTruthy then thenBranch.exec else pure ()
  | .ifElse condition thenBranch elseBranch => do
    let v ← condition.eval
    if v.isTruthy then thenBranch.exec else elseBranch.exec

/-- Executes statements in order up to the first fault. -/
def Stmt.execAll : List Stmt → Run W Unit
  | [] => pure ()
  | s :: ss => do
    s.exec
    Stmt.execAll ss

end

/-- Executes statements in order and then flushes what was printed. -/
def Stmt.interpret (statements : List Stmt) : Run W Unit := do
  Stmt.execAll statements
  Run.flush

/-- The machine after statements, and how they ended. -/
def Machine.interpret (m : Machine W) (statements : List Stmt) :
    Except RuntimeError Unit × Machine W :=
  match Stmt.interpret statements m with
  | .ok () m' => (.ok (), m')
  | .error e m' => (.error e, m')

end

end Lox
