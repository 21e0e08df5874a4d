/-
Other line numbers: tokens, trees and faults with a function applied to each
line they carry, and nothing else changed.
-/
import Lox.Machine.RuntimeError
import Lox.Tree.Stmt

namespace Lox

/-- The token on another line. -/
def Token.reline (f : Nat → Nat) (t : Token) : Token := { t with line := f t.line }

theorem Token.reline_kind (f : Nat → Nat) (t : Token) : (t.reline f).kind = t.kind := rfl

/-- The expression with every token of it on another line. -/
def Expr.reline (f : Nat → Nat) : Expr → Expr
  | .literal value => .literal value
  | .grouping inner => .grouping (inner.reline f)
  | .unary operator operand => .unary (operator.reline f) (operand.reline f)
  | .binary left operator right => .binary (left.reline f) (operator.reline f) (right.reline f)
  | .logical left operator right => .logical (left.reline f) (operator.reline f) (right.reline f)
  | .var name => .var (name.reline f)
  | .assign name value => .assign (name.reline f) (value.reline f)

namespace Stmt

mutual

/-- The statement with every token of it on another line. -/
def reline (f : Nat → Nat) : Stmt → Stmt
  | .expression e => .expression (e.reline f)
  | .print e => .print (e.reline f)
  | .varDecl name initializer => .varDecl (name.reline f) (initializer.map (Expr.reline f))
  | .block body => .block (relineBody f body)
  | .ifThen condition thenBranch => .ifThen (condition.reline f) (thenBranch.reline f)
  | .ifElse condition thenBranch elseBranch =>
    .ifElse (condition.reline f) (thenBranch.reline f) (elseBranch.reline f)

/-- The same of statements one after another. -/
def relineBody (f : Nat → Nat) : List Stmt → List Stmt
  | [] => []
  | s :: ss => s.reline f :: relineBody f ss

end

theorem length_relineBody (f : Nat → Nat) (ss : List Stmt) :
    (relineBody f ss).length = ss.length := by
  induction ss with
  | nil => rw [relineBody]
  | cons s ss ih => rw [relineBody, List.length_cons, List.length_cons, ih]

end Stmt

/-- The fault on another line, if it names one. -/
def RuntimeError.reline (f : Nat → Nat) : RuntimeError → RuntimeError
  | .undefinedVariable name line => .undefinedVariable name (f line)
  | .operandMustBeNumber line => .operandMustBeNumber (f line)
  | .operandsMustBeNumbers line => .operandsMustBeNumbers (f line)
  | .operandsMustBeNumbersOrStrings line => .operandsMustBeNumbersOrStrings (f line)
  | .unsupportedOperator operator line => .unsupportedOperator operator (f line)
  | .output cause => .output cause

end Lox
