/-
What can go wrong while a program runs.
-/

namespace Lox

/-- A fault that ends a run, with the line it is on if it has one. -/
inductive RuntimeError where
  /-- A name that nothing around it binds is read or assigned. -/
  | undefinedVariable (name : String) (line : Nat)
  /-- What is negated is no number. -/
  | operandMustBeNumber (line : Nat)
  /-- One of two operands is no number. -/
  | operandsMustBeNumbers (line : Nat)
  /-- What is added is neither two numbers nor two texts. -/
  | operandsMustBeNumbersOrStrings (line : Nat)
  /-- A tree built by hand may carry an operator that has no rule. -/
  | unsupportedOperator (operator : String) (line : Nat)
  /-- The sink refused. -/
  | output (cause : String)
deriving DecidableEq

namespace RuntimeError

/-- A message with the line it is about below it. -/
def atLine (message : String) (line : Nat) : String :=
  message ++ "\n[line " ++ toString line ++ "]"

/-- What is said of a fault. -/
def message : RuntimeError → String
  | .undefinedVariable name line => atLine ("Undefined variable '" ++ name ++ "'.") line
  | .operandMustBeNumber line => atLine "Operand must be a number." line
  | .operandsMustBeNumbers line => atLine "Operands must be numbers." line
  | .operandsMustBeNumbersOrStrings line =>
    atLine "Operands must be two numbers or two strings." line
  | .unsupportedOperator operator line =>
    atLine ("Unsupported operator '" ++ operator ++ "'.") line
  | .output cause => "Failed write output: " ++ cause

end RuntimeError

end Lox
