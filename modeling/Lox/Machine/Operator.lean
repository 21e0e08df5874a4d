/-
What operators compute. Every kind of token may stand as an operator in a
tree built by hand; those without a rule are faults.
-/
import Lox.Token.Basic
import Lox.Value
import Lox.Machine.RuntimeError

namespace Lox.Operator

/-- The fault of an operator that has no rule. -/
def unsupported (operator : Token) : RuntimeError :=
  .unsupportedOperator operator.lexeme operator.line

/-- The value of an operator applied to one operand. -/
def unary (operator : Token) (operand : Value) : Except RuntimeError Value :=
  match operator.kind, operand with
  | .bang, v => .ok (.bool (!v.isTruthy))
  | .minus, .number n => .ok (.number n.neg)
  | .minus, _ => .error (.operandMustBeNumber operator.line)
  | _, _ => .error (unsupported operator)

/-- A value, or the fault that stands for its absence. -/
def orFault (fault : RuntimeError) : Option Value → Except RuntimeError Value
  | some v => .ok v
  | none => .error fault

/-- The value of an operator applied to two operands. -/
def binary (left : Value) (operator : Token) (right : Value) : Except RuntimeError Value :=
  let numbers := orFault (.operandsMustBeNumbers operator.line)
  match operator.kind with
  | .equalEqual => .ok (.bool (left.equals right))
  | .bangEqual => .ok (.bool (!left.equals right))
  | .plus => orFault (.operandsMustBeNumbersOrStrings operator.line) (left.plus? right)
  | .minus => numbers (left.arithmetic? Binary64.sub right)
  | .star => numbers (left.arithmetic? Binary64.mul right)
  | .slash => numbers (left.arithmetic? Binary64.div right)
  | .greater => numbers (left.compare? Binary64.gt right)
  | .greaterEqual => numbers (left.compare? Binary64.ge right)
  | .less => numbers (left.compare? Binary64.lt right)
  | .lessEqual => numbers (left.compare? Binary64.le right)
  | _ => .error (unsupported operator)

/-- Whether the left operand of a logical operator is its value: a truthy
one for `or`, a falsy one for any other. -/
def decides (operator : Token) (left : Value) : Bool :=
  if operator.kind = .kwOr then left.isTruthy else !left.isTruthy

/-! ## Faults -/

/-- The operators that have a rule for two operands. -/
def joining : List Token.Kind :=
  [.bangEqual, .equalEqual, .greater, .greaterEqual, .less, .lessEqual, .minus, .plus, .slash, .star]

theorem orFault_eq_error {fault e : RuntimeError} {v? : Option Value} :
    orFault fault v? = .error e ↔ v? = none ∧ fault = e := by
  cases v? <;> simp [orFault]

/-- An operator fails on one operand that is no number, or for want of a
rule. -/
theorem unary_eq_error {operator : Token} {v : Value} {e : RuntimeError}
    (h : unary operator v = .error e) :
    e = .operandMustBeNumber operator.line ∨
      (e = unsupported operator ∧ operator.kind ≠ .bang ∧ operator.kind ≠ .minus) := by
  unfold unary at h
  split at h
  · cases h
  · cases h
  · cases h
    exact .inl rfl
  · next hbang hminus _ =>
    cases h
    exact .inr ⟨rfl, hbang, hminus⟩

/-- It fails on two operands of the wrong sorts, or for want of a rule. -/
theorem binary_eq_error {left right : Value} {operator : Token} {e : RuntimeError}
    (h : binary left operator right = .error e) :
    e = .operandsMustBeNumbers operator.line ∨
      e = .operandsMustBeNumbersOrStrings operator.line ∨
      (e = unsupported operator ∧ operator.kind ∉ joining) := by
  unfold binary at h
  split at h
  · cases h
  · cases h
  · exact .inr (.inl (orFault_eq_error.mp h).2.symm)
  iterate 7 exact .inl (orFault_eq_error.mp h).2.symm
  · cases h
    refine .inr (.inr ⟨rfl, ?_⟩)
    simp_all [joining]

end Lox.Operator
