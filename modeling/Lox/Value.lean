/-
The values a program computes with: nil, truth values, numbers and texts.

Only nil and false count as false. Equality never relates values of two
sorts, and on numbers it is the numeric one, so it differs from identity:
the two zeros are equal and what is not a number differs from itself.
-/
import Lox.Number.Shortest

namespace Lox

/-- A value of a program. -/
inductive Value where
  | nil
  | bool (b : Bool)
  | number (n : Binary64)
  | text (s : String)
deriving DecidableEq

namespace Value

/-- What `print` writes for a value. -/
def display : Value → String
  | .nil => "nil"
  | .bool true => "true"
  | .bool false => "false"
  | .number n => n.text
  | .text s => s

/-- Whether a value counts as true. -/
def isTruthy : Value → Bool
  | .nil | .bool false => false
  | _ => true

/-- Equality as programs see it. -/
def equals : Value → Value → Bool
  | .nil, .nil => true
  | .bool a, .bool b => a == b
  | .number a, .number b => a.eq b
  | .text a, .text b => a == b
  | _, _ => false

/-- The sum of two numbers or two texts joined; `none` for any other pair. -/
def plus? : Value → Value → Option Value
  | .number a, .number b => some (.number (a.add b))
  | .text a, .text b => some (.text (a ++ b))
  | _, _ => none

/-- An operation on numbers, `none` unless both operands are. -/
def arithmetic? (op : Binary64 → Binary64 → Binary64) : Value → Value → Option Value
  | .number a, .number b => some (.number (op a b))
  | _, _ => none

/-- A comparison of numbers, `none` unless both operands are. -/
def compare? (op : Binary64 → Binary64 → Bool) : Value → Value → Option Value
  | .number a, .number b => some (.bool (op a b))
  | _, _ => none

end Value

end Lox
