/-
Binary64 numbers: a sign with a magnitude, or the one value that is not a
number. Zero and infinity have both signs.

Each arithmetic operation is the exact result rounded once
(`Magnitude.nearest`); comparison is of signed words, so the two zeros are
equal, and whatever is not a number is unequal and unordered to everything.
-/
import Lox.Number.Magnitude

namespace Lox

/-- A number of the language. -/
inductive Binary64 where
  | nan
  | signed (negative : Bool) (magnitude : Magnitude)
deriving DecidableEq

namespace Binary64

/-- A number with a given sign bit and word; every word past infinity's is
not a number. -/
def ofBits (bits : UInt64) : Binary64 :=
  if h : bits.toNat % Nat.pow 2 63 ≤ 2047 * Nat.pow 2 52 then
    .signed (decide (Nat.pow 2 63 ≤ bits.toNat)) ⟨bits.toNat % Nat.pow 2 63, h⟩
  else .nan

/-- The sign bit above the word; a fixed quiet pattern if not a number. -/
def toBits : Binary64 → UInt64
  | .nan => 0x7ff8000000000000
  | .signed negative m => UInt64.ofNat ((if negative then Nat.pow 2 63 else 0) + m.word)

/-- Neither infinite nor the value that is not a number. -/
def isFinite : Binary64 → Bool
  | .nan => false
  | .signed _ m => !m.isInfinite

/-! ## Arithmetic -/

/-- The value in units, with its sign. -/
def scaled (negative : Bool) (m : Magnitude) : Int :=
  if negative then -(m.units : Int) else m.units

/-- The number with the other sign, zero too. -/
def neg : Binary64 → Binary64
  | .nan => .nan
  | .signed s a => .signed (!s) a

/-- A sum that is exactly zero is negative only if both terms are. -/
def add : Binary64 → Binary64 → Binary64
  | .nan, _ | _, .nan => .nan
  | .signed s a, .signed t b =>
    if a.isInfinite then
      if b.isInfinite && s != t then .nan else .signed s a
    else if b.isInfinite then .signed t b
    else
      let sum := scaled s a + scaled t b
      if sum = 0 then .signed (s && t) .zero
      else .signed (decide (sum < 0)) (.nearest sum.natAbs 1)

/-- The sum with the other sign on the right. -/
def sub (a b : Binary64) : Binary64 := a.add b.neg

/-- Zero times infinity is not a number. -/
def mul : Binary64 → Binary64 → Binary64
  | .nan, _ | _, .nan => .nan
  | .signed s a, .signed t b =>
    if a.isInfinite || b.isInfinite then
      if a.isZero || b.isZero then .nan else .signed (s != t) .infinity
    else .signed (s != t) (.nearest (a.units * b.units) Magnitude.one)

/-- Zero by zero and infinity by infinity are not numbers; any other number
by zero is infinite. -/
def div : Binary64 → Binary64 → Binary64
  | .nan, _ | _, .nan => .nan
  | .signed s a, .signed t b =>
    if a.isInfinite then
      if b.isInfinite then .nan else .signed (s != t) .infinity
    else if b.isInfinite then .signed (s != t) .zero
    else if b.isZero then
      if a.isZero then .nan else .signed (s != t) .infinity
    else .signed (s != t) (.nearest (a.units * Magnitude.one) b.units)

/-! ## Comparison -/

/-- Where a number stands in the order; both zeros stand at `0`. -/
def rank? : Binary64 → Option Int
  | .nan => none
  | .signed negative m => some (if negative then -(m.word : Int) else m.word)

/-- Whether both are numbers and their places in the order satisfy `p`. -/
def related (p : Int → Int → Bool) (a b : Binary64) : Bool :=
  match a.rank?, b.rank? with
  | some i, some j => p i j
  | _, _ => false

/-- Whether both stand at the same place, as the two zeros do. -/
def eq : Binary64 → Binary64 → Bool := related fun i j => i == j

/-- Whether the first stands below the second. -/
def lt : Binary64 → Binary64 → Bool := related fun i j => decide (i < j)

/-- Whether the first stands below the second or at its place. -/
def le : Binary64 → Binary64 → Bool := related fun i j => decide (i ≤ j)

/-- Whether the first stands above the second. -/
def gt (a b : Binary64) : Bool := b.lt a

/-- Whether the first stands above the second or at its place. -/
def ge (a b : Binary64) : Bool := b.le a

end Binary64

end Lox
