/-
Magnitudes of binary64 numbers, counted upward: the word `0` is zero, each
next word is the next representable magnitude, and the last one is infinity.
So magnitudes compare as their words do.

A finite magnitude is a natural number of units of `2^-1074`
(`Magnitude.units`), and every rounding in the library is the one of
`Magnitude.nearest`: the representable magnitude nearest a quotient, a tie
going to the even word.
-/

namespace Lox

/-- A binary64 magnitude by its place in the order of magnitudes. -/
structure Magnitude where
  word : Nat
  word_le : word ≤ 2047 * Nat.pow 2 52
deriving DecidableEq

namespace Magnitude

/-- How many units one is: a magnitude of `one` units is the number 1. -/
def one : Nat := Nat.pow 2 1074

/-- The least magnitude. -/
def zero : Magnitude := ⟨0, Nat.zero_le _⟩

/-- The greatest one, which no finite magnitude reaches. -/
def infinity : Magnitude := ⟨2047 * Nat.pow 2 52, Nat.le_refl _⟩

/-- Whether it is zero. -/
def isZero (m : Magnitude) : Bool := decide (m = zero)

/-- Whether it is infinite. -/
def isInfinite (m : Magnitude) : Bool := decide (m = infinity)

/-- The spacing around a magnitude is `2 ^ scale` units. -/
def scale (m : Magnitude) : Nat := m.word / Nat.pow 2 52 - 1

/-- A magnitude in units of `2^-1074`. Infinity counts as what would follow
the largest finite magnitude. -/
def units (m : Magnitude) : Nat := (m.word - m.scale * Nat.pow 2 52) * Nat.pow 2 m.scale

/-- The natural number nearest `n / d`; a tie goes to the even one. -/
def roundDiv (n d : Nat) : Nat :=
  if 2 * (n % d) < d ∨ (2 * (n % d) = d ∧ n / d % 2 = 0) then n / d else n / d + 1

/-- The magnitude nearest `n / d` units; a tie goes to the even word. What
rounds past the largest finite magnitude is infinity. A significand that
rounds up to the next power of two carries into the scale by itself, since
words are consecutive there. -/
def nearest (n d : Nat) : Magnitude :=
  let scale := Nat.log2 (n / d) - 52
  ⟨min (scale * Nat.pow 2 52 + roundDiv n (d * Nat.pow 2 scale)) (2047 * Nat.pow 2 52),
    Nat.min_le_right _ _⟩

end Magnitude

end Lox
