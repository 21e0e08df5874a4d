/-
Unsigned decimal numerals: digits, and how many of them stand after the
point. `Decimal.chars` writes one and `Decimal.ofDigits` reads its digits;
`Decimal.magnitude` is the binary64 magnitude nearest its value.
-/
import Lox.Number.Magnitude

namespace Lox

/-- The numeral of value `digits / 10 ^ places`. -/
structure Decimal where
  digits : Nat
  places : Nat
deriving DecidableEq

namespace Decimal

/-- The numeral written with these digits before and after the point. -/
def ofDigits (whole fraction : List Char) : Decimal :=
  ⟨Nat.ofDigitChars 10 (whole ++ fraction) 0, fraction.length⟩

/-- The digits of `n`, at least `width` of them, with zeros in front. -/
def padded (width n : Nat) : List Char :=
  List.replicate (width - (Nat.toDigits 10 n).length) '0' ++ Nat.toDigits 10 n

/-- The numeral in positional form; there is a point only if digits stand
after it. -/
def chars (d : Decimal) : List Char :=
  if d.places = 0 then Nat.toDigits 10 d.digits
  else
    Nat.toDigits 10 (d.digits / Nat.pow 10 d.places) ++
      '.' :: padded d.places (d.digits % Nat.pow 10 d.places)

/-- The magnitude nearest the numeral's value. -/
def magnitude (d : Decimal) : Magnitude :=
  .nearest (d.digits * Magnitude.one) (Nat.pow 10 d.places)

end Decimal

end Lox
