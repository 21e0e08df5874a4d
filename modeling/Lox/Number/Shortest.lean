/-
The text of a number: the shortest positional decimal that reads back as it.

The multiples of a power of ten are a grid. Grids are tried from coarse to
fine, and on each the two neighbours of the value; the first neighbour that
reads back is the answer, since a coarser grid means fewer digits, and if
both do, the nearer one. The grid `10^-1074` holds every finite magnitude
exactly, so the search always ends with an answer.
-/
import Lox.Number.Binary64
import Lox.Number.Decimal

namespace Lox

namespace Magnitude

/-- `count` steps of size `10 ^ step`, as a numeral. -/
def gridPoint (step : Int) (count : Nat) : Decimal :=
  ⟨count * Nat.pow 10 step.toNat, (-step).toNat⟩

/-- The magnitude, counted in steps of `10 ^ step`, is this numerator over
`gridDenominator step`. -/
def gridNumerator (m : Magnitude) (step : Int) : Nat := m.units * Nat.pow 10 (-step).toNat

/-- What `gridNumerator` is divided by on the same grid. -/
def gridDenominator (step : Int) : Nat := one * Nat.pow 10 step.toNat

/-- The neighbour of `m` on the grid `10 ^ step` that reads back as `m`; of
two, the nearer one, and at equal distance the upper one. -/
def onGrid? (m : Magnitude) (step : Int) : Option Decimal :=
  let n := m.gridNumerator step
  let d := gridDenominator step
  let lower := gridPoint step (n / d)
  let upper := gridPoint step (n / d + 1)
  if lower.magnitude = m then
    some (if upper.magnitude = m ∧ d ≤ 2 * (n % d) then upper else lower)
  else if upper.magnitude = m then some upper
  else none

/-- The grids from the one coarser than the magnitude down to `10 ^ -1074`. -/
def grids (m : Magnitude) : List Int :=
  let coarsest := (Nat.toDigits 10 (m.units / one)).length
  (List.range (coarsest + 1075)).map fun (i : Nat) => (coarsest : Int) - (i : Int)

/-- A finite magnitude written out in full. -/
def expansion (m : Magnitude) : Decimal := ⟨m.units * Nat.pow 5 1074, 1074⟩

/-- The shortest numeral that reads back as `m`. -/
def shortest (m : Magnitude) : Decimal := (m.grids.findSome? m.onGrid?).getD m.expansion

end Magnitude

namespace Binary64

/-- The number a numeral reads as. -/
def ofDecimal (d : Decimal) : Binary64 := .signed false d.magnitude

/-- The text of a magnitude. -/
def magnitudeText (m : Magnitude) : String :=
  if m.isInfinite then "inf" else String.ofList m.shortest.chars

/-- The text of a number: a minus sign for the sign bit, also of zero, and
never an exponent. -/
def text : Binary64 → String
  | .nan => "NaN"
  | .signed false m => magnitudeText m
  | .signed true m => "-" ++ magnitudeText m

end Binary64

end Lox
