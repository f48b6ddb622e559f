import FriBound.Decimal.Basic

/-!
# The fewest digits that read back

A binary number is written with as few decimal digits as still identify it. For a given number of
digits only the two neighbours of the exact value can do so; the first number of digits at which
one of them reads back is used, and of two neighbours that both read back the nearer, or the larger
of two equally near ones.
-/

namespace FriBound.Decimal

/-- The neighbour of `x` on the grid of `10 ^ drop` times its last decimal place that reads back as
`x`, if there is one. -/
def readingBack? (x : Magnitude) (drop : Nat) : Option Decimal :=
  let exact := ofMagnitude x
  let grid := 10 ^ drop
  let below : Decimal := ⟨exact.digits / grid, exact.exponent + drop⟩
  let above : Decimal := ⟨exact.digits / grid + 1, exact.exponent + drop⟩
  let readsBack (d : Decimal) : Bool := d.nearest false == .fin false x
  if readsBack below && (2 * (exact.digits % grid) < grid || !readsBack above) then some below
  else if readsBack above then some above
  else none

/-- The first hit on grids that become finer digit by digit, the exact value at last. -/
def search (x : Magnitude) : Nat → Decimal
  | 0 => ofMagnitude x
  | drop + 1 => (readingBack? x drop).getD (search x drop)

/-- The shortest decimal that reads back as `x`, and of those the nearest. -/
def shortest (x : Magnitude) : Decimal := search x (length (ofMagnitude x).digits)

/-- A number in positional notation with the fewest digits that identify it. The sign of a zero is
written, that of a NaN is not. -/
def display : Binary64 → String
  | .nan => "NaN"
  | .inf neg => if neg then "-inf" else "inf"
  | .fin neg x =>
    (if neg then "-" else "") ++ if x.units = 0 then "0" else (shortest x).positional

end FriBound.Decimal
