import FriBound.Binary64.Exp2
import FriBound.Binary64.Log2
import FriBound.Binary64.Pow.Table

/-!
# The general power

`pow x y` is `x ^ y = exp (y * ln x)`. The logarithm is computed in two parts, its product with `y`
is formed in two parts as well, and the exponential takes both, so that the result is good to the
last digit or nearly so although `y` multiplies every error of the logarithm.

A negative base has a power only for a whole `y`, whose parity gives the sign. The other cases
outside the reach of the formula (a zero or infinite side, an exponent so small or so large that
the answer is plain) are settled first, in `powSpecial` and `pow`.
-/

namespace FriBound.Binary64

namespace LnExp

/-- `ln 2` in two parts, the first one short. -/
def ln2High : Binary64 := ofBits 0x3fe62e42fefa3800
def ln2Low : Binary64 := ofBits 0x3d2ef35793c76730

/-- The coefficients of `ln (1 + r)` from `r ^ 2` on. Each is scaled to stand before a product of
`r` with powers of `-r / 2`. -/
def l₀ : Binary64 := ofBits 0xbfe0000000000000
def l₁ : Binary64 := ofBits 0xbfe5555555555560
def l₂ : Binary64 := ofBits 0x3fe0000000000006
def l₃ : Binary64 := ofBits 0x3fe999999959554e
def l₄ : Binary64 := ofBits 0xbfe555555529a47a
def l₅ : Binary64 := ofBits 0xbff2495b9b4845e9
def l₆ : Binary64 := ofBits 0x3ff0002b8b263fc3

/-- `128 / ln 2`, and `-(ln 2) / 128` in two parts. -/
def stepsPerE : Binary64 := ofBits 0x40671547652b82fe
def stepHigh : Binary64 := ofBits 0xbf762e42fefa0000
def stepLow : Binary64 := ofBits 0xbd0cf79abc9e3b3a

/-- The coefficients of `exp r` from `r ^ 2` on. -/
def d₂ : Binary64 := ofBits 0x3fdffffffffffdbd
def d₃ : Binary64 := ofBits 0x3fc555555555543c
def d₄ : Binary64 := ofBits 0x3fa55555cf172b91
def d₅ : Binary64 := ofBits 0x3f81111167a4d017

end LnExp

open LnExp

/-! ### The logarithm in two parts -/

/-- The digits of the lower end of the cells, `0x1.6955500000000p-1`. -/
def cellsFrom : Nat := 0x16955500000000

/-- The cell of the 53 digits `q`. From twice the lower end of the cells on, they stand for half
of the value. -/
def lnCell (q : Nat) : Nat :=
  (if cellsFrom ≤ q then q - cellsFrom else q + 2 ^ 52 - cellsFrom) / 2 ^ 45

/-- The row of a cell. -/
def lnRow (cell : Nat) : Nat × Nat × Nat := logPoints.get (entry cell)

/-- `t₁ + low₁ + ln (1 + rHigh + rLow)` as a rounded value and the rest. -/
def lnSum (t₁ low₁ rHigh rLow : Binary64) : Binary64 × Binary64 :=
  let r := rHigh + rLow
  let t₂ := t₁ + r
  let low₂ := t₁ - t₂ + r
  let ar := l₀ * r
  let ar2 := r * ar
  let ar3 := r * ar2
  let arHigh := l₀ * rHigh
  let arHigh2 := rHigh * arHigh
  let high := t₂ + arHigh2
  let low₃ := rLow * (ar + arHigh)
  let low₄ := t₂ - high + arHigh2
  let p := ar3 * (l₁ + r * l₂ + ar2 * (l₃ + r * l₄ + ar2 * (l₅ + r * l₆)))
  let low := low₁ + low₂ + low₃ + low₄ + p
  let y := high + low
  (y, high - y + low)

/-- `ln (q * 2 ^ (e - 52))` for 53 digits `q`, as a rounded value and the rest. -/
def lnParts (q : Nat) (e : Int) : Binary64 × Binary64 :=
  let halved := decide (cellsFrom ≤ q)
  let (c', logc, logcTail) := lnRow (lnCell q)
  let z := (ofInt q).scale (if halved then -53 else -52)
  let k := ofInt (if halved then e + 1 else e)
  let zHigh := z.leadingNearest 32
  let zLow := z - zHigh
  lnSum (k * ln2High + ofBits logc) (k * ln2Low + ofBits logcTail)
    (zHigh * ofBits c' - ofInt 1) (zLow * ofBits c')

/-! ### The exponential of two parts -/

/-- `exp (x + rest)` with the given sign, for an `x` below `1024` in size. -/
def expParts (neg : Bool) (x rest : Binary64) : Binary64 :=
  let k := (stepsPerE * x).nearestInt 0
  let kd := ofInt k
  let r := x + kd * stepHigh + kd * stepLow
  let r := r + rest
  let r2 := r * r
  let tail := ofBits (fractionalPower k).2
  assemble neg k (tail + r + r2 * (d₂ + r * d₃) + r2 * r2 * (d₄ + r * d₅))

/-- `exp (x + rest)` with the given sign: close to one for a tiny `x`, and out of range from `1024`
on. -/
def exp (neg : Bool) (x rest : Binary64) : Binary64 :=
  if x.abs.lt (twoPow (-54)) then
    let one := ofInt 1 + x
    if neg then -one else one
  else if !x.abs.lt (ofInt 1024) then if x.isNegative then zero neg else .inf neg
  else expParts neg x rest

/-! ### The power -/

/-- Whether a number is whole, and if so whether it is odd. -/
def parity? (y : Binary64) : Option Bool :=
  y.toInt?.map fun n => n % 2 == 1

/-- `y * (high + low)`, as a value without a rounding error and the rest. -/
def mulParts (y high low : Binary64) : Binary64 × Binary64 :=
  let yHigh := y.leading 27
  let yLow := y - yHigh
  let lHigh := high.leading 27
  let lLow := high - lHigh + low
  (yHigh * lHigh, yLow * lHigh + y * lLow)

/-- `x ^ y` with the given sign, for a positive `x`, by the formula. -/
def powFormula (neg : Bool) (x : Magnitude) (y : Binary64) : Binary64 :=
  let (high, low) := lnParts (normalForm x).1 (normalForm x).2
  let (product, rest) := mulParts y high low
  exp neg product rest

/-- `x ^ y` for a positive `x` and a finite `y` that is not zero, with the given sign. An exponent
below `2 ^ (-65)` leaves the power next to one, and one from `2 ^ 63` on takes it out of range. -/
def powPositive (neg : Bool) (x : Magnitude) (y : Binary64) : Binary64 :=
  let one := ofInt 1
  let base := Binary64.fin false x
  if y.abs.lt (twoPow (-65)) then
    if base.same one then one
    else if one.lt base then one + y else one - y
  else if !y.abs.lt (twoPow 63) then
    if base.same one then one
    else if one.lt base == !y.isNegative then .inf false else zero false
  else powFormula neg x y

/-- `x ^ y` where a side is zero, infinite or NaN. Any power with exponent zero is one, and so is
any power of one. -/
def powSpecial (x y : Binary64) : Binary64 :=
  let one := ofInt 1
  if y.same (zero false) || x.same one then one
  else if x.isNaN || y.isNaN then .nan
  else if !y.isFinite then
    if x.abs.same one then one
    else if x.abs.lt one == !y.isNegative then zero false else .inf false
  else
    let square := x * x
    let power := if x.isNegative && y.parity? == some true then -square else square
    if y.isNegative then one / power else power

/-- `x ^ y`. -/
def pow (x y : Binary64) : Binary64 :=
  match x, y with
  | .fin neg mag, .fin _ mag' =>
    if mag.units = 0 || mag'.units = 0 then powSpecial x y
    else if neg then
      match y.parity? with
      | none => .nan
      | some odd => powPositive odd mag y
    else powPositive false mag y
  | _, _ => powSpecial x y

end FriBound.Binary64
