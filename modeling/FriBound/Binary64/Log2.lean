import FriBound.Binary64.Arithmetic
import FriBound.Binary64.Log2.Table

/-!
# The binary logarithm

A positive number is `2 ^ k * z` with `z` from `0.6875` to `1.375`; with the base point `c` of its
cell (`log2Points`) and `r = z / c - 1`, the logarithm is `k + log2 c + log2 (1 + r)`, and the last
part is a polynomial in `r`. Close to one the logarithm is small, and there a longer polynomial in
`x - 1` alone keeps it precise (`log2NearOne`).

Sums are kept in two parts, a rounded one and the rest, and products with the constant `1 / ln 2`
are split so that the leading part is exact.
-/

namespace FriBound.Binary64

/-- A positive magnitude in normal form: 53 digits `q`, the first of them a one, and the whole
number `e` for which the value is `q * 2 ^ (e - 52)`. -/
def normalForm (x : Magnitude) : Nat × Int :=
  let top := x.units.log2
  (if 52 ≤ top then x.units / 2 ^ (top - 52) else x.units * 2 ^ (52 - top), (top : Int) - places)

namespace Log2

/-- `1 / ln 2` in two parts, the first one short. -/
def invLn2High : Binary64 := ofBits 0x3ff7154765200000
def invLn2Low : Binary64 := ofBits 0x3de705fc2eefa200

/-- The coefficients of `log2 (1 + r)` from `r ^ 2` on, for `1 + r` close to one. -/
def b₀ : Binary64 := ofBits 0xbfe71547652b82fe
def b₁ : Binary64 := ofBits 0x3fdec709dc3a03f7
def b₂ : Binary64 := ofBits 0xbfd71547652b7c3f
def b₃ : Binary64 := ofBits 0x3fd2776c50f05be4
def b₄ : Binary64 := ofBits 0xbfcec709dd768fe5
def b₅ : Binary64 := ofBits 0x3fca61761ec4e736
def b₆ : Binary64 := ofBits 0xbfc7153fbc64a79b
def b₇ : Binary64 := ofBits 0x3fc484d154f01b4a
def b₈ : Binary64 := ofBits 0xbfc289e4a72c383c
def b₉ : Binary64 := ofBits 0x3fc0b32f285aee66

/-- The coefficients of `log2 (1 + r)` from `r ^ 2` on, within a cell. -/
def a₀ : Binary64 := ofBits 0xbfe71547652b8339
def a₁ : Binary64 := ofBits 0x3fdec709dc3a04be
def a₂ : Binary64 := ofBits 0xbfd7154764702ffb
def a₃ : Binary64 := ofBits 0x3fd2776c50034c48
def a₄ : Binary64 := ofBits 0xbfcec7b328ea92bc
def a₅ : Binary64 := ofBits 0x3fca6225e117f92e

end Log2

open Log2

/-! ### Close to one -/

/-- The ends `1 - 0x1.5b51p-5` and `1 + 0x1.6ab2p-5` of the range that counts as close to one. -/
def nearOneFrom : Binary64 := ofBits 0x3feea4af00000000
def nearOneTo : Binary64 := ofBits 0x3ff0b55900000000

/-- `log2 x` for an `x` close to one. -/
def log2NearOne (x : Binary64) : Binary64 :=
  let r := x - ofInt 1
  let rHigh := r.leading 32
  let rLow := r - rHigh
  let high := rHigh * invLn2High
  let low := rLow * invLn2High + r * invLn2Low
  let r2 := r * r
  let r4 := r2 * r2
  let p := r2 * (b₀ + r * b₁)
  let y := high + p
  let low := low + (high - y + p)
  let low := low + r4 * (b₂ + r * b₃ + r2 * (b₄ + r * b₅)
    + r4 * (b₆ + r * b₇ + r2 * (b₈ + r * b₉)))
  y + low

/-! ### By cells -/

/-- The row of a cell. -/
def log2Row (cell : Nat) : Nat × Nat × Nat × Nat := log2Points.get (Fin.ofNat 64 (cell + 40))

/-- `log2` of `q * 2 ^ (e - 52)`, for 53 digits `q`. The six digits after the first select the
cell; from `1.375` on, which is digits `88` of the seven, `z` is half of the value and the cells
start anew. -/
def log2Cell (q : Nat) (e : Int) : Binary64 :=
  let cell := q / 2 ^ 46
  let halved := decide (88 ≤ cell)
  let (c', logc, cHigh, cLow) := log2Row cell
  let z := (ofInt q).scale (if halved then -53 else -52)
  let k := ofInt (if halved then e + 1 else e)
  let r := (z - ofBits cHigh - ofBits cLow) * ofBits c'
  let rHigh := r.leading 32
  let rLow := r - rHigh
  let t₁ := rHigh * invLn2High
  let t₂ := rLow * invLn2High + r * invLn2Low
  let t₃ := k + ofBits logc
  let high := t₃ + t₁
  let low := t₃ - high + t₁ + t₂
  let r2 := r * r
  let r4 := r2 * r2
  let p := a₀ + r * a₁ + r2 * (a₂ + r * a₃) + r4 * (a₄ + r * a₅)
  low + r2 * p + high

/-- `log2 x`: `-∞` at zero, NaN below. -/
def log2 : Binary64 → Binary64
  | .nan => .nan
  | .inf neg => if neg then .nan else .inf false
  | .fin neg x =>
    if x.units = 0 then .inf true
    else if neg then .nan
    else if !(Binary64.fin false x).lt nearOneFrom && (Binary64.fin false x).lt nearOneTo then
      log2NearOne (.fin false x)
    else log2Cell (normalForm x).1 (normalForm x).2

end FriBound.Binary64
