import FriBound.Binary64.Arithmetic
import FriBound.Binary64.Exp2.Table

/-!
# The power of two

`exp2 x` is `2 ^ x`, exact when `x` is a whole number. Otherwise `x = k / 128 + r` with `k` the
whole number nearest to `128 * x`, and `2 ^ x` is `2 ^ (k / 128)`, a table entry, times `2 ^ r`, a
polynomial in the small rest `r`.

The product is put together by `assemble`, which the general power shares. Where the result has no
leading one, adding the two parts would round them once to 53 digits and a second time to the
coarser grid there; `assemble` carries what the first rounding drops along to the second.
-/

namespace FriBound.Binary64

/-- One with the given sign. -/
def signedOne (neg : Bool) : Binary64 := if neg then ofInt (-1) else ofInt 1

/-- The place of an entry in a table of 128. -/
def entry (n : Nat) : Fin 128 := Fin.ofNat 128 n

/-- The entry of the table for `2 ^ (k / 128)`, up to a whole power of two. -/
def fractionalPower (k : Int) : Nat × Nat :=
  fractionalPowers.get (entry (k % 128).toNat)

/-- `s + d` for a small `d`, divided by `2 ^ 1022`, in one rounding. Below one, the sum is taken
next to `one`, which has the sign of `s`, so that it falls on the grid of the numbers without a
leading one; `rest` is what the sum `y` of `s` and `d` lost. -/
def settle (neg : Bool) (s d : Binary64) : Binary64 :=
  let y := s + d
  if y.abs.lt (ofInt 1) then
    let one := signedOne neg
    let rest := s - y + d
    let high := one + y
    let low := one - high + y + rest
    let z := high + low - one
    if z.same (zero false) then zero neg else z.scale (-1022)
  else y.scale (-1022)

/-- `2 ^ (k / 128) * (1 + t)` with the given sign, for a small `t`. -/
def assemble (neg : Bool) (k : Int) (t : Binary64) : Binary64 :=
  let s := signedOne neg * ofBits (fractionalPower k).1
  if k < 0 then
    let s := s.scale (k / 128 + 1022)
    settle neg s (s * t)
  else (s + s * t).scale (k / 128)

/-! ### The fractional part of the exponent -/

/-- `ln 2` and the further coefficients of `2 ^ r - 1`, by rising power of `r`. -/
private def c₁ : Binary64 := ofBits 0x3fe62e42fefa39ef
private def c₂ : Binary64 := ofBits 0x3fcebfbdff82c424
private def c₃ : Binary64 := ofBits 0x3fac6b08d70cf4b5
private def c₄ : Binary64 := ofBits 0x3f83b2abd24650cc
private def c₅ : Binary64 := ofBits 0x3f55d7e09b4e3a84

/-- `2 ^ x` through the table, for `x` between `-1075` and `1024`. -/
def exp2Fraction (x : Binary64) : Binary64 :=
  let k := x.nearestInt 7
  let r := x - (ofInt k).scale (-7)
  let r2 := r * r
  let tail := ofBits (fractionalPower k).2
  assemble false k (tail + r * c₁ + r2 * (c₂ + r * c₃) + r2 * r2 * (c₄ + r * c₅))

/-- `2 ^ x`. -/
def exp2 (x : Binary64) : Binary64 :=
  if x.isNaN then .nan
  else if !x.lt (ofInt 1024) then .inf false
  else if !(ofInt (-1075)).lt x then zero false
  else match x.toInt? with
    | some n => twoPow n
    | none => if x.abs.lt (twoPow (-54)) then ofInt 1 + x else exp2Fraction x

end FriBound.Binary64
