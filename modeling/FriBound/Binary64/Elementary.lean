import FriBound.Scalar
import FriBound.Binary64.Pow

/-!
# Rounded arithmetic

The sum, the product, the quotient and the square root of two binary numbers are fixed by the
format: the exact result, rounded once. The power of two, the logarithm and the general power are
not, since their last digit is up to whoever computes them. So they are a parameter of rounded
arithmetic, and `tabulated` is the choice that the library makes.

What a result about rounded arithmetic needs to know of them is stated as laws of the choice, on
special values, order, sign and size. That `tabulated` obeys these laws is proved in
`FriBound.Proofs.ElementaryLaws` and `FriBound.Proofs.Exp2Size` for the power of two, in
`FriBound.Proofs.Log2Order` for the logarithm and in `FriBound.Proofs.PowSize` for the general
power.

## Main definitions

* `Elementary.scalar` — binary numbers as a kind of number, with a choice of elementary functions
* `Elementary.tabulated` — the functions computed from the tables of this library; the instance
  uses them
-/

namespace FriBound

/-- A choice of the functions that rounding alone does not fix. -/
structure Elementary where
  exp2 : Binary64 → Binary64
  log2 : Binary64 → Binary64
  pow : Binary64 → Binary64 → Binary64

namespace Elementary

/-- Rounded arithmetic with these functions. -/
abbrev scalar (E : Elementary) : Scalar Binary64 where
  ofInt := Binary64.ofInt
  ofHalves := Binary64.ofHalves
  negInf := .inf true
  sqrt := Binary64.sqrt
  exp2 := E.exp2
  log2 := E.log2
  pow := E.pow
  larger := Binary64.larger
  lt := Binary64.lt
  same := Binary64.same
  isFinite := Binary64.isFinite
  isNaN := Binary64.isNaN

/-- The functions that are computed from tables. -/
def tabulated : Elementary := ⟨Binary64.exp2, Binary64.log2, Binary64.pow⟩

end Elementary

instance : Scalar Binary64 := Elementary.tabulated.scalar

end FriBound
