import FriBound.Validation

/-!
# The bound on the soundness error

With rate `ρ`, domain size `|L| = 2 ^ codewordSizeBits`, field size `|F| = 2 ^ fieldSizeBits` and
`ℓ` queries, a cheating prover passes with a probability of at most the sum of

* the proximity error `(m + 1/2) ^ 7 * |L| ^ 2 / (2 * ρ ^ (3/2) * |F|)`,
* the folding error `(2 * m + 1) * (|L| + 1) / √ρ * ∑ i, 2 ^ arityBits[i] / |F|`,
* the query error `α ^ ℓ`, where `α = √ρ * (1 + 1 / (2 * m))`.

The evaluation names the first of these quantities that is not finite. Parameters need not be valid:
a rate above one, say, gives the number that the formula gives.

## Main definitions

* `Params.termsAt` — the parts of the bound, by the exponent of `|L| ^ 2`
* `Params.terms` — the parts of the bound
* `Params.bound` — their sum, from left to right
* `Params.boundOfValid` — the same for parameters that pass validation
-/

namespace FriBound

/-- The parts of one evaluation of the bound. -/
structure Terms (α : Type) where
  /-- The rate of the code. -/
  rate : α
  /-- The chance of a word at the proximity limit to pass one query. -/
  alpha : α
  /-- The error of the proximity gap. -/
  proximity : α
  /-- The error of all folding rounds. -/
  folding : α
  /-- The error of the queries. -/
  query : α
  deriving DecidableEq

/-- The bound itself, which may be more than one. -/
def Terms.total {α : Type} [Scalar α] (t : Terms α) : α := t.proximity + t.folding + t.query

/-- A value that has to be finite. -/
def finite {α : Type} [Scalar α] (what : Quantity) (x : α) : Except (BoundError α) α :=
  if Scalar.isFinite x then .ok x else .error (.overflow what)

namespace Params

open Scalar

variable {α : Type} [Scalar α]

/-- `√ρ * (1 + 1 / (2 * m))`. -/
def alpha (p : Params α) : Except (BoundError α) α :=
  if same p.m (ofInt 0) then .error .divisionByZero
  else if isFinite p.m then .ok (sqrt p.rate * (ofInt 1 + ofInt 1 / (ofInt 2 * p.m)))
  else .error (.invalid (.notFinite p.m))

/-- `∑ i, 2 ^ arityBits[i]`. -/
def aritySum (p : Params α) : α := sum (p.arityBits.map fun a => exp2 (ofInt a.toNat))

/-- The power of `x` to a number of queries: by repeated squaring up to `2 ^ 31 - 1`, by the general
power beyond. -/
def queryPower (x : α) (queries : UInt64) : α :=
  if queries.toNat < 2 ^ 31 then powNat x queries.toNat else pow x (ofInt queries.toNat)

/-- Each part of the bound when the square of the domain size is taken as `2 ^ squareBits`. -/
def termsAt (squareBits : Int) (p : Params α) : Except (BoundError α) (Terms α) := do
  let rate := p.rate
  let alpha ← p.alpha
  let size ← finite .codewordSize (exp2 (ofInt p.codewordSizeBits.toInt))
  let sizeSquared ← finite .codewordSizeSquared (exp2 (ofInt squareBits))
  let field ← finite .fieldSize (exp2 (ofInt p.fieldSizeBits.toInt))
  let arities ← finite .aritySum p.aritySum
  let proximity ← finite .proximity
    (powNat (p.m + ofHalves 1) 7 * sizeSquared / (ofInt 2 * pow rate (ofHalves 3) * field))
  let folding ← finite .folding
    ((ofInt 2 * p.m + ofInt 1) * (size + ofInt 1) / sqrt rate * arities / field)
  let query ← finite .query (queryPower alpha p.numQueries)
  return { rate, alpha, proximity, folding, query }

/-- Each part of the bound. -/
def terms (p : Params α) : Except (BoundError α) (Terms α) := p.termsAt p.codewordSquareBits

/-- The bound, for any parameters. -/
def bound (p : Params α) : Except (BoundError α) α := do
  finite .total (← p.terms).total

/-- The bound, for valid parameters only. -/
def boundOfValid (p : Params α) : Except (BoundError α) α := do
  p.validate
  p.bound

end Params

/-- The bounds of many instances, in their order. -/
def bounds {α : Type} [Scalar α] (batch : List (Params α)) : List (Except (BoundError α) α) :=
  batch.map Params.bound

end FriBound
