import FriBound.Bound

/-!
# The bound in logarithms

The binary logarithm of the bound, computed from the logarithms of its terms. Sizes enter by their
exponents, so no intermediate value leaves the range of the numbers however large the domain and the
field are. The logarithms exist for a positive `m` only.

## Main definitions

* `Params.logTerms` — the logarithms of the parts of the bound
* `Params.logBound` — the logarithm of the bound
* `Params.securityBits` — its opposite, the bits of security
-/

namespace FriBound

/-- The logarithms of the three terms. A term that vanishes has minus infinity. -/
structure LogTerms (α : Type) where
  proximity : α
  folding : α
  query : α
  deriving DecidableEq

/-- The logarithm of the sum of the terms. -/
def LogTerms.total {α : Type} [Scalar α] (t : LogTerms α) : α :=
  Scalar.log2SumExp2 [t.proximity, t.folding, t.query]

namespace Params

open Scalar

variable {α : Type} [Scalar α]

/-- `log2 α = log2 (1 + 1 / (2 * m)) - rateBits / 2`. -/
def logAlpha (p : Params α) : α :=
  log2 (ofInt 1 + ofInt 1 / (ofInt 2 * p.m)) - ofHalves 1 * ofInt p.rateBits.toInt

/-- The logarithms of the terms, for a positive `m`. Without queries the last one is zero, whatever
`α` is. -/
def logTerms (p : Params α) : LogTerms α :=
  let rateBits : α := ofInt p.rateBits.toInt
  let size : α := ofInt p.codewordSizeBits.toInt
  let field : α := ofInt p.fieldSizeBits.toInt
  { proximity := ofInt 7 * log2 (p.m + ofHalves 1) + ofInt 2 * size - ofInt 1
      + ofHalves 3 * rateBits - field
    folding := log2 (ofInt 2 * p.m + ofInt 1) + log2SumExp2 [size, ofInt 0] + ofHalves 1 * rateBits
      + log2SumExp2 (p.arityBits.map fun a => ofInt a.toNat) - field
    query := if p.numQueries = 0 then ofInt 0 else ofInt p.numQueries.toNat * p.logAlpha }

/-- The binary logarithm of the bound. -/
def logBound (p : Params α) : Except (BoundError α) α :=
  if same p.m (ofInt 0) then .error .divisionByZero
  else if !isFinite p.m || lt p.m (ofInt 0) then .error (.invalid (.noLogarithm p.m))
  else
    let total := p.logTerms.total
    if isNaN total || (!isFinite total && lt (ofInt 0) total) then .error (.overflow .logTotal)
    else .ok total

/-- The bits of security, which is how many halvings the bound is below one. -/
def securityBits (p : Params α) : Except (BoundError α) α := do
  return -(← p.logBound)

end Params

end FriBound
