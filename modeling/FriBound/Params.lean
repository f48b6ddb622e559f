import FriBound.Scalar

/-!
# Parameters of a FRI instance

FRI proves that a committed word is close to a Reed–Solomon code. An instance is described by the
code (its rate and the size of its evaluation domain), the field, the schedule of folding rounds,
the number of queries, and `m`, which says how far into the list-decoding range the proximity goes.

Sizes are given by their binary logarithms. Those that enter the arithmetic are machine words; the
two counts `numFunctions` and `numRounds` describe the instance, are checked by validation, and
enter no formula.
-/

namespace FriBound

/-- The parameters of one instance, with `m` in a given kind of number. -/
structure Params (α : Type) where
  /-- How many committed functions are batched into the instance. -/
  numFunctions : Nat
  /-- The rate of the code is `2 ^ (-rateBits)`. -/
  rateBits : Int32
  /-- The evaluation domain has `2 ^ codewordSizeBits` elements. -/
  codewordSizeBits : Int32
  /-- The proximity parameter. Words at a distance below `1 - √rate * (1 + 1 / (2 * m))` are
  close. -/
  m : α
  /-- The round `i` folds `2 ^ arityBits[i]` points into one. -/
  arityBits : List UInt64
  /-- How many folding rounds there are meant to be. -/
  numRounds : Nat
  /-- The field has `2 ^ fieldSizeBits` elements. -/
  fieldSizeBits : Int32
  /-- How many positions the verifier queries. -/
  numQueries : UInt64
  deriving DecidableEq

namespace Params

open Scalar

variable {α : Type} [Scalar α]

/-- The rate `2 ^ (-rateBits)`. -/
def rate (p : Params α) : α := exp2 (-ofInt p.rateBits.toInt)

/-- Twice the binary logarithm of the domain size, kept within the range of that logarithm. -/
def codewordSquareBits (p : Params α) : Int :=
  max (-2 ^ 31) (min (2 ^ 31 - 1) (2 * p.codewordSizeBits.toInt))

end Params

end FriBound
